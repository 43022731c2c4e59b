import ConferenceMix.Proofs.Session.History

/-! # What a mixer reports and counts

A kind of mixing that is `ReportingMixing` reports a source that ran short in rounds only, and counts
it once for each report. `Mixer.underruns_run` and `Mixer.counts_run` conclude that all such reports
of a run are those of its rounds, and that the mixer has counted them. -/

namespace ConferenceMix

/-- The event reports that a queue ran short. -/
def Event.isUnderrun : Event → Bool
  | underrun _ => true
  | _ => false

/-- A kind of mixing that reports underruns in rounds only and counts them as they are reported. -/
class ReportingMixing (κ : Type) {σ π α β : outParam Type} [Mixing κ σ π α β] : Prop where
  underruns_mix : ∀ (room : κ) (stamp : Nanos) (seated : List (SourceId × σ)),
    (Mixing.mix room stamp seated).underruns =
      ((Mixing.mix room stamp seated).events.filter Event.isUnderrun).length
  silent_welcome : ∀ {room : κ} {seats : List σ} {admission : Admission κ σ},
    Mixing.welcome room seats = .ok admission → admission.events.filter Event.isUnderrun = []
  silent_serve : ∀ (room : κ) (now : Nanos) (seated : List (SourceId × σ)) (request : α),
    (Mixing.serve room now seated request).events.filter Event.isUnderrun = []

/-- A sink that does not take a payload is not reported as an underrun. -/
theorem filter_faults {π : Type} (os : List (Offer π)) :
    (os.filterMap Offer.event?).filter Event.isUnderrun = [] := by
  refine List.filter_eq_nil_iff.mpr fun e he => ?_
  obtain ⟨o, _, hevent⟩ := List.mem_filterMap.mp he
  obtain ⟨fault, _, rfl⟩ := Option.map_eq_some_iff.mp hevent
  exact Bool.false_ne_true

namespace Mixer

variable {κ σ π α β : Type} [Mixing κ σ π α β]

theorem filter_events_round (m : Mixer κ σ π) (t : Timeline) :
    (m.round t).2.events.filter Event.isUnderrun =
      (Mixing.mix m.room (t.due - t.start) m.roster.seated).events.filter Event.isUnderrun := by
  show ((Mixing.mix m.room (t.due - t.start) m.roster.seated).events ++
    (m.round t).2.offers.filterMap Offer.event?).filter Event.isUnderrun = _
  rw [List.filter_append, filter_faults, List.append_nil]

/-! ### The reports of a run -/

theorem events_rounds (asked : List (Asked α)) (n : Nat) (m : Mixer κ σ π) :
    (rounds n m).2.events = (ticks asked n m).flatMap fun t => t.log.events := by
  induction n generalizing m with
  | zero => rfl
  | succ n ih =>
      rcases rounds_succ_cases asked n m with ⟨ht, hr⟩ | ⟨t, ht, hr⟩
      · rw [ht, hr]
        rfl
      · rw [ht, hr, List.flatMap_cons, ← ih (m.round t).1]
        rfl

theorem events_settle (asked : List (Asked α)) (m : Mixer κ σ π) :
    m.settle.2.events = (m.dueTicks asked).flatMap fun t => t.log.events := by
  rcases settle_cases asked m with ⟨ht, _, hl⟩ | ⟨t, ht, hs⟩
  · rw [ht, hl]
    rfl
  · rw [ht, hs]
    exact events_rounds asked _ _

variable [ReportingMixing κ]

/-- No action reports or counts an underrun by itself. -/
theorem act_silent (m : Mixer κ σ π) (a : Action π α) :
    (m.act a).events.filter Event.isUnderrun = [] ∧
      (m.act a).mixer.tally.underruns = m.tally.underruns :=
  ⟨filter_events_act (fun _ => rfl) (fun _ => rfl) ReportingMixing.silent_welcome
    ReportingMixing.silent_serve m a, (m.tally_act a).2.1⟩

theorem underruns_runFrom (asked : List (Asked α)) (m : Mixer κ σ π) (as : List (Action π α)) :
    (m.run as).2.events.filter Event.isUnderrun =
      (m.historyFrom asked as).flatMap fun t => t.log.events.filter Event.isUnderrun := by
  induction as generalizing asked m with
  | nil => rfl
  | cons a as ih =>
      have hstep : (m.step a).log.events.filter Event.isUnderrun =
          ((m.act a).mixer.dueTicks (asked ++ m.asking a)).flatMap fun t =>
            t.log.events.filter Event.isUnderrun := by
        show ((m.act a).events ++ (m.act a).mixer.settle.2.events).filter _ = _
        rw [List.filter_append, (m.act_silent a).1, List.nil_append,
          events_settle (asked ++ m.asking a), List.filter_flatMap]
      show ((m.step a).log.events ++ ((m.step a).mixer.run as).2.events).filter _ = _
      rw [List.filter_append, hstep, ih (asked ++ m.asking a), historyFrom, List.flatMap_append]

/-- The underruns that a run reports are those that its rounds report. -/
theorem underruns_run (m : Mixer κ σ π) (as : List (Action π α)) :
    (m.run as).2.events.filter Event.isUnderrun =
      (m.history as).flatMap fun t => t.log.events.filter Event.isUnderrun :=
  underruns_runFrom [] m as

/-! ### The count of a run -/

/-- From one state to the other, as many underruns have been counted as the log reports. -/
def Counts (m m' : Mixer κ σ π) (l : Log π) : Prop :=
  m'.tally.underruns = m.tally.underruns + (l.events.filter Event.isUnderrun).length

omit [Mixing κ σ π α β] [ReportingMixing κ] in
theorem Counts.trans {m m' m'' : Mixer κ σ π} {k l : Log π} (h : m.Counts m' k)
    (h' : m'.Counts m'' l) : m.Counts m'' (k ++ l) := by
  unfold Counts at *
  rw [Log.events_append, List.filter_append, List.length_append, h', h, Nat.add_assoc]

theorem counts_round (m : Mixer κ σ π) (t : Timeline) : m.Counts (m.round t).1 (m.round t).2 := by
  unfold Counts
  rw [filter_events_round, ← ReportingMixing.underruns_mix]
  rfl

theorem counts_rounds (n : Nat) (m : Mixer κ σ π) : m.Counts (rounds n m).1 (rounds n m).2 := by
  induction n generalizing m with
  | zero => rfl
  | succ n ih =>
      rcases rounds_succ_cases [] n m with ⟨_, hr⟩ | ⟨t, _, hr⟩
      · rw [hr]
        rfl
      · rw [hr]
        exact (m.counts_round t).trans (ih (m.round t).1)

theorem counts_settle (m : Mixer κ σ π) : m.Counts m.settle.1 m.settle.2 := by
  unfold settle
  split
  · split
    · rfl
    · rename_i t _
      exact counts_rounds (m.dueRounds t) { m with timeline := some t }
  · rfl

theorem counts_step (m : Mixer κ σ π) (a : Action π α) : m.Counts (m.step a).mixer (m.step a).log := by
  obtain ⟨hevents, htally⟩ := m.act_silent a
  have hsettle := (m.act a).mixer.counts_settle
  unfold Counts at *
  show (m.act a).mixer.settle.1.tally.underruns = m.tally.underruns +
    (((m.act a).events ++ (m.act a).mixer.settle.2.events).filter Event.isUnderrun).length
  rw [hsettle, htally, List.filter_append, hevents, List.nil_append]

/-- A mixer has counted all underruns that a run reports. -/
theorem counts_run (m : Mixer κ σ π) (as : List (Action π α)) :
    m.Counts (m.run as).1 (m.run as).2 := by
  induction as generalizing m with
  | nil => rfl
  | cons a as ih => exact (m.counts_step a).trans (ih (m.step a).mixer)

end Mixer

end ConferenceMix
