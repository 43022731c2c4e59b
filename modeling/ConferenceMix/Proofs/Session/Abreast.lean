import ConferenceMix.Proofs.Session.Moves
import ConferenceMix.Proofs.Session.Twins

/-! # Mixers that keep pace

Two mixers are `Abreast` when they run on the same timeline, at the same interval and by the same
clock, or have both stopped, and have the same sources with sinks that stop them in the same writes;
whatever else is kept for the room and for the sources may differ. A `Hospitable` kind of mixing
welcomes everyone, so that who comes and goes does not depend on what is kept. Its mixers stay
abreast in the same moves (`Mixer.Abreast.move`), and also when a request is made to only one of
them (`Mixer.Abreast.act_ask`); so requests can be left out of the moves of one of them
(`Mixer.Abreast.follow_filter`). -/

namespace ConferenceMix

/-- Whatever is kept for a source may differ. -/
abbrev Anyhow {τ : Type} : SourceId → τ → τ → Prop := fun _ _ _ => True

/-- With something for every source, the lists match. -/
theorem matched_zip {τ : Type} {ids ids' : List SourceId} (h : ids = ids') {xs ys : List τ}
    (hx : xs.length = ids.length) (hy : ys.length = ids'.length) :
    Matched Anyhow (ids.zip xs) (ids'.zip ys) := by
  subst h
  induction ids generalizing xs ys with
  | nil => exact .nil
  | cons id ids ih =>
      cases xs with
      | nil => cases hx
      | cons x xs =>
          cases ys with
          | nil => cases hy
          | cons y ys => exact .cons ⟨rfl, trivial⟩ (ih (Nat.succ.inj hx) (Nat.succ.inj hy))

variable {κ σ π α β : Type}

theorem Roster.Twins.reseat_anyhow {r r' : Roster σ π} (h : r.Twins Anyhow r')
    {seats seats' : List σ} (hl : seats.length = r.ids.length) (hl' : seats'.length = r'.ids.length) :
    (r.reseat seats).Twins Anyhow (r'.reseat seats') :=
  h.reseat (matched_zip h.ids hl hl')

/-- A kind of mixing that welcomes everyone. -/
def Hospitable (κ : Type) {σ π α β : Type} [Mixing κ σ π α β] : Prop :=
  ∀ (room : κ) (seats : List σ), ∃ admission, Mixing.welcome room seats = .ok admission

namespace Mixer

variable [Mixing κ σ π α β]

/-- The mixers have the same sources, with sinks that stop them in the same writes, and the same
timeline, and run or have stopped both. -/
structure Abreast (m m' : Mixer κ σ π) : Prop where
  roster : m.roster.Twins Anyhow m'.roster
  clock : m.clock = m'.clock
  timeline : m.timeline = m'.timeline
  running : m.running = m'.running
  interval : Mixing.interval m.room = Mixing.interval m'.room

variable {m m' : Mixer κ σ π}

theorem length_ids (m : Mixer κ σ π) : m.roster.ids.length = m.roster.seated.length := by
  simp [Roster.ids, Roster.seated]

namespace Abreast

variable [SteadyMixing κ]

/-! ### Actions -/

theorem join (h : m.Abreast m') (hw : Hospitable κ) {sink : Sink π}
    (hs : sink.Impartial) : (m.join (β := β) sink).mixer.Abreast (m'.join (β := β) sink).mixer := by
  obtain ⟨admission, ha⟩ := hw m.room m.roster.seats
  obtain ⟨admission', ha'⟩ := hw m'.room m'.roster.seats
  unfold Mixer.join
  rw [ha, ha', ← h.running]
  cases m.running with
  | false => exact h
  | true =>
      refine ⟨h.roster.enrol hs fun _ => trivial, h.clock, h.timeline, rfl, ?_⟩
      exact (SteadyMixing.interval_welcome _ _ _ ha).trans
        (h.interval.trans (SteadyMixing.interval_welcome _ _ _ ha').symm)

theorem leave (h : m.Abreast m') (id : SourceId) :
    (m.leave (β := β) id).mixer.Abreast (m'.leave (β := β) id).mixer := by
  have hids := h.roster.ids
  rcases m.leave_cases (β := β) id with ⟨hn, he⟩ | ⟨hm, he⟩
  · rcases m'.leave_cases (β := β) id with ⟨_, he'⟩ | ⟨hm', _⟩
    · rw [he, he']
      exact h
    · exact absurd (hids ▸ hm') hn
  · rcases m'.leave_cases (β := β) id with ⟨hn', _⟩ | ⟨_, he'⟩
    · exact absurd (hids ▸ hm) hn'
    · rw [he, he']
      refine ⟨h.roster.strike id, h.clock, h.timeline, h.running, ?_⟩
      exact (SteadyMixing.interval_depart _).trans
        (h.interval.trans (SteadyMixing.interval_depart _).symm)

/-- A request may be made to one of them only. -/
theorem ask (h : m.Abreast m') (r : α) :
    (m.ask (β := β) r).mixer.Abreast m' := by
  have hseats := LawfulMixing.length_seats_serve m.room m.clock m.roster.seated r
  have hroster := h.roster.reseat_anyhow (hseats.trans m.length_ids.symm)
    (show m'.roster.seats.length = m'.roster.ids.length by simp [Roster.seats, Roster.ids])
  rw [m'.roster.reseat_seats] at hroster
  exact ⟨hroster, h.clock, h.timeline, h.running,
    (SteadyMixing.interval_serve _ _ _ _).trans h.interval⟩

/-- A request may be made to both of them. -/
theorem ask_both (h : m.Abreast m') (r : α) :
    (m.ask (β := β) r).mixer.Abreast (m'.ask (β := β) r).mixer := by
  have hseats := LawfulMixing.length_seats_serve m.room m.clock m.roster.seated r
  have hseats' := LawfulMixing.length_seats_serve m'.room m'.clock m'.roster.seated r
  refine ⟨h.roster.reseat_anyhow (hseats.trans m.length_ids.symm)
    (hseats'.trans m'.length_ids.symm), h.clock, h.timeline, h.running, ?_⟩
  exact (SteadyMixing.interval_serve _ _ _ _).trans
    (h.interval.trans (SteadyMixing.interval_serve _ _ _ _).symm)

theorem act (h : m.Abreast m') (hw : Hospitable κ)
    {a : Action π α} (ha : ∀ sink, a = .join sink → sink.Impartial) :
    (m.act a).mixer.Abreast (m'.act a).mixer := by
  cases a with
  | join sink => exact h.join hw (ha sink rfl)
  | leave id => exact h.leave id
  | advance t => exact ⟨h.roster, congrArg (· + t) h.clock, h.timeline, h.running, h.interval⟩
  | stop => exact ⟨h.roster, h.clock, h.timeline, rfl, h.interval⟩
  | receive id =>
      exact ⟨h.roster.modifySink id fun _ _ hs => hs.receive, h.clock, h.timeline, h.running,
        h.interval⟩
  | hangUp id =>
      exact ⟨h.roster.modifySink id fun _ _ hs => hs.close, h.clock, h.timeline, h.running,
        h.interval⟩
  | ask r => exact h.ask_both r

/-! ### Looks at the clock -/

theorem round (h : m.Abreast m') (t : Timeline) : (m.round t).1.Abreast (m'.round t).1 := by
  have hlength : ∀ m : Mixer κ σ π,
      (Mixing.mix m.room (t.due - t.start) m.roster.seated).seats.length = m.roster.ids.length ∧
      (Mixing.mix m.room (t.due - t.start) m.roster.seated).payloads.length =
        (m.roster.reseat (Mixing.mix m.room (t.due - t.start) m.roster.seated).seats).ids.length := by
    intro m
    rw [Roster.ids_reseat, length_ids]
    exact ⟨LawfulMixing.length_seats_mix _ _ _, LawfulMixing.length_payloads_mix _ _ _⟩
  have hseated := h.roster.reseat_anyhow (hlength m).1 (hlength m').1
  obtain ⟨hroster, hoffers⟩ :=
    hseated.deliver (matched_zip hseated.ids (hlength m).2 (hlength m').2)
  have hstops := any_stops_eq hoffers
  refine ⟨hroster, h.clock, ?_, ?_, ?_⟩
  · show some (Timeline.mk _ (_ + Mixing.interval m.room)) = some ⟨_, _ + Mixing.interval m'.room⟩
    rw [h.interval]
  · unfold Mixer.round
    rw [← h.running]
    exact congrArg (m.running && !·) hstops
  · rw [interval_round, interval_round]
    exact h.interval

theorem poll (h : m.Abreast m') : m.poll.1.Abreast m'.poll.1 := by
  have htimed : ∀ timeline, Abreast { m with timeline } { m' with timeline } := fun _ =>
    ⟨h.roster, h.clock, rfl, h.running, h.interval⟩
  have hschedule : m.schedule = m'.schedule := schedule_congr h.roster.ids h.timeline h.clock
  cases hr : m.running with
  | false =>
      rw [poll_of_not_running hr, poll_of_not_running (h.running ▸ hr)]
      exact h
  | true =>
      have hr' : m'.running = true := h.running ▸ hr
      cases hs : m.schedule with
      | none =>
          rw [poll_of_unscheduled hr hs, poll_of_unscheduled hr' (hschedule ▸ hs)]
          exact htimed none
      | some t =>
          by_cases hd : m.clock < t.due
          · rw [poll_of_early hr hs hd, poll_of_early hr' (hschedule ▸ hs) (h.clock ▸ hd)]
            exact htimed (some t)
          · rw [poll_of_due hr hs hd, poll_of_due hr' (hschedule ▸ hs) (h.clock ▸ hd)]
            exact (htimed (some t)).round t

/-! ### Moves -/

theorem move (h : m.Abreast m') (hw : Hospitable κ) {v : Move π α}
    (hv : ∀ sink, v = .act (.join sink) → sink.Impartial) : (m.move v).1.Abreast (m'.move v).1 := by
  cases v with
  | act a => exact h.act hw fun sink he => hv sink (congrArg Move.act he)
  | look => exact h.poll

/-- **Requests can be left out.** A mixer stays abreast of another that has been asked less, as long as
no sink stops it because of what it is offered. -/
theorem follow_filter (h : m.Abreast m') (hw : Hospitable κ) {keep : Action π α → Bool}
    (hkeep : ∀ a, keep a = false → ∃ r, a = .ask r) {vs : List (Move π α)}
    (hv : ∀ sink, .act (.join sink) ∈ vs → sink.Impartial) :
    (m.follow vs).1.Abreast (m'.follow (vs.filter (Move.stays keep))).1 := by
  induction vs generalizing m m' with
  | nil => exact h
  | cons v vs ih =>
      have hrest : ∀ sink, .act (.join sink) ∈ vs → sink.Impartial := fun sink hm =>
        hv sink (List.mem_cons_of_mem v hm)
      have hmove := h.move hw fun sink he => hv sink (he ▸ List.mem_cons_self ..)
      cases v with
      | look => exact ih hmove hrest
      | act a =>
          cases hk : keep a with
          | true =>
              rw [List.filter_cons_of_pos (by exact hk)]
              exact ih hmove hrest
          | false =>
              obtain ⟨r, rfl⟩ := hkeep a hk
              rw [List.filter_cons_of_neg (by simpa [Move.stays] using hk)]
              exact ih (h.ask r) hrest

end Abreast

end Mixer

end ConferenceMix
