import ConferenceMix.Proofs.Session.Moves

/-! # Time that goes by in parts

Rounds are carried out when the mixer looks at its clock, and a late look has to catch up on all that
are due. What these rounds do does not depend on the time of the look (`Mixer.rounds_atTime`), and the
rounds that are due by a later time are those that are due by an earlier one and those that are due
after them (`Mixer.dueRounds_atTime`). So it makes no difference whether the mixer settles once or has
settled before (`Mixer.settle_atTime`), unless its timeline starts at the look itself, which is when a
source waits for the first one (`Mixer.Begun`). `Mixer.dividesTime_create` concludes that the clock
may be moved in parts, whatever has been asked before. -/

namespace ConferenceMix

namespace Mixer

variable {κ σ π α β : Type} [Mixing κ σ π α β] {m : Mixer κ σ π}

/-! ### Rounds at another time -/

/-- The mixer when its clock stands at `now`. -/
def atTime (m : Mixer κ σ π) (now : Nanos) : Mixer κ σ π := { m with clock := now }

/-- Rounds do not look at the clock. -/
theorem rounds_atTime (n : Nat) (m : Mixer κ σ π) (now : Nanos) :
    rounds n (m.atTime now) = ((rounds n m).1.atTime now, (rounds n m).2) := by
  induction n generalizing m with
  | zero => rfl
  | succ n ih =>
      cases hr : m.running with
      | false => rw [rounds_of_idle _ (.inl hr), rounds_of_idle (m := m.atTime now) _ (.inl hr)]
      | true =>
          cases ht : m.timeline with
          | none => rw [rounds_of_idle _ (.inr ht), rounds_of_idle (m := m.atTime now) _ (.inr ht)]
          | some t =>
              have hround : (m.atTime now).round t = ((m.round t).1.atTime now, (m.round t).2) := rfl
              rw [rounds_succ n hr ht, rounds_succ n (m := m.atTime now) hr ht, hround, ih]

/-- A mixer that has not been stopped by its rounds has carried out all of them. -/
theorem timeline_rounds [SteadyMixing κ] {t : Timeline} (ht : m.timeline = some t) (n : Nat)
    (hr : (rounds n m).1.running = true) :
    (rounds n m).1.timeline = some ⟨t.start, t.due + n * Mixing.interval m.room⟩ := by
  induction n generalizing m t with
  | zero =>
      rw [Nat.zero_mul, Nat.add_zero]
      exact ht
  | succ n ih =>
      by_cases hm : m.running = true
      · rw [rounds_succ n hm ht] at hr ⊢
        have hrest := ih (m := (m.round t).1) rfl hr
        rw [interval_round, Nat.add_assoc] at hrest
        rw [Nat.succ_mul, Nat.add_comm (n * _)]
        exact hrest
      · rw [rounds_of_idle _ (.inl (by simpa using hm))] at hr
        exact absurd hr hm

/-- The rounds that are due later are those that are due now and those that are due after them. -/
theorem dueRounds_atTime (hpos : 0 < Mixing.interval m.room) (t : Timeline) {now later : Nanos}
    (h : now ≤ later) :
    (m.atTime later).dueRounds t = (m.atTime now).dueRounds t + (m.atTime later).dueRounds
      ⟨t.start, t.due + (m.atTime now).dueRounds t * Mixing.interval m.room⟩ := by
  have hdue : ∀ (x : Nanos) (t : Timeline), (m.atTime x).dueRounds t =
      if x < t.due then 0 else (x - t.due) / Mixing.interval m.room + 1 := fun _ _ => rfl
  rw [hdue, hdue, hdue]
  by_cases hd : now < t.due
  · simp [hd]
  · have hle : (now - t.due) / Mixing.interval m.room + 1 ≤
        (later - t.due) / Mixing.interval m.room + 1 :=
      Nat.succ_le_succ (Nat.div_le_div_right (Nat.sub_le_sub_right h t.due))
    have hlater : ¬ later < t.due := fun hl => hd (Nat.lt_of_le_of_lt h hl)
    rw [if_neg hd, if_neg hlater]
    exact (add_dueCount hpos (Nat.le_of_not_lt hlater) hle).symm

/-! ### Mixers with a timeline -/

/-- The timeline of a running mixer with sources has started: no source waits for the first look at
the clock. -/
def Begun (m : Mixer κ σ π) : Prop := m.running = true → m.roster.ids ≠ [] → m.timeline ≠ none

theorem begun_rounds (n : Nat) (h : m.timeline ≠ none) : (rounds n m).1.timeline ≠ none := by
  induction n generalizing m with
  | zero => exact h
  | succ n ih =>
      rcases rounds_succ_cases [] n m with ⟨_, hr⟩ | ⟨t, _, hr⟩
      · rw [hr]
        exact h
      · rw [hr]
        exact ih (m := (m.round t).1) nofun

/-- The timeline has started when the mixer has looked at its clock. -/
theorem begun_settle (m : Mixer κ σ π) : m.settle.1.Begun := by
  intro hr ho
  rw [ids_settle] at ho
  by_cases hm : m.running = true
  · rw [settle_of_schedule hm (schedule_of_occupied ho)]
    exact begun_rounds _ nofun
  · rw [settle_of_not_running (by simpa using hm)] at hr
    exact absurd hr hm

theorem begun_run (h : m.Begun) (as : List (Action π α)) : (m.run as).1.Begun := by
  induction as generalizing m with
  | nil => exact h
  | cons a as ih => exact ih (begun_settle _)

/-! ### Settling in parts -/

/-- A mixer with sources and a timeline carries out the rounds that are due on it. -/
theorem settle_of_timeline (hr : m.running = true) (ho : m.roster.ids ≠ []) {t : Timeline}
    (ht : m.timeline = some t) : m.settle = rounds (m.dueRounds t) m := by
  have hm : { m with timeline := some t } = m := by rw [← ht]
  rw [settle_of_schedule hr (schedule_of_timeline ho ht), hm]

variable [SteadyMixing κ]

/-- What is left to settle after some rounds are those that have become due on the timeline behind
them. -/
theorem settle_rounds (ho : m.roster.ids ≠ []) {t : Timeline} (ht : m.timeline = some t) (k : Nat) :
    (rounds k m).1.settle =
      rounds (m.dueRounds ⟨t.start, t.due + k * Mixing.interval m.room⟩) (rounds k m).1 := by
  cases hr : (rounds k m).1.running with
  | false => rw [settle_of_not_running hr, rounds_of_idle _ (.inl hr)]
  | true =>
      have hids : (rounds k m).1.roster.ids = m.roster.ids :=
        rounds_preserve (g := fun m => m.roster.ids) ids_round k m
      have hclock : (rounds k m).1.clock = m.clock :=
        rounds_preserve (g := Mixer.clock) (fun _ _ => rfl) k m
      have hinterval : Mixing.interval (rounds k m).1.room = Mixing.interval m.room :=
        rounds_preserve (g := fun m => Mixing.interval m.room) interval_round k m
      rw [settle_of_timeline hr (by rw [hids]; exact ho) (timeline_rounds ht k hr), dueRounds,
        hclock, hinterval]
      rfl

/-- Settling by a later time is settling by an earlier one and then settling what is left. -/
theorem settle_atTime (hpos : 0 < Mixing.interval m.room) (hb : m.Begun) {now later : Nanos}
    (h : now ≤ later) :
    (m.atTime later).settle = (((m.atTime now).settle.1.atTime later).settle.1,
      (m.atTime now).settle.2 ++ ((m.atTime now).settle.1.atTime later).settle.2) := by
  cases hr : m.running with
  | false =>
      have hidle : ∀ t, (m.atTime t).settle = (m.atTime t, .empty) := fun _ =>
        settle_of_not_running hr
      rw [hidle, hidle, Log.empty_append]
      exact (hidle later).symm
  | true =>
      by_cases ho : m.roster.ids = []
      · let vacant : Mixer κ σ π := { m with timeline := none }
        have hvacant : ∀ t, (m.atTime t).settle = (vacant.atTime t, .empty) := fun _ =>
          settle_of_unscheduled hr (schedule_of_vacant ho)
        have hagain : (vacant.atTime later).settle = (vacant.atTime later, .empty) :=
          settle_of_unscheduled hr (schedule_of_vacant ho)
        rw [hvacant, hvacant, Log.empty_append]
        exact hagain.symm
      · obtain ⟨t, ht⟩ := Option.ne_none_iff_exists'.mp (hb hr ho)
        let k := (m.atTime now).dueRounds t
        let due : Timeline := ⟨t.start, t.due + k * Mixing.interval m.room⟩
        let caughtUp := (rounds k (m.atTime later)).1
        have hrest : caughtUp.settle = rounds ((m.atTime later).dueRounds due) caughtUp :=
          settle_rounds (m := m.atTime later) ho ht k
        have hnow : (m.atTime now).settle = rounds k (m.atTime now) :=
          settle_of_timeline (m := m.atTime now) hr ho ht
        have hcaughtUp : (rounds k (m.atTime now)).1.atTime later = caughtUp := by
          show _ = (rounds k (m.atTime later)).1
          rw [rounds_atTime, rounds_atTime]
          rfl
        have hlog : (rounds k (m.atTime now)).2 = (rounds k (m.atTime later)).2 := by
          rw [rounds_atTime, rounds_atTime]
        rw [hnow, hcaughtUp, hrest, hlog, settle_of_timeline (m := m.atTime later) hr ho ht,
          dueRounds_atTime hpos t h, rounds_add]

/-- Moving the clock in two parts is moving it at once. -/
theorem run_advance_advance (hpos : 0 < Mixing.interval m.room) (hb : m.Begun) (a b : Nanos) :
    m.run [.advance a, .advance b] = m.run [.advance (a + b)] := by
  have hstep : ∀ (m : Mixer κ σ π) (t : Nanos), (m.step (.advance t)).mixer =
      (m.atTime (m.clock + t)).settle.1 ∧
        (m.step (.advance t)).log = (m.atTime (m.clock + t)).settle.2 := fun _ _ => ⟨rfl, rfl⟩
  have hclock : (m.atTime (m.clock + a)).settle.1.clock + b = m.clock + (a + b) := by
    rw [clock_settle, ← Nat.add_assoc]
    rfl
  have hparts := settle_atTime hpos hb (Nat.add_le_add_left (Nat.le_add_right a b) m.clock)
  simp only [run, Log.append_empty, hstep, hclock, hparts]

/-- Time may go by in parts, after every run and in every mixer that has been reached in any other way
and whose timeline has started: moving the clock twice, with the rounds that are due after each move,
leads to the same mixer as moving it once, and the same happens. -/
structure DividesTime (m₀ : Mixer κ σ π) : Prop where
  run : ∀ (as : List (Action π α)) (a b : Nanos),
    (m₀.run as).1.run [.advance a, .advance b] = (m₀.run as).1.run [.advance (a + b)]
  reachable : ∀ m : Mixer κ σ π, m₀.Reachable m → m.Begun → ∀ a b : Nanos,
    m.run [.advance a, .advance b] = m.run [.advance (a + b)]

/-- The clock of a mixer of steady mixing with an interval may be moved in parts. -/
theorem dividesTime_create {room : κ} (hpos : 0 < Mixing.interval room) :
    (create room : Mixer κ σ π).DividesTime where
  run as a b := by
    have hbegun : (create room : Mixer κ σ π).Begun := fun _ ho => absurd rfl ho
    refine run_advance_advance ?_ (begun_run hbegun as) a b
    rw [interval_run]
    exact hpos
  reachable m hm hb a b := by
    refine run_advance_advance ?_ hb a b
    rw [interval_reachable hm]
    exact hpos

end Mixer

end ConferenceMix
