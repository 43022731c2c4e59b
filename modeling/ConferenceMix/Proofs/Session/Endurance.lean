import ConferenceMix.Session.Worker
import ConferenceMix.Proofs.Session.Polling
import Mathlib.Algebra.GroupWithZero.Nat

/-! # Workers that nothing breaks off

As long as nothing breaks off, a worker carries out what the mixer does (`Worker.Unbroken.run_eq`).
A worker that has once broken off in a round is gone for good, so it is enough that the worker is there
in the end and that every action has been replied to.

Nothing breaks off when everything takes place in time: an `Enduring` property of a mixer allows for
no wreck and no spoilt request up to some time, every action moves that time on by no more than its
span, and the rounds do not move it (`Enduring.unbroken`). -/

namespace ConferenceMix

variable {κ σ π α β : Type} [Mixing κ σ π α β] [Breakable κ σ α]

/-! ### Actions -/

/-- An action is carried out as it should be, or it breaks off. -/
theorem Mixer.act?_cases (last : Nanos) (m : Mixer κ σ π) (a : Action π α) :
    m.act? last a = .ok (m.act a) ∨ ∃ left, m.act? last a = .error left := by
  cases a with
  | advance t =>
      by_cases hlate : last < m.clock + t
      · exact .inr ⟨m, if_pos hlate⟩
      · exact .inl (if_neg hlate)
  | ask request =>
      simp only [act?]
      cases Breakable.spoil? m.room last m.clock m.roster.seated request with
      | none => exact .inl rfl
      | some seats => exact .inr ⟨_, rfl⟩
  | _ => exact .inl rfl

namespace Worker

variable {last : Nanos}

/-! ### Rounds -/

/-- A round comes to its end if nothing is left as a wreck and the time of the next one can be told. -/
theorem round_eq {m : Mixer κ σ π} {t : Timeline}
    (hw : Breakable.wreck? m.room m.roster.seated = none)
    (hl : t.due + Mixing.interval m.room ≤ last) :
    round last m t = (start (m.round t).1, (m.round t).2) := by
  simp only [round, hw, if_neg (Nat.not_lt_of_le hl)]

/-- A round comes to its end, or the worker is gone. -/
theorem round_cases (last : Nanos) (m : Mixer κ σ π) (t : Timeline) :
    round last m t = (start (m.round t).1, (m.round t).2) ∨ (round last m t).1.alive = false := by
  cases hw : Breakable.wreck? m.room m.roster.seated with
  | some wreck =>
      refine .inr ?_
      simp only [round, hw]
  | none =>
      by_cases hl : last < t.due + Mixing.interval m.room
      · refine .inr ?_
        simp only [round, hw, if_pos hl]
      · exact .inl (round_eq hw (Nat.le_of_not_lt hl))

theorem rounds_succ (n : Nat) {m : Mixer κ σ π} {t : Timeline} (hr : m.running = true)
    (ht : m.timeline = some t) (hfirst : round last m t = (start (m.round t).1, (m.round t).2)) :
    rounds last (n + 1) m =
      ((rounds last n (m.round t).1).1, (m.round t).2 ++ (rounds last n (m.round t).1).2) := by
  simp only [rounds, hr, ht, hfirst]
  rfl

theorem rounds_of_idle (n : Nat) {m : Mixer κ σ π} (h : m.running = false ∨ m.timeline = none) :
    rounds last n m = (start m, .empty) := by
  cases n with
  | zero => rfl
  | succ n =>
      rcases h with h | h
      · simp [rounds, h]
      · simp [rounds, h]

/-- A worker that is there after some rounds has carried them all out. -/
theorem rounds_of_alive {n : Nat} {m : Mixer κ σ π} (h : (rounds last n m).1.alive = true) :
    rounds last n m = (start (Mixer.rounds n m).1, (Mixer.rounds n m).2) := by
  induction n generalizing m with
  | zero => rfl
  | succ n ih =>
      cases hr : m.running with
      | false => rw [rounds_of_idle _ (.inl hr), Mixer.rounds_of_idle _ (.inl hr)]
      | true =>
          cases ht : m.timeline with
          | none => rw [rounds_of_idle _ (.inr ht), Mixer.rounds_of_idle _ (.inr ht)]
          | some t =>
              rcases round_cases last m t with hfirst | hgone
              · rw [rounds_succ n hr ht hfirst] at h ⊢
                rw [Mixer.rounds_succ n hr ht, ih h]
              · simp [rounds, hr, ht, hgone] at h

/-! ### Settling, steps and runs -/

theorem settle_of_gone {w : Worker κ σ π} (h : w.alive = false) : settle last w = (w, .empty) := by
  simp [settle, h]

theorem settle_start (m : Mixer κ σ π) (hr : m.running = true) :
    settle last (start m) =
      match m.schedule with
      | none => (start { m with timeline := none }, .empty)
      | some t => rounds last (m.dueRounds t) { m with timeline := some t } := by
  exact if_pos (show (true && m.running) = true by rw [hr]; rfl)

/-- A worker that is there after settling was there before, and has settled all there was. -/
theorem settle_of_alive {w : Worker κ σ π} (h : (settle last w).1.alive = true) :
    w = start w.mixer ∧ settle last w = (start w.mixer.settle.1, w.mixer.settle.2) := by
  obtain ⟨m, alive⟩ := w
  cases alive with
  | false => rw [settle_of_gone rfl] at h; cases h
  | true =>
      refine ⟨rfl, ?_⟩
      show settle last (start m) = _
      have h : (settle last (start m)).1.alive = true := h
      cases hr : m.running with
      | false =>
          rw [Mixer.settle_of_not_running hr]
          simp [settle, start, hr]
      | true =>
          rw [settle_start m hr] at h ⊢
          cases hs : m.schedule with
          | none => rw [Mixer.settle_of_unscheduled hr hs]
          | some t =>
              rw [hs] at h
              rw [Mixer.settle_of_schedule hr hs]
              exact rounds_of_alive h

theorem alive_of_alive_step {w : Worker κ σ π} {a : Action π α}
    (h : (w.step last a).worker.alive = true) : w.alive = true := by
  unfold step at h
  rcases w.mixer.act?_cases last a with hact | ⟨left, hact⟩
  · rw [hact] at h
    exact congrArg alive (settle_of_alive h).1
  · rw [hact] at h
    exact congrArg alive (settle_of_alive h).1

/-- A step after which the worker is there and that has been replied to is the step of the mixer. -/
theorem step_start {m : Mixer κ σ π} {a : Action π α}
    (hreply : ((start m).step last a).reply ≠ none)
    (halive : ((start m).step last a).worker.alive = true) :
    (start m).step last a = ⟨start (m.step a).mixer, some (m.step a).reply, (m.step a).log⟩ := by
  rcases m.act?_cases last a with hact | ⟨left, hact⟩
  · have hstep : (start m).step last a =
        ⟨(settle last (start (m.act a).mixer)).1, some (m.act a).reply,
          { (settle last (start (m.act a).mixer)).2 with
            events := (m.act a).events ++ (settle last (start (m.act a).mixer)).2.events }⟩ := by
      simp only [step, start, hact]
    rw [hstep] at halive ⊢
    rw [(settle_of_alive halive).2]
    rfl
  · refine absurd ?_ hreply
    simp only [step, start, hact]

theorem Unbroken.alive {w : Worker κ σ π} {as : List (Action π α)} (h : w.Unbroken last as) :
    w.alive = true := by
  induction as generalizing w with
  | nil => exact h
  | cons a as ih => exact alive_of_alive_step (ih h.2)

/-- **A worker that nothing breaks off carries out what the mixer does.** -/
theorem Unbroken.run_eq {m : Mixer κ σ π} {as : List (Action π α)}
    (h : (start m).Unbroken last as) :
    (start m).run last as = (start (m.run as).1, (m.run as).2) := by
  induction as generalizing m with
  | nil => rfl
  | cons a as ih =>
      obtain ⟨hreply, hrest⟩ := h
      have hstep := step_start hreply hrest.alive
      rw [hstep] at hrest
      simp only [run, hstep, ih hrest]
      rfl

end Worker

/-! ### Everything in time -/

/-- A property of a mixer and of a time up to which nothing is late. It allows for no round to break off
in the mixing, and every action takes no more than its span. -/
structure Enduring (last : Nanos) (Allowed : Action π α → Prop) (span : Action π α → Nanos)
    (P : Nanos → Mixer κ σ π → Prop) : Prop where
  clock : ∀ {now m}, P now m → m.clock ≤ now
  act : ∀ {now m a}, P now m → Allowed a → now + span a ≤ last →
    m.act? last a = .ok (m.act a) ∧ P (now + span a) (m.act a).mixer
  timed : ∀ {now m} (timeline : Option Timeline), P now m → P now { m with timeline }
  whole : ∀ {now m}, P now m → Breakable.wreck? m.room m.roster.seated = none
  round : ∀ {now m} (t : Timeline), P now m → P now (m.round t).1

namespace Enduring

open Worker

variable [SteadyMixing κ] {last now : Nanos} {Allowed : Action π α → Prop}
  {span : Action π α → Nanos} {P : Nanos → Mixer κ σ π → Prop} {m : Mixer κ σ π}

/-- Rounds whose times have come come to their end. -/
theorem rounds (h : Enduring last Allowed span P) {n : Nat} {t : Timeline} (hp : P now m)
    (ht : m.timeline = some t)
    (hdue : ∀ k < n, t.due + k * Mixing.interval m.room ≤ m.clock)
    (hlast : now + Mixing.interval m.room ≤ last) :
    (Worker.rounds last n m).1.alive = true ∧ P now (Mixer.rounds n m).1 := by
  induction n generalizing m t with
  | zero => exact ⟨rfl, hp⟩
  | succ n ih =>
      cases hr : m.running with
      | false =>
          rw [rounds_of_idle _ (.inl hr), Mixer.rounds_of_idle _ (.inl hr)]
          exact ⟨rfl, hp⟩
      | true =>
          have hfirst : t.due ≤ m.clock := by simpa using hdue 0 (Nat.succ_pos n)
          have hnext : t.due + Mixing.interval m.room ≤ last :=
            Nat.le_trans (Nat.add_le_add_right (Nat.le_trans hfirst (h.clock hp)) _) hlast
          rw [Worker.rounds_succ n hr ht (round_eq (h.whole hp) hnext), Mixer.rounds_succ n hr ht]
          refine ih (h.round t hp) rfl (fun k hk => ?_) (by rwa [Mixer.interval_round])
          rw [Mixer.interval_round]
          have hlater := hdue (k + 1) (Nat.succ_lt_succ hk)
          rw [Nat.succ_mul, Nat.add_comm (k * _), ← Nat.add_assoc] at hlater
          exact hlater

theorem settle (h : Enduring last Allowed span P) (hp : P now m)
    (hlast : now + Mixing.interval m.room ≤ last) :
    (Worker.settle last (start m)).1.alive = true ∧ P now m.settle.1 := by
  cases hr : m.running with
  | false =>
      rw [Mixer.settle_of_not_running hr]
      refine ⟨?_, hp⟩
      simp [Worker.settle, start, hr]
  | true =>
      rw [settle_start m hr]
      cases hs : m.schedule with
      | none =>
          rw [Mixer.settle_of_unscheduled hr hs]
          exact ⟨rfl, h.timed none hp⟩
      | some t =>
          rw [Mixer.settle_of_schedule hr hs]
          refine h.rounds (h.timed (some t) hp) rfl (fun k hk => ?_) hlast
          unfold Mixer.dueRounds at hk
          split at hk
          · exact absurd hk (Nat.not_lt_zero k)
          · rename_i hdue
            have hle := Nat.mul_le_of_le_div _ _ _ (Nat.le_of_lt_succ hk)
            have hsum := Nat.add_le_add_left hle t.due
            rwa [Nat.add_sub_cancel' (Nat.le_of_not_lt hdue)] at hsum

/-- **Nothing breaks off in a run that takes place in time.** -/
theorem unbroken (h : Enduring last Allowed span P) (hp : P now m) {as : List (Action π α)}
    (ha : ∀ a ∈ as, Allowed a)
    (hlast : now + (as.map span).sum + Mixing.interval m.room ≤ last) :
    (start m).Unbroken last as := by
  induction as generalizing now m with
  | nil => rfl
  | cons a as ih =>
      obtain ⟨hfirst, hrest⟩ := List.forall_mem_cons.mp ha
      rw [List.map_cons, List.sum_cons, ← Nat.add_assoc] at hlast
      have hsum : now + span a + Mixing.interval m.room ≤ last :=
        Nat.le_trans (Nat.add_le_add_right (Nat.le_add_right _ _) _) hlast
      obtain ⟨hact, hp'⟩ := h.act hp hfirst (Nat.le_trans (Nat.le_add_right _ _) hsum)
      rw [← m.interval_act a] at hsum
      obtain ⟨halive, hsettled⟩ := h.settle hp' hsum
      have hreply : ((start m).step last a).reply ≠ none := by
        simp [step, start, hact]
      have hworker : ((start m).step last a).worker =
          (Worker.settle last (start (m.act a).mixer)).1 := by
        simp only [step, start, hact]
      refine ⟨hreply, ?_⟩
      rw [hworker, (settle_of_alive halive).2]
      refine ih hsettled hrest ?_
      rw [Mixer.interval_settle]
      rwa [← m.interval_act a] at hlast

end Enduring

/-- A kind of mixing in which neither rounds nor requests break off. -/
structure Tireless (κ : Type) {σ π α β : Type} [Mixing κ σ π α β] [Breakable κ σ α] : Prop where
  wreck? : ∀ (room : κ) (seated : List (SourceId × σ)), Breakable.wreck? room seated = none
  spoil? : ∀ (room : κ) (last now : Nanos) (seated : List (SourceId × σ)) (request : α),
    Breakable.spoil? room last now seated request = none

/-- With tireless mixing, all that takes time is the clock. -/
theorem Tireless.enduring (h : Tireless κ) (last : Nanos) :
    Enduring last (fun _ : Action π α => True) Action.elapsed
      fun now (m : Mixer κ σ π) => m.clock ≤ now where
  clock h := h
  act {now m a} hp _ hl := by
    have hclock : (m.act a).mixer.clock ≤ now + a.elapsed := by
      rw [m.clock_act]
      exact Nat.add_le_add_right hp _
    refine ⟨?_, hclock⟩
    cases a with
    | advance t => exact if_neg (Nat.not_lt_of_le (Nat.le_trans (Nat.add_le_add_right hp t) hl))
    | ask request => simp only [Mixer.act?, h.spoil?]
    | _ => rfl
  timed _ hp := hp
  whole _ := h.wreck? _ _
  round _ hp := hp

end ConferenceMix
