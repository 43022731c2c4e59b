import ConferenceMix.Proofs.Session.Deeds

/-! # Actions and looks at the clock in any order

The actions asked of a mixer and the looks it takes at its clock come in any order, for a look may
be late. A `Move` is one or the other, and `Mixer.follow` carries out moves one after another. Runs
are the special case in which each action is followed by looks until there is nothing left to do;
`Mixer.follow_steps_filter` says so of a run and also of what is left of it when actions are left
out. `Mixer.ticksOf` lists the rounds that moves carry out (`Mixer.log_follow`), and what every
action and every round upholds holds after all moves (`Upheld.follow`). -/

namespace ConferenceMix

/-- An action without the rounds that are due after it, or a look at the clock. -/
inductive Move (π α : Type) where
  | act (a : Action π α)
  | look

namespace Move

variable {π α : Type}

/-- Each of the actions, followed by `n` looks at the clock. -/
def steps (n : Nat) (as : List (Action π α)) : List (Move π α) :=
  as.flatMap fun a => act a :: List.replicate n look

theorem act_mem_steps {n : Nat} {a : Action π α} {as : List (Action π α)} :
    act a ∈ steps n as ↔ a ∈ as := by
  simp [steps, List.mem_flatMap, List.mem_replicate]

/-- Whether a move stays when only some actions are kept: looks always do. -/
def stays (keep : Action π α → Bool) : Move π α → Bool
  | act a => keep a
  | look => true

theorem filter_steps_cons (keep : Action π α → Bool) (n : Nat) (a : Action π α)
    (as : List (Action π α)) :
    (steps n (a :: as)).filter (stays keep) =
      (if keep a then [act a] else []) ++ List.replicate n look ++
        (steps n as).filter (stays keep) := by
  have hlooks : (List.replicate n (look : Move π α)).filter (stays keep) = List.replicate n look :=
    List.filter_eq_self.mpr fun v hv => List.eq_of_mem_replicate hv ▸ rfl
  rw [steps, List.flatMap_cons, List.cons_append, List.filter_cons, List.filter_append, hlooks]
  show (if keep a then _ else _) = _
  split <;> rfl

end Move

namespace Mixer

variable {κ σ π α β : Type} [Mixing κ σ π α β]

/-- Carries out a move. -/
def move (m : Mixer κ σ π) : Move π α → Mixer κ σ π × Log π
  | .act a => ((m.act a).mixer, eventsOnly (m.act a).events)
  | .look => m.poll

/-- Carries out moves one after another. -/
def follow (m : Mixer κ σ π) : List (Move π α) → Mixer κ σ π × Log π
  | [] => (m, .empty)
  | v :: vs =>
      let first := m.move v
      let rest := follow first.1 vs
      (rest.1, first.2 ++ rest.2)

/-- The actions among moves, each with the mixer that it is asked of. -/
def deedsOf (m : Mixer κ σ π) : List (Move π α) → List (Deed κ σ π α)
  | [] => []
  | .act a :: vs => ⟨m, a⟩ :: deedsOf (m.act a).mixer vs
  | .look :: vs => deedsOf m.poll.1 vs

theorem follow_cons (m : Mixer κ σ π) (v : Move π α) (vs : List (Move π α)) :
    m.follow (v :: vs) =
      (((m.move v).1.follow vs).1, (m.move v).2 ++ ((m.move v).1.follow vs).2) := rfl

/-- Moves can be carried out in two parts. -/
theorem follow_append (m : Mixer κ σ π) (us vs : List (Move π α)) :
    m.follow (us ++ vs) =
      (((m.follow us).1.follow vs).1, (m.follow us).2 ++ ((m.follow us).1.follow vs).2) := by
  induction us generalizing m with
  | nil => rfl
  | cons u us ih => simp only [List.cons_append, follow_cons, ih, Log.append_assoc]

/-- The last move comes after the others. -/
theorem follow_concat (m : Mixer κ σ π) (vs : List (Move π α)) (v : Move π α) :
    m.follow (vs ++ [v]) =
      (((m.follow vs).1.move v).1, (m.follow vs).2 ++ ((m.follow vs).1.move v).2) := by
  rw [follow_append, follow_cons]
  simp only [follow, Log.append_empty]

/-- The deeds of moves that are carried out in two parts. -/
theorem deedsOf_append (m : Mixer κ σ π) (us vs : List (Move π α)) :
    m.deedsOf (us ++ vs) = m.deedsOf us ++ (m.follow us).1.deedsOf vs := by
  induction us generalizing m with
  | nil => rfl
  | cons u us ih =>
      cases u with
      | act a => exact congrArg (Deed.mk m a :: ·) (ih _)
      | look => exact ih _

theorem follow_replicate_look (n : Nat) (m : Mixer κ σ π) :
    m.follow (List.replicate n (.look : Move π α)) = polls n m := by
  induction n generalizing m with
  | zero => rfl
  | succ n ih =>
      rw [List.replicate_succ, follow_cons, ih]
      rfl

/-- Moves lead to reachable mixers. -/
theorem reachable_follow {m₀ m : Mixer κ σ π} (h : Reachable m₀ m) (vs : List (Move π α)) :
    Reachable m₀ (m.follow vs).1 := by
  induction vs generalizing m with
  | nil => exact h
  | cons v vs ih =>
      cases v with
      | act a => exact ih (h.act a)
      | look => exact ih h.poll

/-! ### The rounds of moves -/

/-- The round that a look at the clock carries out, if one is due, after the given requests. -/
def dueTick? (asked : List (Asked α)) (m : Mixer κ σ π) : Option (Tick κ σ π α) :=
  if m.running then
    match m.schedule with
    | none => none
    | some t => if m.clock < t.due then none else some ⟨asked, { m with timeline := some t }, t⟩
  else none

/-- A look carries out the round that is due, or it sets the timeline at most. -/
theorem dueTick?_cases (asked : List (Asked α)) (m : Mixer κ σ π) :
    (m.dueTick? asked = none ∧ ∃ timeline, m.poll = ({ m with timeline }, .empty)) ∨
      ∃ t, m.dueTick? asked = some ⟨asked, { m with timeline := some t }, t⟩ ∧
        m.poll = round { m with timeline := some t } t := by
  unfold dueTick?
  by_cases hr : m.running = true
  · rw [if_pos hr]
    cases hs : m.schedule with
    | none => exact .inl ⟨rfl, none, poll_of_unscheduled hr hs⟩
    | some t =>
        by_cases hd : m.clock < t.due
        · exact .inl ⟨if_pos hd, some t, poll_of_early hr hs hd⟩
        · exact .inr ⟨t, if_neg hd, poll_of_due hr hs hd⟩
  · exact .inl ⟨if_neg hr, m.timeline, poll_of_not_running (by simpa using hr)⟩

/-- The rounds of moves of a mixer to which the given requests have been made. -/
def ticksOf (asked : List (Asked α)) (m : Mixer κ σ π) : List (Move π α) → List (Tick κ σ π α)
  | [] => []
  | .act a :: vs => ticksOf (asked ++ m.asking a) (m.act a).mixer vs
  | .look :: vs => (m.dueTick? asked).toList ++ ticksOf asked m.poll.1 vs

/-- The rounds of moves are those that the moves carry out. -/
theorem log_follow (asked : List (Asked α)) (m : Mixer κ σ π) (vs : List (Move π α)) :
    Logs (m.follow vs).2 (m.ticksOf asked vs) := by
  induction vs generalizing asked m with
  | nil => exact ⟨rfl, rfl⟩
  | cons v vs ih =>
      cases v with
      | act a =>
          have hact : Logs (eventsOnly (m.act a).events) ([] : List (Tick κ σ π α)) := ⟨rfl, rfl⟩
          exact logs_append hact (ih _ _)
      | look =>
          have hlook : Logs m.poll.2 (m.dueTick? asked).toList := by
            rcases m.dueTick?_cases asked with ⟨hn, _, he⟩ | ⟨t, ht, he⟩
            · rw [hn, he]
              exact ⟨rfl, rfl⟩
            · rw [ht, he]
              exact ⟨rfl, (List.append_nil _).symm⟩
          exact logs_append hlook (ih _ _)

/-! ### Runs -/

/-- A step is an action followed by enough looks at the clock. -/
theorem follow_act_looks {m : Mixer κ σ π} {a : Action π α} {n : Nat}
    (h : polls n (m.act a).mixer = (m.act a).mixer.settle) :
    m.follow (.act a :: List.replicate n .look) = ((m.step a).mixer, (m.step a).log) := by
  have hlooks := follow_replicate_look (α := α) n (m.act a).mixer
  rw [h] at hlooks
  show (((m.act a).mixer.follow _).1, eventsOnly (m.act a).events ++ ((m.act a).mixer.follow _).2) = _
  rw [hlooks]
  rfl

/-- Nothing is left to do after a step. -/
theorem settle_step [SteadyMixing κ] {m : Mixer κ σ π} (hpos : 0 < Mixing.interval m.room)
    (a : Action π α) : 0 < Mixing.interval (m.step a).mixer.room ∧
      (m.step a).mixer.settle = ((m.step a).mixer, .empty) := by
  have hact : 0 < Mixing.interval (m.act a).mixer.room := by
    rw [interval_act]
    exact hpos
  refine ⟨?_, settle_settle hact⟩
  show 0 < Mixing.interval (m.act a).mixer.settle.1.room
  rw [interval_settle]
  exact hact

/-- A run from which actions are left out can be carried out by moves from which the same actions
are left out, but none of the looks after them. -/
theorem follow_steps_filter [SteadyMixing κ] {m : Mixer κ σ π} (hpos : 0 < Mixing.interval m.room)
    (hs : m.settle = (m, .empty)) (keep : Action π α → Bool) (as : List (Action π α)) :
    ∃ enough, ∀ n, enough ≤ n →
      m.follow ((Move.steps n as).filter (Move.stays keep)) = m.run (as.filter keep) := by
  induction as generalizing m with
  | nil => exact ⟨0, fun _ _ => rfl⟩
  | cons a as ih =>
      by_cases hk : keep a = true
      · have hact : 0 < Mixing.interval (m.act a).mixer.room := by
          rw [interval_act]
          exact hpos
        obtain ⟨enough, hpolls⟩ := polls_eq_settle hact
        obtain ⟨hpos', hs'⟩ := settle_step hpos a
        obtain ⟨enough', hrest⟩ := ih hpos' hs'
        refine ⟨max enough enough', fun n hn => ?_⟩
        have hstep := follow_act_looks (hpolls n (Nat.le_trans (Nat.le_max_left ..) hn))
        have hrest := hrest n (Nat.le_trans (Nat.le_max_right ..) hn)
        rw [Move.filter_steps_cons, if_pos hk, List.filter_cons_of_pos hk, List.singleton_append,
          follow_append, hstep, hrest]
        rfl
      · -- nothing is left to do before the action, so that the looks after it do nothing
        have hpoll := poll_settle hpos
        rw [hs] at hpoll
        obtain ⟨enough, hrest⟩ := ih hpos hs
        refine ⟨enough, fun n hn => ?_⟩
        rw [Move.filter_steps_cons, if_neg hk, List.filter_cons_of_neg hk, List.nil_append,
          follow_append, follow_replicate_look, polls_of_poll_eq hpoll, hrest n hn]
        rfl

/-- A new mixer has nothing to do. -/
theorem settle_create (room : κ) :
    (create room : Mixer κ σ π).settle = (create room, .empty) := rfl

/-- With enough looks after each action, moves carry out a run of a mixer that has nothing left to
do, and when actions are left out of the moves, those that remain carry out the run without these
actions. -/
theorem exists_follow_steps_eq_run [SteadyMixing κ] {m : Mixer κ σ π}
    (hpos : 0 < Mixing.interval m.room) (hs : m.settle = (m, .empty)) (keep : Action π α → Bool)
    (as : List (Action π α)) : ∃ n, m.follow (Move.steps n as) = m.run as ∧
      m.follow ((Move.steps n as).filter (Move.stays keep)) = m.run (as.filter keep) := by
  have hself : ∀ vs : List (Move π α), vs.filter (Move.stays fun _ => true) = vs := by
    intro vs
    refine List.filter_eq_self.mpr fun v _ => ?_
    cases v <;> rfl
  obtain ⟨enough, hall⟩ := follow_steps_filter hpos hs (fun _ => true) as
  obtain ⟨enough', hkept⟩ := follow_steps_filter hpos hs keep as
  refine ⟨max enough enough', ?_, hkept _ (Nat.le_max_right ..)⟩
  have hrun := hall _ (Nat.le_max_left enough enough')
  rwa [hself, List.filter_eq_self.mpr fun _ _ => rfl] at hrun

/-- Every run of a mixer that has nothing left to do is carried out by moves. -/
theorem exists_follow_eq_run [SteadyMixing κ] {m : Mixer κ σ π} (hpos : 0 < Mixing.interval m.room)
    (hs : m.settle = (m, .empty)) (as : List (Action π α)) : ∃ vs, m.follow vs = m.run as := by
  obtain ⟨n, hn, _⟩ := exists_follow_steps_eq_run hpos hs (fun _ => true) as
  exact ⟨Move.steps n as, hn⟩

/-- Nothing is left to do after a run. -/
theorem settle_run [SteadyMixing κ] {m : Mixer κ σ π} (hpos : 0 < Mixing.interval m.room)
    (hs : m.settle = (m, .empty)) (as : List (Action π α)) :
    0 < Mixing.interval (m.run as).1.room ∧ (m.run as).1.settle = ((m.run as).1, .empty) := by
  induction as generalizing m with
  | nil => exact ⟨hpos, hs⟩
  | cons a as ih =>
      obtain ⟨hpos', hs'⟩ := settle_step hpos a
      exact ih hpos' hs'

/-- Moves carry out a run of a mixer that has nothing left to do, and also a run that goes on from
there. -/
theorem exists_follow_eq_runs [SteadyMixing κ] {m : Mixer κ σ π}
    (hpos : 0 < Mixing.interval m.room) (hs : m.settle = (m, .empty)) (as bs : List (Action π α)) :
    ∃ vs ws, m.follow vs = m.run as ∧ (m.run as).1.follow ws = (m.run as).1.run bs := by
  obtain ⟨hpos', hs'⟩ := settle_run hpos hs as
  obtain ⟨vs, hvs⟩ := exists_follow_eq_run hpos hs as
  obtain ⟨ws, hws⟩ := exists_follow_eq_run hpos' hs' bs
  exact ⟨vs, ws, hvs, hws⟩

end Mixer

/-! ### What moves uphold -/

namespace Upheld

variable {κ σ π α β : Type} [Mixing κ σ π α β] {Allowed : Action π α → Prop}
  {P : List (Deed κ σ π α) → Log π → Mixer κ σ π → Prop} {d : List (Deed κ σ π α)} {l : Log π}
  {m : Mixer κ σ π}

theorem poll (h : Upheld Allowed P) (hp : P d l m) : P d (l ++ m.poll.2) m.poll.1 := by
  rcases m.poll_cases with ⟨timeline, he⟩ | ⟨t, _, _, _, he⟩
  · rw [he, Log.append_empty]
    exact h.timed timeline hp
  · rw [he]
    exact h.round t (h.timed (some t) hp)

/-- **What every action and every round upholds holds after all moves.** -/
theorem follow (h : Upheld Allowed P) (hp : P d l m) {vs : List (Move π α)}
    (ha : ∀ a, .act a ∈ vs → Allowed a) :
    P (d ++ m.deedsOf vs) (l ++ (m.follow vs).2) (m.follow vs).1 := by
  induction vs generalizing d l m with
  | nil =>
      rw [Mixer.deedsOf, Mixer.follow, List.append_nil, Log.append_empty]
      exact hp
  | cons v vs ih =>
      have hrest : ∀ a, .act a ∈ vs → Allowed a := fun a hm => ha a (List.mem_cons_of_mem v hm)
      cases v with
      | act a =>
          have hfollow := ih (h.act a hp (ha a (List.mem_cons_self ..))) hrest
          rw [List.append_assoc, Log.append_assoc] at hfollow
          exact hfollow
      | look =>
          have hfollow := ih (h.poll hp) hrest
          rw [Log.append_assoc] at hfollow
          exact hfollow

end Upheld

end ConferenceMix
