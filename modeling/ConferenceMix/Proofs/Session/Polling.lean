import ConferenceMix.Proofs.Session.History

/-! # Looking at the clock

A mixer gets to its rounds by looking at its clock again and again. One look (`Mixer.poll`) carries
out a single round if one is due; without sources it forgets the timeline. `Mixer.polls_eq_settle`
says that this comes to an end: after some number of looks nothing is left to do, and what has been
done is `Mixer.settle`. It rests on an interval that is not zero and that no room changes
(`SteadyMixing`).

A mixer is `Reachable` from another by actions and looks in any order. What every action and every
round keeps holds in all reachable mixers (`Kept.reachable`), in particular after every run
(`Mixer.reachable_run`). -/

namespace ConferenceMix

/-- A kind of mixing whose interval stays the same. -/
class SteadyMixing (κ : Type) {σ π α β : outParam Type} [Mixing κ σ π α β] : Prop
    extends LawfulMixing κ where
  interval_welcome : ∀ (room : κ) (seats : List σ) (a : Admission κ σ),
    Mixing.welcome room seats = .ok a → Mixing.interval a.room = Mixing.interval room
  interval_depart : ∀ room : κ, Mixing.interval (Mixing.depart room) = Mixing.interval room
  interval_mix : ∀ (room : κ) (stamp : Nanos) (seated : List (SourceId × σ)),
    Mixing.interval (Mixing.mix room stamp seated).room = Mixing.interval room
  interval_serve : ∀ (room : κ) (now : Nanos) (seated : List (SourceId × σ)) (request : α),
    Mixing.interval (Mixing.serve room now seated request).room = Mixing.interval room

/-- The time by which an action moves the clock. -/
def Action.elapsed {π α : Type} : Action π α → Nanos
  | .advance t => t
  | _ => 0

namespace Mixer

variable {κ σ π α β : Type} [Mixing κ σ π α β]

/-! ### What actions and rounds leave alone -/

theorem interval_act [SteadyMixing κ] (m : Mixer κ σ π) (a : Action π α) :
    Mixing.interval (m.act a).mixer.room = Mixing.interval m.room := by
  show Mixing.interval (m.act a).mixer.floor.room = Mixing.interval m.floor.room
  rcases m.floor_act_cases a with ⟨_, he⟩ | ⟨_, _, _, hw, he⟩ | ⟨_, _, _, he⟩ | ⟨_, _, he⟩
  · rw [he]
  · rw [he]
    exact SteadyMixing.interval_welcome _ _ _ hw
  · rw [he]
    exact SteadyMixing.interval_depart _
  · rw [he]
    exact SteadyMixing.interval_serve _ _ _ _

theorem interval_round [SteadyMixing κ] (m : Mixer κ σ π) (t : Timeline) :
    Mixing.interval (m.round t).1.room = Mixing.interval m.room :=
  SteadyMixing.interval_mix _ _ _

theorem ids_round (m : Mixer κ σ π) (t : Timeline) : (m.round t).1.roster.ids = m.roster.ids := by
  simp only [round, Roster.ids_deliver, Roster.ids_reseat]

theorem timeline_act (m : Mixer κ σ π) (a : Action π α) :
    (m.act a).mixer.timeline = m.timeline := by
  cases a with
  | join sink =>
      rcases m.join_cases (β := β) sink with he | ⟨_, _, _, he⟩
      · exact congrArg timeline he
      · exact (congrArg timeline he).trans rfl
  | leave id =>
      rcases m.leave_cases (β := β) id with ⟨_, he⟩ | ⟨_, he⟩
      · exact congrArg timeline he
      · exact (congrArg timeline he).trans rfl
  | _ => rfl

theorem clock_act (m : Mixer κ σ π) (a : Action π α) :
    (m.act a).mixer.clock = m.clock + a.elapsed := by
  cases a with
  | join sink =>
      rcases m.join_cases (β := β) sink with he | ⟨_, _, _, he⟩
      · exact congrArg clock he
      · exact (congrArg clock he).trans rfl
  | leave id =>
      rcases m.leave_cases (β := β) id with ⟨_, he⟩ | ⟨_, he⟩
      · exact congrArg clock he
      · exact (congrArg clock he).trans rfl
  | _ => rfl

theorem clock_le_act (m : Mixer κ σ π) (a : Action π α) : m.clock ≤ (m.act a).mixer.clock := by
  rw [clock_act]
  exact Nat.le_add_right _ _

theorem schedule_of_vacant {m : Mixer κ σ π} (h : m.roster.ids = []) : m.schedule = none := by
  have hm : m.roster.members = [] := List.map_eq_nil_iff.mp h
  simp [schedule, hm]

theorem schedule_of_occupied {m : Mixer κ σ π} (h : m.roster.ids ≠ []) :
    m.schedule = some (m.timeline.getD ⟨m.clock, m.clock⟩) := by
  have hm : m.roster.members ≠ [] := fun he => h (by simp [Roster.ids, he])
  simp [schedule, hm]

/-- The schedule depends on the sources, the timeline and the clock only. -/
theorem schedule_congr {m m' : Mixer κ σ π} (hids : m.roster.ids = m'.roster.ids)
    (ht : m.timeline = m'.timeline) (hc : m.clock = m'.clock) : m.schedule = m'.schedule := by
  by_cases hv : m.roster.ids = []
  · rw [schedule_of_vacant hv, schedule_of_vacant (hids ▸ hv)]
  · rw [schedule_of_occupied hv, schedule_of_occupied (hids ▸ hv), ht, hc]

/-- A mixer with a timeline keeps it as long as it has sources. -/
theorem schedule_of_timeline {m : Mixer κ σ π} (h : m.roster.ids ≠ []) {t : Timeline}
    (ht : m.timeline = some t) : m.schedule = some t := by
  rw [schedule_of_occupied h, ht]
  rfl

/-! ### Looking at the clock -/

/-- One look at the clock: a mixer that runs and has sources carries out a round if one is due. -/
def poll (m : Mixer κ σ π) : Mixer κ σ π × Log π :=
  if m.running then
    match m.schedule with
    | none => ({ m with timeline := none }, .empty)
    | some t =>
        if m.clock < t.due then ({ m with timeline := some t }, .empty)
        else round { m with timeline := some t } t
  else (m, .empty)

/-- A number of looks at the clock, one after another. -/
def polls : Nat → Mixer κ σ π → Mixer κ σ π × Log π
  | 0, m => (m, .empty)
  | n + 1, m =>
      let first := m.poll
      let rest := polls n first.1
      (rest.1, first.2 ++ rest.2)

theorem poll_of_not_running {m : Mixer κ σ π} (h : m.running = false) : m.poll = (m, .empty) := by
  simp [poll, h]

theorem poll_of_unscheduled {m : Mixer κ σ π} (hr : m.running = true) (hs : m.schedule = none) :
    m.poll = ({ m with timeline := none }, .empty) := by
  unfold poll
  rw [if_pos hr, hs]

theorem poll_of_early {m : Mixer κ σ π} (hr : m.running = true) {t : Timeline}
    (hs : m.schedule = some t) (hd : m.clock < t.due) :
    m.poll = ({ m with timeline := some t }, .empty) := by
  unfold poll
  rw [if_pos hr, hs]
  exact if_pos hd

theorem poll_of_due {m : Mixer κ σ π} (hr : m.running = true) {t : Timeline}
    (hs : m.schedule = some t) (hd : ¬ m.clock < t.due) :
    m.poll = round { m with timeline := some t } t := by
  unfold poll
  rw [if_pos hr, hs]
  exact if_neg hd

/-- It makes no difference to a look whether the timeline is there already or has to be started. -/
theorem poll_of_schedule {m : Mixer κ σ π} (hr : m.running = true) (ho : m.roster.ids ≠ [])
    {t : Timeline} (hs : m.schedule = some t) :
    m.poll = ({ m with timeline := some t } : Mixer κ σ π).poll := by
  let m' : Mixer κ σ π := { m with timeline := some t }
  have hs' : m'.schedule = some t := schedule_of_timeline (m := m') ho rfl
  by_cases hd : m.clock < t.due
  · exact (poll_of_early hr hs hd).trans (poll_of_early (m := m') hr hs' hd).symm
  · exact (poll_of_due hr hs hd).trans (poll_of_due (m := m') hr hs' hd).symm

/-- A look does nothing but set the timeline, or it carries out the round that is due. -/
theorem poll_cases (m : Mixer κ σ π) :
    (∃ timeline, m.poll = ({ m with timeline }, .empty)) ∨
      ∃ t, m.running = true ∧ m.schedule = some t ∧ t.due ≤ m.clock ∧
        m.poll = round { m with timeline := some t } t := by
  by_cases hr : m.running = true
  · cases hs : m.schedule with
    | none => exact .inl ⟨none, poll_of_unscheduled hr hs⟩
    | some t =>
        by_cases hd : m.clock < t.due
        · exact .inl ⟨some t, poll_of_early hr hs hd⟩
        · exact .inr ⟨t, hr, rfl, Nat.le_of_not_lt hd, poll_of_due hr hs hd⟩
  · exact .inl ⟨m.timeline, poll_of_not_running (by simpa using hr)⟩

/-- Looking again changes nothing once a look has changed nothing. -/
theorem polls_of_poll_eq {m : Mixer κ σ π} (h : m.poll = (m, .empty)) (n : Nat) :
    polls n m = (m, .empty) := by
  induction n with
  | zero => rfl
  | succ n ih => simp only [polls, h, ih, Log.empty_append]

/-! ### Settling is looking until nothing is due -/

theorem settle_of_unscheduled {m : Mixer κ σ π} (hr : m.running = true) (hs : m.schedule = none) :
    m.settle = ({ m with timeline := none }, .empty) := by
  unfold settle
  rw [if_pos hr, hs]

theorem settle_of_schedule {m : Mixer κ σ π} (hr : m.running = true) {t : Timeline}
    (hs : m.schedule = some t) :
    m.settle = rounds (m.dueRounds t) { m with timeline := some t } := by
  unfold settle
  rw [if_pos hr, hs]

/-! ### What settling leaves alone -/

/-- Rounds leave alone what every single round leaves alone. -/
theorem rounds_preserve {γ : Type} {g : Mixer κ σ π → γ} (hg : ∀ m t, g (m.round t).1 = g m)
    (n : Nat) (m : Mixer κ σ π) : g (rounds n m).1 = g m := by
  induction n generalizing m with
  | zero => rfl
  | succ n ih =>
      by_cases hr : m.running = true
      · cases ht : m.timeline with
        | none => rw [rounds_of_idle _ (.inr ht)]
        | some t =>
            rw [rounds_succ n hr ht]
            exact (ih _).trans (hg m t)
      · rw [rounds_of_idle _ (.inl (by simpa using hr))]

/-- Settling carries out some rounds on some timeline. -/
theorem settle_preserves {γ : Type} {g : Mixer κ σ π → γ} (hg : ∀ m t, g (m.round t).1 = g m)
    (ht : ∀ (m : Mixer κ σ π) timeline, g { m with timeline } = g m) (m : Mixer κ σ π) :
    g m.settle.1 = g m := by
  by_cases hr : m.running = true
  · cases hs : m.schedule with
    | none =>
        rw [settle_of_unscheduled hr hs]
        exact ht m none
    | some t =>
        rw [settle_of_schedule hr hs]
        exact (rounds_preserve hg _ _).trans (ht m (some t))
  · rw [settle_of_not_running (by simpa using hr)]

theorem clock_settle (m : Mixer κ σ π) : m.settle.1.clock = m.clock :=
  settle_preserves (g := clock) (fun _ _ => rfl) (fun _ _ => rfl) m

theorem ids_settle (m : Mixer κ σ π) : m.settle.1.roster.ids = m.roster.ids :=
  settle_preserves (g := fun m => m.roster.ids) ids_round (fun _ _ => rfl) m

theorem interval_settle [SteadyMixing κ] (m : Mixer κ σ π) :
    Mixing.interval m.settle.1.room = Mixing.interval m.room :=
  settle_preserves (g := fun m => Mixing.interval m.room) interval_round (fun _ _ => rfl) m

/-! ### Looks carry out what is due -/

/-- Once the round at `due` is done, one fewer is due. -/
theorem dueCount_succ {now due interval : Nat} (hi : 0 < interval) (h : due ≤ now) :
    (if now < due + interval then 0 else (now - (due + interval)) / interval + 1) =
      (now - due) / interval := by
  split
  · exact (Nat.div_eq_of_lt (by omega)).symm
  · have hsub : now - due = (now - (due + interval)) + interval := by omega
    rw [hsub, Nat.add_div_right _ hi]

/-- On a timeline, enough looks carry out all rounds that are due. -/
theorem polls_eq_rounds [SteadyMixing κ] {m : Mixer κ σ π} (hi : 0 < Mixing.interval m.room)
    (ho : m.roster.ids ≠ []) {t : Timeline} (ht : m.timeline = some t) {n : Nat}
    (hn : m.dueRounds t ≤ n) : polls n m = rounds (m.dueRounds t) m := by
  induction n generalizing m t with
  | zero =>
      rw [Nat.le_zero.mp hn]
      rfl
  | succ n ih =>
      have hs := schedule_of_timeline ho ht
      have hm : { m with timeline := some t } = m := by rw [← ht]
      cases hr : m.running with
      | false =>
          rw [rounds_of_idle _ (.inl hr)]
          exact polls_of_poll_eq (poll_of_not_running hr) _
      | true =>
          by_cases hd : m.clock < t.due
          · have hp := poll_of_early hr hs hd
            rw [hm] at hp
            rw [show m.dueRounds t = 0 from if_pos hd]
            exact polls_of_poll_eq hp _
          · have hp := poll_of_due hr hs hd
            rw [hm] at hp
            -- the round that is due takes place, and then one fewer is due
            have hone : (m.round t).1.dueRounds ⟨t.start, t.due + Mixing.interval m.room⟩ + 1 =
                m.dueRounds t := by
              unfold dueRounds
              rw [interval_round, if_neg hd]
              exact congrArg (· + 1) (dueCount_succ hi (Nat.le_of_not_lt hd))
            have hrest := ih (m := (m.round t).1) (by rw [interval_round]; exact hi)
              (by rw [ids_round]; exact ho) rfl (by omega)
            rw [← hone, rounds_succ _ hr ht, ← hrest]
            simp only [polls, hp]

/-- **Looking at the clock comes to an end.** After some number of looks there is nothing left to
do, and all that was due has been done. -/
theorem polls_eq_settle [SteadyMixing κ] {m : Mixer κ σ π} (hi : 0 < Mixing.interval m.room) :
    ∃ enough, ∀ n, enough ≤ n → polls n m = m.settle := by
  cases hr : m.running with
  | false =>
      refine ⟨0, fun n _ => ?_⟩
      rw [settle_of_not_running hr]
      exact polls_of_poll_eq (poll_of_not_running hr) n
  | true =>
      by_cases ho : m.roster.ids = []
      · have hs := schedule_of_vacant ho
        have hagain : ({ m with timeline := none } : Mixer κ σ π).poll =
            ({ m with timeline := none }, .empty) :=
          poll_of_unscheduled hr (schedule_of_vacant ho)
        refine ⟨1, fun n hn => ?_⟩
        obtain ⟨n, rfl⟩ := Nat.exists_eq_add_of_le' hn
        rw [settle_of_unscheduled hr hs]
        simp only [polls, poll_of_unscheduled hr hs, polls_of_poll_eq hagain, Log.empty_append]
      · obtain ⟨t, hs⟩ : ∃ t, m.schedule = some t := ⟨_, schedule_of_occupied ho⟩
        let m' : Mixer κ σ π := { m with timeline := some t }
        have hfirst : m.poll = m'.poll := poll_of_schedule hr ho hs
        refine ⟨m.dueRounds t + 1, fun n hn => ?_⟩
        obtain ⟨n, rfl⟩ := Nat.exists_eq_add_of_le' (Nat.le_trans (Nat.le_add_left 1 _) hn)
        calc polls (n + 1) m = polls (n + 1) m' := by simp only [polls, hfirst]
          _ = rounds (m'.dueRounds t) m' :=
            polls_eq_rounds (m := m') hi ho rfl (Nat.le_of_succ_le hn)
          _ = m.settle := (settle_of_schedule hr hs).symm

/-! ### Reachable mixers -/

/-- One mixer becomes the other by actions and looks at the clock, in any order. -/
inductive Reachable (m₀ : Mixer κ σ π) : Mixer κ σ π → Prop
  | start : Reachable m₀ m₀
  | act {m : Mixer κ σ π} (a : Action π α) : Reachable m₀ m → Reachable m₀ (m.act a).mixer
  | poll {m : Mixer κ σ π} : Reachable m₀ m → Reachable m₀ m.poll.1

theorem interval_reachable [SteadyMixing κ] {m₀ m : Mixer κ σ π} (h : Reachable m₀ m) :
    Mixing.interval m.room = Mixing.interval m₀.room := by
  induction h with
  | start => rfl
  | act a _ ih => exact (interval_act _ a).trans ih
  | @poll m _ ih =>
      rcases m.poll_cases with ⟨_, hp⟩ | ⟨t, _, _, _, hp⟩
      · rw [hp]
        exact ih
      · rw [hp, interval_round]
        exact ih

theorem Reachable.trans {m₀ m m' : Mixer κ σ π} (h : Reachable m₀ m) (h' : Reachable m m') :
    Reachable m₀ m' := by
  induction h' with
  | start => exact h
  | act a _ ih => exact ih.act a
  | poll _ ih => exact ih.poll

theorem Reachable.polls {m₀ m : Mixer κ σ π} (h : Reachable m₀ m) (n : Nat) :
    Reachable m₀ (polls n m).1 := by
  induction n generalizing m with
  | zero => exact h
  | succ n ih => exact ih h.poll

theorem Reachable.step [SteadyMixing κ] {m₀ m : Mixer κ σ π} (hi : 0 < Mixing.interval m₀.room)
    (h : Reachable m₀ m) (a : Action π α) : Reachable m₀ (m.step a).mixer := by
  have hact : Reachable m₀ (m.act a).mixer := h.act a
  obtain ⟨enough, hn⟩ := polls_eq_settle (m := (m.act a).mixer)
    (by rw [interval_reachable hact]; exact hi)
  have hp := hact.polls enough
  rw [hn enough (Nat.le_refl _)] at hp
  exact hp

/-- Runs lead to reachable mixers. -/
theorem reachable_run [SteadyMixing κ] {m₀ : Mixer κ σ π} (hi : 0 < Mixing.interval m₀.room)
    (as : List (Action π α)) : Reachable m₀ (m₀.run as).1 := by
  have h : ∀ (as : List (Action π α)) (m : Mixer κ σ π), Reachable m₀ m →
      Reachable m₀ (m.run as).1 := by
    intro as
    induction as with
    | nil => exact fun _ hm => hm
    | cons a as ih => exact fun m hm => ih _ (hm.step hi a)
  exact h as m₀ .start

end Mixer

/-- What every action and every round keeps holds in all reachable mixers. -/
theorem Kept.reachable {κ σ π α β : Type} [Mixing κ σ π α β] [LawfulMixing κ]
    {P : List (Asked α) → List (Tick κ σ π α) → Floor κ σ → Prop}
    (h : Kept (fun _ : Action π α => True) P) {room : κ}
    (hp : P [] [] (Mixer.create room : Mixer κ σ π).floor) {m : Mixer κ σ π}
    (hm : (Mixer.create room).Reachable m) :
    ∃ asked done, m.floor.Known asked done ∧ P asked done m.floor := by
  induction hm with
  | start => exact ⟨[], [], Floor.known_create room, hp⟩
  | @act m a _ ih =>
      obtain ⟨asked, done, hk, hp⟩ := ih
      exact ⟨asked ++ m.asking a, done, (Floor.known_kept fun _ => True).act hk hk trivial,
        h.act hk hp trivial⟩
  | @poll m _ ih =>
      obtain ⟨asked, done, hk, hp⟩ := ih
      rcases m.poll_cases with ⟨_, he⟩ | ⟨t, _, _, _, he⟩
      · rw [he]
        exact ⟨asked, done, hk, hp⟩
      · let tick : Tick κ σ π α := ⟨asked, { m with timeline := some t }, t⟩
        rw [he, Mixer.floor_round]
        exact ⟨asked, done ++ [tick], (Floor.known_kept fun _ => True).round tick hk hk,
          h.round tick hk hp⟩

end ConferenceMix
