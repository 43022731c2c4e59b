import ConferenceMix.Proofs.Session.Endurance

/-! # The cadence of a mixer

A mixer is `OnTime` when its next round is due a whole number of intervals after its timeline
started, and that number is no higher than the clock allows. Actions keep it on time, and settling
carries out the rounds that are missing (`OnTime.settle`).

A `Period` begins with the arrival of a source at a mixer without any and lasts while there are
sources. `Mixer.keepsTime_create` says of every run that is not broken off that a period that ends at a
running mixer has had one round at its beginning and one for every interval since then, at multiples of
the interval; that looking at the clock after an action comes to an end; and that no round takes place
without sources. -/

namespace ConferenceMix

/-! ### Counting rounds -/

/-- The rounds that have been carried out and those that are due make up one round at the start and
one for every interval since then. -/
theorem add_dueCount {now start interval n : Nat} (hi : 0 < interval) (hs : start ≤ now)
    (hn : n ≤ (now - start) / interval + 1) :
    n + (if now < start + n * interval then 0
      else (now - (start + n * interval)) / interval + 1) = (now - start) / interval + 1 := by
  split
  · rename_i h
    have hlt : (now - start) / interval < n := (Nat.div_lt_iff_lt_mul hi).mpr (by omega)
    omega
  · rename_i h
    have hle : n ≤ (now - start) / interval := (Nat.le_div_iff_mul_le hi).mpr (by omega)
    have hsub : (now - (start + n * interval)) / interval = (now - start) / interval - n := by
      rw [← Nat.sub_sub, Nat.mul_comm, Nat.sub_mul_div]
    omega

/-- The timestamps of `k` rounds from number `n` on. -/
def stamps (interval : Nanos) (n k : Nat) : List Nanos := (List.range' n k).map (· * interval)

theorem stamps_succ (interval : Nanos) (n k : Nat) :
    stamps interval n (k + 1) = n * interval :: stamps interval (n + 1) k := by
  simp [stamps, List.range'_succ]

theorem stamps_append (interval : Nanos) (n j k : Nat) :
    stamps interval n j ++ stamps interval (n + j) k = stamps interval n (j + k) := by
  simp only [stamps, ← List.map_append, List.range'_append_1]

/-- A stretch of time that adds nothing is one in which nothing happens. -/
theorem Log.eq_empty_of_eq_append {π : Type} {a b : Log π} (h : a = a ++ b) : b = .empty := by
  have hrounds := List.self_eq_append_right.mp (congrArg Log.rounds h)
  have hoffers := List.self_eq_append_right.mp (congrArg Log.offers h)
  have hevents := List.self_eq_append_right.mp (congrArg Log.events h)
  cases b
  cases hrounds
  cases hoffers
  cases hevents
  rfl

namespace Mixer

variable {κ σ π α β : Type} [Mixing κ σ π α β]

/-! ### Looking again -/

/-- Looks can be taken in two parts. -/
theorem polls_add (a b : Nat) (m : Mixer κ σ π) :
    polls (a + b) m =
      ((polls b (polls a m).1).1, (polls a m).2 ++ (polls b (polls a m).1).2) := by
  induction a generalizing m with
  | zero => simp [polls]
  | succ a ih =>
      rw [Nat.succ_add]
      simp only [polls, ih, Log.append_assoc]

/-- Another look at a mixer that has settled finds nothing to do. -/
theorem poll_settle [SteadyMixing κ] {m : Mixer κ σ π} (hi : 0 < Mixing.interval m.room) :
    m.settle.1.poll = (m.settle.1, .empty) := by
  obtain ⟨enough, hn⟩ := polls_eq_settle hi
  have hmore := polls_add enough 1 m
  rw [hn _ (Nat.le_succ enough), hn _ (Nat.le_refl enough)] at hmore
  have hone : polls 1 m.settle.1 = m.settle.1.poll := by
    simp only [polls, Log.append_empty]
  rw [hone] at hmore
  exact Prod.ext (congrArg Prod.fst hmore).symm (Log.eq_empty_of_eq_append (congrArg Prod.snd hmore))

/-- Settling comes to an end: there is nothing left to settle. -/
theorem settle_settle [SteadyMixing κ] {m : Mixer κ σ π} (hi : 0 < Mixing.interval m.room) :
    m.settle.1.settle = (m.settle.1, .empty) := by
  obtain ⟨enough, hn⟩ := polls_eq_settle (m := m.settle.1) (by rw [interval_settle]; exact hi)
  rw [← hn enough (Nat.le_refl _)]
  exact polls_of_poll_eq (poll_settle hi) enough

/-- Without sources, a running mixer has no timeline once it has settled. -/
theorem timeline_settle_of_vacant {m : Mixer κ σ π} (hr : m.settle.1.running = true)
    (h : m.settle.1.roster.ids = []) : m.settle.1.timeline = none := by
  rw [ids_settle] at h
  by_cases hm : m.running = true
  · rw [settle_of_unscheduled hm (schedule_of_vacant h)]
  · rw [settle_of_not_running (by simpa using hm)] at hr
    exact absurd hr hm

/-! ### On time -/

/-- The timeline started at `start`, its `n` rounds so far were at whole intervals since then, and
there have been no more than one at the start and one for every interval since. -/
structure OnTime (start interval : Nanos) (n : Nat) (m : Mixer κ σ π) : Prop where
  steady : Mixing.interval m.room = interval
  started : start ≤ m.clock
  timeline : m.timeline = some ⟨start, start + n * interval⟩
  notEarly : n ≤ (m.clock - start) / interval + 1

/-- There have been one round at `start` and one for every interval since then. -/
def CaughtUp (start interval : Nanos) (n : Nat) (m : Mixer κ σ π) : Prop :=
  m.running = true → n = (m.clock - start) / interval + 1

variable {start interval : Nanos} {n : Nat} {m : Mixer κ σ π}

theorem OnTime.act [SteadyMixing κ] (h : OnTime start interval n m) (a : Action π α) :
    OnTime start interval n (m.act a).mixer := by
  have hc := m.clock_le_act a
  exact ⟨(m.interval_act a).trans h.steady, Nat.le_trans h.started hc,
    (m.timeline_act a).trans h.timeline,
    Nat.le_trans h.notEarly
      (Nat.succ_le_succ (Nat.div_le_div_right (Nat.sub_le_sub_right hc start)))⟩

/-- Rounds on a timeline are at whole intervals; only a stop ends them early. -/
theorem rounds_on_timeline [SteadyMixing κ] (hi : Mixing.interval m.room = interval)
    (ht : m.timeline = some ⟨start, start + n * interval⟩) (k : Nat) :
    ∃ j, j ≤ k ∧ ((rounds k m).1.running = true → j = k) ∧
      (rounds k m).1.timeline = some ⟨start, start + (n + j) * interval⟩ ∧
      (rounds k m).2.rounds = stamps interval n j := by
  induction k generalizing m n with
  | zero => exact ⟨0, Nat.le_refl 0, fun _ => rfl, ht, rfl⟩
  | succ k ih =>
      by_cases hr : m.running = true
      · have hnext : (m.round ⟨start, start + n * interval⟩).1.timeline =
            some ⟨start, start + (n + 1) * interval⟩ := by
          show some (Timeline.mk start (start + n * interval + Mixing.interval m.room)) = _
          rw [hi, Nat.succ_mul, Nat.add_assoc]
        obtain ⟨j, hj, hrun, htime, hstamps⟩ := ih ((m.interval_round _).trans hi) hnext
        refine ⟨j + 1, Nat.succ_le_succ hj, ?_, ?_, ?_⟩
        · rw [rounds_succ k hr ht]
          exact fun hrunning => congrArg (· + 1) (hrun hrunning)
        · rw [rounds_succ k hr ht, Nat.add_comm j 1, ← Nat.add_assoc]
          exact htime
        · rw [rounds_succ k hr ht, stamps_succ, Log.rounds_append, hstamps]
          show [start + n * interval - start] ++ _ = _
          rw [Nat.add_sub_cancel_left]
          rfl
      · rw [rounds_of_idle _ (.inl (by simpa using hr))]
        exact ⟨0, Nat.zero_le _, fun hrunning => absurd hrunning hr, ht, rfl⟩

/-- Settling carries out the rounds that are missing, unless the mixer stops. -/
theorem OnTime.settle [SteadyMixing κ] (hpos : 0 < interval) (h : OnTime start interval n m)
    (ho : m.roster.ids ≠ []) :
    ∃ j, OnTime start interval (n + j) m.settle.1 ∧ CaughtUp start interval (n + j) m.settle.1 ∧
      m.settle.2.rounds = stamps interval n j := by
  by_cases hr : m.running = true
  · let t : Timeline := ⟨start, start + n * interval⟩
    have hm : { m with timeline := some t } = m := by rw [← h.timeline]
    have hsettle : m.settle = rounds (m.dueRounds t) m := by
      rw [settle_of_schedule hr (schedule_of_timeline ho h.timeline), hm]
    have hdue : n + m.dueRounds t = (m.clock - start) / interval + 1 := by
      unfold dueRounds
      rw [h.steady]
      exact add_dueCount hpos h.started h.notEarly
    obtain ⟨j, hj, hrun, htime, hstamps⟩ := rounds_on_timeline h.steady h.timeline (m.dueRounds t)
    rw [← hsettle] at hrun htime hstamps
    refine ⟨j, ⟨(interval_settle m).trans h.steady, ?_, htime, ?_⟩, ?_, hstamps⟩
    · rw [clock_settle]
      exact h.started
    · rw [clock_settle, ← hdue]
      exact Nat.add_le_add_left hj n
    · intro hrunning
      rw [clock_settle, ← hdue, hrun hrunning]
  · rw [settle_of_not_running (by simpa using hr)]
    exact ⟨0, h, fun hrunning => absurd hrunning hr, rfl⟩

theorem ids_step (m : Mixer κ σ π) (a : Action π α) :
    (m.step a).mixer.roster.ids = (m.act a).mixer.roster.ids :=
  ids_settle _

theorem OnTime.step [SteadyMixing κ] (hpos : 0 < interval) (h : OnTime start interval n m)
    {a : Action π α} (ho : (m.step a).mixer.roster.ids ≠ []) :
    ∃ j, OnTime start interval (n + j) (m.step a).mixer ∧
      CaughtUp start interval (n + j) (m.step a).mixer ∧
      (m.step a).log.rounds = stamps interval n j := by
  rw [ids_step] at ho
  exact (h.act a).settle hpos ho

/-- All along a run with sources, the rounds are those that the clock calls for. -/
theorem OnTime.run [SteadyMixing κ] (hpos : 0 < interval) (h : OnTime start interval n m)
    (hc : CaughtUp start interval n m) {as : List (Action π α)}
    (ho : ∀ bs cs, as = bs ++ cs → (m.run bs).1.roster.ids ≠ []) :
    ∃ j, OnTime start interval (n + j) (m.run as).1 ∧
      CaughtUp start interval (n + j) (m.run as).1 ∧ (m.run as).2.rounds = stamps interval n j := by
  induction as generalizing m n with
  | nil => exact ⟨0, h, hc, rfl⟩
  | cons a as ih =>
      obtain ⟨j, hj, hcj, hstamps⟩ := h.step hpos (ho [a] as rfl)
      obtain ⟨k, hk, hck, hrest⟩ := ih hj hcj fun bs cs hs =>
        ho (a :: bs) cs (congrArg (a :: ·) hs)
      rw [Nat.add_assoc] at hk hck
      refine ⟨j + k, hk, hck, ?_⟩
      show ((m.step a).log ++ ((m.step a).mixer.run as).2).rounds = _
      rw [Log.rounds_append, hstamps, hrest, stamps_append]

/-! ### Periods -/

/-- A source arrives at a mixer without any, and all through the actions `during` there are
sources. -/
structure Period (m : Mixer κ σ π) (sink : Sink π) (during : List (Action π α)) : Prop where
  vacant : m.roster.ids = []
  occupied : ∀ as bs, during = as ++ bs → (m.run (.join sink :: as)).1.roster.ids ≠ []

/-- A running mixer without sources has no timeline. -/
def Rested (m : Mixer κ σ π) : Prop :=
  m.running = true → m.roster.ids = [] → m.timeline = none

theorem rested_run (h : m.Rested) (as : List (Action π α)) : (m.run as).1.Rested := by
  induction as generalizing m with
  | nil => exact h
  | cons a as ih => exact ih (timeline_settle_of_vacant (m := (m.act a).mixer))

theorem interval_run [SteadyMixing κ] (m : Mixer κ σ π) (as : List (Action π α)) :
    Mixing.interval (m.run as).1.room = Mixing.interval m.room := by
  induction as generalizing m with
  | nil => rfl
  | cons a as ih => exact (ih _).trans ((interval_settle _).trans (m.interval_act a))

/-- A source that arrives at a mixer without any starts the timeline. -/
theorem Rested.join [SteadyMixing κ] (hpos : 0 < Mixing.interval m.room) (h : m.Rested)
    (hv : m.roster.ids = []) {sink : Sink π}
    (ho : (m.step (.join sink)).mixer.roster.ids ≠ []) :
    ∃ n, OnTime m.clock (Mixing.interval m.room) n (m.step (.join sink)).mixer ∧
      CaughtUp m.clock (Mixing.interval m.room) n (m.step (.join sink)).mixer ∧
      (m.step (.join sink)).log.rounds = stamps (Mixing.interval m.room) 0 n := by
  rw [ids_step] at ho
  rcases m.join_cases (β := β) sink with he | ⟨admission, _, hr, he⟩
  · -- a source that is turned away leaves the mixer without any
    have hids : (m.act (.join sink)).mixer.roster.ids = m.roster.ids :=
      congrArg (fun m => m.roster.ids) he
    exact absurd (hids.trans hv) ho
  · let joined := (m.act (.join sink)).mixer
    have hrunning : joined.running = true := (congrArg running he).trans hr
    have hclock : joined.clock = m.clock := (congrArg clock he).trans rfl
    have hnone : joined.timeline = none := (m.timeline_act (.join sink)).trans (h hr hv)
    let begun : Mixer κ σ π := { joined with timeline := some ⟨m.clock, m.clock⟩ }
    have hschedule : joined.schedule = some ⟨m.clock, m.clock⟩ := by
      rw [schedule_of_occupied ho, hnone, hclock]
      rfl
    have hsettle : joined.settle = begun.settle := by
      rw [settle_of_schedule hrunning hschedule,
        settle_of_schedule (m := begun) hrunning (schedule_of_timeline (m := begun) ho rfl)]
      rfl
    have hbegun : OnTime m.clock (Mixing.interval m.room) 0 begun := by
      refine ⟨m.interval_act (.join sink), Nat.le_of_eq hclock.symm, ?_, Nat.zero_le _⟩
      rw [Nat.zero_mul]
      rfl
    obtain ⟨j, hj, hcj, hstamps⟩ := hbegun.settle hpos ho
    rw [Nat.zero_add, ← hsettle] at hj hcj
    rw [← hsettle] at hstamps
    exact ⟨j, hj, hcj, hstamps⟩

/-- The rounds of a period. -/
theorem Period.rounds [SteadyMixing κ] (hpos : 0 < Mixing.interval m.room) (h : m.Rested)
    {sink : Sink π} {during : List (Action π α)} (hp : m.Period sink during) :
    ∃ n, OnTime m.clock (Mixing.interval m.room) n (m.run (.join sink :: during)).1 ∧
      CaughtUp m.clock (Mixing.interval m.room) n (m.run (.join sink :: during)).1 ∧
      (m.run (.join sink :: during)).2.rounds = stamps (Mixing.interval m.room) 0 n := by
  obtain ⟨j, hj, hcj, hstamps⟩ := h.join hpos hp.vacant (hp.occupied [] during rfl)
  obtain ⟨k, hk, hck, hrest⟩ := hj.run hpos hcj hp.occupied
  refine ⟨j + k, hk, hck, ?_⟩
  show ((m.step (.join sink)).log ++ ((m.step (.join sink)).mixer.run during).2).rounds = _
  have happend := stamps_append (Mixing.interval m.room) 0 j k
  rw [Nat.zero_add] at happend
  rw [Log.rounds_append, hstamps, hrest, happend]

/-- The rounds of a period in a run of a new mixer are one at its beginning and one for every interval
since then, or, if the mixer has stopped, the first of these. -/
theorem rounds_of_period [SteadyMixing κ] {room : κ} (hpos : 0 < Mixing.interval room)
    {before : List (Action π α)} {sink : Sink π} {during : List (Action π α)}
    (hp : ((create room : Mixer κ σ π).run before).1.Period sink during) :
    let m := ((create room : Mixer κ σ π).run before).1
    let m' := (m.run (.join sink :: during)).1
    ∃ n, (m.run (.join sink :: during)).2.rounds =
        (List.range n).map (· * Mixing.interval room) ∧
      n ≤ (m'.clock - m.clock) / Mixing.interval room + 1 ∧
      (m'.running = true → n = (m'.clock - m.clock) / Mixing.interval room + 1) := by
  have hi : Mixing.interval ((create room : Mixer κ σ π).run before).1.room =
      Mixing.interval room := interval_run _ before
  have hr : ((create room : Mixer κ σ π).run before).1.Rested :=
    rested_run (fun _ _ => rfl) before
  obtain ⟨n, hn, hc, hstamps⟩ := hp.rounds (by rw [hi]; exact hpos) hr
  rw [hi] at hn hc hstamps
  refine ⟨n, ?_, hn.notEarly, hc⟩
  rw [hstamps, stamps, List.range_eq_range']

/-- Rounds that come an interval apart are numbered by their timestamps. -/
theorem stamp_of_rounds {as : List (Action π α)} {n : Nat}
    (h : (m.run as).2.rounds = (List.range n).map (· * interval)) {k : Nat} {t : Tick κ σ π α}
    (ht : (m.history as)[k]? = some t) : t.stamp = k * interval := by
  rw [(log_run _ _).1] at h
  have hk : ((List.range n).map (· * interval))[k]? = some t.stamp := by
    rw [← h, List.getElem?_map, ht]
    rfl
  obtain ⟨_, he⟩ := List.getElem?_eq_some_iff.mp hk
  rw [List.getElem_map, List.getElem_range] at he
  exact he.symm

/-! ### Rounds take place with sources -/

theorem sources_of_mem_ticks {asked : List (Asked α)} {n : Nat} {m : Mixer κ σ π}
    {t : Tick κ σ π α} (ht : t ∈ ticks asked n m) : t.sources = m.roster.ids := by
  induction n generalizing m with
  | zero => cases ht
  | succ n ih =>
      rcases rounds_succ_cases asked n m with ⟨he, _⟩ | ⟨u, he, _⟩
      · rw [he] at ht
        cases ht
      · rw [he] at ht
        rcases List.mem_cons.mp ht with rfl | hm
        · rfl
        · exact (ih hm).trans (m.ids_round u)

theorem sources_ne_nil_of_mem_dueTicks {asked : List (Asked α)} {m : Mixer κ σ π}
    {t : Tick κ σ π α} (ht : t ∈ dueTicks asked m) : t.sources ≠ [] := by
  unfold dueTicks at ht
  split at ht
  · split at ht
    · cases ht
    · rename_i hs
      intro hv
      rw [sources_of_mem_ticks ht] at hv
      rw [schedule_of_vacant (m := m) hv] at hs
      cases hs
  · cases ht

theorem sources_ne_nil_of_mem_history {m : Mixer κ σ π} {as : List (Action π α)}
    {t : Tick κ σ π α} (ht : t ∈ m.history as) : t.sources ≠ [] := by
  have h : ∀ (as : List (Action π α)) (asked : List (Asked α)) (m : Mixer κ σ π),
      t ∈ historyFrom asked m as → t.sources ≠ [] := by
    intro as
    induction as with
    | nil => exact fun _ _ h => absurd h List.not_mem_nil
    | cons a as ih =>
        intro asked m h
        rcases List.mem_append.mp h with hm | hm
        · exact sources_ne_nil_of_mem_dueTicks hm
        · exact ih _ _ hm
  exact h as [] m ht

/-! ### Keeping time -/

variable [Breakable κ σ α]

/-- A mixer keeps time in all runs that are not broken off: its worker carries them out, and looking at
the clock after an action comes to an end with all that is due done; every round has sources; and the
rounds of a period are one at its beginning and one for every interval since then, each with the time
since the beginning as its timestamp, or, if the mixer has stopped, the first of these. -/
structure KeepsTime (last interval : Nanos) (m : Mixer κ σ π) : Prop where
  carried : ∀ as : List (Action π α), (Worker.start m).Unbroken last as →
    (Worker.start m).run last as = (Worker.start (m.run as).1, (m.run as).2)
  settles : ∀ (as : List (Action π α)) (a : Action π α),
    (Worker.start m).Unbroken last (as ++ [a]) → ∃ enough, ∀ n, enough ≤ n →
      polls n ((m.run as).1.act a).mixer = ((m.run as).1.act a).mixer.settle
  occupied : ∀ as : List (Action π α), (Worker.start m).Unbroken last as →
    ∀ t ∈ m.history as, t.sources ≠ []
  period : ∀ (before : List (Action π α)) (sink : Sink π) (during : List (Action π α)),
    (Worker.start m).Unbroken last (before ++ .join sink :: during) →
    (m.run before).1.Period sink during →
      ∃ n, ((m.run before).1.run (.join sink :: during)).2.rounds =
          (List.range n).map (· * interval) ∧
        n ≤ (((m.run before).1.run (.join sink :: during)).1.clock - (m.run before).1.clock) /
          interval + 1 ∧
        (((m.run before).1.run (.join sink :: during)).1.running = true →
          n = (((m.run before).1.run (.join sink :: during)).1.clock - (m.run before).1.clock) /
            interval + 1)

/-- In every round of every period of a run that is not broken off, the sources are offered payloads
that suit the number of the round, counted from zero. -/
def Numbers (last : Nanos) (P : Nat → π → Prop) (m : Mixer κ σ π) : Prop :=
  ∀ (before : List (Action π α)) (sink : Sink π) (during : List (Action π α)),
    (Worker.start m).Unbroken last (before ++ .join sink :: during) →
    (m.run before).1.Period sink during → ∀ (k : Nat) (t : Tick κ σ π α),
      ((m.run before).1.history (.join sink :: during))[k]? = some t →
        ∀ o ∈ t.log.offers, P k o.payload

variable {last : Nanos}

theorem KeepsTime.numbers (h : m.KeepsTime last interval) {P : Nat → π → Prop}
    (hP : ∀ (k : Nat) (t : Tick κ σ π α), t.stamp = k * interval → ∀ o ∈ t.log.offers,
      P k o.payload) : m.Numbers last P := by
  intro before sink during hu hp k t ht
  obtain ⟨n, hrounds, _⟩ := h.period before sink during hu hp
  exact hP k t (stamp_of_rounds hrounds ht)

/-- A mixer of steady mixing with an interval keeps time. -/
theorem keepsTime_create [SteadyMixing κ] {room : κ} (hpos : 0 < Mixing.interval room)
    (last : Nanos) : (create room : Mixer κ σ π).KeepsTime last (Mixing.interval room) where
  carried _ hu := hu.run_eq
  settles as a _ := by
    apply polls_eq_settle
    rw [interval_act, interval_run]
    exact hpos
  occupied _ _ _ ht := sources_ne_nil_of_mem_history ht
  period _ _ _ _ hp := rounds_of_period hpos hp

end Mixer

end ConferenceMix
