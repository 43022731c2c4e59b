import ConferenceMix.Proofs.Session.Moves

/-! # Sources that put side by side

A put is a deposit when serving it is a matter of the seat of one source (`Deposits`). Deposits of
different sources commute, with all that is counted and reported (`Mixer.credit_comm`), so that only
the order among those of each source counts: `Interleaved` lists of them lead to the same mixer
(`Mixer.putsApart`). What is reported may come in another order, but not what is reported about one
source (`Log.SamePerSource`). -/

namespace ConferenceMix

/-- The source that an event is about, if there is one. -/
def Event.source? : Event → Option SourceId
  | .sourceAdded id => some id
  | .sourceRemoved id => some id
  | .overrun id _ => some id
  | .underrun id => some id
  | .layoutChanged .. => none
  | .sinkFault id .. => some id

/-! ### Interleavings -/

/-- Every source has the same entries in both lists, in the same order. -/
def Interleaved {τ : Type} (us us' : List (SourceId × τ)) : Prop :=
  ∀ id, us.filter (fun u => u.1 = id) = us'.filter fun u => u.1 = id

section Interleavings

variable {τ S : Type} {us us' : List (SourceId × τ)} {step : S → SourceId × τ → S}

/-- Only sources with entries count. -/
theorem interleaved_iff : Interleaved us us' ↔ ∀ u ∈ us ++ us',
    us.filter (fun w => w.1 = u.1) = us'.filter fun w => w.1 = u.1 := by
  constructor
  · exact fun h u _ => h u.1
  · intro h id
    by_cases hid : ∃ u ∈ us ++ us', u.1 = id
    · obtain ⟨u, hu, rfl⟩ := hid
      exact h u hu
    · have hnone : ∀ l : List (SourceId × τ), (∀ u ∈ l, u ∈ us ++ us') →
          l.filter (fun u => u.1 = id) = [] := by
        intro l hl
        rw [List.filter_eq_nil_iff]
        intro u hu hk
        exact hid ⟨u, hl u hu, by simpa using hk⟩
      rw [hnone us fun u hu => List.mem_append_left _ hu,
        hnone us' fun u hu => List.mem_append_right _ hu]

instance [DecidableEq τ] : Decidable (Interleaved us us') := decidable_of_iff _ interleaved_iff.symm

theorem Interleaved.eq_nil (h : Interleaved [] us') : us' = [] := by
  rw [List.eq_nil_iff_forall_not_mem]
  intro u hu
  have hmem : u ∈ us'.filter fun v => v.1 = u.1 := List.mem_filter.mpr ⟨hu, by simp⟩
  rw [← h u.1] at hmem
  cases hmem

/-- The first entry of a list is in the other list behind entries of other sources. -/
theorem Interleaved.split {u : SourceId × τ} (h : Interleaved (u :: us) us') :
    ∃ pre post, us' = pre ++ u :: post ∧ (∀ w ∈ pre, w.1 ≠ u.1) ∧ Interleaved us (pre ++ post) := by
  have hu := h u.1
  rw [List.filter_cons_of_pos (by simp), eq_comm, List.filter_eq_cons_iff] at hu
  obtain ⟨pre, post, rfl, hpre, _, hpost⟩ := hu
  have hne : ∀ w ∈ pre, w.1 ≠ u.1 := fun w hw => by simpa using hpre w hw
  refine ⟨pre, post, rfl, hne, ?_⟩
  intro id
  by_cases hid : u.1 = id
  · subst hid
    rw [List.filter_append, List.filter_eq_nil_iff.mpr hpre, List.nil_append, hpost]
  · have hi := h id
    rw [List.filter_cons_of_neg (by simpa using hid), List.filter_append,
      List.filter_cons_of_neg (by simpa using hid), ← List.filter_append] at hi
    exact hi

variable (hcomm : ∀ s u w, u.1 ≠ w.1 → step (step s u) w = step (step s w) u)

include hcomm

/-- A step can be taken before those of other sources. -/
theorem foldl_step_first {u : SourceId × τ} {pre : List (SourceId × τ)}
    (h : ∀ w ∈ pre, w.1 ≠ u.1) (s : S) :
    step (pre.foldl step s) u = pre.foldl step (step s u) := by
  induction pre generalizing s with
  | nil => rfl
  | cons w pre ih =>
      rw [List.foldl_cons, ih fun v hv => h v (List.mem_cons_of_mem w hv), List.foldl_cons,
        hcomm s w u (h w (List.mem_cons_self ..))]

/-- Steps of different sources that commute may be interleaved. -/
theorem Interleaved.foldl_eq (h : Interleaved us us') (s : S) :
    us.foldl step s = us'.foldl step s := by
  induction us generalizing us' s with
  | nil => rw [h.eq_nil]
  | cons u us ih =>
      obtain ⟨pre, post, rfl, hpre, hrest⟩ := h.split
      calc us.foldl step (step s u) = (pre ++ post).foldl step (step s u) := ih hrest _
        _ = post.foldl step (pre.foldl step (step s u)) := List.foldl_append
        _ = post.foldl step (step (pre.foldl step s) u) := by rw [foldl_step_first hcomm hpre]
        _ = (pre ++ u :: post).foldl step s := by rw [List.foldl_append, List.foldl_cons]

end Interleavings

/-! ### Deposits -/

/-- What comes of a put: what is kept for the source, how many queues ran over, and what is
reported. -/
structure Deposit (σ : Type) where
  seat : σ
  overruns : Nat
  events : List Event

/-- Puts are served with regard to the seat of the source that puts and to nothing else, and the
reports are about that source. -/
structure Deposits (κ : Type) {σ π α β τ : Type} [Mixing κ σ π α β] (put : SourceId → τ → α)
    (deposit : SourceId → τ → σ → Deposit σ) : Prop where
  room : ∀ (room : κ) (now : Nanos) (seated : List (SourceId × σ)) (id : SourceId) (x : τ),
    (Mixing.serve room now seated (put id x)).room = room
  seats : ∀ (room : κ) (now : Nanos) (seated : List (SourceId × σ)) (id : SourceId) (x : τ),
    (Mixing.serve room now seated (put id x)).seats =
      seated.map fun m => if m.1 = id then (deposit id x m.2).seat else m.2
  overruns : ∀ (room : κ) (now : Nanos) (seated : List (SourceId × σ)) (id : SourceId) (x : τ),
    (Mixing.serve room now seated (put id x)).overruns =
      (seated.find? fun m => m.1 = id).elim 0 fun m => (deposit id x m.2).overruns
  events : ∀ (room : κ) (now : Nanos) (seated : List (SourceId × σ)) (id : SourceId) (x : τ),
    (Mixing.serve room now seated (put id x)).events =
      (seated.find? fun m => m.1 = id).elim [] fun m => (deposit id x m.2).events
  about : ∀ (id : SourceId) (x : τ) (s : σ), ∀ e ∈ (deposit id x s).events, e.source? = some id

namespace Roster

variable {σ π : Type}

/-- Replaces what is kept for a source. -/
def modifySeat (r : Roster σ π) (id : SourceId) (g : σ → σ) : Roster σ π :=
  { r with members := r.members.map fun m => if m.id = id then { m with seat := g m.seat } else m }

theorem reseat_modify (r : Roster σ π) (id : SourceId) (g : σ → σ) :
    r.reseat (r.seated.map fun m => if m.1 = id then g m.2 else m.2) = r.modifySeat id g := by
  have h : ∀ ms : List (Member σ π), assign ms ((ms.map fun m => (m.id, m.seat)).map fun m =>
      if m.1 = id then g m.2 else m.2) =
        ms.map fun m => if m.id = id then { m with seat := g m.seat } else m := by
    intro ms
    induction ms with
    | nil => rfl
    | cons m ms ih =>
        simp only [List.map_cons, assign, ih, List.cons.injEq, and_true]
        split <;> rfl
  exact congrArg (fun ms => { r with members := ms }) (h r.members)

theorem modifySeat_comm {i j : SourceId} (h : i ≠ j) (r : Roster σ π) (f g : σ → σ) :
    (r.modifySeat i f).modifySeat j g = (r.modifySeat j g).modifySeat i f := by
  simp only [modifySeat, List.map_map]
  congr 1
  apply List.map_congr_left
  intro m _
  simp only [Function.comp]
  by_cases hi : m.id = i
  · simp [hi, h]
  · by_cases hj : m.id = j <;> simp [hi, hj, h.symm]

theorem find?_modifySeat_of_ne {i j : SourceId} (h : i ≠ j) (r : Roster σ π) (g : σ → σ) :
    (r.modifySeat j g).find? i = r.find? i := by
  unfold find? modifySeat
  induction r.members with
  | nil => rfl
  | cons m ms ih =>
      by_cases hi : m.id = i
      · have hj : m.id ≠ j := fun hj => h (hi.symm.trans hj)
        rw [List.map_cons, if_neg hj, List.find?_cons_of_pos (by simpa using hi),
          List.find?_cons_of_pos (by simpa using hi)]
      · rw [List.map_cons, List.find?_cons_of_neg, List.find?_cons_of_neg (by simpa using hi)]
        · exact ih
        · split <;> simpa using hi

theorem find?_seated (r : Roster σ π) (id : SourceId) :
    (r.seated.find? fun m => m.1 = id) = (r.find? id).map fun m => (m.id, m.seat) := by
  rw [seated, List.find?_map]
  rfl

end Roster

namespace Mixer

variable {κ σ π α β τ : Type} {m : Mixer κ σ π}

/-- The mixer after a deposit of a source. -/
def credit (m : Mixer κ σ π) (id : SourceId) (d : σ → Deposit σ) : Mixer κ σ π :=
  { m with
    roster := m.roster.modifySeat id fun s => (d s).seat
    tally := { m.tally with
      overruns := m.tally.overruns + (m.roster.find? id).elim 0 fun y => (d y.seat).overruns } }

/-- What is reported of a deposit. -/
def receipt (m : Mixer κ σ π) (id : SourceId) (d : σ → Deposit σ) : List Event :=
  (m.roster.find? id).elim [] fun y => (d y.seat).events

theorem receipt_credit {i j : SourceId} (h : i ≠ j) (m : Mixer κ σ π) (d e : σ → Deposit σ) :
    (m.credit j e).receipt i d = m.receipt i d := by
  simp only [receipt, credit, Roster.find?_modifySeat_of_ne h]

/-- Deposits of different sources commute. -/
theorem credit_comm {i j : SourceId} (h : i ≠ j) (m : Mixer κ σ π) (d e : σ → Deposit σ) :
    (m.credit i d).credit j e = (m.credit j e).credit i d := by
  simp only [credit, Roster.find?_modifySeat_of_ne h, Roster.find?_modifySeat_of_ne h.symm,
    Roster.modifySeat_comm h, Nat.add_right_comm]

/-- Books a deposit: the mixer after it, and what has been reported of every source so far. -/
def book (deposit : SourceId → τ → σ → Deposit σ)
    (s : Mixer κ σ π × (Option SourceId → List Event)) (u : SourceId × τ) :
    Mixer κ σ π × (Option SourceId → List Event) :=
  (s.1.credit u.1 (deposit u.1 u.2), fun who =>
    s.2 who ++ (s.1.receipt u.1 (deposit u.1 u.2)).filter fun e => e.source? = who)

variable [Mixing κ σ π α β] {put : SourceId → τ → α} {deposit : SourceId → τ → σ → Deposit σ}

/-- Whoever puts makes a deposit. -/
theorem act_put (h : Deposits κ put deposit) (m : Mixer κ σ π) (id : SourceId) (x : τ) :
    (m.act (.ask (put id x))).mixer = m.credit id (deposit id x) ∧
      (m.act (.ask (put id x))).events = m.receipt id (deposit id x) := by
  constructor
  · have hseats := m.roster.reseat_modify id fun s => (deposit id x s).seat
    simp only [act, ask, h.room, h.seats, h.overruns, hseats, Roster.find?_seated, credit]
    cases m.roster.find? id <;> rfl
  · simp only [act, ask, h.events, Roster.find?_seated, receipt]
    cases m.roster.find? id <;> rfl

/-- What is reported of a deposit is reported about the source that makes it. -/
theorem filter_receipt (h : Deposits κ put deposit) (m : Mixer κ σ π) {id : SourceId}
    {who : Option SourceId} (hne : some id ≠ who) (x : τ) :
    (m.receipt id (deposit id x)).filter (fun e => e.source? = who) = [] := by
  rw [List.filter_eq_nil_iff]
  intro e he hw
  unfold receipt at he
  cases hf : m.roster.find? id with
  | none =>
      rw [hf] at he
      cases he
  | some y =>
      rw [hf] at he
      have hsource : e.source? = who := by simpa using hw
      exact hne ((h.about id x y.seat e he).symm.trans hsource)

theorem book_comm (h : Deposits κ put deposit)
    (s : Mixer κ σ π × (Option SourceId → List Event)) (u w : SourceId × τ) (hne : u.1 ≠ w.1) :
    book deposit (book deposit s u) w = book deposit (book deposit s w) u := by
  refine Prod.ext (credit_comm hne _ _ _) (funext fun who => ?_)
  simp only [book, receipt_credit hne, receipt_credit hne.symm, List.append_assoc]
  congr 1
  -- at most one of the two sources is the one that is asked about
  by_cases hu : some u.1 = who
  · have hw : some w.1 ≠ who := fun hw => hne (Option.some.inj (hu.trans hw.symm))
    rw [filter_receipt h s.1 hw, List.append_nil, List.nil_append]
  · rw [filter_receipt h s.1 hu, List.append_nil, List.nil_append]

/-- The moves that put one thing after another. -/
def puts (put : SourceId → τ → α) (us : List (SourceId × τ)) : List (Action π α) :=
  us.map fun u => .ask (put u.1 u.2)

end Mixer

/-- The same rounds take place and the same offers are made, and every source has the same reports in
the same order. -/
structure Log.SamePerSource {π : Type} (l l' : Log π) : Prop where
  rounds : l.rounds = l'.rounds
  offers : l.offers = l'.offers
  events : ∀ who, l.events.filter (fun e => e.source? = who) =
    l'.events.filter fun e => e.source? = who

namespace Mixer

variable {κ σ π α β τ : Type} [Mixing κ σ π α β] {m : Mixer κ σ π} {put : SourceId → τ → α}
  {deposit : SourceId → τ → σ → Deposit σ}

/-- Puts come to deposits, and no round takes place. -/
theorem follow_puts (h : Deposits κ put deposit) (us : List (SourceId × τ)) (m : Mixer κ σ π)
    (told : Option SourceId → List Event) :
    us.foldl (book deposit) (m, told) = ((m.follow ((puts put us).map .act)).1, fun who =>
      told who ++ (m.follow ((puts put us).map .act)).2.events.filter fun e => e.source? = who) ∧
    (m.follow ((puts put us).map .act)).2.rounds = [] ∧
    (m.follow ((puts put us).map .act)).2.offers = [] := by
  induction us generalizing m told with
  | nil => simp [puts, follow, Log.empty]
  | cons u us ih =>
      obtain ⟨hmixer, hevents⟩ := act_put h m u.1 u.2
      obtain ⟨hfold, hrounds, hoffers⟩ := ih (m.act (.ask (put u.1 u.2))).mixer
        fun who => told who ++ (m.receipt u.1 (deposit u.1 u.2)).filter fun e => e.source? = who
      have hcons : m.follow ((puts put (u :: us)).map .act) =
          (((m.act (.ask (put u.1 u.2))).mixer.follow ((puts put us).map .act)).1,
            eventsOnly (m.act (.ask (put u.1 u.2))).events ++
              ((m.act (.ask (put u.1 u.2))).mixer.follow ((puts put us).map .act)).2) := rfl
      rw [hcons]
      refine ⟨?_, hrounds, hoffers⟩
      have hfirst : book deposit (m, told) u = ((m.act (.ask (put u.1 u.2))).mixer, fun who =>
          told who ++ (m.receipt u.1 (deposit u.1 u.2)).filter fun e => e.source? = who) := by
        rw [hmixer]
        rfl
      rw [List.foldl_cons, hfirst, hfold, hevents]
      simp only [Log.events_append, eventsOnly, List.filter_append, List.append_assoc]

/-- Interleaved puts lead to the same mixer, and every source has the same reports. -/
theorem follow_interleaved (h : Deposits κ put deposit) {us us' : List (SourceId × τ)}
    (hi : Interleaved us us') (m : Mixer κ σ π) :
    (m.follow ((puts put us).map .act)).1 = (m.follow ((puts put us').map .act)).1 ∧
      (m.follow ((puts put us).map .act)).2.SamePerSource
        (m.follow ((puts put us').map .act)).2 := by
  obtain ⟨hfold, hrounds, hoffers⟩ := follow_puts h us m fun _ => []
  obtain ⟨hfold', hrounds', hoffers'⟩ := follow_puts h us' m fun _ => []
  have heq := hfold.symm.trans ((hi.foldl_eq (book_comm h) _).trans hfold')
  obtain ⟨hmixer, hevents⟩ := Prod.mk.inj heq
  exact ⟨hmixer, hrounds.trans hrounds'.symm, hoffers.trans hoffers'.symm,
    fun who => congrFun hevents who⟩

/-! ### Puts in runs -/

/-- Nothing is left to do exactly when the mixer has stopped or knows its timeline, on which no round
is due. -/
theorem settle_eq_self_iff {m : Mixer κ σ π} : m.settle = (m, .empty) ↔
    (m.running = true → m.schedule = m.timeline ∧ ∀ t, m.timeline = some t → m.clock < t.due) := by
  constructor
  · intro h hr
    cases hs : m.schedule with
    | none =>
        rw [settle_of_unscheduled hr hs] at h
        have ht : none = m.timeline := congrArg (fun p => p.1.timeline) h
        exact ⟨ht, fun t he => by rw [← ht] at he; cases he⟩
    | some t =>
        rw [settle_of_schedule hr hs] at h
        by_cases hd : m.clock < t.due
        · rw [show m.dueRounds t = 0 from if_pos hd] at h
          have ht : some t = m.timeline := congrArg (fun p => p.1.timeline) h
          refine ⟨ht, fun t' he => ?_⟩
          rw [← ht] at he
          cases he
          exact hd
        · rw [show m.dueRounds t = _ + 1 from if_neg hd,
            rounds_succ _ (m := { m with timeline := some t }) hr rfl] at h
          exact absurd (congrArg (fun p => p.2.rounds) h) (by simp [round, Log.empty])
  · intro h
    by_cases hr : m.running = true
    · obtain ⟨hs, hd⟩ := h hr
      cases ht : m.timeline with
      | none =>
          rw [settle_of_unscheduled hr (hs.trans ht), ← ht]
      | some t =>
          rw [settle_of_schedule hr (hs.trans ht), show m.dueRounds t = 0 from if_pos (hd t ht), ← ht]
          rfl
    · exact settle_of_not_running (by simpa using hr)

/-- A request makes no round due. -/
theorem settle_ask {m : Mixer κ σ π} (hs : m.settle = (m, .empty)) (r : α) :
    (m.act (.ask r)).mixer.settle = ((m.act (.ask r)).mixer, .empty) := by
  rw [settle_eq_self_iff] at hs ⊢
  intro hr
  obtain ⟨hschedule, hdue⟩ := hs hr
  have hids : (m.act (.ask r)).mixer.roster.ids = m.roster.ids := m.roster.ids_reseat _
  have hsame : (m.act (.ask r)).mixer.schedule = m.schedule := schedule_congr hids rfl rfl
  exact ⟨hsame.trans hschedule, hdue⟩

/-- In a mixer that has nothing left to do, puts are not followed by rounds. -/
theorem run_puts (hs : m.settle = (m, .empty)) (us : List (SourceId × τ)) :
    m.run (puts put us) = m.follow ((puts put us).map .act) := by
  induction us generalizing m with
  | nil => rfl
  | cons u us ih =>
      have hstep : m.run (puts put (u :: us)) =
          (((m.step (.ask (put u.1 u.2))).mixer.run (puts put us)).1,
            (m.step (.ask (put u.1 u.2))).log ++
              ((m.step (.ask (put u.1 u.2))).mixer.run (puts put us)).2) := rfl
      have hsettled := settle_ask hs (put u.1 u.2)
      have hmixer : (m.step (.ask (put u.1 u.2))).mixer = (m.act (.ask (put u.1 u.2))).mixer :=
        congrArg Prod.fst hsettled
      rw [hstep, hmixer, log_step, hsettled, Log.append_empty, ih hsettled]
      rfl

/-! ### Producers -/

/-- Whatever the sources put in a mixer that can be reached, only the order among the puts of each
source counts: the same mixer comes of all interleavings, whatever moves come after them, with the
same rounds and offers, and the same reports about every source. The same holds in the course of a
run. -/
structure PutsApart (m₀ : Mixer κ σ π) (put : SourceId → τ → α) : Prop where
  follow : ∀ m, m₀.Reachable m → ∀ us us' : List (SourceId × τ), Interleaved us us' →
    ∀ vs : List (Move π α),
      (m.follow ((puts put us).map .act ++ vs)).1 = (m.follow ((puts put us').map .act ++ vs)).1 ∧
      (m.follow ((puts put us).map .act ++ vs)).2.SamePerSource
        (m.follow ((puts put us').map .act ++ vs)).2
  run : ∀ (as bs : List (Action π α)) (us us' : List (SourceId × τ)), Interleaved us us' →
    (m₀.run (as ++ puts put us ++ bs)).1 = (m₀.run (as ++ puts put us' ++ bs)).1 ∧
      (m₀.run (as ++ puts put us ++ bs)).2.SamePerSource (m₀.run (as ++ puts put us' ++ bs)).2

end Mixer

theorem Log.SamePerSource.append {π : Type} {k l l' k' : Log π} (h : l.SamePerSource l') :
    (k ++ l ++ k').SamePerSource (k ++ l' ++ k') where
  rounds := by simp only [Log.rounds_append, h.rounds]
  offers := by simp only [Log.offers_append, h.offers]
  events who := by simp only [Log.events_append, List.filter_append, h.events]

namespace Mixer

variable {κ σ π α β τ : Type} [Mixing κ σ π α β] {put : SourceId → τ → α}
  {deposit : SourceId → τ → σ → Deposit σ}

/-- **Producers do not interfere**, if their puts are deposits. -/
theorem putsApart [SteadyMixing κ] (h : Deposits κ put deposit) {room : κ}
    (hpos : 0 < Mixing.interval room) : (create room : Mixer κ σ π).PutsApart put where
  follow m _ us us' hi vs := by
    obtain ⟨hmixer, hlog⟩ := follow_interleaved h hi m
    rw [follow_append, follow_append, hmixer]
    exact ⟨rfl, hlog.append (k := .empty)⟩
  run as bs us us' hi := by
    obtain ⟨_, hs⟩ := settle_run hpos (settle_create room) as
    obtain ⟨hmixer, hlog⟩ := follow_interleaved h hi ((create room : Mixer κ σ π).run as).1
    rw [run_append, run_append, run_append, run_append, run_puts hs, run_puts hs, hmixer]
    exact ⟨rfl, hlog.append⟩

end Mixer

end ConferenceMix
