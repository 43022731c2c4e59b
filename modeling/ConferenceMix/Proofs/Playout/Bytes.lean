import ConferenceMix.Playout.Operation

/-! # The bytes that pass through a playout queue

What each operation does to the bytes of a queue, front to back, and to the number of bytes held.
Draining takes the first bytes and leaves the others (`unreadBytes_drain`); a read that does not
wait is a drain (`read_eq_takeOut`), and so gives out the front of the queue and keeps the rest
(`bytes_read`, `unread_read`); eviction drops the fragment at the front or nothing
(`evict_cases`). A queue is `Accounted` when it holds as many bytes as it says; every operation
keeps it so (`accounted_apply`). -/

namespace ConferenceMix

open Pcm

/-! ### Draining -/

theorem unreadBytes_cons (q : Queued) (qs : List Queued) :
    unreadBytes (q :: qs) = q.unread ++ unreadBytes qs := by
  simp [unreadBytes]

theorem length_unreadBytes_cons (q : Queued) (qs : List Queued) :
    (unreadBytes (q :: qs)).length = q.remaining + (unreadBytes qs).length := by
  rw [unreadBytes_cons, List.length_append, q.length_unread]

theorem unreadBytes_append (ps qs : List Queued) :
    unreadBytes (ps ++ qs) = unreadBytes ps ++ unreadBytes qs := by
  simp [unreadBytes]

/-- What draining leaves is what lay behind the bytes taken. -/
theorem unreadBytes_drain (n : Nat) (qs : List Queued) :
    unreadBytes (drain n qs).2 = (unreadBytes qs).drop n := by
  have h := drain_append n qs
  rw [drain_fst] at h
  exact List.append_cancel_left (h.trans (List.take_append_drop n (unreadBytes qs)).symm)

/-- A fragment that is left by draining was queued before, or is the rest of one that was. -/
theorem mem_drain {n : Nat} {qs : List Queued} {e : Queued} (he : e ∈ (drain n qs).2) :
    e ∈ qs ∨ ∃ f ∈ qs, ∃ k, e = f.advance k := by
  induction qs generalizing n with
  | nil => simp at he
  | cons q qs ih =>
      by_cases hn : n = 0
      · subst hn
        rw [drain_zero] at he
        exact .inl he
      · by_cases h : q.remaining ≤ n
        · rw [drain_cons_of_le qs hn h] at he
          rcases ih he with hm | ⟨f, hf, k, rfl⟩
          · exact .inl (List.mem_cons_of_mem q hm)
          · exact .inr ⟨f, List.mem_cons_of_mem q hf, k, rfl⟩
        · rw [drain_cons_of_lt qs hn (by omega)] at he
          rcases List.mem_cons.mp he with rfl | hm
          · exact .inr ⟨q, List.mem_cons_self .., n, rfl⟩
          · exact .inl (List.mem_cons_of_mem q hm)

theorem Queued.remaining_advance (e : Queued) (n : Nat) :
    (e.advance n).remaining = e.remaining - n := by
  simp only [advance, remaining]
  omega

theorem length_drain_le (n : Nat) (qs : List Queued) : (drain n qs).2.length ≤ qs.length := by
  induction qs generalizing n with
  | nil => simp
  | cons q qs ih =>
      by_cases hn : n = 0
      · subst hn; simp
      · by_cases h : q.remaining ≤ n
        · rw [drain_cons_of_le qs hn h, List.length_cons]
          exact Nat.le_succ_of_le (ih _)
        · rw [drain_cons_of_lt qs hn (by omega)]
          exact Nat.le_refl _

/-- Draining leaves no fragment that is used up. -/
theorem remaining_pos_of_mem_drain {n : Nat} {qs : List Queued} (h : ∀ e ∈ qs, 0 < e.remaining)
    {e : Queued} (he : e ∈ (drain n qs).2) : 0 < e.remaining := by
  induction qs generalizing n with
  | nil => simp at he
  | cons q qs ih =>
      obtain ⟨_, hqs⟩ := List.forall_mem_cons.mp h
      by_cases hn : n = 0
      · subst hn
        rw [drain_zero] at he
        exact h e he
      · by_cases hr : q.remaining ≤ n
        · rw [drain_cons_of_le qs hn hr] at he
          exact ih hqs he
        · rw [drain_cons_of_lt qs hn (by omega)] at he
          rcases List.mem_cons.mp he with rfl | hm
          · rw [Queued.remaining_advance]
            omega
          · exact hqs e hm

namespace PlayoutQueue

variable {q : PlayoutQueue}

/-- The queue holds as many bytes as it says. -/
def Accounted (q : PlayoutQueue) : Prop := q.held = q.unread.length

/-- The queue waits for its wish: it gives nothing out. -/
def Waits (q : PlayoutQueue) : Prop := q.filling = true ∧ q.held < q.wish

instance (q : PlayoutQueue) : Decidable q.Waits := inferInstanceAs (Decidable (_ ∧ _))

/-- The queue plays and holds fewer than `n` bytes. -/
def RunsShort (q : PlayoutQueue) (n : Nat) : Prop := q.filling = false ∧ q.held < n

instance (q : PlayoutQueue) (n : Nat) : Decidable (q.RunsShort n) :=
  inferInstanceAs (Decidable (_ ∧ _))

/-- What it takes for a queue to be made, and what it is then. -/
theorem eq_of_create {wish : Nat} {cap : Option Nat} (h : create wish cap = .ok q) :
    wish ≠ 0 ∧ cap ≠ some 0 ∧ q = ⟨wish, cap, [], 0, true, none, 0, 0⟩ := by
  unfold create at h
  split at h
  · cases h
  · split at h
    · cases h
    · cases h
      exact ⟨by assumption, by assumption, rfl⟩

theorem accounted_create {wish : Nat} {cap : Option Nat} (h : create wish cap = .ok q) :
    q.Accounted ∧ q.queued = [] := by
  obtain ⟨_, _, rfl⟩ := eq_of_create h
  exact ⟨rfl, rfl⟩

/-! ### Reading -/

theorem read_of_waits (h : q.Waits) (n : Nat) : q.read n = (q, .silent .filling n) := by
  unfold read
  rw [if_pos h.1, if_pos h.2]

/-- A queue that does not wait is drained. If it runs short, that counts as an underrun and it is
filling afterwards. -/
theorem read_eq_takeOut (h : ¬ q.Waits) (n : Nat) :
    q.read n =
      { q with
        filling := decide (q.RunsShort n)
        underruns := if q.RunsShort n then q.underruns + 1 else q.underruns }.takeOut
          (if q.RunsShort n then .underrun else .filled) n := by
  unfold read
  by_cases hf : q.filling = true
  · have hw : ¬ q.held < q.wish := fun hw => h ⟨hf, hw⟩
    have hr : ¬ q.RunsShort n := fun hr => Bool.noConfusion (hf.symm.trans hr.1)
    rw [if_pos hf, if_neg hw, if_neg hr, if_neg hr, decide_eq_false hr]
  · have hf' : q.filling = false := by simpa using hf
    rw [if_neg hf]
    by_cases hn : q.held < n
    · have hr : q.RunsShort n := ⟨hf', hn⟩
      rw [if_pos hn, if_pos hr, if_pos hr, decide_eq_true hr]
    · have hr : ¬ q.RunsShort n := fun hr => hn hr.2
      rw [if_neg hn, if_neg hr, if_neg hr, decide_eq_false hr, ← hf']

/-- The number of bytes that a read of `n` bytes may take. -/
def allowance (q : PlayoutQueue) (n : Nat) : Nat := if q.Waits then 0 else n

theorem queued_read (q : PlayoutQueue) (n : Nat) :
    (q.read n).1.queued = (drain (q.allowance n) q.queued).2 := by
  unfold allowance
  by_cases h : q.Waits
  · rw [read_of_waits h, if_pos h, drain_zero]
  · rw [read_eq_takeOut h n, if_neg h]
    rfl

theorem filling_read (q : PlayoutQueue) (n : Nat) :
    (q.read n).1.filling = if q.Waits then true else decide (q.RunsShort n) := by
  by_cases h : q.Waits
  · rw [read_of_waits h, if_pos h]
    exact h.1
  · rw [read_eq_takeOut h n, if_neg h]
    rfl

theorem status_read (q : PlayoutQueue) (n : Nat) :
    (q.read n).2.status =
      if q.Waits then .filling else if q.RunsShort n then .underrun else .filled := by
  by_cases h : q.Waits
  · rw [read_of_waits h, if_pos h]
    rfl
  · rw [read_eq_takeOut h n, if_neg h]
    rfl

/-- A read gives out bytes from the front and fills up with silence. -/
theorem output_read (q : PlayoutQueue) (n : Nat) :
    (q.read n).2.output = q.unread.take (q.allowance n) ++
      List.replicate (n - (q.unread.take (q.allowance n)).length) 0 := by
  unfold allowance
  by_cases h : q.Waits
  · rw [read_of_waits h, if_pos h]
    simp [ReadResult.silent]
  · rw [read_eq_takeOut h n, if_neg h, unread, ← drain_fst]
    rfl

theorem count_read (q : PlayoutQueue) (n : Nat) :
    (q.read n).2.count = (q.unread.take (q.allowance n)).length := by
  unfold allowance
  by_cases h : q.Waits
  · rw [read_of_waits h, if_pos h]
    rfl
  · rw [read_eq_takeOut h n, if_neg h, unread, ← drain_fst]
    rfl

theorem held_read (q : PlayoutQueue) (n : Nat) :
    (q.read n).1.held = q.held - (q.unread.take (q.allowance n)).length := by
  unfold allowance
  by_cases h : q.Waits
  · rw [read_of_waits h, if_pos h]
    simp
  · rw [read_eq_takeOut h n, if_neg h, unread, ← drain_fst]
    rfl

/-- A read changes neither the limits nor the times of the timed reads. -/
theorem limits_read (q : PlayoutQueue) (n : Nat) :
    (q.read n).1.wish = q.wish ∧ (q.read n).1.cap = q.cap ∧
      (q.read n).1.nextRead = q.nextRead ∧ (q.read n).1.overruns = q.overruns := by
  by_cases h : q.Waits
  · rw [read_of_waits h]
    exact ⟨rfl, rfl, rfl, rfl⟩
  · rw [read_eq_takeOut h n]
    exact ⟨rfl, rfl, rfl, rfl⟩

/-- The bytes that a read gives out are the first of the queue. -/
theorem bytes_read (q : PlayoutQueue) (n : Nat) :
    (q.read n).2.output.take (q.read n).2.count = q.unread.take (q.allowance n) := by
  rw [output_read, count_read, List.take_left']
  rfl

theorem unread_read (q : PlayoutQueue) (n : Nat) :
    (q.read n).1.unread = q.unread.drop (q.allowance n) := by
  rw [unread, queued_read, unreadBytes_drain]
  rfl

theorem accounted_read (h : q.Accounted) (n : Nat) : (q.read n).1.Accounted := by
  unfold Accounted at h ⊢
  rw [held_read, unread_read, h, List.length_take, List.length_drop]
  omega

/-- The queue after the timeline of its timed reads has moved on by one interval. -/
def schedule (q : PlayoutQueue) (now interval : Nanos) : PlayoutQueue :=
  { q with nextRead := some (q.nextRead.getD now + interval) }

/-- A timed read is refused, does nothing because it is early, or is a read. -/
theorem apply_timedRead_cases (q : PlayoutQueue) (now interval : Nanos) (n : Nat) :
    (interval = 0 ∧
      (Operation.timedRead n interval).apply now q = (q, .refused (.zero "ptime"))) ∨
      (interval ≠ 0 ∧ now < q.nextRead.getD now ∧
        (Operation.timedRead n interval).apply now q = (q, .timedRead .early)) ∨
      (interval ≠ 0 ∧ q.nextRead.getD now ≤ now ∧
        (Operation.timedRead n interval).apply now q =
          (((q.schedule now interval).read n).1,
            .timedRead (.read ((q.schedule now interval).read n).2))) := by
  unfold Operation.apply timedRead
  by_cases hi : interval = 0
  · exact .inl ⟨hi, by simp [hi]⟩
  · by_cases hd : now < q.nextRead.getD now
    · exact .inr (.inl ⟨hi, hd, by simp [hi, hd]⟩)
    · exact .inr (.inr ⟨hi, Nat.le_of_not_lt hd, by simp [hi, hd, schedule]⟩)

/-- What holds of a queue, whenever its next timed read is due, and is kept by reads is kept by timed
reads. -/
theorem timedRead_keeps {P : PlayoutQueue → Prop} (hq : P q) {now interval : Nanos}
    (hd : P (q.schedule now interval)) {n : Nat} (hread : ∀ r, P r → P (r.read n).1) :
    P ((Operation.timedRead n interval).apply now q).1 := by
  rcases apply_timedRead_cases q now interval n with ⟨_, he⟩ | ⟨_, _, he⟩ | ⟨_, _, he⟩
  · rw [he]
    exact hq
  · rw [he]
    exact hq
  · rw [he]
    exact hread _ hd

/-! ### Writing -/

/-- Eviction does nothing as long as the cap is kept, and otherwise drops the fragment at the
front. -/
theorem evict_cases (q : PlayoutQueue) :
    (q.evict = (q, 0) ∧ ∀ cap, q.cap = some cap → q.queued ≠ [] → q.held ≤ cap) ∨
      ∃ cap front rest, q.cap = some cap ∧ cap < q.held ∧ q.queued = front :: rest ∧
        q.evict = ({ q with
          queued := rest
          held := q.held - front.remaining
          overruns := q.overruns + 1 }, front.remaining) := by
  unfold evict
  split
  · rename_i cap front rest hc hq
    split
    · rename_i hle
      refine .inl ⟨rfl, ?_⟩
      intro cap' hc' _
      rw [hc] at hc'
      cases hc'
      exact hle
    · rename_i hlt
      exact .inr ⟨cap, front, rest, hc, by omega, hq, rfl⟩
  · rename_i hno
    refine .inl ⟨rfl, ?_⟩
    intro cap hc hne
    obtain ⟨front, rest, hq⟩ := List.exists_cons_of_ne_nil hne
    exact absurd hq (hno cap front rest hc)

theorem queued_evict (q : PlayoutQueue) :
    q.evict.1.queued = q.queued.drop (q.count - q.evict.1.count) := by
  rcases q.evict_cases with ⟨he, _⟩ | ⟨_, front, rest, _, _, hq, he⟩
  · rw [he, Nat.sub_self, List.drop_zero]
  · rw [he]
    simp [count, hq]

theorem mem_evict {e : Queued} (he : e ∈ q.evict.1.queued) : e ∈ q.queued :=
  List.mem_of_mem_drop (q.queued_evict ▸ he)

theorem limits_evict (q : PlayoutQueue) : q.evict.1.wish = q.wish ∧ q.evict.1.cap = q.cap := by
  rcases q.evict_cases with ⟨he, _⟩ | ⟨_, _, _, _, _, _, he⟩ <;> rw [he] <;> exact ⟨rfl, rfl⟩

theorem insertAt_of_ne_nil {f : Fragment} (hf : f.data ≠ []) (q : PlayoutQueue) (k : Nat) :
    q.insertAt k f = (q.placed k f).evict := if_neg hf

theorem insertAt_of_nil {f : Fragment} (hf : f.data = []) (q : PlayoutQueue) (k : Nat) :
    q.insertAt k f = (q, 0) := if_pos hf

/-- The queue with a fragment in its place, before anything is dropped for it. -/
def insert (q : PlayoutQueue) (f : Fragment) : PlayoutQueue := q.placed (q.position f.timestamp) f

theorem append_of_ne_nil {f : Fragment} (hf : f.data ≠ []) (q : PlayoutQueue) :
    q.append f = (q.insert f).evict := insertAt_of_ne_nil hf q _

theorem append_of_nil {f : Fragment} (hf : f.data = []) (q : PlayoutQueue) :
    q.append f = (q, 0) := insertAt_of_nil hf q _

/-- Queueing changes neither the wish nor the cap. -/
theorem limits_insertAt (q : PlayoutQueue) (k : Nat) (f : Fragment) :
    (q.insertAt k f).1.wish = q.wish ∧ (q.insertAt k f).1.cap = q.cap := by
  unfold insertAt
  split
  · exact ⟨rfl, rfl⟩
  · exact limits_evict _

/-- Queueing a fragment does not touch the timeline of timed reads. -/
theorem nextRead_insertAt (q : PlayoutQueue) (k : Nat) (f : Fragment) :
    (q.insertAt k f).1.nextRead = q.nextRead := by
  by_cases hf : f.data = []
  · rw [insertAt_of_nil hf]
  · rw [insertAt_of_ne_nil hf]
    rcases (q.placed k f).evict_cases with ⟨he, _⟩ | ⟨_, _, _, _, _, _, he⟩ <;> rw [he] <;> rfl

theorem evict_of_uncapped (h : q.cap = none) : q.evict = (q, 0) := by
  unfold evict
  rw [h]

theorem accounted_evict (h : q.Accounted) : q.evict.1.Accounted := by
  rcases evict_cases q with ⟨he, _⟩ | ⟨cap, front, rest, _, _, hq, he⟩
  · rw [he]
    exact h
  · unfold Accounted unread at h ⊢
    rw [he]
    rw [hq, length_unreadBytes_cons] at h
    simp only
    omega

theorem accounted_insertAt (h : q.Accounted) (k : Nat) (f : Fragment) :
    (q.insertAt k f).1.Accounted := by
  unfold insertAt
  split
  · exact h
  · apply accounted_evict
    unfold Accounted unread at h ⊢
    have hs : unreadBytes q.queued =
        unreadBytes (q.queued.take k) ++ unreadBytes (q.queued.drop k) := by
      rw [← unreadBytes_append, List.take_append_drop]
    rw [hs, List.length_append] at h
    simp only [placed, unreadBytes_append, unreadBytes_cons, List.length_append, Queued.length_unread,
      Queued.remaining]
    omega

/-! ### All operations -/

theorem accounted_sort (h : q.Accounted) : q.sort.Accounted := by
  have hp : q.sort.queued.Perm q.queued := List.mergeSort_perm _ _
  unfold Accounted unread unreadBytes at h ⊢
  rw [(hp.flatMap_right Queued.unread).length_eq]
  exact h

/-- No operation changes the wish or the cap. -/
theorem limits_apply (op : Operation) (now : Nanos) (q : PlayoutQueue) :
    (op.apply now q).1.wish = q.wish ∧ (op.apply now q).1.cap = q.cap := by
  cases op with
  | append f => exact q.limits_insertAt _ f
  | write data => exact q.limits_insertAt _ (.untimed data)
  | read n =>
      obtain ⟨hw, hc, _⟩ := q.limits_read n
      exact ⟨hw, hc⟩
  | timedRead n interval =>
      refine timedRead_keeps (P := fun r => r.wish = q.wish ∧ r.cap = q.cap) ⟨rfl, rfl⟩ ⟨rfl, rfl⟩
        fun r hr => ?_
      obtain ⟨hw, hc, _⟩ := r.limits_read n
      exact ⟨hw.trans hr.1, hc.trans hr.2⟩
  | flush => exact ⟨rfl, rfl⟩
  | sort => exact ⟨rfl, rfl⟩

theorem accounted_apply (h : q.Accounted) (op : Operation) (now : Nanos) :
    (op.apply now q).1.Accounted := by
  cases op with
  | append f => exact accounted_insertAt h _ f
  | write data => exact accounted_insertAt h _ (.untimed data)
  | read n => exact accounted_read h n
  | timedRead n interval =>
      exact timedRead_keeps (P := Accounted) h h fun _ hr => accounted_read hr n
  | flush => rfl
  | sort => exact accounted_sort h

end PlayoutQueue

namespace Playout

theorem queue_of_create {wish : Nat} {cap : Option Nat} {p : Playout}
    (h : create wish cap = .ok p) : PlayoutQueue.create wish cap = .ok p.queue := by
  unfold create at h
  cases hq : PlayoutQueue.create wish cap with
  | error cause =>
      rw [hq] at h
      cases h
  | ok q =>
      rw [hq] at h
      cases h
      rfl

theorem cap_of_create {wish : Nat} {cap : Option Nat} {p : Playout} (h : create wish cap = .ok p) :
    p.queue.cap = cap ∧ p.queue.held = 0 ∧ p.queue.queued = [] := by
  obtain ⟨_, _, hq⟩ := PlayoutQueue.eq_of_create (queue_of_create h)
  rw [hq]
  exact ⟨rfl, rfl, rfl⟩

/-! ### Runs -/

/-- When a property is lost in a step exactly if the step is bad, it holds in all states that the steps
lead through exactly if none of them is bad. -/
theorem foldl_iff {α : Type} {next : Playout → α → Playout} {P : Playout → Prop}
    {Bad : Playout → α → Prop} (hstep : ∀ p a, P p → (P (next p a) ↔ ¬ Bad p a)) {p : Playout}
    (hp : P p) (ss : List α) :
    (∀ as bs, ss = as ++ bs → P (as.foldl next p)) ↔
      ∀ as a bs, ss = as ++ a :: bs → ¬ Bad (as.foldl next p) a := by
  constructor
  · intro h as a bs hs
    have hbefore := h as (a :: bs) hs
    have hafter := h (as ++ [a]) bs (by rw [hs, List.append_assoc]; rfl)
    rw [List.foldl_append] at hafter
    exact (hstep _ a hbefore).mp hafter
  · intro hno as bs hs
    subst hs
    induction as generalizing p with
    | nil => exact hp
    | cons a as ih =>
        have ha := (hstep p a hp).mpr (hno [] a (as ++ bs) rfl)
        exact ih ha fun cs b ds hs => hno (a :: cs) b ds (congrArg (a :: ·) hs)

theorem run_eq_foldl (p : Playout) (ss : List Step) :
    (p.run ss).1 = ss.foldl (fun p s => (p.step s).1) p := by
  induction ss generalizing p with
  | nil => rfl
  | cons s ss ih => exact ih (p.step s).1

theorem runAt_eq_foldl (p : Playout) (ms : List (Nat × Step)) :
    (p.runAt ms).1 = ms.foldl (fun p m => (p.stepAt m.1 m.2).1) p := by
  induction ms generalizing p with
  | nil => rfl
  | cons m ms ih => exact ih (p.stepAt m.1 m.2).1

theorem run_append_singleton (p : Playout) (as : List Step) (s : Step) :
    (p.run (as ++ [s])).1 = ((p.run as).1.step s).1 := by
  simp [run_eq_foldl]

theorem run_iff {P : Playout → Prop} {Bad : Playout → Step → Prop}
    (hstep : ∀ p s, P p → (P (p.step s).1 ↔ ¬ Bad p s)) {p : Playout} (hp : P p)
    (ss : List Step) :
    (∀ as bs, ss = as ++ bs → P (p.run as).1) ↔
      ∀ as s bs, ss = as ++ s :: bs → ¬ Bad (p.run as).1 s := by
  simp only [run_eq_foldl]
  exact foldl_iff hstep hp ss

theorem runAt_iff {P : Playout → Prop} {Bad : Playout → Nat × Step → Prop}
    (hstep : ∀ p m, P p → (P (p.stepAt m.1 m.2).1 ↔ ¬ Bad p m)) {p : Playout} (hp : P p)
    (ms : List (Nat × Step)) :
    (∀ as bs, ms = as ++ bs → P (p.runAt as).1) ↔
      ∀ as m bs, ms = as ++ m :: bs → ¬ Bad (p.runAt as).1 m := by
  simp only [runAt_eq_foldl]
  exact foldl_iff hstep hp ms

end Playout

end ConferenceMix
