import ConferenceMix.Proofs.Playout.Bytes
import Mathlib.Algebra.GroupWithZero.Nat
import Mathlib.Algebra.BigOperators.Group.List.Basic

/-! # The accounts of a playout queue

Where a fragment is queued makes no difference to the accounts of a queue. In `Playout.runAt` each
fragment may be queued anywhere; `Playout.run` is the case that it is queued behind all that start
no later (`Playout.exists_runAt_eq_run`). A queue is `Sound` when no fragment in it is used up and
it holds as many bytes as are left of all fragments. Every step keeps it so (`Playout.sound_stepAt`),
and then nothing is cut short in its arithmetic (`PlayoutQueue.Exact`).

`Playout.balance_runAt` says of all runs of such a queue that every byte queued is read, dropped,
flushed or still held. -/

namespace ConferenceMix

open Pcm

/-! ### The cuts of a read -/

/-- A number of bytes that are copied out of a queued fragment. -/
structure Cut where
  entry : Queued
  size : Nat
deriving DecidableEq, Repr

namespace Cut

/-- The bytes that are copied: so many from the first unread one on. -/
def bytes (c : Cut) : List UInt8 := (c.entry.fragment.data.drop c.entry.taken).take c.size

/-- At least one byte is copied, and none from beyond the end of the fragment. -/
def Fits (c : Cut) : Prop :=
  0 < c.size ∧ c.entry.taken + c.size ≤ c.entry.fragment.data.length

theorem Fits.length_bytes {c : Cut} (h : c.Fits) : c.bytes.length = c.size := by
  have hfits := h.2
  rw [bytes, List.length_take, List.length_drop]
  omega

end Cut

/-- The cuts by which `n` bytes are taken from the front, as many from each fragment as it has and
as are still wanted. -/
def cuts : Nat → List Queued → List Cut
  | _, [] => []
  | n, q :: qs =>
      if n = 0 then [] else ⟨q, min q.remaining n⟩ :: cuts (n - min q.remaining n) qs

@[simp] theorem cuts_zero (qs : List Queued) : cuts 0 qs = [] := by
  cases qs <;> simp [cuts]

theorem cuts_cons {n : Nat} (hn : n ≠ 0) (q : Queued) (qs : List Queued) :
    cuts n (q :: qs) = ⟨q, min q.remaining n⟩ :: cuts (n - min q.remaining n) qs := by
  simp [cuts, hn]

/-- Draining is cutting. -/
theorem drain_eq_cuts (n : Nat) (qs : List Queued) :
    (drain n qs).1 = (cuts n qs).flatMap Cut.bytes := by
  induction qs generalizing n with
  | nil => simp [cuts]
  | cons q qs ih =>
      by_cases hn : n = 0
      · subst hn
        simp
      · rw [cuts_cons hn, List.flatMap_cons]
        by_cases h : q.remaining ≤ n
        · rw [drain_cons_of_le qs hn h, Nat.min_eq_left h, ih]
          refine congrArg (· ++ _) (List.take_of_length_le ?_).symm
          exact Nat.le_of_eq q.length_unread
        · rw [drain_cons_of_lt qs hn (by omega), Nat.min_eq_right (by omega), Nat.sub_self,
            cuts_zero, List.flatMap_nil, List.append_nil]
          rfl

theorem fits_of_mem_cuts {n : Nat} {qs : List Queued} (h : ∀ e ∈ qs, 0 < e.remaining) {c : Cut}
    (hc : c ∈ cuts n qs) : c.Fits := by
  induction qs generalizing n with
  | nil => simp [cuts] at hc
  | cons q qs ih =>
      obtain ⟨hq, hqs⟩ := List.forall_mem_cons.mp h
      by_cases hn : n = 0
      · simp [cuts, hn] at hc
      · rw [cuts_cons hn] at hc
        rcases List.mem_cons.mp hc with rfl | hm
        · unfold Cut.Fits
          simp only [Queued.remaining] at hq ⊢
          omega
        · exact ih hqs hm

/-- Cuts that fit copy as many bytes as they say. -/
theorem length_bytes_cuts {cs : List Cut} (h : ∀ c ∈ cs, c.Fits) :
    (cs.flatMap Cut.bytes).length = (cs.map Cut.size).sum := by
  rw [List.length_flatMap, List.map_congr_left fun c hc => (h c hc).length_bytes]

/-! ### Sound queues -/

theorem length_unreadBytes (qs : List Queued) :
    (unreadBytes qs).length = (qs.map Queued.remaining).sum := by
  rw [unreadBytes, List.length_flatMap, List.map_congr_left fun e _ => e.length_unread]

namespace PlayoutQueue

variable {q : PlayoutQueue}

/-- No fragment is used up, and the queue holds as many bytes as are left of all fragments. -/
structure Sound (q : PlayoutQueue) : Prop where
  started : ∀ e ∈ q.queued, e.taken < e.fragment.data.length
  held : q.held = (q.queued.map Queued.remaining).sum

theorem Sound.accounted (h : q.Sound) : q.Accounted := h.held.trans (length_unreadBytes _).symm

theorem Sound.remaining_pos (h : q.Sound) : ∀ e ∈ q.queued, 0 < e.remaining := fun e he =>
  Nat.sub_pos_of_lt (h.started e he)

/-- There is at least one byte for each fragment. -/
theorem Sound.count_le_held (h : q.Sound) : q.count ≤ q.held := by
  have hsum := List.length_le_sum_of_one_le (q.queued.map Queued.remaining)
    (List.forall_mem_map.mpr h.remaining_pos)
  rwa [List.length_map, ← h.held] at hsum

theorem Sound.queued_eq_nil (h : q.Sound) (h₀ : q.held = 0) : q.queued = [] :=
  List.length_eq_zero_iff.mp (Nat.le_zero.mp (h₀ ▸ h.count_le_held))

theorem sound_of_accounted (ha : q.Accounted) (hpos : ∀ e ∈ q.queued, 0 < e.remaining) :
    q.Sound :=
  ⟨fun e he => Nat.lt_of_sub_pos (hpos e he), ha.trans (length_unreadBytes _)⟩

theorem sound_create {wish : Nat} {cap : Option Nat} (h : create wish cap = .ok q) : q.Sound := by
  obtain ⟨ha, he⟩ := accounted_create h
  refine sound_of_accounted ha ?_
  rw [he]
  exact nofun

theorem Sound.placed (h : q.Sound) {f : Fragment} (hf : f.data ≠ []) (k : Nat) :
    (q.placed k f).Sound where
  started e he := by
    rcases List.mem_append.mp he with hm | hm
    · exact h.started e (List.mem_of_mem_take hm)
    · rcases List.mem_cons.mp hm with rfl | hm
      · exact List.length_pos_iff.mpr hf
      · exact h.started e (List.mem_of_mem_drop hm)
  held := by
    have hsum : (q.queued.map Queued.remaining).sum =
        ((q.queued.take k).map Queued.remaining).sum +
          ((q.queued.drop k).map Queued.remaining).sum := by
      rw [← List.sum_append, ← List.map_append, List.take_append_drop]
    show q.held + f.data.length =
      ((q.queued.take k ++ ⟨f, 0⟩ :: q.queued.drop k).map Queued.remaining).sum
    rw [h.held, hsum, List.map_append, List.sum_append, List.map_cons, List.sum_cons]
    simp only [Queued.remaining]
    omega

/-- An eviction takes the bytes that it reports off those held. -/
theorem Sound.held_evict (h : q.Sound) : q.evict.1.held + q.evict.2 = q.held := by
  rcases q.evict_cases with ⟨he, _⟩ | ⟨_, front, rest, _, _, hq, he⟩
  · rw [he]
    rfl
  · have hheld := h.held
    rw [hq, List.map_cons, List.sum_cons] at hheld
    rw [he]
    show q.held - front.remaining + front.remaining = q.held
    omega

theorem Sound.evict (h : q.Sound) : q.evict.1.Sound := by
  refine sound_of_accounted (accounted_evict h.accounted) ?_
  rcases q.evict_cases with ⟨he, _⟩ | ⟨_, front, rest, _, _, hq, he⟩
  · rw [he]
    exact h.remaining_pos
  · rw [he]
    exact fun e hm => h.remaining_pos e (hq ▸ List.mem_cons_of_mem front hm)

theorem Sound.insertAt (h : q.Sound) (k : Nat) (f : Fragment) : (q.insertAt k f).1.Sound := by
  by_cases hf : f.data = []
  · rw [insertAt_of_nil hf]
    exact h
  · rw [insertAt_of_ne_nil hf]
    exact (h.placed hf k).evict

theorem Sound.read (h : q.Sound) (n : Nat) : (q.read n).1.Sound := by
  refine sound_of_accounted (accounted_read h.accounted n) fun e he => ?_
  rw [queued_read] at he
  exact remaining_pos_of_mem_drain h.remaining_pos he

theorem Sound.sort (h : q.Sound) : q.sort.Sound := by
  have hp : q.sort.queued.Perm q.queued := List.mergeSort_perm _ _
  exact sound_of_accounted (accounted_sort h.accounted) fun e he =>
    h.remaining_pos e (hp.mem_iff.mp he)

theorem Sound.apply (h : q.Sound) (op : Operation) (now : Nanos) : (op.apply now q).1.Sound := by
  cases op with
  | append f => exact h.insertAt _ f
  | write data => exact h.insertAt _ (.untimed data)
  | read n => exact h.read n
  | timedRead n interval =>
      exact timedRead_keeps (P := Sound) h ⟨h.started, h.held⟩ fun _ hr => hr.read n
  | flush => exact ⟨nofun, rfl⟩
  | sort => exact h.sort

/-- Nothing is cut short in what a queue does next. A fragment that is queued adds its bytes, and an
eviction takes at least one of those held. A read copies all bytes that it reports out of the
fragments that have them, and takes them off those held. -/
structure Exact (q : PlayoutQueue) : Prop where
  charged : ∀ k f, (q.insertAt k f).1.held + (q.insertAt k f).2 = q.held + f.data.length
  evicts : ∀ k f, (q.insertAt k f).1.overruns ≠ q.overruns → 0 < (q.insertAt k f).2
  fits : ∀ n, ∀ c ∈ cuts (q.allowance n) q.queued, c.Fits
  copied : ∀ n, (q.read n).2.output.take (q.read n).2.count =
    (cuts (q.allowance n) q.queued).flatMap Cut.bytes
  counted : ∀ n, ((cuts (q.allowance n) q.queued).map Cut.size).sum = (q.read n).2.count
  paid : ∀ n, (q.read n).1.held + (q.read n).2.count = q.held

theorem Sound.exact (h : q.Sound) : q.Exact where
  charged k f := by
    by_cases hf : f.data = []
    · rw [insertAt_of_nil hf, hf]
      rfl
    · rw [insertAt_of_ne_nil hf]
      exact (h.placed hf k).held_evict
  evicts k f hne := by
    by_cases hf : f.data = []
    · rw [insertAt_of_nil hf] at hne
      exact absurd rfl hne
    · rw [insertAt_of_ne_nil hf] at hne ⊢
      rcases (q.placed k f).evict_cases with ⟨he, _⟩ | ⟨_, front, rest, _, _, hq, he⟩
      · rw [he] at hne
        exact absurd rfl hne
      · rw [he]
        exact (h.placed hf k).remaining_pos front (hq ▸ List.mem_cons_self ..)
  fits n c hc := fits_of_mem_cuts h.remaining_pos hc
  copied n := by
    rw [bytes_read, ← drain_eq_cuts, drain_fst]
    rfl
  counted n := by
    rw [count_read, ← length_bytes_cuts fun c hc => fits_of_mem_cuts h.remaining_pos hc,
      ← drain_eq_cuts, drain_fst]
    rfl
  paid n := by
    rw [held_read, count_read, h.accounted, List.length_take]
    omega

end PlayoutQueue

/-! ### Answers -/

namespace Answer

/-- The number of bytes that an answer reports as read. -/
def bytesRead : Answer → Nat
  | .read r => r.count
  | .timedRead (.read r) => r.count
  | _ => 0

/-- The number of bytes that an answer reports as dropped. -/
def bytesDropped : Answer → Nat
  | .dropped n => n
  | _ => 0

end Answer

namespace Playout

open PlayoutQueue

/-! ### Steps that queue anywhere -/

theorem step_of_fragment? {s : Step} {f : Fragment} (h : s.fragment? = some f) (p : Playout) :
    p.step s = (⟨(p.queue.append f).1, p.clock⟩, .dropped (p.queue.append f).2) := by
  cases s with
  | advance t => cases h
  | operate op =>
      cases op with
      | append g =>
          cases h
          rfl
      | write data =>
          cases h
          rfl
      | _ => cases h

theorem exists_stepAt_eq_step (p : Playout) (s : Step) : ∃ k, p.stepAt k s = p.step s := by
  unfold stepAt
  cases hs : s.fragment? with
  | none => exact ⟨0, rfl⟩
  | some f => exact ⟨p.queue.position f.timestamp, (step_of_fragment? hs p).symm⟩

/-- A run is the case that each fragment is put behind all that start no later. -/
theorem exists_runAt_eq_run (p : Playout) (ss : List Step) :
    ∃ ms : List (Nat × Step), ms.map Prod.snd = ss ∧ p.runAt ms = p.run ss := by
  induction ss generalizing p with
  | nil => exact ⟨[], rfl, rfl⟩
  | cons s ss ih =>
      obtain ⟨k, hk⟩ := p.exists_stepAt_eq_step s
      obtain ⟨ms, hms, hrun⟩ := ih (p.step s).1
      refine ⟨(k, s) :: ms, congrArg (s :: ·) hms, ?_⟩
      simp only [runAt, run, hk, hrun]

/-- The number of bytes that a step flushes. -/
def flushing (p : Playout) : Step → Nat
  | .operate .flush => p.queue.unread.length
  | _ => 0

/-- The number of bytes that are flushed in a run. -/
def flushed (p : Playout) : List (Nat × Step) → Nat
  | [] => 0
  | m :: ms => p.flushing m.2 + flushed (p.stepAt m.1 m.2).1 ms

/-! ### What a step does to the accounts -/

variable {p : Playout}

theorem sound_stepAt (h : p.queue.Sound) (k : Nat) (s : Step) :
    (p.stepAt k s).1.queue.Sound := by
  unfold stepAt
  cases s.fragment? with
  | some f => exact h.insertAt k f
  | none =>
      cases s with
      | advance t => exact h
      | operate op => exact h.apply op p.clock

/-- The bytes held and those queued by a step are read, dropped, flushed or held afterwards. -/
theorem balance_stepAt (h : p.queue.Sound) (k : Nat) (s : Step) :
    p.queue.held + s.carried.length =
      (p.stepAt k s).2.bytesRead + (p.stepAt k s).2.bytesDropped + p.flushing s +
        (p.stepAt k s).1.queue.held := by
  cases s with
  | advance t =>
      show p.queue.held + 0 = 0 + 0 + 0 + p.queue.held
      omega
  | operate op =>
      cases op with
      | append f =>
          have hcharged := h.exact.charged k f
          show _ = 0 + (p.queue.insertAt k f).2 + 0 + (p.queue.insertAt k f).1.held
          simp only [Step.carried]
          omega
      | write data =>
          have hcharged := h.exact.charged k (.untimed data)
          show p.queue.held + (Fragment.untimed data).data.length =
            0 + (p.queue.insertAt k (.untimed data)).2 + 0 +
              (p.queue.insertAt k (.untimed data)).1.held
          omega
      | read n =>
          have hpaid := h.exact.paid n
          show p.queue.held + 0 = (p.queue.read n).2.count + 0 + 0 + (p.queue.read n).1.held
          omega
      | timedRead n interval =>
          have hd : (p.queue.schedule p.clock interval).Sound := ⟨h.started, h.held⟩
          have hheld : (p.queue.schedule p.clock interval).held = p.queue.held := rfl
          let outcome := (Operation.timedRead n interval).apply p.clock p.queue
          show p.queue.held + 0 = outcome.2.bytesRead + outcome.2.bytesDropped + 0 + outcome.1.held
          rcases apply_timedRead_cases p.queue p.clock interval n with
            ⟨_, he⟩ | ⟨_, _, he⟩ | ⟨_, _, he⟩
          · simp only [outcome, he, Answer.bytesRead, Answer.bytesDropped]
            omega
          · simp only [outcome, he, Answer.bytesRead, Answer.bytesDropped]
            omega
          · have hpaid := hd.exact.paid n
            simp only [outcome, he, Answer.bytesRead, Answer.bytesDropped]
            omega
      | flush =>
          show p.queue.held + 0 = 0 + 0 + p.queue.unread.length + 0
          rw [h.accounted]
          omega
      | sort =>
          show p.queue.held + 0 = 0 + 0 + 0 + p.queue.held
          omega

/-! ### Runs -/

theorem sound_runAt (h : p.queue.Sound) (ms : List (Nat × Step)) :
    (p.runAt ms).1.queue.Sound := by
  induction ms generalizing p with
  | nil => exact h
  | cons m ms ih => exact ih (sound_stepAt h m.1 m.2)

theorem balance_runAt (h : p.queue.Sound) (ms : List (Nat × Step)) :
    p.queue.held + (ms.map fun m => m.2.carried.length).sum =
      ((p.runAt ms).2.map Answer.bytesRead).sum + ((p.runAt ms).2.map Answer.bytesDropped).sum +
        p.flushed ms + (p.runAt ms).1.queue.held := by
  induction ms generalizing p with
  | nil => simp [runAt, flushed]
  | cons m ms ih =>
      have hstep := balance_stepAt h m.1 m.2
      have hrest := ih (sound_stepAt h m.1 m.2)
      simp only [runAt, flushed, List.map_cons, List.sum_cons]
      omega

end Playout

end ConferenceMix
