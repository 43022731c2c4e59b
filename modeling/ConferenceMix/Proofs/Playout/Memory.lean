import ConferenceMix.Proofs.Playout.Accounts
import ConferenceMix.Proofs.Pcm.Sums
import Mathlib.Algebra.Order.BigOperators.Group.List
import Mathlib.Algebra.Order.Ring.Nat

/-! # The memory of a playout queue

An overrun drops one fragment and may leave far more bytes than the cap allows. It is the number of
fragments that is bounded. Beyond the cap, each fragment that comes costs the one at the front; and
up to the cap there are no more fragments than bytes, because none is used up. So there are never
more fragments than the cap has bytes, and a queue is `Frugal` for all of its life
(`Playout.frugal_runAt`).

`Playout.held_runAt_le` concludes that a queue never holds more than its cap times the length of the
longest fragment so far, wherever the fragments are queued. -/

namespace ConferenceMix

open Pcm

/-- What is left of a fragment after draining belongs to a fragment that was queued before, of the
same length. -/
theorem length_of_mem_drain {n : Nat} {qs : List Queued} {e : Queued} (he : e ∈ (drain n qs).2) :
    ∃ f ∈ qs, e.fragment.data.length = f.fragment.data.length := by
  rcases mem_drain he with hm | ⟨f, hf, k, rfl⟩
  · exact ⟨e, hm, rfl⟩
  · exact ⟨f, hf, rfl⟩

namespace PlayoutQueue

variable {q : PlayoutQueue} {cap bound : Nat}

/-! ### Frugal queues -/

/-- A sound queue with a cap and no more fragments than the cap has bytes, none of which has ever
been longer than `bound`. -/
structure Frugal (cap bound : Nat) (q : PlayoutQueue) : Prop where
  sound : q.Sound
  limit : q.cap = some cap
  count : q.count ≤ cap
  sizes : ∀ e ∈ q.queued, e.fragment.data.length ≤ bound

theorem frugal_of_queued_eq_nil (hs : q.Sound) (hc : q.cap = some cap) (he : q.queued = []) :
    q.Frugal cap bound where
  sound := hs
  limit := hc
  count := by simp [PlayoutQueue.count, he]
  sizes := by simp [he]

theorem Frugal.held_le (h : q.Frugal cap bound) : q.held ≤ cap * bound := by
  have hsizes : ∀ n ∈ q.queued.map Queued.remaining, n ≤ bound :=
    List.forall_mem_map.mpr fun e he => Nat.le_trans (Nat.sub_le _ _) (h.sizes e he)
  calc q.held = (q.queued.map Queued.remaining).sum := h.sound.held
    _ ≤ (q.queued.map Queued.remaining).length • bound := List.sum_le_card_nsmul _ bound hsizes
    _ = q.count * bound := by rw [List.length_map, Nat.nsmul_eq_mul]; rfl
    _ ≤ cap * bound := Nat.mul_le_mul_right bound h.count

theorem count_placed (q : PlayoutQueue) (k : Nat) (f : Fragment) :
    (q.placed k f).count = q.count + 1 := by
  show (q.queued.take k ++ ⟨f, 0⟩ :: q.queued.drop k).length = q.queued.length + 1
  rw [List.length_append, List.length_cons, List.length_take, List.length_drop]
  omega

theorem mem_placed {k : Nat} {f : Fragment} {e : Queued} (he : e ∈ (q.placed k f).queued) :
    e = ⟨f, 0⟩ ∨ e ∈ q.queued := by
  rcases List.mem_append.mp he with hm | hm
  · exact .inr (List.mem_of_mem_take hm)
  · exact (List.mem_cons.mp hm).imp_right List.mem_of_mem_drop

/-- A queue is within its cap, or one fragment goes for the one that comes. -/
theorem count_evict_placed (hc : q.cap = some cap) (k : Nat) (f : Fragment) :
    (q.placed k f).evict.1.held ≤ cap ∨ (q.placed k f).evict.1.count = q.count := by
  have hcount := q.count_placed k f
  rcases (q.placed k f).evict_cases with ⟨he, hle⟩ | ⟨_, front, rest, _, _, hq, he⟩
  · have hne : (q.placed k f).queued ≠ [] :=
      List.ne_nil_of_length_pos (Nat.lt_of_lt_of_eq (Nat.succ_pos _) hcount.symm)
    rw [he]
    exact .inl (hle cap hc hne)
  · rw [PlayoutQueue.count, hq, List.length_cons] at hcount
    rw [he]
    exact .inr (Nat.succ.inj hcount)

theorem Frugal.insertAt (h : q.Frugal cap bound) (k : Nat) {f : Fragment}
    (hf : f.data.length ≤ bound) : (q.insertAt k f).1.Frugal cap bound := by
  have hsound := h.sound.insertAt k f
  have hlimit := (q.limits_insertAt k f).2.trans h.limit
  by_cases hnil : f.data = []
  · rw [insertAt_of_nil hnil]
    exact h
  rw [insertAt_of_ne_nil hnil] at hsound hlimit ⊢
  refine ⟨hsound, hlimit, ?_, fun e he => ?_⟩
  · rcases count_evict_placed h.limit k f with hle | heq
    · exact Nat.le_trans hsound.count_le_held hle
    · exact heq ▸ h.count
  · rcases mem_placed (mem_evict he) with rfl | hm
    · exact hf
    · exact h.sizes e hm

theorem Frugal.read (h : q.Frugal cap bound) (n : Nat) : (q.read n).1.Frugal cap bound where
  sound := h.sound.read n
  limit := (q.limits_read n).2.1.trans h.limit
  count := by
    rw [PlayoutQueue.count, queued_read]
    exact Nat.le_trans (length_drain_le _ _) h.count
  sizes e he := by
    rw [queued_read] at he
    obtain ⟨f, hf, hlen⟩ := length_of_mem_drain he
    exact hlen ▸ h.sizes f hf

theorem Frugal.schedule (h : q.Frugal cap bound) (now interval : Nanos) :
    (q.schedule now interval).Frugal cap bound :=
  ⟨⟨h.sound.started, h.sound.held⟩, h.limit, h.count, h.sizes⟩

theorem Frugal.sort (h : q.Frugal cap bound) : q.sort.Frugal cap bound := by
  have hp : q.sort.queued.Perm q.queued := List.mergeSort_perm _ _
  refine ⟨h.sound.sort, h.limit, ?_, fun e he => h.sizes e (hp.mem_iff.mp he)⟩
  exact Nat.le_trans (Nat.le_of_eq hp.length_eq) h.count

end PlayoutQueue

namespace Playout

open PlayoutQueue

variable {wish cap bound : Nat} {p : Playout}

/-! ### Runs -/

/-- The length of the longest fragment that the steps queue. -/
def longest (ss : List Step) : Nat := (ss.map fun s => s.carried.length).foldl max 0

theorem carried_le_longest {ss : List Step} {s : Step} (hs : s ∈ ss) :
    s.carried.length ≤ longest ss :=
  (le_foldl_max _ 0).2 _ (List.mem_map_of_mem hs)

theorem frugal_stepAt (h : p.queue.Frugal cap bound) (k : Nat) {s : Step}
    (hs : s.carried.length ≤ bound) : (p.stepAt k s).1.queue.Frugal cap bound := by
  cases s with
  | advance t => exact h
  | operate op =>
      cases op with
      | append f => exact h.insertAt k hs
      | write data => exact h.insertAt k hs
      | read n => exact h.read n
      | timedRead n interval =>
          exact timedRead_keeps (P := Frugal cap bound) h (h.schedule p.clock interval)
            fun _ hr => hr.read n
      | flush => exact frugal_of_queued_eq_nil ⟨nofun, rfl⟩ h.limit rfl
      | sort => exact h.sort

theorem frugal_runAt (h : p.queue.Frugal cap bound) {ms : List (Nat × Step)}
    (hms : ∀ m ∈ ms, m.2.carried.length ≤ bound) :
    (p.runAt ms).1.queue.Frugal cap bound := by
  induction ms generalizing p with
  | nil => exact h
  | cons m ms ih =>
      obtain ⟨hm, hrest⟩ := List.forall_mem_cons.mp hms
      exact ih (frugal_stepAt h m.1 hm) hrest

theorem frugal_create (h : create wish (some cap) = .ok p) : p.queue.Frugal cap bound := by
  obtain ⟨hc, _, he⟩ := cap_of_create h
  exact frugal_of_queued_eq_nil (sound_create (queue_of_create h)) hc he

theorem frugal_runAt_longest (h : create wish (some cap) = .ok p) (ms : List (Nat × Step)) :
    (p.runAt ms).1.queue.Frugal cap (longest (ms.map Prod.snd)) :=
  frugal_runAt (frugal_create h) fun _ hm => carried_le_longest (List.mem_map_of_mem hm)

theorem frugal_run_longest (h : create wish (some cap) = .ok p) (ss : List Step) :
    (p.run ss).1.queue.Frugal cap (longest ss) := by
  obtain ⟨ms, hms, hrun⟩ := p.exists_runAt_eq_run ss
  rw [← hrun, ← hms]
  exact frugal_runAt_longest h ms

/-- Two single bytes up to a cap of two, displaced one after the other by fragments that are longer
than the cap. -/
def displacing : List Step :=
  [.operate (.write [1]), .operate (.write [2]), .operate (.write [3, 4, 5]),
    .operate (.write [6, 7, 8])]

end Playout

end ConferenceMix
