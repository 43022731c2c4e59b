import ConferenceMix.Proofs.Playout.Cap
import ConferenceMix.Proofs.Playout.Order
import Mathlib.Algebra.GroupWithZero.Nat
import Mathlib.Data.List.Nodup
import Mathlib.Data.List.Induction

/-! # The order of arrival makes no difference

Fragments that arrive at a queue without a cap are all in it, in the order of their timestamps, and
nothing else of the queue depends on how they came (`PlayoutQueue.Gathered`). When no two of them
start at the same time there is only one such order (`eq_of_perm_of_inOrder`), so that fragments
that arrive in another order lead to the very same queue.

`Playout.run_arriving_perm` concludes that nothing that is done with the queue afterwards tells the
one from the other, and that it gives the bytes out in the order of the timestamps. -/

namespace ConferenceMix

open Pcm

/-! ### Fragments in order -/

/-- Fragments in the order of their timestamps. -/
def inTime (fs : List Fragment) : List Fragment :=
  fs.mergeSort fun a b => decide (a.timestamp ≤ b.timestamp)

/-- Fragments as they stand in a queue of which nothing has been read. Those without bytes are left
out. -/
def entries (fs : List Fragment) : List Queued :=
  (fs.filter fun f => f.data ≠ []).map fun f => ⟨f, 0⟩

theorem entries_append_of_nil (fs : List Fragment) {f : Fragment} (hf : f.data = []) :
    entries (fs ++ [f]) = entries fs := by
  simp [entries, hf]

theorem entries_append_of_ne_nil (fs : List Fragment) {f : Fragment} (hf : f.data ≠ []) :
    entries (fs ++ [f]) = entries fs ++ [⟨f, 0⟩] := by
  simp [entries, hf]

theorem entries_perm {fs gs : List Fragment} (h : fs.Perm gs) : (entries fs).Perm (entries gs) :=
  (h.filter _).map _

theorem unreadBytes_entries (fs : List Fragment) :
    unreadBytes (entries fs) = fs.flatMap Fragment.data := by
  induction fs with
  | nil => rfl
  | cons f fs ih =>
      by_cases hf : f.data = []
      · have he : entries (f :: fs) = entries fs := by simp [entries, hf]
        rw [he, ih, List.flatMap_cons, hf, List.nil_append]
      · have he : entries (f :: fs) = ⟨f, 0⟩ :: entries fs := by simp [entries, hf]
        rw [he, unreadBytes_cons, ih, List.flatMap_cons]
        rfl

theorem inOrder_entries_inTime (fs : List Fragment) : InOrder (entries (inTime fs)) := by
  have hsorted : (inTime fs).Pairwise fun a b => a.timestamp ≤ b.timestamp :=
    pairwise_mergeSort_key Fragment.timestamp fs
  exact List.pairwise_map.mpr (hsorted.filter _)

theorem nodup_timestamps_entries {fs : List Fragment}
    (h : (fs.map Fragment.timestamp).Nodup) : ((entries fs).map Queued.timestamp).Nodup := by
  rw [entries, List.map_map]
  exact h.sublist (List.filter_sublist.map Fragment.timestamp)

/-- Fragments that all start at different times have only one order. -/
theorem eq_of_perm_of_inOrder {ps qs : List Queued} (hp : ps.Perm qs) (hps : InOrder ps)
    (hqs : InOrder qs) (hd : (qs.map Queued.timestamp).Nodup) : ps = qs := by
  refine List.Perm.eq_of_pairwise ?_ hps hqs hp
  intro a b ha hb hab hba
  exact List.inj_on_of_nodup_map hd (hp.mem_iff.mp ha) hb (Nat.le_antisymm hab hba)

/-! ### Queues into which fragments have come -/

namespace PlayoutQueue

variable {q q' : PlayoutQueue} {fs gs : List Fragment} {f : Fragment}

theorem append_of_uncapped (hc : q.cap = none) (hf : f.data ≠ []) :
    q.append f = (q.insert f, 0) := by
  rw [append_of_ne_nil hf]
  exact evict_of_uncapped hc

theorem queued_insert_perm (q : PlayoutQueue) (f : Fragment) :
    (q.insert f).queued.Perm (q.queued ++ [⟨f, 0⟩]) := by
  have hsplit : q.queued.take (q.position f.timestamp) ++
      q.queued.drop (q.position f.timestamp) = q.queued := List.take_append_drop ..
  have hfront : (q.insert f).queued.Perm (⟨f, 0⟩ :: q.queued) := by
    conv => rhs; rw [← hsplit]
    exact List.perm_middle
  exact hfront.trans (List.perm_append_singleton _ _).symm

/-- `q'` is the queue `q` after fragments have come into it: they are in it, it is in the order of
the timestamps, and all else is as it was. -/
structure Gathered (q : PlayoutQueue) (fs : List Fragment) (q' : PlayoutQueue) : Prop where
  ordered : q'.Ordered
  perm : q'.queued.Perm (q.queued ++ entries fs)
  rest : q' = { q with
    queued := q'.queued
    held := q.held + (fs.map fun f => f.data.length).sum }

theorem gathered_nil (h : q.Ordered) : q.Gathered [] q :=
  ⟨h, by simp [entries], by simp⟩

theorem Gathered.append (h : q.Gathered fs q') (hc : q.cap = none) (f : Fragment) :
    q.Gathered (fs ++ [f]) (q'.append f).1 := by
  have hc' : q'.cap = none := by
    rw [h.rest]
    exact hc
  have hordered := ordered_append h.ordered f
  by_cases hf : f.data = []
  · rw [append_of_nil hf]
    refine ⟨h.ordered, ?_, ?_⟩
    · rw [entries_append_of_nil fs hf]
      exact h.perm
    · rw [List.map_append, List.sum_append, List.map_singleton, hf]
      exact h.rest
  · rw [append_of_uncapped hc' hf] at hordered ⊢
    refine ⟨hordered, ?_, ?_⟩
    · rw [entries_append_of_ne_nil fs hf, ← List.append_assoc]
      exact (queued_insert_perm q' f).trans (h.perm.append_right _)
    · rw [List.map_append, List.sum_append, List.map_singleton, List.sum_singleton,
        ← Nat.add_assoc]
      have hrest := h.rest
      generalize q'.queued = qs at hrest
      subst hrest
      rfl

/-- When all fragments start at different times, there is only one queue that they can lead to. -/
theorem Gathered.queued_eq (h : q.Gathered gs q') (hq : q.queued = []) (hp : gs.Perm fs)
    (hd : (fs.map Fragment.timestamp).Nodup) : q'.queued = entries (inTime fs) := by
  have hs : (inTime fs).Perm fs := List.mergeSort_perm _ _
  have hperm : q'.queued.Perm (entries (inTime fs)) := by
    have hall := h.perm
    rw [hq, List.nil_append] at hall
    exact hall.trans (entries_perm (hp.trans hs.symm))
  refine eq_of_perm_of_inOrder hperm h.ordered (inOrder_entries_inTime fs) ?_
  exact nodup_timestamps_entries ((hs.map _).nodup_iff.mpr hd)

end PlayoutQueue

namespace Playout

open PlayoutQueue

/-- The steps in which fragments arrive, one after another. -/
def arriving (fs : List Fragment) : List Step := fs.map fun f => .operate (.append f)

theorem gathered_run_arriving {q : PlayoutQueue} (hc : q.cap = none) (ho : q.Ordered) (now : Nanos)
    (fs : List Fragment) :
    q.Gathered fs ((Playout.mk q now).run (arriving fs)).1.queue ∧
      ((Playout.mk q now).run (arriving fs)).1.clock = now := by
  induction fs using List.reverseRecOn with
  | nil => exact ⟨gathered_nil ho, rfl⟩
  | append_singleton fs f ih =>
      rw [arriving, List.map_append, List.map_singleton, run_append_singleton]
      exact ⟨ih.1.append hc f, ih.2⟩

/-- The state that fragments lead to depends on what they are and not on how they arrive. -/
theorem run_arriving_eq {q : PlayoutQueue} (hc : q.cap = none) (hq : q.queued = []) (now : Nanos)
    {fs gs : List Fragment} (hp : gs.Perm fs) (hd : (fs.map Fragment.timestamp).Nodup) :
    ((Playout.mk q now).run (arriving gs)).1 =
      ⟨{ q with
          queued := entries (inTime fs)
          held := q.held + (fs.map fun f => f.data.length).sum }, now⟩ := by
  have ho : q.Ordered := by
    rw [ordered_iff, hq]
    exact List.Pairwise.nil
  obtain ⟨hgathered, hclock⟩ := gathered_run_arriving hc ho now gs
  have hsum : (gs.map fun f => f.data.length).sum = (fs.map fun f => f.data.length).sum :=
    (hp.map _).sum_nat
  have hrest := hgathered.rest
  rw [hgathered.queued_eq hq hp hd, hsum] at hrest
  exact congrArg₂ Playout.mk hrest hclock

/-- **Nobody can tell in which order fragments have arrived.** When fragments that all start at
different times arrive at a fresh queue without a cap, the queue holds their bytes in the order of
the timestamps. If they arrive in another order, at a queue with the same wish and clock, all that
is done afterwards comes to the same answers and the same queue. -/
theorem run_arriving_perm {wish : Nat} {q : PlayoutQueue}
    (h : PlayoutQueue.create wish none = .ok q) (now : Nanos) {fs gs : List Fragment}
    (hp : fs.Perm gs) (hd : (fs.map Fragment.timestamp).Nodup) :
    ((Playout.mk q now).run (arriving fs)).1.queue.unread =
        (inTime fs).flatMap Fragment.data ∧
      ∀ ss, ((Playout.mk q now).run (arriving fs)).1.run ss =
        ((Playout.mk q now).run (arriving gs)).1.run ss := by
  obtain ⟨_, _, hq⟩ := eq_of_create h
  have hc : q.cap = none := congrArg PlayoutQueue.cap hq
  have hempty : q.queued = [] := congrArg PlayoutQueue.queued hq
  have hfs := run_arriving_eq hc hempty now (List.Perm.refl fs) hd
  have hgs := run_arriving_eq hc hempty now hp.symm hd
  refine ⟨?_, fun ss => ?_⟩
  · rw [hfs]
    exact unreadBytes_entries (inTime fs)
  · rw [hfs, hgs]

/-- Fragments of which the first two overlap in time and the third has no bytes. -/
def overlappingThree : List Fragment :=
  [⟨[1, 2, 3, 4, 5, 6], 1000, 1, 0⟩, ⟨[7, 8], 1000, 1, 1000000⟩, ⟨[], 1000, 1, 500000⟩]

theorem run_arriving_perm_overlapping :
    ∃ q, PlayoutQueue.create 4 none = .ok q ∧ overlappingThree.Perm overlappingThree.reverse ∧
      (overlappingThree.map Fragment.timestamp).Nodup ∧
      ((Playout.mk q 3).run (arriving overlappingThree.reverse)).1.queue.unread =
        [1, 2, 3, 4, 5, 6, 7, 8] ∧
      ((Playout.mk q 3).run (arriving overlappingThree)).1.run
          [.operate (.read 4), .operate .sort, .operate (.timedRead 4 20)] =
        ((Playout.mk q 3).run (arriving overlappingThree.reverse)).1.run
          [.operate (.read 4), .operate .sort, .operate (.timedRead 4 20)] := by
  have h : PlayoutQueue.create 4 none = .ok ⟨4, none, [], 0, true, none, 0, 0⟩ := rfl
  have hp : overlappingThree.Perm overlappingThree.reverse := (List.reverse_perm _).symm
  have hd : (overlappingThree.map Fragment.timestamp).Nodup := by decide
  obtain ⟨_, hsame⟩ := run_arriving_perm h 3 hp hd
  exact ⟨_, h, hp, hd, by decide, hsame _⟩

end Playout

end ConferenceMix
