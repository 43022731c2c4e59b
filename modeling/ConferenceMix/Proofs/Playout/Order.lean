import ConferenceMix.Proofs.Playout.Bytes
import Mathlib.Data.List.TakeWhile

/-! # The order of timestamps in a playout queue

Queueing, dropping and ordering keep the fragments of a queue in the order of their timestamps.
Reading need not: a read that ends within a fragment moves its timestamp forward, and the rest of
it may then start later than the fragment behind (`Overtakes`). `Playout.ordered_run_iff` says that
this is the only way to lose the order: all states of a run are ordered exactly when no read in it
overtakes. -/

namespace ConferenceMix

open Pcm

/-- The fragments are in the order of their timestamps. -/
def InOrder (qs : List Queued) : Prop := qs.Pairwise fun a b => a.timestamp ≤ b.timestamp

/-- Taking `n` bytes from the front ends within a fragment `e`, and what is left of `e` starts later
than the fragment behind it. -/
def Overtakes (n : Nat) (qs : List Queued) : Prop :=
  ∃ done e next rest, qs = done ++ e :: next :: rest ∧ (unreadBytes done).length < n ∧
    n < (unreadBytes done).length + e.remaining ∧
    next.timestamp < e.timestamp + e.fragment.playback (n - (unreadBytes done).length)

/-! ### Draining -/

theorem not_overtakes_zero (qs : List Queued) : ¬ Overtakes 0 qs := by
  rintro ⟨done, e, next, rest, _, h, _, _⟩
  omega

theorem overtakes_cons_of_le {n : Nat} {q : Queued} (qs : List Queued)
    (h : q.remaining ≤ n) : Overtakes n (q :: qs) ↔ Overtakes (n - q.remaining) qs := by
  constructor
  · rintro ⟨done, e, next, rest, hq, hlo, hhi, hts⟩
    cases done with
    | nil =>
        rw [List.nil_append, List.cons.injEq] at hq
        obtain ⟨rfl, rfl⟩ := hq
        simp only [unreadBytes, List.flatMap_nil, List.length_nil] at hhi
        omega
    | cons d done =>
        rw [List.cons_append, List.cons.injEq] at hq
        obtain ⟨rfl, rfl⟩ := hq
        rw [length_unreadBytes_cons] at hlo hhi hts
        refine ⟨done, e, next, rest, rfl, by omega, by omega, ?_⟩
        rwa [Nat.sub_sub]
  · rintro ⟨done, e, next, rest, rfl, hlo, hhi, hts⟩
    refine ⟨q :: done, e, next, rest, rfl, ?_, ?_, ?_⟩
    · rw [length_unreadBytes_cons]
      omega
    · rw [length_unreadBytes_cons]
      omega
    · rw [length_unreadBytes_cons]
      rwa [Nat.sub_sub] at hts

theorem overtakes_cons_of_lt {n : Nat} {q : Queued} (qs : List Queued) (hn : n ≠ 0)
    (h : n < q.remaining) : Overtakes n (q :: qs) ↔
      ∃ next rest, qs = next :: rest ∧ next.timestamp < (q.advance n).timestamp := by
  constructor
  · rintro ⟨done, e, next, rest, hq, hlo, hhi, hts⟩
    cases done with
    | nil =>
        rw [List.nil_append, List.cons.injEq] at hq
        obtain ⟨rfl, rfl⟩ := hq
        exact ⟨next, rest, rfl, hts⟩
    | cons d done =>
        rw [List.cons_append, List.cons.injEq] at hq
        obtain ⟨rfl, rfl⟩ := hq
        rw [length_unreadBytes_cons] at hlo
        omega
  · rintro ⟨next, rest, rfl, hts⟩
    refine ⟨[], q, next, rest, rfl, ?_, ?_, hts⟩
    · simp only [unreadBytes, List.flatMap_nil, List.length_nil]
      omega
    · simp only [unreadBytes, List.flatMap_nil, List.length_nil]
      omega

/-- Draining keeps the order unless it overtakes. -/
theorem inOrder_drain_iff {n : Nat} {qs : List Queued} (h : InOrder qs) :
    InOrder (drain n qs).2 ↔ ¬ Overtakes n qs := by
  induction qs generalizing n with
  | nil =>
      rw [drain_nil]
      refine iff_of_true List.Pairwise.nil ?_
      rintro ⟨done, e, next, rest, hq, _⟩
      simp at hq
  | cons q qs ih =>
      obtain ⟨hq, hqs⟩ := List.pairwise_cons.mp h
      by_cases hn : n = 0
      · subst hn
        rw [drain_zero]
        exact iff_of_true h (not_overtakes_zero _)
      · by_cases hr : q.remaining ≤ n
        · rw [drain_cons_of_le qs hn hr, overtakes_cons_of_le qs hr]
          exact ih hqs
        · rw [drain_cons_of_lt qs hn (by omega), overtakes_cons_of_lt qs hn (by omega)]
          cases qs with
          | nil =>
              refine iff_of_true (List.pairwise_singleton _ _) ?_
              rintro ⟨next, rest, hc, _⟩
              cases hc
          | cons next rest =>
              constructor
              · rintro ho ⟨next', rest', hc, hts⟩
                cases hc
                have hle := (List.pairwise_cons.mp ho).1 next (List.mem_cons_self ..)
                exact Nat.not_lt.mpr hle hts
              · intro ho
                have hle : (q.advance n).timestamp ≤ next.timestamp :=
                  Nat.le_of_not_lt fun hlt => ho ⟨next, rest, rfl, hlt⟩
                refine List.pairwise_cons.mpr ⟨?_, hqs⟩
                intro e he
                -- all others start no earlier than the first of them
                rcases List.mem_cons.mp he with rfl | hm
                · exact hle
                · exact hle.trans ((List.pairwise_cons.mp hqs).1 e hm)

/-! ### Queueing -/

/-- An element put behind the first `k` others keeps the order if it suits those on both sides. -/
theorem pairwise_insert {τ : Type} {R : τ → τ → Prop} {l : List τ} (h : l.Pairwise R) {k : Nat}
    {x : τ} (hfront : ∀ a ∈ l.take k, R a x) (hback : ∀ a ∈ l.drop k, R x a) :
    (l.take k ++ x :: l.drop k).Pairwise R := by
  rw [← List.take_append_drop k l] at h
  obtain ⟨hbefore, hbehind, hacross⟩ := List.pairwise_append.mp h
  refine List.pairwise_append.mpr ⟨hbefore, List.pairwise_cons.mpr ⟨hback, hbehind⟩, ?_⟩
  intro a ha b hb
  rcases List.mem_cons.mp hb with rfl | hm
  · exact hfront a ha
  · exact hacross a ha b hm

/-- Sorting by a key puts a list into the order of that key. -/
theorem pairwise_mergeSort_key {τ : Type} (key : τ → Nat) (l : List τ) :
    (l.mergeSort fun a b => decide (key a ≤ key b)).Pairwise fun a b => key a ≤ key b := by
  let le := fun a b : τ => decide (key a ≤ key b)
  have htrans : ∀ a b c : τ, le a b = true → le b c = true → le a c = true := by
    intro a b c hab hbc
    simp only [le, decide_eq_true_eq] at hab hbc ⊢
    exact hab.trans hbc
  have htotal : ∀ a b : τ, (le a b || le b a) = true := by
    intro a b
    simpa [le] using Nat.le_total (key a) (key b)
  have h : (l.mergeSort le).Pairwise fun a b => le a b = true :=
    List.pairwise_mergeSort htrans htotal l
  exact h.imp fun hab => by simpa [le] using hab

theorem lt_of_mem_dropWhile {t : Nanos} {qs : List Queued} (h : InOrder qs) {e : Queued}
    (he : e ∈ qs.dropWhile fun e => decide (e.timestamp ≤ t)) : t < e.timestamp := by
  induction qs with
  | nil => simp at he
  | cons q qs ih =>
      obtain ⟨hq, hqs⟩ := List.pairwise_cons.mp h
      by_cases hle : q.timestamp ≤ t
      · rw [List.dropWhile_cons_of_pos (by simpa using hle)] at he
        exact ih hqs he
      · rw [List.dropWhile_cons_of_neg (by simpa using hle)] at he
        rcases List.mem_cons.mp he with rfl | hm
        · exact Nat.lt_of_not_le hle
        · exact Nat.lt_of_lt_of_le (Nat.lt_of_not_le hle) (hq e hm)

namespace PlayoutQueue

variable {q : PlayoutQueue}

instance (q : PlayoutQueue) : Decidable q.Ordered :=
  inferInstanceAs (Decidable (List.Pairwise _ _))

theorem ordered_iff (q : PlayoutQueue) : q.Ordered ↔ InOrder q.queued := Iff.rfl

theorem ordered_create {wish : Nat} {cap : Option Nat} (h : create wish cap = .ok q) :
    q.Ordered := by
  rw [ordered_iff, (accounted_create h).2]
  exact List.Pairwise.nil

theorem ordered_evict (h : q.Ordered) : q.evict.1.Ordered := by
  rw [ordered_iff, queued_evict]
  exact List.Pairwise.drop h

/-- The fragments in front of the place of a new one start no later. -/
theorem le_of_mem_take_position {t : Nanos} {e : Queued}
    (he : e ∈ q.queued.take (q.position t)) : e.timestamp ≤ t := by
  have htake : q.queued.take (q.position t) = q.queued.takeWhile fun e => decide (e.timestamp ≤ t) :=
    (List.prefix_iff_eq_take.mp (List.takeWhile_prefix _)).symm
  rw [htake] at he
  simpa using List.mem_takeWhile_imp he

/-- The fragments behind the place of a new one start later. -/
theorem lt_of_mem_drop_position (h : q.Ordered) {t : Nanos} {e : Queued}
    (he : e ∈ q.queued.drop (q.position t)) : t < e.timestamp := by
  have hdrop : q.queued.drop (q.position t) =
      q.queued.dropWhile fun e => decide (e.timestamp ≤ t) := by
    have hsplit : q.queued.takeWhile (fun e => decide (e.timestamp ≤ t)) ++
        q.queued.dropWhile (fun e => decide (e.timestamp ≤ t)) = q.queued :=
      List.takeWhile_append_dropWhile
    exact (congrArg (List.drop (q.position t)) hsplit).symm.trans List.drop_left
  rw [hdrop] at he
  exact lt_of_mem_dropWhile h he

theorem ordered_append (h : q.Ordered) (f : Fragment) : (q.append f).1.Ordered := by
  unfold append insertAt
  split
  · exact h
  · apply ordered_evict
    have hq : q.queued.Pairwise fun a b => a.timestamp ≤ b.timestamp := h
    exact pairwise_insert hq (fun _ he => le_of_mem_take_position he)
      fun _ he => (lt_of_mem_drop_position h he).le

theorem ordered_sort (q : PlayoutQueue) : q.sort.Ordered :=
  pairwise_mergeSort_key Queued.timestamp q.queued

/-- Ordering changes nothing in a queue that is in order. -/
theorem sort_of_ordered (h : q.Ordered) : q.sort = q := by
  have hp : q.queued.Pairwise fun a b => decide (a.timestamp ≤ b.timestamp) = true :=
    h.imp fun hab => decide_eq_true hab
  rw [sort, List.mergeSort_of_pairwise hp]

/-- A read keeps the order unless it overtakes. -/
theorem ordered_read_iff (h : q.Ordered) (n : Nat) :
    (q.read n).1.Ordered ↔ ¬ Overtakes (q.allowance n) q.queued := by
  rw [ordered_iff, queued_read]
  exact inOrder_drain_iff h

end PlayoutQueue

namespace Playout

open PlayoutQueue

/-! ### Runs -/

/-- The step queues a fragment. -/
def Step.Queues : Step → Prop
  | .operate (.append _) => True
  | .operate (.write _) => True
  | _ => False

/-- The step is a read that takes place and overtakes. -/
def Overtaking (p : Playout) : Step → Prop
  | .operate (.read n) => Overtakes (p.queue.allowance n) p.queue.queued
  | .operate (.timedRead n interval) =>
      interval ≠ 0 ∧ p.queue.nextRead.getD p.clock ≤ p.clock ∧
        Overtakes (p.queue.allowance n) p.queue.queued
  | _ => False

/-- An ordered queue is ordered after a step exactly when the step does not overtake. -/
theorem ordered_step_iff {p : Playout} (h : p.queue.Ordered) (s : Step) :
    (p.step s).1.queue.Ordered ↔ ¬ p.Overtaking s := by
  cases s with
  | advance t => exact iff_of_true h id
  | operate op =>
      cases op with
      | append f => exact iff_of_true (ordered_append h f) id
      | write data => exact iff_of_true (ordered_append h _) id
      | read n => exact ordered_read_iff h n
      | timedRead n interval =>
          show ((Operation.timedRead n interval).apply p.clock p.queue).1.Ordered ↔ _
          have hd : (p.queue.schedule p.clock interval).Ordered := h
          rcases apply_timedRead_cases p.queue p.clock interval n with
            ⟨hi, he⟩ | ⟨_, hlt, he⟩ | ⟨hi, hle, he⟩
          · rw [he]
            exact iff_of_true h fun ho => ho.1 hi
          · rw [he]
            exact iff_of_true h fun ho => absurd ho.2.1 (Nat.not_le.mpr hlt)
          · rw [he, ordered_read_iff hd]
            exact not_congr ⟨fun ho => ⟨hi, hle, ho⟩, fun ho => ho.2.2⟩
      | flush => exact iff_of_true List.Pairwise.nil id
      | sort => exact iff_of_true (ordered_sort p.queue) id

/-- **Only a read that overtakes loses the order.** In every run of a fresh queue, all states, the
last one included, are in the order of the timestamps exactly when no read of the run ends within a
fragment and leaves the rest of it later than the fragment behind. -/
theorem ordered_run_iff {wish : Nat} {cap : Option Nat} {p : Playout}
    (h : create wish cap = .ok p) (ss : List Step) :
    (∀ as bs, ss = as ++ bs → (p.run as).1.queue.Ordered) ↔
      ∀ as s bs, ss = as ++ s :: bs → ¬ (p.run as).1.Overtaking s := by
  have h₀ : p.queue.Ordered := ordered_create (queue_of_create h)
  exact run_iff (P := fun p => p.queue.Ordered) (fun _ s hp => ordered_step_iff hp s) h₀ ss

/-- A fragment of four milliseconds, one that starts a millisecond after it, and a read of the
first `n` bytes; two bytes play for a millisecond. -/
def overlapping (n : Nat) : List Step :=
  [.operate (.append ⟨[1, 2, 3, 4, 5, 6, 7, 8], 1000, 1, 0⟩),
    .operate (.append ⟨[9, 10], 1000, 1, 1000000⟩), .operate (.read n)]

/-- A read that stops where the next fragment starts does not overtake. -/
theorem ordered_run_iff_touching :
    ∃ p, create 1 none = .ok p ∧
      (∀ as bs, overlapping 2 = as ++ bs → (p.run as).1.queue.Ordered) ∧
      ∀ as s bs, overlapping 2 = as ++ s :: bs → ¬ (p.run as).1.Overtaking s := by
  have h : create 1 none = .ok ⟨⟨1, none, [], 0, true, none, 0, 0⟩, 0⟩ := rfl
  have ho : ∀ as bs, overlapping 2 = as ++ bs →
      ((Playout.mk ⟨1, none, [], 0, true, none, 0, 0⟩ 0).run as).1.queue.Ordered := by
    intro as bs hs
    rcases as with _ | ⟨a, _ | ⟨b, _ | ⟨c, _ | ⟨d, as⟩⟩⟩⟩
    · decide
    · cases hs
      decide
    · cases hs
      decide
    · cases hs
      decide
    · simp [overlapping] at hs
  exact ⟨_, h, ho, (ordered_run_iff h (overlapping 2)).mp ho⟩

/-- The order can be lost although every fragment is queued into an ordered queue: a read that goes
on beyond the start of the next fragment leaves the rest of its own behind that start. -/
theorem order_lost_by_partial_read :
    ∃ p, create 1 none = .ok p ∧
      (∀ as s bs, overlapping 4 = as ++ s :: bs → s.Queues → (p.run as).1.queue.Ordered) ∧
      ¬ (p.run (overlapping 4)).1.queue.Ordered := by
  refine ⟨_, rfl, ?_, by decide⟩
  intro as s bs hs hq
  rcases as with _ | ⟨a, _ | ⟨b, _ | ⟨c, as⟩⟩⟩
  · decide
  · cases hs
    decide
  · cases hs
    exact hq.elim
  · simp [overlapping] at hs

end Playout

end ConferenceMix
