import ConferenceMix.Proofs.Playout.Bytes
import Mathlib.Data.List.TakeWhile

/-! # Bytes queued by arrival leave in the order of arrival

A queue is `ByArrival` when no fragment in it has a time of its own. Then a new fragment goes to
the end (`write_eq`), reading leaves all timestamps at zero, and ordering changes nothing
(`sort_eq`). `Playout.departed` lists the bytes that leave in a run: those that reads give out,
those that an overrun drops and those that a flush throws away. `Playout.run_lossless` says that
they, followed by what is still queued, are exactly the bytes that were written. -/

namespace ConferenceMix

open Pcm

/-- The fragment has no time or rate of its own. -/
def Queued.Untimed (e : Queued) : Prop := e.fragment = .untimed e.fragment.data

theorem Queued.Untimed.timestamp_eq {e : Queued} (h : e.Untimed) : e.timestamp = 0 := by
  unfold Queued.timestamp
  rw [h]
  rfl

theorem Queued.Untimed.advance {e : Queued} (h : e.Untimed) (k : Nat) : (e.advance k).Untimed := by
  have hp : e.fragment.playback k = 0 := by
    rw [h]
    exact Fragment.playback_untimed _ k
  obtain ⟨⟨data, rate, channels, timestamp⟩, taken⟩ := e
  simp only [Queued.Untimed, Fragment.untimed, Fragment.mk.injEq, true_and] at h
  obtain ⟨rfl, rfl, rfl⟩ := h
  simp only [Queued.Untimed, Queued.advance, Fragment.untimed, hp]

namespace PlayoutQueue

variable {q : PlayoutQueue}

/-- No fragment in the queue has a time of its own. -/
def ByArrival (q : PlayoutQueue) : Prop := ∀ e ∈ q.queued, e.Untimed

/-- The queue with a fragment behind all others. -/
def enqueue (q : PlayoutQueue) (f : Fragment) : PlayoutQueue :=
  { q with queued := q.queued ++ [⟨f, 0⟩], held := q.held + f.data.length }

theorem unread_enqueue (q : PlayoutQueue) (f : Fragment) :
    (q.enqueue f).unread = q.unread ++ f.data := by
  simp [enqueue, unread, unreadBytes, Queued.unread]

theorem byArrival_enqueue (h : q.ByArrival) (data : List UInt8) :
    (q.enqueue (.untimed data)).ByArrival := by
  intro e he
  rcases List.mem_append.mp he with hm | hm
  · exact h e hm
  · rw [List.mem_singleton.mp hm]
    rfl

/-! ### Operations in the order of arrival -/

/-- A fragment without a time of its own is placed behind all others. -/
theorem position_zero (h : q.ByArrival) : q.position 0 = q.queued.length := by
  have hall : ∀ e ∈ q.queued, decide (e.timestamp ≤ 0) = true := by
    intro e he
    rw [(h e he).timestamp_eq]
    rfl
  unfold position
  rw [List.takeWhile_eq_self_iff.mpr hall]

theorem write_nil (q : PlayoutQueue) : q.write [] = (q, 0) := by
  simp [write, append, insertAt, Fragment.untimed]

theorem write_eq (h : q.ByArrival) {data : List UInt8} (hd : data ≠ []) :
    q.write data = (q.enqueue (.untimed data)).evict := by
  have hp : q.position (Fragment.untimed data).timestamp = q.queued.length := position_zero h
  have hne : (Fragment.untimed data).data ≠ [] := hd
  rw [write, append, hp, insertAt_of_ne_nil hne, placed, List.take_length, List.drop_length]
  rfl

theorem sort_eq (h : q.ByArrival) : q.sort = q := by
  have hp : q.queued.Pairwise fun a b => decide (a.timestamp ≤ b.timestamp) = true := by
    apply List.pairwise_of_forall_mem_list
    intro a ha b hb
    rw [(h a ha).timestamp_eq, (h b hb).timestamp_eq]
    rfl
  unfold sort
  rw [List.mergeSort_of_pairwise hp]

theorem byArrival_evict (h : q.ByArrival) : q.evict.1.ByArrival :=
  fun e he => h e (mem_evict he)

theorem byArrival_write (h : q.ByArrival) (data : List UInt8) : (q.write data).1.ByArrival := by
  by_cases hd : data = []
  · rw [hd, write_nil]
    exact h
  · rw [write_eq h hd]
    exact byArrival_evict (byArrival_enqueue h data)

theorem byArrival_read (h : q.ByArrival) (n : Nat) : (q.read n).1.ByArrival := by
  intro e he
  rw [queued_read] at he
  rcases mem_drain he with hm | ⟨f, hf, k, rfl⟩
  · exact h e hm
  · exact (h f hf).advance k

/-! ### What an overrun drops -/

/-- The bytes that an overrun drops when `data` is written: those still unread of the fragment at
the front, once the new one is in the queue. The overrun shows in its counter. -/
def overrunBytes (q : PlayoutQueue) (data : List UInt8) : List UInt8 :=
  if (q.write data).1.overruns = q.overruns then []
  else ((q.queued ++ [Queued.mk (.untimed data) 0]).head?.map Queued.unread).getD []

theorem write_dropped (h : q.ByArrival) (data : List UInt8) :
    (q.write data).2 = (q.overrunBytes data).length ∧
      q.overrunBytes data ++ (q.write data).1.unread = q.unread ++ data := by
  unfold overrunBytes
  by_cases hd : data = []
  · rw [hd, write_nil]
    simp
  · rw [write_eq h hd]
    rcases evict_cases (q.enqueue (.untimed data)) with ⟨he, _⟩ | ⟨cap, front, rest, _, _, hq, he⟩
    · rw [he]
      have ho : (q.enqueue (.untimed data)).overruns = q.overruns := rfl
      rw [if_pos ho, unread_enqueue]
      exact ⟨rfl, rfl⟩
    · rw [he]
      have ho : ¬ (q.enqueue (.untimed data)).overruns + 1 = q.overruns := Nat.succ_ne_self _
      have hh : q.queued ++ [Queued.mk (.untimed data) 0] = front :: rest := hq
      have hu : (q.enqueue (.untimed data)).unread = front.unread ++ unreadBytes rest := by
        rw [unread, hq, unreadBytes_cons]
      rw [if_neg ho, hh]
      refine ⟨front.length_unread.symm, ?_⟩
      rw [unread_enqueue] at hu
      exact hu.symm

end PlayoutQueue

namespace Playout

open PlayoutQueue

/-! ### The bytes that enter and leave -/

namespace Step

/-- The step queues no fragment with a time of its own. -/
def ByArrival : Step → Prop
  | .operate (.append _) => False
  | _ => True

/-- The bytes that a step writes. -/
def written : Step → List UInt8
  | .operate (.write data) => data
  | _ => []

end Step

/-- The bytes that an answer gives out: the first `count` bytes of the output of a read. -/
def givenOut : Answer → List UInt8
  | .read r => r.output.take r.count
  | .timedRead (.read r) => r.output.take r.count
  | _ => []

/-- The bytes that leave the queue in a step. -/
def departing (p : Playout) : Step → List UInt8
  | .operate (.write data) => p.queue.overrunBytes data
  | .operate .flush => p.queue.unread
  | s => givenOut (p.step s).2

/-- The bytes that leave the queue in a run, in the order in which they leave. -/
def departed (p : Playout) : List Step → List UInt8
  | [] => []
  | s :: ss => p.departing s ++ departed (p.step s).1 ss

/-- What every state of a run in the order of arrival satisfies. -/
structure Orderly (p : Playout) : Prop where
  byArrival : p.queue.ByArrival
  accounted : p.queue.Accounted

theorem orderly_create {wish : Nat} {cap : Option Nat} {p : Playout}
    (h : create wish cap = .ok p) : p.Orderly ∧ p.queue.unread = [] := by
  obtain ⟨ha, he⟩ := accounted_create (queue_of_create h)
  refine ⟨⟨?_, ha⟩, ?_⟩
  · intro e hm
    simp [he] at hm
  · simp [unread, unreadBytes, he]

theorem orderly_step {p : Playout} (h : p.Orderly) {s : Step} (hs : s.ByArrival) :
    (p.step s).1.Orderly := by
  cases s with
  | advance t => exact ⟨h.byArrival, h.accounted⟩
  | operate op =>
      refine ⟨?_, accounted_apply h.accounted op p.clock⟩
      cases op with
      | append f => exact hs.elim
      | write data => exact byArrival_write h.byArrival data
      | read n => exact byArrival_read h.byArrival n
      | timedRead n interval =>
          exact timedRead_keeps (P := ByArrival) h.byArrival h.byArrival fun _ hr =>
            byArrival_read hr n
      | flush => exact fun e he => absurd he List.not_mem_nil
      | sort =>
          show p.queue.sort.ByArrival
          rw [sort_eq h.byArrival]
          exact h.byArrival

/-- In each step, what leaves and what is still queued make up what was queued and what is
written. -/
theorem departing_append {p : Playout} (h : p.Orderly) {s : Step} (hs : s.ByArrival) :
    p.departing s ++ (p.step s).1.queue.unread = p.queue.unread ++ s.written := by
  cases s with
  | advance t => simp [departing, givenOut, step, Step.written]
  | operate op =>
      cases op with
      | append f => exact hs.elim
      | write data => exact (write_dropped h.byArrival data).2
      | read n =>
          show (p.queue.read n).2.output.take (p.queue.read n).2.count ++
            (p.queue.read n).1.unread = p.queue.unread ++ []
          rw [bytes_read, unread_read, List.take_append_drop, List.append_nil]
      | timedRead n interval =>
          rcases apply_timedRead_cases p.queue p.clock interval n with
            ⟨_, he⟩ | ⟨_, _, he⟩ | ⟨_, _, he⟩
          · simp [departing, givenOut, step, Step.written, he]
          · simp [departing, givenOut, step, Step.written, he]
          · simp only [departing, givenOut, step, Step.written, he, List.append_nil]
            rw [bytes_read, unread_read, List.take_append_drop]
            rfl
      | flush => rfl
      | sort =>
          show [] ++ p.queue.sort.unread = p.queue.unread ++ []
          rw [sort_eq h.byArrival, List.nil_append, List.append_nil]

theorem orderly_run {p : Playout} (h : p.Orderly) {ss : List Step} (hs : ∀ s ∈ ss, s.ByArrival) :
    (p.run ss).1.Orderly := by
  induction ss generalizing p with
  | nil => exact h
  | cons s ss ih =>
      exact ih (orderly_step h (hs s (List.mem_cons_self ..)))
        fun t ht => hs t (List.mem_cons_of_mem s ht)

theorem departed_append {p : Playout} (h : p.Orderly) {ss : List Step}
    (hs : ∀ s ∈ ss, s.ByArrival) :
    p.departed ss ++ (p.run ss).1.queue.unread = p.queue.unread ++ ss.flatMap Step.written := by
  induction ss generalizing p with
  | nil => simp [departed, run]
  | cons s ss ih =>
      have hs₁ := hs s (List.mem_cons_self ..)
      have ih := ih (orderly_step h hs₁) fun t ht => hs t (List.mem_cons_of_mem s ht)
      calc p.departed (s :: ss) ++ (p.run (s :: ss)).1.queue.unread
          = p.departing s ++ ((p.step s).1.departed ss ++ ((p.step s).1.run ss).1.queue.unread) :=
            List.append_assoc ..
        _ = (p.departing s ++ (p.step s).1.queue.unread) ++ ss.flatMap Step.written := by
            rw [ih, List.append_assoc]
        _ = p.queue.unread ++ (s :: ss).flatMap Step.written := by
            rw [departing_append h hs₁, List.append_assoc, List.flatMap_cons]

/-- **A queue is a lossless channel.** In every run of a fresh queue without timed fragments, the
bytes that leave it, in the order in which they leave, and then those still queued are the bytes
written; a further write answers the number of bytes that its own overrun drops; and the queue
holds as many bytes as it says. -/
theorem run_lossless {wish : Nat} {cap : Option Nat} {p : Playout} (h : create wish cap = .ok p)
    (ss : List Step) (hs : ∀ s ∈ ss, s.ByArrival) :
    p.departed ss ++ (p.run ss).1.queue.unread = ss.flatMap Step.written ∧
      (∀ data, ((p.run ss).1.step (.operate (.write data))).2 =
        .dropped ((p.run ss).1.queue.overrunBytes data).length) ∧
      (p.run ss).1.queue.held = (p.run ss).1.queue.unread.length := by
  obtain ⟨ho, he⟩ := orderly_create h
  have hr := orderly_run ho hs
  refine ⟨?_, ?_, hr.accounted⟩
  · rw [departed_append ho hs, he, List.nil_append]
  · intro data
    exact congrArg Answer.dropped (write_dropped hr.byArrival data).1

/-- A run in which bytes leave by all three ways: the first fragment is read in part and the rest of
it dropped by an overrun, the second is read, and the third is flushed. -/
def threeWays : List Step :=
  [.operate (.write [1, 2, 3, 4]), .operate (.read 2), .operate (.write [5, 6, 7]),
    .operate (.write [8, 9, 10, 11]), .advance 5, .operate (.timedRead 3 20), .operate .flush,
    .operate (.write [12])]

theorem run_lossless_threeWays :
    ∃ p, create 2 (some 8) = .ok p ∧ (∀ s ∈ threeWays, s.ByArrival) ∧
      p.departed threeWays = [1, 2] ++ [3, 4] ++ [5, 6, 7] ++ [8, 9, 10, 11] ∧
      p.departed threeWays ++ (p.run threeWays).1.queue.unread =
        threeWays.flatMap Step.written ∧
      (p.run threeWays).1.queue.held = (p.run threeWays).1.queue.unread.length := by
  have h : create 2 (some 8) = .ok ⟨⟨2, some 8, [], 0, true, none, 0, 0⟩, 0⟩ := rfl
  have hs : ∀ s ∈ threeWays, s.ByArrival := by simp [threeWays, Step.ByArrival]
  obtain ⟨hb, _, hc⟩ := run_lossless h threeWays hs
  exact ⟨_, h, hs, by decide, hb, hc⟩

end Playout

end ConferenceMix
