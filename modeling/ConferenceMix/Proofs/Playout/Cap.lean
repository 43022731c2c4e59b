import ConferenceMix.Proofs.Playout.Accounts
import Mathlib.Data.List.Infix

/-! # The cap of a playout queue

An overrun drops one fragment, however many bytes there are too many. Queueing a fragment therefore
takes a queue beyond its cap exactly when the room left and the unread bytes of the leading fragment
do not suffice for it (`Overfills`). `Playout.held_runAt_le_iff` says that this is the only way,
wherever fragments are queued: all states of a run keep the cap exactly when no step of it
overfills. -/

namespace ConferenceMix

open Pcm

namespace PlayoutQueue

variable {q : PlayoutQueue} {f : Fragment} {cap k : Nat}

/-! ### The leading fragment -/

/-- The fragment at the front of the queue once `f` is behind the first `k` others. -/
def leading (q : PlayoutQueue) (k : Nat) (f : Fragment) : Queued :=
  (q.queued.take k).head?.getD ⟨f, 0⟩

theorem queued_placed (q : PlayoutQueue) (k : Nat) (f : Fragment) :
    ∃ rest, (q.placed k f).queued = q.leading k f :: rest := by
  unfold placed leading
  cases q.queued.take k with
  | nil => exact ⟨_, rfl⟩
  | cons front rest => exact ⟨_, rfl⟩

/-- Queueing adds the bytes of the fragment, or, beyond the cap, also drops those left of the
leading one. -/
theorem held_insertAt_cases (hf : f.data ≠ []) (hc : q.cap = some cap) :
    (q.held + f.data.length ≤ cap ∧ (q.insertAt k f).1.held = q.held + f.data.length) ∨
      (cap < q.held + f.data.length ∧
        (q.insertAt k f).1.held = q.held + f.data.length - (q.leading k f).remaining) := by
  obtain ⟨rest, hl⟩ := q.queued_placed k f
  rw [insertAt_of_ne_nil hf]
  rcases (q.placed k f).evict_cases with ⟨he, hle⟩ | ⟨cap', front, rest', hc', hlt, hq, he⟩
  · have hne : (q.placed k f).queued ≠ [] := by
      rw [hl]
      exact List.cons_ne_nil _ _
    rw [he]
    exact .inl ⟨hle cap hc hne, rfl⟩
  · have hcap : cap = cap' := Option.some.inj (hc.symm.trans hc')
    rw [hl, List.cons.injEq] at hq
    obtain ⟨rfl, rfl⟩ := hq
    rw [he]
    exact .inr ⟨hcap ▸ hlt, rfl⟩

/-! ### When the cap is kept -/

/-- The room left in the queue and the unread bytes of the leading fragment do not suffice for `f`
behind the first `k` others. -/
def Overfills (q : PlayoutQueue) (k : Nat) (f : Fragment) : Prop :=
  ∃ cap, q.cap = some cap ∧ cap + (q.leading k f).remaining < q.held + f.data.length

theorem overfills_iff (hc : q.cap = some cap) :
    q.Overfills k f ↔ cap + (q.leading k f).remaining < q.held + f.data.length := by
  constructor
  · rintro ⟨cap', hc', h⟩
    rw [hc] at hc'
    cases hc'
    exact h
  · exact fun h => ⟨cap, hc, h⟩

theorem held_insertAt_le_iff (hc : q.cap = some cap) (h : q.held ≤ cap) :
    (q.insertAt k f).1.held ≤ cap ↔ ¬ q.Overfills k f := by
  rw [overfills_iff hc]
  by_cases hf : f.data = []
  · rw [insertAt_of_nil hf, hf, List.length_nil]
    exact iff_of_true h (by omega)
  · rcases held_insertAt_cases (k := k) hf hc with ⟨hle, he⟩ | ⟨hlt, he⟩
    · rw [he]
      omega
    · rw [he]
      omega

theorem held_read_le (q : PlayoutQueue) (n : Nat) : (q.read n).1.held ≤ q.held := by
  rw [held_read]
  omega

theorem held_timedRead_le (q : PlayoutQueue) (now interval : Nanos) (n : Nat) :
    ((Operation.timedRead n interval).apply now q).1.held ≤ q.held :=
  timedRead_keeps (P := fun r => r.held ≤ q.held) (Nat.le_refl _) (Nat.le_refl _) fun r hr =>
    Nat.le_trans (r.held_read_le n) hr

end PlayoutQueue

namespace Playout

open PlayoutQueue

variable {wish cap : Nat} {p : Playout}

/-! ### Runs -/

/-- The step queues a fragment that overfills the queue, behind so many others. -/
def Overfilling (p : Playout) (m : Nat × Step) : Prop :=
  match m.2.fragment? with
  | some f => p.queue.Overfills m.1 f
  | none => False

theorem cap_stepAt (p : Playout) (m : Nat × Step) :
    (p.stepAt m.1 m.2).1.queue.cap = p.queue.cap := by
  unfold stepAt
  cases m.2.fragment? with
  | some f => exact (p.queue.limits_insertAt m.1 f).2
  | none =>
      cases m.2 with
      | advance t => rfl
      | operate op => exact (limits_apply op p.clock p.queue).2

theorem cap_runAt (p : Playout) (ms : List (Nat × Step)) :
    (p.runAt ms).1.queue.cap = p.queue.cap := by
  induction ms generalizing p with
  | nil => rfl
  | cons m ms ih => exact (ih (p.stepAt m.1 m.2).1).trans (p.cap_stepAt m)

/-- A queue that keeps its cap keeps it in a step exactly when the step does not overfill it. -/
theorem held_stepAt_le_iff (hc : p.queue.cap = some cap) (h : p.queue.held ≤ cap)
    (m : Nat × Step) : (p.stepAt m.1 m.2).1.queue.held ≤ cap ↔ ¬ p.Overfilling m := by
  obtain ⟨k, s⟩ := m
  cases s with
  | advance t => exact iff_of_true h id
  | operate op =>
      cases op with
      | append f => exact held_insertAt_le_iff hc h
      | write data => exact held_insertAt_le_iff hc h
      | read n => exact iff_of_true (Nat.le_trans (p.queue.held_read_le n) h) id
      | timedRead n interval =>
          exact iff_of_true (Nat.le_trans (p.queue.held_timedRead_le p.clock interval n) h) id
      | flush => exact iff_of_true (Nat.zero_le cap) id
      | sort => exact iff_of_true h id

/-- **Only a fragment that overfills breaks the cap.** In every run of a fresh queue with a cap,
wherever each fragment is queued, all states, the last one included, hold at most as many bytes as
the cap allows exactly when no step of the run queues a fragment for which the room left and the
unread bytes of the leading fragment do not suffice. Runs in which each fragment is queued behind all
that start no later are among these. -/
theorem held_runAt_le_iff (h : create wish (some cap) = .ok p) :
    (∀ ms : List (Nat × Step), (∀ as bs, ms = as ++ bs → (p.runAt as).1.queue.held ≤ cap) ↔
      ∀ as m bs, ms = as ++ m :: bs → ¬ (p.runAt as).1.Overfilling m) ∧
      ∀ ss, ∃ ms : List (Nat × Step), ms.map Prod.snd = ss ∧ p.runAt ms = p.run ss := by
  refine ⟨fun ms => ?_, p.exists_runAt_eq_run⟩
  obtain ⟨hc, h₀, _⟩ := cap_of_create h
  have hstep : ∀ (p : Playout) (m : Nat × Step), p.queue.cap = some cap ∧ p.queue.held ≤ cap →
      (((p.stepAt m.1 m.2).1.queue.cap = some cap ∧ (p.stepAt m.1 m.2).1.queue.held ≤ cap) ↔
        ¬ p.Overfilling m) := by
    rintro p m ⟨hc, hle⟩
    rw [and_iff_right ((p.cap_stepAt m).trans hc)]
    exact held_stepAt_le_iff hc hle m
  rw [← runAt_iff hstep ⟨hc, h₀ ▸ Nat.zero_le cap⟩ ms]
  exact forall₃_congr fun as _ _ => (and_iff_right ((p.cap_runAt as).trans hc)).symm

/-- Two fragments, of which the one in front is read until it starts later than the other, and a third
that starts with the other. -/
def outOfOrder : List Step :=
  [.operate (.append ⟨[1, 2, 3, 4, 5, 6, 7, 8], 1000, 1, 0⟩),
    .operate (.append ⟨[9, 10], 1000, 1, .ofMillis 1⟩), .operate (.read 7),
    .operate (.append ⟨[11, 12, 13, 14, 15, 16, 17, 18, 19, 20], 1000, 1, .ofMillis 1⟩)]

/-- The third fragment displaces itself if it is put in front. Behind the other two it displaces the
byte that is left of the first, which is not enough. -/
theorem held_runAt_le_iff_outOfOrder :
    ∃ p, create 1 (some 10) = .ok p ∧
      (¬ ∃ as m bs, [0, 1, 0, 0].zip outOfOrder = as ++ m :: bs ∧ (p.runAt as).1.Overfilling m) ∧
      (∃ as m bs, [0, 1, 0, 2].zip outOfOrder = as ++ m :: bs ∧ (p.runAt as).1.Overfilling m) ∧
      (p.runAt ([0, 1, 0, 0].zip outOfOrder)).1.queue.held = 3 ∧
      (p.runAt ([0, 1, 0, 2].zip outOfOrder)).1.queue.held = 12 := by
  have h : create 1 (some 10) = .ok ⟨⟨1, some 10, [], 0, true, none, 0, 0⟩, 0⟩ := rfl
  have hprefixes : ∀ ms as bs : List (Nat × Step), ms = as ++ bs → as ∈ ms.inits := by
    rintro _ as bs rfl
    exact (List.mem_inits as _).mpr (List.prefix_append as bs)
  refine ⟨_, h, ?_, ?_, by decide +kernel, by decide +kernel⟩
  · rintro ⟨as, m, bs, hs, hover⟩
    refine ((held_runAt_le_iff h).1 _).mp (fun cs ds hcs => ?_) as m bs hs hover
    have hall : ∀ cs ∈ ([0, 1, 0, 0].zip outOfOrder).inits,
        ((Playout.mk ⟨1, some 10, [], 0, true, none, 0, 0⟩ 0).runAt cs).1.queue.held ≤ 10 := by
      decide +kernel
    exact hall cs (hprefixes _ _ _ hcs)
  · by_contra hno
    have hle := ((held_runAt_le_iff h).1 ([0, 1, 0, 2].zip outOfOrder)).mpr
      (fun as m bs hs hover => hno ⟨as, m, bs, hs, hover⟩) _ [] (List.append_nil _).symm
    exact absurd hle (by decide +kernel)

/-- Single bytes up to a cap of two, and then two at once. -/
def afterTwoBytes : List Step :=
  [.operate (.write [1]), .operate (.write [2]), .operate (.write [3, 4])]

/-- The cap can be broken although every fragment is within it: an overrun drops one fragment, and
that may be shorter than the excess. -/
theorem cap_broken_by_short_front :
    ∃ p, create 1 (some 2) = .ok p ∧ (∀ s ∈ afterTwoBytes, s.carried.length ≤ 2) ∧
      ¬ (p.run afterTwoBytes).1.queue.held ≤ 2 :=
  ⟨_, rfl, by decide, by decide⟩

end Playout

end ConferenceMix
