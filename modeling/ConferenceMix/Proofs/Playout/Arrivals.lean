import ConferenceMix.Proofs.Playout.Padding
import ConferenceMix.Proofs.Playout.Order
import Mathlib.Data.List.Forall2

/-! # Fragments that do not overlap are played in the order of their times

Reading moves the timestamp of the fragment at the front, and a new fragment is placed by the
timestamps as they are then. `Traced` follows a queue and notes for each fragment in it which
arrival it is left of. As long as no two arrivals overlap in time, what reading adds to a timestamp
never carries a fragment beyond the start of the next one, nor beyond that of a fragment still to
come (`Traced.Faithful`).

`Playout.run_in_time` concludes that the queue always goes by the original timestamps, and by the
order of arrival where these are equal; reads give the bytes out in that order, and ordering the
queue changes nothing. -/

namespace ConferenceMix

open Pcm

/-! ### Arrivals -/

namespace Pcm.Fragment

/-- The moment at which the fragment has been played. -/
def finish (f : Fragment) : Nanos := f.timestamp + f.playback f.data.length

/-- Two fragments, the second of which arrives later, do not overlap in time: the one that starts
first has been played when the other starts. If they start together, that is the one that arrives
first. -/
def Apart (f g : Fragment) : Prop :=
  (f.timestamp ≤ g.timestamp → f.finish ≤ g.timestamp) ∧
    (g.timestamp < f.timestamp → g.finish ≤ f.timestamp)

instance (f g : Fragment) : Decidable (f.Apart g) := inferInstanceAs (Decidable (_ ∧ _))

end Pcm.Fragment

/-- A fragment and its number in the order of arrival. -/
structure Arrival where
  number : Nat
  fragment : Fragment
deriving DecidableEq, Repr

namespace Arrival

/-- Arrivals go by the timestamps of their fragments, and by their numbers where these are equal. -/
def Precedes (a b : Arrival) : Prop :=
  a.fragment.timestamp < b.fragment.timestamp ∨
    a.fragment.timestamp = b.fragment.timestamp ∧ a.number < b.number

theorem Precedes.timestamp_le {a b : Arrival} (h : a.Precedes b) :
    a.fragment.timestamp ≤ b.fragment.timestamp := by
  rcases h with hlt | ⟨heq, _⟩
  · exact Nat.le_of_lt hlt
  · exact Nat.le_of_eq heq

/-- A queued fragment is what is left of an arrival: its timestamp has been moved, but by no more
than the playing time of the bytes that have been read. -/
structure Remains (a : Arrival) (e : Queued) : Prop where
  data : e.fragment.data = a.fragment.data
  rate : e.fragment.rate = a.fragment.rate
  channels : e.fragment.channels = a.fragment.channels
  started : e.taken < a.fragment.data.length
  earliest : a.fragment.timestamp ≤ e.timestamp
  latest : e.timestamp ≤ a.fragment.timestamp + a.fragment.playback e.taken

variable {a : Arrival} {e : Queued}

theorem Remains.playback (h : a.Remains e) (n : Nat) :
    e.fragment.playback n = a.fragment.playback n := by
  have hb : e.fragment.bytesPerSecond = a.fragment.bytesPerSecond := by
    rw [Fragment.bytesPerSecond, h.rate, h.channels, Fragment.bytesPerSecond]
  rw [Fragment.playback, hb, Fragment.playback]

/-- What is left of an arrival starts before the whole of it has been played. -/
theorem Remains.le_finish (h : a.Remains e) : e.timestamp ≤ a.fragment.finish :=
  h.latest.trans (Nat.add_le_add_left (a.fragment.playback_mono (Nat.le_of_lt h.started)) _)

theorem remains_new {f : Fragment} (hf : f.data ≠ []) (n : Nat) :
    Remains ⟨n, f⟩ ⟨f, 0⟩ :=
  ⟨rfl, rfl, rfl, List.length_pos_iff.mpr hf, Nat.le_refl _, Nat.le_add_right _ _⟩

/-- Playing times are rounded down, so that those of the parts of an arrival do not add up to more
than that of the whole. -/
theorem Remains.advance (h : a.Remains e) {n : Nat} (hn : n < e.remaining) :
    a.Remains (e.advance n) where
  data := h.data
  rate := h.rate
  channels := h.channels
  started := by
    have hlen := congrArg List.length h.data
    simp only [Queued.remaining] at hn
    simp only [Queued.advance]
    omega
  earliest := h.earliest.trans (Nat.le_add_right _ _)
  latest := by
    calc e.timestamp + e.fragment.playback n
        ≤ a.fragment.timestamp + a.fragment.playback e.taken + a.fragment.playback n := by
          rw [h.playback]
          exact Nat.add_le_add_right h.latest _
      _ = a.fragment.timestamp + (a.fragment.playback e.taken + a.fragment.playback n) :=
        Nat.add_assoc ..
      _ ≤ a.fragment.timestamp + a.fragment.playback (e.taken + n) :=
        Nat.add_le_add_left (a.fragment.playback_add_le e.taken n) _

end Arrival

/-! ### What is left of several arrivals -/

section Left

variable {os : List Arrival} {qs : List Queued}

theorem exists_remains (h : List.Forall₂ Arrival.Remains os qs) {a : Arrival} (ha : a ∈ os) :
    ∃ e ∈ qs, a.Remains e := by
  induction h with
  | nil => cases ha
  | cons hr _ ih =>
      rcases List.mem_cons.mp ha with rfl | hm
      · exact ⟨_, List.mem_cons_self .., hr⟩
      · obtain ⟨e, he, hr⟩ := ih hm
        exact ⟨e, List.mem_cons_of_mem _ he, hr⟩

theorem remains_keep (h : List.Forall₂ Arrival.Remains os qs) :
    List.Forall₂ Arrival.Remains (os.drop (os.length - qs.length)) qs := by
  rw [h.length_eq, Nat.sub_self]
  exact h

/-- Fragments that are drained leave at the front. -/
theorem remains_drain (h : List.Forall₂ Arrival.Remains os qs) (n : Nat) :
    List.Forall₂ Arrival.Remains (os.drop (os.length - (drain n qs).2.length)) (drain n qs).2 := by
  induction h generalizing n with
  | nil => simp
  | @cons a q os qs hr hrs ih =>
      by_cases hn : n = 0
      · subst hn
        rw [drain_zero]
        exact remains_keep (.cons hr hrs)
      · by_cases hle : q.remaining ≤ n
        · have hshort : (drain (n - q.remaining) qs).2.length ≤ os.length :=
            hrs.length_eq ▸ length_drain_le _ qs
          rw [drain_cons_of_le qs hn hle]
          dsimp only
          rw [List.length_cons, Nat.succ_sub hshort]
          exact ih _
        · have hlt : n < q.remaining := Nat.lt_of_not_le hle
          rw [drain_cons_of_lt qs hn hlt]
          exact remains_keep (.cons (hr.advance hlt) hrs)

theorem remains_evict {q : PlayoutQueue} (h : List.Forall₂ Arrival.Remains os q.queued) :
    List.Forall₂ Arrival.Remains (os.drop (os.length - q.evict.1.count)) q.evict.1.queued := by
  have hcount : os.length = q.count := h.length_eq
  rw [q.queued_evict, hcount]
  exact List.forall₂_drop _ h

/-- The unread bytes of the arrivals, in their order. -/
def rests (os : List Arrival) (qs : List Queued) : List UInt8 :=
  (os.zip qs).flatMap fun x => x.1.fragment.data.drop x.2.taken

theorem unreadBytes_eq_rests (h : List.Forall₂ Arrival.Remains os qs) :
    unreadBytes qs = rests os qs := by
  induction h with
  | nil => rfl
  | cons hr _ ih =>
      rw [unreadBytes_cons, ih, Queued.unread, hr.data]
      rfl

end Left

/-- Arrivals that do not overlap: one that precedes another has been played when that one starts. -/
theorem finish_le {fs : List Fragment} (hfs : fs.Pairwise Fragment.Apart) {a b : Arrival}
    (ha : fs[a.number]? = some a.fragment) (hb : fs[b.number]? = some b.fragment)
    (h : a.Precedes b) : a.fragment.finish ≤ b.fragment.timestamp := by
  obtain ⟨hi, hai⟩ := List.getElem?_eq_some_iff.mp ha
  obtain ⟨hj, hbj⟩ := List.getElem?_eq_some_iff.mp hb
  rcases Nat.lt_trichotomy a.number b.number with hlt | heq | hgt
  · have hapart := List.pairwise_iff_getElem.mp hfs _ _ hi hj hlt
    rw [hai, hbj] at hapart
    exact hapart.1 h.timestamp_le
  · -- no arrival precedes itself
    have hsame : a.fragment = b.fragment := Option.some.inj (ha.symm.trans (heq ▸ hb))
    rcases h with hlt | ⟨_, hlt⟩
    · exact absurd (hsame ▸ hlt) (Nat.lt_irrefl _)
    · exact absurd (heq ▸ hlt) (Nat.lt_irrefl _)
  · have hapart := List.pairwise_iff_getElem.mp hfs _ _ hj hi hgt
    rw [hai, hbj] at hapart
    rcases h with hlt | ⟨_, hlt⟩
    · exact hapart.2 hlt
    · exact absurd hlt (Nat.lt_asymm hgt)

/-! ### Following a queue -/

/-- The fragments that steps queue, in the order of arrival. -/
def Playout.arrivals (ss : List Playout.Step) : List Fragment :=
  ss.filterMap Playout.Step.fragment?

theorem Playout.arrivals_cons (s : Playout.Step) (ss : List Playout.Step) :
    arrivals (s :: ss) = s.fragment?.toList ++ arrivals ss := by
  cases hs : s.fragment? with
  | none => simp [arrivals, hs]
  | some f => simp [arrivals, hs]

/-- A playout queue, the arrivals that the fragments in it are left of, front to back, and the
number of fragments that have arrived. -/
structure Traced where
  playout : Playout
  origins : List Arrival
  arrived : Nat

namespace Traced

open Playout PlayoutQueue

/-- A queue before the first arrival. -/
def start (p : Playout) : Traced := ⟨p, [], 0⟩

/-- The arrivals behind the fragments with a new one among them, in the place that its fragment is
given. -/
def place (t : Traced) (f : Fragment) : List Arrival :=
  let k := t.playout.queue.position f.timestamp
  t.origins.take k ++ ⟨t.arrived, f⟩ :: t.origins.drop k

/-- The arrivals behind the fragments once a step has queued a new one or has ordered them, before
any of them leaves. -/
def lined (t : Traced) : Step → List Arrival
  | .operate .sort =>
      ((t.origins.zip t.playout.queue.queued).mergeSort fun a b =>
        decide (a.2.timestamp ≤ b.2.timestamp)).map Prod.fst
  | s =>
      match s.fragment? with
      | some f => if f.data = [] then t.origins else t.place f
      | none => t.origins

/-- Carries out one step. Fragments leave the queue at its front. -/
def step (t : Traced) (s : Step) : Traced :=
  let after := (t.playout.step s).1
  { playout := after
    origins := (t.lined s).drop ((t.lined s).length - after.queue.count)
    arrived := t.arrived + s.fragment?.toList.length }

/-- Carries out steps one after another. -/
def run (t : Traced) (ss : List Step) : Traced := ss.foldl step t

theorem playout_run (t : Traced) (ss : List Step) : (t.run ss).playout = (t.playout.run ss).1 := by
  induction ss generalizing t with
  | nil => rfl
  | cons s ss ih => exact ih (t.step s)

/-- Every fragment in the queue is what is left of its arrival, and the arrivals go by their
timestamps. -/
structure Faithful (fs : List Fragment) (t : Traced) : Prop where
  arrived : t.arrived = fs.length
  recorded : ∀ a ∈ t.origins, fs[a.number]? = some a.fragment
  left : List.Forall₂ Arrival.Remains t.origins t.playout.queue.queued
  ordered : t.origins.Pairwise Arrival.Precedes

variable {fs : List Fragment} {t : Traced}

/-- The fragments are in the order of the timestamps that they have come to have. -/
theorem Faithful.queue_ordered (h : t.Faithful fs) (hfs : fs.Pairwise Fragment.Apart) :
    t.playout.queue.Ordered := by
  refine List.pairwise_iff_getElem.mpr fun i j hi hj hij => ?_
  have hi' : i < t.origins.length := h.left.length_eq ▸ hi
  have hj' : j < t.origins.length := h.left.length_eq ▸ hj
  have hp := List.pairwise_iff_getElem.mp h.ordered i j hi' hj' hij
  calc t.playout.queue.queued[i].timestamp
      ≤ t.origins[i].fragment.finish := (h.left.get hi' hi).le_finish
    _ ≤ t.origins[j].fragment.timestamp :=
        finish_le hfs (h.recorded _ (List.getElem_mem hi')) (h.recorded _ (List.getElem_mem hj')) hp
    _ ≤ t.playout.queue.queued[j].timestamp := (h.left.get hj' hj).earliest

/-! ### What a step does to the arrivals -/

/-- Ordering the queue leaves the arrivals as they are. -/
theorem Faithful.lined_sort (h : t.Faithful fs) (hfs : fs.Pairwise Fragment.Apart) :
    t.lined (.operate .sort) = t.origins := by
  have hlen := h.left.length_eq
  have hp : (t.origins.zip t.playout.queue.queued).Pairwise fun a b =>
      decide (a.2.timestamp ≤ b.2.timestamp) = true := by
    have hq := h.queue_ordered hfs
    rw [ordered_iff, InOrder, ← List.map_snd_zip (Nat.le_of_eq hlen.symm)] at hq
    exact (List.pairwise_map.mp hq).imp fun hab => decide_eq_true hab
  rw [lined, List.mergeSort_of_pairwise hp, List.map_fst_zip (Nat.le_of_eq hlen)]

theorem Faithful.lined_of_none (h : t.Faithful fs) (hfs : fs.Pairwise Fragment.Apart) {s : Step}
    (hs : s.fragment? = none) : t.lined s = t.origins := by
  cases s with
  | advance d => rfl
  | operate op =>
      cases op with
      | append f => cases hs
      | write data => cases hs
      | sort => exact h.lined_sort hfs
      | _ => rfl

theorem lined_of_some {s : Step} {f : Fragment} (hs : s.fragment? = some f) :
    t.lined s = if f.data = [] then t.origins else t.place f := by
  cases s with
  | advance d => cases hs
  | operate op =>
      cases op with
      | append g =>
          cases hs
          rfl
      | write data =>
          cases hs
          rfl
      | _ => cases hs

/-- An arrival of which a fragment in front of the place of a new one is left started no later. -/
theorem Faithful.precedes_new (h : t.Faithful fs) {f : Fragment} {a : Arrival}
    (ha : a ∈ t.origins.take (t.playout.queue.position f.timestamp)) :
    a.Precedes ⟨t.arrived, f⟩ := by
  obtain ⟨e, he, hr⟩ := exists_remains (List.forall₂_take _ h.left) ha
  have hle : a.fragment.timestamp ≤ f.timestamp := hr.earliest.trans (le_of_mem_take_position he)
  have hnumber : a.number < t.arrived := by
    rw [h.arrived]
    exact (List.getElem?_eq_some_iff.mp (h.recorded a (List.mem_of_mem_take ha))).1
  rcases Nat.lt_or_eq_of_le hle with hlt | heq
  · exact .inl hlt
  · exact .inr ⟨heq, hnumber⟩

/-- An arrival of which a fragment behind the place of a new one is left started later, even if that
fragment is half read. -/
theorem Faithful.new_precedes (h : t.Faithful fs) {f : Fragment}
    (hfs : (fs ++ [f]).Pairwise Fragment.Apart) {a : Arrival}
    (ha : a ∈ t.origins.drop (t.playout.queue.position f.timestamp)) :
    Arrival.Precedes ⟨t.arrived, f⟩ a := by
  obtain ⟨hold, _, hnew⟩ := List.pairwise_append.mp hfs
  obtain ⟨e, he, hr⟩ := exists_remains (List.forall₂_drop _ h.left) ha
  have hlt := lt_of_mem_drop_position (h.queue_ordered hold) he
  have hmem : a.fragment ∈ fs := List.mem_of_getElem? (h.recorded a (List.mem_of_mem_drop ha))
  refine .inl (Nat.lt_of_not_le fun hle => ?_)
  -- an arrival that starts no later than the new one has been played by then
  have hplayed := (hnew a.fragment hmem f (List.mem_singleton_self f)).1 hle
  exact Nat.not_lt.mpr (hr.le_finish.trans hplayed) hlt

theorem Faithful.recorded_append (h : t.Faithful fs) (gs : List Fragment) :
    ∀ a ∈ t.origins, (fs ++ gs)[a.number]? = some a.fragment := by
  intro a ha
  have hr := h.recorded a ha
  rwa [List.getElem?_append_left (List.getElem?_eq_some_iff.mp hr).1]

theorem Faithful.recorded_place (h : t.Faithful fs) (f : Fragment) :
    ∀ a ∈ t.place f, (fs ++ [f])[a.number]? = some a.fragment := by
  intro a ha
  rcases List.mem_append.mp ha with hm | hm
  · exact h.recorded_append [f] a (List.mem_of_mem_take hm)
  · rcases List.mem_cons.mp hm with rfl | hm
    · rw [h.arrived]
      exact List.getElem?_concat_length
    · exact h.recorded_append [f] a (List.mem_of_mem_drop hm)

/-- A step that queues nothing lets fragments leave at the front, if at all. -/
theorem Faithful.left_of_none (h : t.Faithful fs) (hfs : fs.Pairwise Fragment.Apart) {s : Step}
    (hs : s.fragment? = none) :
    List.Forall₂ Arrival.Remains
      (t.origins.drop (t.origins.length - (t.playout.step s).1.queue.count))
      (t.playout.step s).1.queue.queued := by
  cases hr : (t.playout.step s).2.result? with
  | some r =>
      obtain ⟨nextRead, hq, _⟩ := read_of_result? hr
      rw [hq, count, queued_read]
      exact remains_drain h.left _
  | none =>
      by_cases hflush : s = .operate .flush
      · subst hflush
        show List.Forall₂ _ (t.origins.drop t.origins.length) []
        rw [List.drop_length]
        exact .nil
      by_cases hsort : s = .operate .sort
      · subst hsort
        show List.Forall₂ Arrival.Remains
          (t.origins.drop (t.origins.length - t.playout.queue.sort.count))
          t.playout.queue.sort.queued
        rw [sort_of_ordered (h.queue_ordered hfs)]
        exact remains_keep h.left
      · rw [count, queued_step_of_result?_eq_none hs hsort hflush hr]
        exact remains_keep h.left

/-- A step that queues a fragment puts it in its place, and an overrun takes the one at the
front. -/
theorem Faithful.left_of_some (h : t.Faithful fs) {s : Step} {f : Fragment}
    (hs : s.fragment? = some f) :
    List.Forall₂ Arrival.Remains
      ((t.lined s).drop ((t.lined s).length - (t.playout.step s).1.queue.count))
      (t.playout.step s).1.queue.queued := by
  rw [step_of_fragment? hs, lined_of_some hs]
  by_cases hf : f.data = []
  · rw [if_pos hf]
    show List.Forall₂ _ (t.origins.drop (t.origins.length - (t.playout.queue.append f).1.count))
      (t.playout.queue.append f).1.queued
    rw [append_of_nil hf]
    exact remains_keep h.left
  · rw [if_neg hf]
    dsimp only
    rw [append_of_ne_nil hf]
    refine remains_evict (q := t.playout.queue.insert f) ?_
    exact List.rel_append (List.forall₂_take _ h.left)
      (.cons (Arrival.remains_new hf _) (List.forall₂_drop _ h.left))

theorem Faithful.step (h : t.Faithful fs) (s : Step)
    (hfs : (fs ++ s.fragment?.toList).Pairwise Fragment.Apart) :
    (t.step s).Faithful (fs ++ s.fragment?.toList) := by
  have harrived : (t.step s).arrived = (fs ++ s.fragment?.toList).length := by
    rw [List.length_append, ← h.arrived]
    rfl
  -- what stands in line is recorded and ordered, and the rest of it is left
  suffices hline : (∀ a ∈ t.lined s, (fs ++ s.fragment?.toList)[a.number]? = some a.fragment) ∧
      (t.lined s).Pairwise Arrival.Precedes ∧ List.Forall₂ Arrival.Remains
        ((t.lined s).drop ((t.lined s).length - (t.playout.step s).1.queue.count))
        (t.playout.step s).1.queue.queued by
    obtain ⟨hrecorded, hordered, hleft⟩ := hline
    exact ⟨harrived, fun a ha => hrecorded a (List.mem_of_mem_drop ha), hleft, hordered.drop⟩
  cases hs : s.fragment? with
  | none =>
      rw [hs, Option.toList_none, List.append_nil] at hfs
      rw [h.lined_of_none hfs hs, Option.toList_none, List.append_nil]
      exact ⟨h.recorded, h.ordered, h.left_of_none hfs hs⟩
  | some f =>
      rw [hs] at hfs
      refine ⟨?_, ?_, h.left_of_some hs⟩
      · rw [lined_of_some hs]
        split
        · exact h.recorded_append [f]
        · exact h.recorded_place f
      · rw [lined_of_some hs]
        split
        · exact h.ordered
        · exact pairwise_insert h.ordered (fun _ ha => h.precedes_new ha)
            fun _ ha => h.new_precedes hfs ha

theorem Faithful.run (h : t.Faithful fs) (ss : List Step)
    (hfs : (fs ++ arrivals ss).Pairwise Fragment.Apart) :
    (t.run ss).Faithful (fs ++ arrivals ss) := by
  induction ss generalizing t fs with
  | nil =>
      rw [arrivals, List.filterMap_nil, List.append_nil]
      exact h
  | cons s ss ih =>
      rw [arrivals_cons, ← List.append_assoc] at hfs ⊢
      exact ih (h.step s (List.pairwise_append.mp hfs).1) hfs

end Traced

namespace Playout

open PlayoutQueue

/-- **Playing follows the timestamps, however fragments arrive.** In every run of a fresh queue in
which no two arrivals overlap in time, the fragments in the queue are what is left of arrivals that
stand in the order of their original timestamps, and of arrival where these are equal. Every read
gives out the unread bytes of those arrivals in that order, and ordering the queue changes
nothing. -/
theorem run_in_time {wish : Nat} {cap : Option Nat} {p : Playout} (h : create wish cap = .ok p)
    {ss : List Step} (hs : (arrivals ss).Pairwise Fragment.Apart) :
    ((Traced.start p).run ss).playout = (p.run ss).1 ∧
      ((Traced.start p).run ss).Faithful (arrivals ss) ∧
      (∀ n, ((p.run ss).1.queue.read n).2.output.take ((p.run ss).1.queue.read n).2.count =
        (rests ((Traced.start p).run ss).origins (p.run ss).1.queue.queued).take
          ((p.run ss).1.queue.allowance n)) ∧
      (p.run ss).1.queue.sort = (p.run ss).1.queue := by
  have h₀ : (Traced.start p).Faithful [] :=
    ⟨rfl, nofun, by rw [Traced.start, (cap_of_create h).2.2]; exact .nil, .nil⟩
  have hrun : ((Traced.start p).run ss).playout = (p.run ss).1 := Traced.playout_run _ ss
  have hfaithful : ((Traced.start p).run ss).Faithful (arrivals ss) := h₀.run ss hs
  refine ⟨hrun, hfaithful, fun n => ?_, ?_⟩
  · rw [bytes_read, ← hrun, unread, unreadBytes_eq_rests hfaithful.left]
  · rw [← hrun]
    exact sort_of_ordered (hfaithful.queue_ordered hs)

/-- An untimed fragment, one that starts at zero, and a later one; then the untimed fragment and one
byte of the next are read, and the fragment between the other two arrives late. -/
def lateBetween : List Step :=
  [.operate (.write [9]), .operate (.append ⟨[1, 2, 3, 4], 1000, 1, 0⟩),
    .operate (.append ⟨[7, 8], 1000, 1, 4000000⟩), .operate (.read 2),
    .operate (.append ⟨[5, 6], 1000, 1, 2000000⟩)]

theorem run_in_time_lateBetween :
    ∃ p, create 1 none = .ok p ∧ (arrivals lateBetween).Pairwise Fragment.Apart ∧
      ((Traced.start p).run lateBetween).Faithful (arrivals lateBetween) ∧
      ((Traced.start p).run lateBetween).origins.map Arrival.number = [1, 3, 2] ∧
      ((p.run lateBetween).1.queue.read 8).2.output = [2, 3, 4, 5, 6, 7, 8, 0] ∧
      (p.run lateBetween).1.queue.sort = (p.run lateBetween).1.queue := by
  have h : create 1 none = .ok ⟨⟨1, none, [], 0, true, none, 0, 0⟩, 0⟩ := rfl
  have hs : (arrivals lateBetween).Pairwise Fragment.Apart := by decide
  obtain ⟨_, hfaithful, _, hsort⟩ := run_in_time h hs
  exact ⟨_, h, hs, hfaithful, by decide, by decide, hsort⟩

end Playout

end ConferenceMix
