import ConferenceMix.Proofs.Playout.Reading
import Mathlib.Data.List.Forall2

/-! # Timestamps of fragments that are read in pieces

A read that stops within a fragment moves its timestamp on by the playing time of the bytes taken,
in whole microseconds. Each piece of a fragment is rounded down for itself, so that its timestamp
falls behind the playing time of all that has been read of it. It never runs ahead, and falls behind
by at most one microsecond for each piece but the first (`Pcm.Fragment.sum_playback_le` and
`Pcm.Fragment.playback_sum_le`).

A `Passage` notes of a fragment in a queue how it came and which pieces reads have taken from it.
`Playout.follow` keeps these notes along a run: they change with the cuts of the reads that take
place (`Playout.cutting`) and show the queue as it is (`Playout.followed_follow`).
`Playout.timestamps_follow` says how close the timestamps stay, and that a read reports them. -/

namespace ConferenceMix

open Pcm

/-! ### Playing times of pieces -/

namespace Pcm.Fragment

/-- The playing time of a sum of bytes is at most one microsecond above the sum of the playing
times. -/
theorem playback_add_le_succ (f : Fragment) (m n : Nat) :
    f.playback (m + n) ≤ f.playback m + f.playback n + Nanos.ofMicros 1 := by
  unfold playback
  split
  · exact Nat.zero_le _
  · rename_i h
    have hq : (m + n) * 1000000 / f.bytesPerSecond ≤
        m * 1000000 / f.bytesPerSecond + n * 1000000 / f.bytesPerSecond + 1 := by
      rw [Nat.add_mul, Nat.add_div (Nat.pos_of_ne_zero h)]
      split <;> omega
    simp only [Nanos.ofMicros, ← Nat.add_mul]
    exact Nat.mul_le_mul_right 1000 hq

theorem sum_playback_le (f : Fragment) (ns : List Nat) :
    (ns.map f.playback).sum ≤ f.playback ns.sum := by
  induction ns with
  | nil => exact Nat.zero_le _
  | cons n ns ih =>
      rw [List.map_cons, List.sum_cons, List.sum_cons]
      exact Nat.le_trans (Nat.add_le_add_left ih _) (f.playback_add_le n ns.sum)

/-- The playing time of a whole exceeds the sum of those of its pieces by at most one microsecond
for each piece but the first. -/
theorem playback_sum_le (f : Fragment) (ns : List Nat) :
    f.playback ns.sum ≤ (ns.map f.playback).sum + Nanos.ofMicros (ns.length - 1) := by
  induction ns with
  | nil => exact Nat.le_of_eq f.playback_zero
  | cons n ns ih =>
      cases ns with
      | nil => simp
      | cons m ms =>
          have hlength : Nanos.ofMicros ((m :: ms).length - 1) + Nanos.ofMicros 1 =
              Nanos.ofMicros ((n :: m :: ms).length - 1) := (Nat.add_mul ms.length 1 1000).symm
          rw [List.map_cons, List.sum_cons, List.sum_cons]
          calc f.playback (n + (m :: ms).sum)
              ≤ f.playback n + f.playback (m :: ms).sum + Nanos.ofMicros 1 :=
                f.playback_add_le_succ n (m :: ms).sum
            _ ≤ f.playback n + (((m :: ms).map f.playback).sum +
                  Nanos.ofMicros ((m :: ms).length - 1)) + Nanos.ofMicros 1 :=
                Nat.add_le_add_right (Nat.add_le_add_left ih _) _
            _ = f.playback n + ((m :: ms).map f.playback).sum +
                  Nanos.ofMicros ((n :: m :: ms).length - 1) := by
                rw [← hlength, ← Nat.add_assoc, Nat.add_assoc]

end Pcm.Fragment

/-! ### Passages -/

/-- A fragment on its way through a queue, as it came, and the sizes of the pieces that reads have
taken from it. -/
structure Passage where
  fragment : Fragment
  pieces : List Nat
deriving DecidableEq, Repr

namespace Passage

/-- A read takes one more piece. -/
def serve (m : Passage) (n : Nat) : Passage := { m with pieces := m.pieces ++ [n] }

/-- What is queued of the fragment: each piece has moved its timestamp on for itself. -/
def entry (m : Passage) : Queued :=
  { fragment :=
      { m.fragment with
        timestamp := m.fragment.timestamp + (m.pieces.map m.fragment.playback).sum }
    taken := m.pieces.sum }

theorem entry_serve (m : Passage) (n : Nat) : (m.serve n).entry = m.entry.advance n := by
  have hplayback : m.entry.fragment.playback n = m.fragment.playback n := rfl
  simp only [serve, entry, Queued.advance, List.map_append, List.sum_append, List.map_singleton,
    List.sum_singleton, Nat.add_assoc]
  rw [← hplayback]
  rfl

/-- A queued fragment is what is left of a passage, and its timestamp is that of the fragment as it
came, moved on by the playing time of all that has been read of it, or less by at most one
microsecond for each piece but the first. -/
structure Leaves (m : Passage) (e : Queued) : Prop where
  data : e.fragment.data = m.fragment.data
  rate : e.fragment.rate = m.fragment.rate
  channels : e.fragment.channels = m.fragment.channels
  pieces : ∀ n ∈ m.pieces, 0 < n
  taken : e.taken = m.pieces.sum
  within : m.pieces.sum ≤ m.fragment.data.length
  latest : e.timestamp ≤ m.fragment.timestamp + m.fragment.playback m.pieces.sum
  earliest : m.fragment.timestamp + m.fragment.playback m.pieces.sum ≤
    e.timestamp + Nanos.ofMicros (m.pieces.length - 1)

theorem leaves_entry {m : Passage} (hpos : ∀ n ∈ m.pieces, 0 < n)
    (hle : m.pieces.sum ≤ m.fragment.data.length) : m.Leaves m.entry where
  data := rfl
  rate := rfl
  channels := rfl
  pieces := hpos
  taken := rfl
  within := hle
  latest := Nat.add_le_add_left (m.fragment.sum_playback_le m.pieces) _
  earliest := by
    show _ ≤ m.fragment.timestamp + (m.pieces.map m.fragment.playback).sum +
      Nanos.ofMicros (m.pieces.length - 1)
    rw [Nat.add_assoc]
    exact Nat.add_le_add_left (m.fragment.playback_sum_le m.pieces) _

end Passage

/-- The cuts of a read, from the front on, are noted as pieces. -/
def noted : List Passage → List Cut → List Passage
  | m :: ms, c :: cs => m.serve c.size :: noted ms cs
  | ms, _ => ms

@[simp] theorem noted_nil (ms : List Passage) : noted ms [] = ms := by
  cases ms <;> rfl

@[simp] theorem length_noted (ms : List Passage) (cs : List Cut) :
    (noted ms cs).length = ms.length := by
  induction ms generalizing cs with
  | nil => rfl
  | cons m ms ih =>
      cases cs with
      | nil => rfl
      | cons c cs => exact congrArg (· + 1) (ih cs)

/-- A cut that fits is no empty piece. -/
theorem pieces_pos_of_mem_noted {ms : List Passage} {cs : List Cut}
    (hms : ∀ m ∈ ms, ∀ n ∈ m.pieces, 0 < n) (hcs : ∀ c ∈ cs, c.Fits) {m : Passage}
    (hm : m ∈ noted ms cs) : ∀ n ∈ m.pieces, 0 < n := by
  induction ms generalizing cs with
  | nil => cases hm
  | cons a ms ih =>
      obtain ⟨ha, hms⟩ := List.forall_mem_cons.mp hms
      cases cs with
      | nil =>
          rcases List.mem_cons.mp hm with rfl | hm
          · exact ha
          · exact hms m hm
      | cons c cs =>
          obtain ⟨hc, hcs⟩ := List.forall_mem_cons.mp hcs
          rcases List.mem_cons.mp hm with rfl | hm
          · intro n hn
            rcases List.mem_append.mp hn with hold | hnew
            · exact ha n hold
            · exact List.mem_singleton.mp hnew ▸ hc.1
          · exact ih hms hcs hm

/-- What is left of a fragment behind a cut. -/
def Cut.rest (c : Cut) : Queued := c.entry.advance c.size

/-- Each cut leaves of its fragment what is noted of it. -/
theorem map_entry_noted_take (n : Nat) (ms : List Passage) :
    ((noted ms (cuts n (ms.map Passage.entry))).take (cuts n (ms.map Passage.entry)).length).map
        Passage.entry =
      (cuts n (ms.map Passage.entry)).map Cut.rest := by
  induction ms generalizing n with
  | nil => rfl
  | cons m ms ih =>
      by_cases hn : n = 0
      · subst hn
        simp
      · rw [List.map_cons, cuts_cons hn, noted, List.length_cons, List.take_succ_cons,
          List.map_cons, List.map_cons, ih, Passage.entry_serve]
        rfl

/-- Behind the fragments that are used up, a read leaves what is noted. -/
theorem map_entry_noted_drop (n : Nat) (ms : List Passage) :
    ((noted ms (cuts n (ms.map Passage.entry))).map Passage.entry).drop
        (ms.length - (drain n (ms.map Passage.entry)).2.length) =
      (drain n (ms.map Passage.entry)).2 := by
  induction ms generalizing n with
  | nil => rfl
  | cons m ms ih =>
      rw [List.map_cons]
      by_cases hn : n = 0
      · subst hn
        simp
      · rw [cuts_cons hn, noted]
        by_cases hle : m.entry.remaining ≤ n
        · have hshort : (drain (n - m.entry.remaining) (ms.map Passage.entry)).2.length ≤
              ms.length := by
            rw [← List.length_map Passage.entry]
            exact length_drain_le _ _
          rw [drain_cons_of_le _ hn hle, Nat.min_eq_left hle, List.map_cons, List.length_cons,
            Nat.succ_sub hshort, List.drop_succ_cons]
          exact ih _
        · have hlt : n < m.entry.remaining := Nat.lt_of_not_le hle
          rw [drain_cons_of_lt _ hn hlt, Nat.min_eq_right (Nat.le_of_lt hlt), Nat.sub_self,
            cuts_zero, noted_nil, List.map_cons, Passage.entry_serve, List.length_cons,
            List.length_cons, List.length_map, Nat.sub_self, List.drop_zero]

namespace Playout

open PlayoutQueue

variable {p : Playout} {line : List Passage}

/-! ### Following a run -/

/-- The cuts of the read that takes place in a step, if one does. -/
def cutting (p : Playout) (s : Step) : List Cut :=
  if (p.step s).2.result?.isSome then cuts (p.queue.allowance s.asked) p.queue.queued else []

/-- The passages of the fragments in the queue once a step has queued a new one, has ordered them or
has read of them, before any of them leaves. -/
def lined (p : Playout) (line : List Passage) (k : Nat) (s : Step) : List Passage :=
  match s.fragment? with
  | some f => if f.data = [] then line else line.take k ++ ⟨f, []⟩ :: line.drop k
  | none =>
      if s = .operate .sort then
        line.mergeSort fun a b => decide (a.entry.timestamp ≤ b.entry.timestamp)
      else noted line (p.cutting s)

/-- The passages of the fragments in the queue after a run, from those at its start on. Fragments
leave the queue at its front. -/
def follow (p : Playout) (line : List Passage) : List (Nat × Step) → List Passage
  | [] => line
  | m :: ms =>
      let after := (p.stepAt m.1 m.2).1
      let lined := p.lined line m.1 m.2
      after.follow (lined.drop (lined.length - after.queue.count)) ms

/-! ### What a step does to the passages -/

theorem lined_of_some {s : Step} {f : Fragment} (hs : s.fragment? = some f) (k : Nat) :
    p.lined line k s = if f.data = [] then line else line.take k ++ ⟨f, []⟩ :: line.drop k := by
  rw [lined, hs]

theorem lined_sort (k : Nat) : p.lined line k (.operate .sort) =
    line.mergeSort fun a b => decide (a.entry.timestamp ≤ b.entry.timestamp) := rfl

theorem lined_of_none {s : Step} (hs : s.fragment? = none) (h : s ≠ .operate .sort) (k : Nat) :
    p.lined line k s = noted line (p.cutting s) := by
  rw [lined, hs]
  exact if_neg h

theorem cutting_of_result? {s : Step} {r : ReadResult} (h : (p.step s).2.result? = some r) :
    p.cutting s = cuts (p.queue.allowance s.asked) p.queue.queued := by
  rw [cutting, h]
  rfl

theorem cutting_of_none {s : Step} (h : (p.step s).2.result? = none) : p.cutting s = [] := by
  rw [cutting, h]
  rfl

theorem fits_of_mem_cutting (h : p.queue.Sound) {s : Step} {c : Cut} (hc : c ∈ p.cutting s) :
    c.Fits := by
  rw [cutting] at hc
  split at hc
  · exact fits_of_mem_cuts h.remaining_pos hc
  · cases hc

/-- The passages stand for what is in the queue, and no piece in them is empty. -/
structure Followed (p : Playout) (line : List Passage) : Prop where
  entries : line.map Passage.entry = p.queue.queued
  pieces : ∀ m ∈ line, ∀ n ∈ m.pieces, 0 < n

theorem Followed.length_eq (h : p.Followed line) : line.length = p.queue.count := by
  rw [count, ← h.entries, List.length_map]

theorem Followed.entries_queue (h : p.Followed line) {s : Step} {f : Fragment}
    (hs : s.fragment? = some f) (k : Nat) :
    ((p.lined line k s).map Passage.entry).drop
        ((p.lined line k s).length - (p.stepAt k s).1.queue.count) =
      (p.stepAt k s).1.queue.queued := by
  have hstep : (p.stepAt k s).1.queue = (p.queue.insertAt k f).1 := by rw [stepAt, hs]
  rw [hstep, lined_of_some hs]
  by_cases hf : f.data = []
  · rw [if_pos hf, insertAt_of_nil hf, h.length_eq, Nat.sub_self, List.drop_zero, h.entries]
  · have hplaced : (line.take k ++ ⟨f, []⟩ :: line.drop k).map Passage.entry =
        (p.queue.placed k f).queued := by
      rw [List.map_append, List.map_cons, List.map_take, List.map_drop, h.entries]
      rfl
    have hlength := congrArg List.length hplaced
    rw [List.length_map] at hlength
    rw [if_neg hf, insertAt_of_ne_nil hf, queued_evict, hplaced, hlength]
    rfl

theorem Followed.entries_sort (h : p.Followed line) :
    (line.mergeSort fun a b => decide (a.entry.timestamp ≤ b.entry.timestamp)).map Passage.entry =
      p.queue.sort.queued := by
  rw [PlayoutQueue.sort, ← h.entries]
  exact List.map_mergeSort fun _ _ _ _ => rfl

/-- The notes show the queue as it is after a step. -/
theorem Followed.entries_step (h : p.Followed line) (k : Nat) (s : Step) :
    ((p.lined line k s).map Passage.entry).drop
        ((p.lined line k s).length - (p.stepAt k s).1.queue.count) =
      (p.stepAt k s).1.queue.queued := by
  cases hs : s.fragment? with
  | some f => exact h.entries_queue hs k
  | none =>
      have hstep : p.stepAt k s = p.step s := by rw [stepAt, hs]
      rw [hstep]
      by_cases hsort : s = .operate .sort
      · subst hsort
        have hcount : p.queue.sort.count = p.queue.count := List.length_mergeSort _
        show ((p.lined line k (.operate .sort)).map Passage.entry).drop
          ((p.lined line k (.operate .sort)).length - p.queue.sort.count) = p.queue.sort.queued
        rw [lined_sort, h.entries_sort, List.length_mergeSort, h.length_eq, hcount, Nat.sub_self,
          List.drop_zero]
      rw [lined_of_none hs hsort, length_noted, h.length_eq]
      cases hr : (p.step s).2.result? with
      | some r =>
          obtain ⟨nextRead, hq, _⟩ := read_of_result? hr
          rw [cutting_of_result? hr, hq, count, count, queued_read, ← h.entries, List.length_map]
          exact map_entry_noted_drop _ line
      | none =>
          rw [cutting_of_none hr, noted_nil, h.entries]
          by_cases hflush : s = .operate .flush
          · subst hflush
            exact List.drop_length
          · have hkeep := queued_step_of_result?_eq_none hs hsort hflush hr
            rw [count, count, hkeep, Nat.sub_self, List.drop_zero]

/-- No step notes an empty piece. -/
theorem Followed.pieces_lined (h : p.Followed line) (hp : p.queue.Sound) (k : Nat) (s : Step) :
    ∀ m ∈ p.lined line k s, ∀ n ∈ m.pieces, 0 < n := by
  intro m hm
  cases hs : s.fragment? with
  | some f =>
      rw [lined_of_some hs] at hm
      split at hm
      · exact h.pieces m hm
      · rcases List.mem_append.mp hm with hm | hm
        · exact h.pieces m (List.mem_of_mem_take hm)
        · rcases List.mem_cons.mp hm with rfl | hm
          · exact nofun
          · exact h.pieces m (List.mem_of_mem_drop hm)
  | none =>
      by_cases hsort : s = .operate .sort
      · subst hsort
        exact h.pieces m (List.mem_mergeSort.mp hm)
      · rw [lined_of_none hs hsort] at hm
        exact pieces_pos_of_mem_noted h.pieces (fun c hc => fits_of_mem_cutting hp hc) hm

theorem Followed.step (h : p.Followed line) (hp : p.queue.Sound) (k : Nat) (s : Step) :
    (p.stepAt k s).1.Followed
      ((p.lined line k s).drop ((p.lined line k s).length - (p.stepAt k s).1.queue.count)) where
  entries := by rw [List.map_drop, h.entries_step k s]
  pieces m hm := h.pieces_lined hp k s m (List.mem_of_mem_drop hm)

theorem followed_follow (h : p.Followed line) (hp : p.queue.Sound) (ms : List (Nat × Step)) :
    (p.runAt ms).1.Followed (p.follow line ms) := by
  induction ms generalizing p line with
  | nil => exact h
  | cons m ms ih => exact ih (h.step hp m.1 m.2) (sound_stepAt hp m.1 m.2)

/-! ### How close the timestamps stay -/

theorem Followed.leaves (h : p.Followed line) (hp : p.queue.Sound) :
    List.Forall₂ Passage.Leaves line p.queue.queued := by
  rw [← h.entries]
  refine List.forall₂_map_right_iff.mpr (List.forall₂_same.mpr fun m hm => ?_)
  have hstarted := hp.started m.entry (h.entries ▸ List.mem_map_of_mem hm)
  exact m.leaves_entry (h.pieces m hm) (Nat.le_of_lt hstarted)

theorem Followed.leaves_rest (h : p.Followed line) (hp : p.queue.Sound) (s : Step) :
    List.Forall₂ Passage.Leaves ((noted line (p.cutting s)).take (p.cutting s).length)
      ((p.cutting s).map Cut.rest) := by
  have hrests : ((noted line (p.cutting s)).take (p.cutting s).length).map Passage.entry =
      (p.cutting s).map Cut.rest := by
    rw [cutting]
    split
    · rw [← h.entries]
      exact map_entry_noted_take _ line
    · rfl
  rw [← hrests]
  refine List.forall₂_map_right_iff.mpr (List.forall₂_same.mpr fun m hm => ?_)
  have hpos := pieces_pos_of_mem_noted h.pieces (fun c hc => fits_of_mem_cutting hp hc)
    (List.mem_of_mem_take hm)
  obtain ⟨c, hc, hrest⟩ := List.mem_map.mp (hrests ▸ List.mem_map_of_mem hm)
  refine m.leaves_entry hpos ?_
  have hfits := (fits_of_mem_cutting hp hc).2
  have htaken : m.entry.taken = c.rest.taken := congrArg Queued.taken hrest.symm
  have hdata : m.entry.fragment.data = c.rest.fragment.data :=
    congrArg (fun e => e.fragment.data) hrest.symm
  calc m.pieces.sum = c.entry.taken + c.size := htaken
    _ ≤ c.entry.fragment.data.length := hfits
    _ = m.fragment.data.length := congrArg List.length hdata.symm

/-- The bytes that a read gives out are those of its cuts, and it reports the timestamp of the
fragment that it starts in. -/
theorem report_step (hp : p.queue.Sound) {s : Step} {r : ReadResult}
    (hr : (p.step s).2.result? = some r) :
    r.output.take r.count = (p.cutting s).flatMap Cut.bytes ∧
      (0 < r.count → ∃ front rest, p.queue.queued = front :: rest ∧
        r.timestamp = some front.timestamp) := by
  rw [cutting_of_result? hr]
  obtain ⟨nextRead, _, rfl⟩ := read_of_result? hr
  have hq : ({ p.queue with nextRead } : PlayoutQueue).Sound := ⟨hp.started, hp.held⟩
  refine ⟨hq.exact.copied s.asked, fun hpos => ?_⟩
  have hw : ¬ ({ p.queue with nextRead } : PlayoutQueue).Waits := by
    intro hw
    rw [read_of_waits hw] at hpos
    exact absurd hpos (Nat.lt_irrefl 0)
  have hserves := read_serves_of_not_waits hq hw (List.replicate s.asked 0)
  rw [List.length_replicate] at hserves
  obtain ⟨front, rest, hfront, htimestamp, _⟩ := hserves.sound (hserves.count ▸ hpos)
  exact ⟨front, rest, hfront, htimestamp⟩

/-- **Timestamps stay with what has been played.** Take any state of a fresh queue, wherever each
fragment has been queued, and the passages of the fragments in it. The timestamp of each fragment is
the one that it came with, moved on by the playing time of all that has been read of it, or less by
at most one microsecond for each piece but the first; and the same is true behind the cuts of the
next read, also of a fragment that it uses up. A read gives out the bytes of its cuts, and reports
the timestamp of the fragment that it starts in. The states that a queue comes to when each fragment
is queued behind all that start no later are among these. -/
theorem timestamps_follow {wish : Nat} {cap : Option Nat} (h : create wish cap = .ok p) :
    (∀ (ms : List (Nat × Step)) (now : Playout) (line : List Passage),
      (p.runAt ms).1 = now → p.follow [] ms = line →
        List.Forall₂ Passage.Leaves line now.queue.queued ∧
        ∀ s, List.Forall₂ Passage.Leaves ((noted line (now.cutting s)).take (now.cutting s).length)
            ((now.cutting s).map Cut.rest) ∧
          ∀ r, (now.step s).2.result? = some r →
            r.output.take r.count = (now.cutting s).flatMap Cut.bytes ∧
            (0 < r.count → ∃ front rest, now.queue.queued = front :: rest ∧
              r.timestamp = some front.timestamp)) ∧
      ∀ ss, ∃ ms : List (Nat × Step), ms.map Prod.snd = ss ∧ p.runAt ms = p.run ss := by
  refine ⟨?_, p.exists_runAt_eq_run⟩
  rintro ms now line rfl rfl
  have hp : p.queue.Sound := sound_create (queue_of_create h)
  have hstart : p.Followed [] := ⟨(cap_of_create h).2.2.symm, nofun⟩
  have hnow := followed_follow hstart hp ms
  have hsound := sound_runAt hp ms
  exact ⟨hnow.leaves hsound, fun s => ⟨hnow.leaves_rest hsound s, fun r => report_step hsound⟩⟩

/-- One byte of a fragment is read. Another fragment comes in front of it, and is read with a second
byte of the first. A timed read takes a third. -/
def byteByByte : List (Nat × Step) :=
  [(0, .operate (.append ⟨[1, 2, 3, 4], 22050, 1, 5000⟩)), (0, .operate (.read 1)),
    (0, .operate (.append ⟨[9], 1000, 1, 0⟩)), (0, .operate (.read 2)),
    (0, .operate (.timedRead 1 20))]

/-- Three bytes play for 68 microseconds, and three times one byte for 66. -/
theorem timestamps_follow_byteByByte :
    ∃ p, create 1 none = .ok p ∧
      p.follow [] byteByByte = [⟨⟨[1, 2, 3, 4], 22050, 1, 5000⟩, [1, 1, 1]⟩] ∧
      List.Forall₂ Passage.Leaves (p.follow [] byteByByte) (p.runAt byteByByte).1.queue.queued ∧
      Fragment.playback ⟨[1, 2, 3, 4], 22050, 1, 5000⟩ 3 = 68000 ∧
      ∃ r, ((p.runAt byteByByte).1.step (.operate (.read 1))).2.result? = some r ∧
        r.output.take r.count = [4] ∧ r.timestamp = some (5000 + 66000) := by
  have h : create 1 none = .ok ⟨⟨1, none, [], 0, true, none, 0, 0⟩, 0⟩ := rfl
  obtain ⟨hleaves, hnext⟩ := (timestamps_follow h).1 byteByByte _ _ rfl rfl
  refine ⟨_, h, by decide, hleaves, by decide, _, rfl, ?_, ?_⟩
  · exact ((hnext (.operate (.read 1))).2 _ rfl).1.trans (by decide)
  · obtain ⟨front, rest, hqueued, htimestamp⟩ :=
      ((hnext (.operate (.read 1))).2 _ rfl).2 (by decide)
    cases hqueued
    exact htimestamp

end Playout

end ConferenceMix
