import ConferenceMix.AudioBridge.Basic
import ConferenceMix.Proofs.Pcm.Sums
import ConferenceMix.Proofs.Playout.Fifo

/-! # What a queue of whole samples gives to a round

A queue without a cap into which a source puts whole samples holds exactly those that it has not yet
given out (`Supplied`). A read of one packet gives out the next of them and then silence
(`Supplied.decode_read`): none as long as the queue waits for its wish, and otherwise a packet or
all there are (`Gives`). -/

namespace ConferenceMix

open Pcm

namespace PlayoutQueue

variable {q : PlayoutQueue}

/-- The samples that a read of `n` samples gives out. -/
def head (q : PlayoutQueue) (n : Nat) : List Int16 := decode (q.unread.take (q.allowance (n * 2)))

/-- Without a cap, bytes are queued behind all others and nothing else changes. -/
theorem write_of_uncapped (h : q.ByArrival) (hc : q.cap = none) (data : List UInt8) :
    (q.write data).1.unread = q.unread ++ data ∧ (q.write data).1.cap = none ∧
      (q.write data).1.wish = q.wish ∧ (q.write data).1.filling = q.filling := by
  by_cases hd : data = []
  · rw [hd, write_nil]
    exact ⟨(List.append_nil _).symm, hc, rfl, rfl⟩
  · have he : (q.enqueue (.untimed data)).evict = (q.enqueue (.untimed data), 0) :=
      evict_of_uncapped hc
    rw [write_eq h hd, he]
    exact ⟨q.unread_enqueue _, hc, rfl, rfl⟩

end PlayoutQueue

/-- What a source gives to a round: the head `head` of its part, given what it has put and what it
has given before, and given whether its queue is filling before and after the round. -/
structure Gives (s : AudioSettings) (put given head : List Int16) (filling after : Bool) :
    Prop where
  /-- The samples are given in the order in which they were put. -/
  inOrder : given ++ head <+: put
  waits : filling = true → put.length - given.length < s.wishPackets * s.packetSamples →
    head = [] ∧ after = true
  plays : ¬ (filling = true ∧ put.length - given.length < s.wishPackets * s.packetSamples) →
    head.length = min (put.length - given.length) s.packetSamples ∧
      (after = true ↔ put.length - given.length < s.packetSamples)

/-- A queue that holds the samples that have been put and not yet given out, all of them whole and
in the order of arrival. -/
structure Supplied (s : AudioSettings) (put given : List Int16) (q : PlayoutQueue) : Prop where
  byArrival : q.ByArrival
  accounted : q.Accounted
  uncapped : q.cap = none
  wish : q.wish = s.wishBytes
  whole : q.unread.length % 2 = 0
  balance : given ++ decode q.unread = put

namespace Supplied

variable {s : AudioSettings} {put given : List Int16} {q : PlayoutQueue}

theorem create (h : PlayoutQueue.create s.wishBytes none = .ok q) :
    Supplied s [] [] q ∧ q.filling = true := by
  obtain ⟨_, _, rfl⟩ := PlayoutQueue.eq_of_create h
  exact ⟨⟨fun e he => absurd he List.not_mem_nil, rfl, rfl, rfl, rfl, rfl⟩, rfl⟩

theorem write (h : Supplied s put given q) {data : List UInt8} (hd : data.length % 2 = 0) :
    Supplied s (put ++ decode data) given (q.write data).1 ∧
      (q.write data).1.filling = q.filling := by
  obtain ⟨hunread, hcap, hwish, hfilling⟩ :=
    PlayoutQueue.write_of_uncapped h.byArrival h.uncapped data
  have hw := h.whole
  refine ⟨⟨PlayoutQueue.byArrival_write h.byArrival data,
    PlayoutQueue.accounted_apply h.accounted (.write data) 0, hcap, hwish.trans h.wish, ?_, ?_⟩,
    hfilling⟩
  · rw [hunread, List.length_append]
    omega
  · rw [hunread, decode_append _ _ h.whole, ← List.append_assoc, h.balance]

theorem ahead (h : Supplied s put given q) :
    q.held = 2 * (put.length - given.length) := by
  have hw := h.whole
  have hl := congrArg List.length h.balance
  rw [List.length_append, length_decode] at hl
  rw [h.accounted]
  omega

theorem whole_taken (h : Supplied s put given q) (n : Nat) :
    (q.unread.take (q.allowance (n * 2))).length % 2 = 0 := by
  have hw := h.whole
  rw [List.length_take]
  unfold PlayoutQueue.allowance
  split
  · omega
  · omega

theorem read (h : Supplied s put given q) (n : Nat) :
    Supplied s put (given ++ q.head n) (q.read (n * 2)).1 := by
  obtain ⟨hwish, hcap, _⟩ := q.limits_read (n * 2)
  have hw := h.whole
  have ht := h.whole_taken n
  have hunread := q.unread_read (n * 2)
  have hl : q.unread.length = (q.unread.take (q.allowance (n * 2))).length +
      (q.unread.drop (q.allowance (n * 2))).length := by
    rw [← List.length_append, List.take_append_drop]
  refine ⟨PlayoutQueue.byArrival_read h.byArrival _, PlayoutQueue.accounted_read h.accounted _,
    hcap.trans h.uncapped, hwish.trans h.wish, ?_, ?_⟩
  · rw [hunread]
    omega
  · rw [hunread, PlayoutQueue.head, List.append_assoc, ← decode_append _ _ ht,
      List.take_append_drop, h.balance]

/-- A read gives out the head of the part and then silence. -/
theorem decode_read (h : Supplied s put given q) (n : Nat) :
    decode (q.read (n * 2)).2.output = padded n (q.head n) := by
  rw [q.output_read, decode_padded (h.whole_taken n)]
  rfl

theorem waits_iff (h : Supplied s put given q) (hfit : s.wishPackets * s.packetBytes < wordCount) :
    q.Waits ↔
      q.filling = true ∧ put.length - given.length < s.wishPackets * s.packetSamples := by
  have hb : s.wishBytes = 2 * (s.wishPackets * s.packetSamples) := by
    rw [AudioSettings.wishBytes_of_lt hfit, AudioSettings.packetBytes, ← Nat.mul_assoc, Nat.mul_comm]
  unfold PlayoutQueue.Waits
  rw [h.wish, h.ahead, hb]
  refine and_congr_right fun _ => ?_
  omega

/-- A supplied queue gives to a round what it should. -/
theorem gives (h : Supplied s put given q) (hs : 0 < s.wishPackets)
    (hfit : s.wishPackets * s.packetBytes < wordCount) :
    Gives s put given (q.head s.packetSamples) q.filling (q.read s.packetBytes).1.filling := by
  have hafter := q.filling_read s.packetBytes
  refine ⟨?_, ?_, ?_⟩
  · have hr := (h.read s.packetSamples).balance
    exact ⟨_, hr⟩
  · intro hf hlt
    have hw : q.Waits := (h.waits_iff hfit).mpr ⟨hf, hlt⟩
    rw [if_pos hw] at hafter
    refine ⟨?_, hafter⟩
    rw [PlayoutQueue.head, PlayoutQueue.allowance, if_pos hw]
    rfl
  · intro hno
    have hw : ¬ q.Waits := fun hw => hno ((h.waits_iff hfit).mp hw)
    have hahead := h.ahead
    have hheld := h.accounted
    unfold PlayoutQueue.Accounted at hheld
    rw [if_neg hw] at hafter
    constructor
    · rw [PlayoutQueue.head, PlayoutQueue.allowance, if_neg hw, length_decode, List.length_take]
      omega
    · rw [hafter, decide_eq_true_eq, PlayoutQueue.RunsShort, hahead, AudioSettings.packetBytes]
      cases hf : q.filling with
      | false =>
          rw [and_iff_right rfl]
          omega
      | true =>
          have hwish : s.wishPackets * s.packetSamples ≤ put.length - given.length :=
            Nat.le_of_not_lt fun hlt => hno ⟨hf, hlt⟩
          have hpacket : s.packetSamples ≤ s.wishPackets * s.packetSamples :=
            Nat.le_mul_of_pos_left _ hs
          refine iff_of_false (fun h => Bool.noConfusion h.1) ?_
          omega

end Supplied

end ConferenceMix
