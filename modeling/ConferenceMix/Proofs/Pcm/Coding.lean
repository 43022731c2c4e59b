import ConferenceMix.Pcm.Fragment

/-! # Samples and the bytes that stand for them

`StandFor` says what a list of bytes means: two bytes are one sample, the low one first, as a signed
number of 16 bits, and a last byte without a partner is nothing. `samples_survive_coding` says that
decoding goes by this, that it undoes encoding and is undone by it up to that last byte, and that
bytes can be decoded in parts as long as no sample is torn. -/

namespace ConferenceMix.Pcm

/-- The bytes stand for the samples, two for each with the low one first. -/
structure StandFor (bytes : List UInt8) (samples : List Int16) : Prop where
  length : samples.length = bytes.length / 2
  value : ∀ (i : Nat) (lo hi : UInt8), bytes[2 * i]? = some lo → bytes[2 * i + 1]? = some hi →
    (samples[i]?).map Int16.toInt = some (Int.bmod (lo.toNat + 256 * hi.toNat) 65536)

theorem toInt_sampleOfBytes (lo hi : UInt8) :
    (sampleOfBytes lo hi).toInt = Int.bmod (lo.toNat + 256 * hi.toNat) 65536 := by
  have hcast : ((lo.toNat + 256 * hi.toNat : Nat) : Int) = lo.toNat + 256 * hi.toNat := by omega
  rw [sampleOfBytes, UInt16.toInt16_ofNat', Int16.toInt_ofNat', hcast]

theorem StandFor.cons {bytes : List UInt8} {samples : List Int16} (h : StandFor bytes samples)
    (lo hi : UInt8) : StandFor (lo :: hi :: bytes) (sampleOfBytes lo hi :: samples) where
  length := by
    have hlength := h.length
    simp only [List.length_cons]
    omega
  value i a b ha hb := by
    cases i with
    | zero =>
        cases ha
        cases hb
        exact congrArg some (toInt_sampleOfBytes lo hi)
    | succ i => exact h.value i a b ha hb

theorem standFor_decode (bytes : List UInt8) : StandFor bytes (decode bytes) := by
  fun_induction decode bytes with
  | case1 lo hi rest ih => exact ih.cons lo hi
  | case2 bytes h =>
      cases bytes with
      | nil => exact ⟨rfl, fun i _ _ hlo => by simp at hlo⟩
      | cons lo rest =>
          cases rest with
          | nil => exact ⟨by simp, fun i _ _ _ hhi => by simp at hhi⟩
          | cons hi rest => exact absurd rfl (h lo hi rest)

theorem encode_decode_of_even {bytes : List UInt8} (h : bytes.length % 2 = 0) :
    encode (decode bytes) = bytes := by
  have hall : bytes.length / 2 * 2 = bytes.length := by omega
  rw [encode_decode, hall, List.take_length]

theorem encode_decode_of_odd {bytes : List UInt8} (h : bytes.length % 2 ≠ 0) :
    encode (decode bytes) = bytes.dropLast := by
  have hbutOne : bytes.length / 2 * 2 = bytes.length - 1 := by omega
  rw [encode_decode, hbutOne, List.dropLast_eq_take]

/-- **Samples survive their bytes.** Decoding gives the samples that bytes stand for. It undoes
encoding, also through a fragment; encoding undoes decoding for an even number of bytes, and leaves
out the last of an odd number. Bytes that follow whole samples are decoded on their own. -/
theorem samples_survive_coding :
    (∀ bytes, StandFor bytes (decode bytes)) ∧
    (∀ samples, decode (encode samples) = samples) ∧
    (∀ samples rate channels timestamp,
      (Fragment.ofSamples samples rate channels timestamp).samples = samples) ∧
    (∀ bytes, encode (decode bytes) =
      if bytes.length % 2 = 0 then bytes else bytes.dropLast) ∧
    ∀ front rest : List UInt8, front.length % 2 = 0 →
      decode (front ++ rest) = decode front ++ decode rest := by
  refine ⟨standFor_decode, decode_encode, fun samples _ _ _ => decode_encode samples,
    fun bytes => ?_, decode_append⟩
  by_cases h : bytes.length % 2 = 0
  · rw [if_pos h, encode_decode_of_even h]
  · rw [if_neg h, encode_decode_of_odd h]

/-- The sample 258, then -2, and a byte that belongs to neither. -/
theorem samples_survive_coding_oddTail :
    [0x02, (0x01 : UInt8)].length % 2 = 0 ∧
    decode ([0x02, 0x01] ++ [0xfe, 0xff, 0x7f]) = [258, -2] ∧
    encode (decode [0x02, 0x01, 0xfe, 0xff, 0x7f]) = [0x02, 0x01, 0xfe, 0xff] := by
  obtain ⟨_, _, _, hback, happend⟩ := samples_survive_coding
  exact ⟨rfl, (happend [0x02, 0x01] [0xfe, 0xff, 0x7f] rfl).trans (by decide), hback _⟩

end ConferenceMix.Pcm
