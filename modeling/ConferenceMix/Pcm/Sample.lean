/-! # Samples and their bytes

A sample is a signed 16-bit integer. In bytes it is written low byte first. `decode_encode` says
that decoding undoes encoding, `encode_decode` that encoding undoes decoding except for a last odd
byte, and `decode_append` that decoding goes byte pair by byte pair. -/

namespace ConferenceMix.Pcm

/-- The sample nearest to an integer. -/
def saturate (v : Int) : Int16 := Int16.ofInt (max (-32768) (min v 32767))

/-- The two bytes of a sample, the low one first. -/
def sampleBytes (s : Int16) : List UInt8 :=
  let w := s.toUInt16.toNat
  [UInt8.ofNat (w % 256), UInt8.ofNat (w / 256)]

/-- The sample that two bytes, the low one first, stand for. -/
def sampleOfBytes (lo hi : UInt8) : Int16 := (UInt16.ofNat (lo.toNat + 256 * hi.toNat)).toInt16

/-- The bytes of a list of samples. -/
def encode (samples : List Int16) : List UInt8 := samples.flatMap sampleBytes

/-- The samples of a list of bytes; a last byte without a partner is dropped. -/
def decode : List UInt8 → List Int16
  | lo :: hi :: rest => sampleOfBytes lo hi :: decode rest
  | _ => []

@[simp] theorem encode_nil : encode [] = [] := rfl

@[simp] theorem encode_cons (s : Int16) (ss : List Int16) :
    encode (s :: ss) = sampleBytes s ++ encode ss := rfl

@[simp] theorem decode_nil : decode [] = [] := rfl

@[simp] theorem decode_singleton (b : UInt8) : decode [b] = [] := rfl

@[simp] theorem decode_cons_cons (lo hi : UInt8) (rest : List UInt8) :
    decode (lo :: hi :: rest) = sampleOfBytes lo hi :: decode rest := rfl

theorem length_encode (ss : List Int16) : (encode ss).length = 2 * ss.length := by
  induction ss with
  | nil => rfl
  | cons s ss ih => simp [sampleBytes, ih]; omega

theorem length_decode (bs : List UInt8) : (decode bs).length = bs.length / 2 := by
  fun_induction decode bs with
  | case1 lo hi rest ih => simp [ih]; omega
  | case2 bs h =>
      match bs, h with
      | [], _ => rfl
      | [_], _ => simp
      | a :: b :: rest, h => exact absurd rfl (h a b rest)

/-! ### Round trips -/

theorem sampleOfBytes_sampleBytes (s : Int16) :
    sampleOfBytes (UInt8.ofNat (s.toUInt16.toNat % 256)) (UInt8.ofNat (s.toUInt16.toNat / 256))
      = s := by
  have hlt : s.toUInt16.toNat < 65536 := s.toUInt16.toNat_lt
  have hlo : (UInt8.ofNat (s.toUInt16.toNat % 256)).toNat = s.toUInt16.toNat % 256 := by
    rw [UInt8.toNat_ofNat']; omega
  have hhi : (UInt8.ofNat (s.toUInt16.toNat / 256)).toNat = s.toUInt16.toNat / 256 := by
    rw [UInt8.toNat_ofNat']; omega
  have hw : s.toUInt16.toNat % 256 + 256 * (s.toUInt16.toNat / 256) = s.toUInt16.toNat := by omega
  rw [sampleOfBytes, hlo, hhi, hw, UInt16.ofNat_toNat]
  rfl

theorem sampleBytes_sampleOfBytes (lo hi : UInt8) : sampleBytes (sampleOfBytes lo hi) = [lo, hi] := by
  have hl : lo.toNat < 256 := lo.toNat_lt
  have hh : hi.toNat < 256 := hi.toNat_lt
  have hw : (sampleOfBytes lo hi).toUInt16.toNat = lo.toNat + 256 * hi.toNat := by
    show (UInt16.ofNat (lo.toNat + 256 * hi.toNat)).toNat = _
    rw [UInt16.toNat_ofNat']; omega
  have h1 : (lo.toNat + 256 * hi.toNat) % 256 = lo.toNat := by omega
  have h2 : (lo.toNat + 256 * hi.toNat) / 256 = hi.toNat := by omega
  simp [sampleBytes, hw, h1, h2]

theorem decode_encode (ss : List Int16) : decode (encode ss) = ss := by
  induction ss with
  | nil => rfl
  | cons s ss ih =>
      show sampleOfBytes _ _ :: decode (encode ss) = s :: ss
      rw [ih, sampleOfBytes_sampleBytes]

/-- Encoding undoes decoding, up to a last odd byte. -/
theorem encode_decode (bs : List UInt8) : encode (decode bs) = bs.take (bs.length / 2 * 2) := by
  fun_induction decode bs with
  | case1 lo hi rest ih =>
      have h : (lo :: hi :: rest).length / 2 * 2 = rest.length / 2 * 2 + 1 + 1 := by
        simp only [List.length_cons]; omega
      rw [h, encode_cons, sampleBytes_sampleOfBytes, ih]
      rfl
  | case2 bs h =>
      match bs, h with
      | [], _ => rfl
      | [_], _ => simp
      | a :: b :: rest, h => exact absurd rfl (h a b rest)

theorem decode_append (as bs : List UInt8) (h : as.length % 2 = 0) :
    decode (as ++ bs) = decode as ++ decode bs := by
  fun_induction decode as with
  | case1 lo hi rest ih =>
      have hr : rest.length % 2 = 0 := by simp only [List.length_cons] at h; omega
      simp [ih hr]
  | case2 as hc =>
      match as, hc, h with
      | [], _, _ => rfl
      | [_], _, h => simp at h
      | a :: b :: rest, hc, _ => exact absurd rfl (hc a b rest)

end ConferenceMix.Pcm
