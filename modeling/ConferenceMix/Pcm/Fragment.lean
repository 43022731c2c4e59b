import ConferenceMix.Nanos
import ConferenceMix.Pcm.Sample

/-! # Fragments of sound

A `Fragment` is what a producer hands in: bytes of interleaved samples, the moment they belong to
and the rate at which they play. A fragment of rate or channel count zero is untimed: however many
of its bytes are read, no time passes (`playback_untimed`). -/

namespace ConferenceMix.Pcm

/-- Bytes of sound with the time at which they start. -/
structure Fragment where
  data : List UInt8
  rate : Nat
  channels : Nat
  timestamp : Nanos
deriving DecidableEq, Repr

namespace Fragment

/-- A fragment in arrival order, without a time or rate of its own. -/
def untimed (data : List UInt8) : Fragment := ⟨data, 0, 0, 0⟩

/-- No sound at no time. -/
def empty : Fragment := untimed []

/-- The fragment of a list of samples. -/
def ofSamples (samples : List Int16) (rate channels : Nat) (timestamp : Nanos) : Fragment :=
  ⟨encode samples, rate, channels, timestamp⟩

/-- The samples of a fragment. -/
def samples (f : Fragment) : List Int16 := decode f.data

/-- The bytes that play in one second. -/
def bytesPerSecond (f : Fragment) : Nat := f.rate * f.channels * 2

/-- The playing time of `n` of the fragment's bytes, in whole microseconds. -/
def playback (f : Fragment) (n : Nat) : Nanos :=
  if f.bytesPerSecond = 0 then 0 else Nanos.ofMicros (n * 1000000 / f.bytesPerSecond)

theorem playback_untimed (data : List UInt8) (n : Nat) : (untimed data).playback n = 0 := by
  simp [playback, bytesPerSecond, untimed]

theorem playback_zero (f : Fragment) : f.playback 0 = 0 := by
  simp [playback, Nanos.ofMicros]

/-- The playing time of a sum of bytes is at least the sum of the playing times. -/
theorem playback_add_le (f : Fragment) (m n : Nat) :
    f.playback m + f.playback n ≤ f.playback (m + n) := by
  unfold playback
  split
  · exact Nat.le_refl 0
  · rename_i h
    have hm := Nat.div_mul_le_self (m * 1000000) f.bytesPerSecond
    have hn := Nat.div_mul_le_self (n * 1000000) f.bytesPerSecond
    have hq : m * 1000000 / f.bytesPerSecond + n * 1000000 / f.bytesPerSecond
        ≤ (m + n) * 1000000 / f.bytesPerSecond := by
      rw [Nat.le_div_iff_mul_le (Nat.pos_of_ne_zero h), Nat.add_mul, Nat.add_mul]
      exact Nat.add_le_add hm hn
    simp only [Nanos.ofMicros, ← Nat.add_mul]
    exact Nat.mul_le_mul_right 1000 hq

theorem playback_mono (f : Fragment) {m n : Nat} (h : m ≤ n) : f.playback m ≤ f.playback n := by
  unfold playback
  split
  · exact Nat.le_refl 0
  · exact Nat.mul_le_mul_right _ (Nat.div_le_div_right (Nat.mul_le_mul_right _ h))

end Fragment

end ConferenceMix.Pcm
