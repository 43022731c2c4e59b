import ConferenceMix.Nanos
import ConferenceMix.Pcm.Sample
import ConferenceMix.Identity

/-! # Packets of mixed sound

A `Packet` is what a source receives from a mix: the samples of one interval, when they start, how
they play and to whom they are addressed. -/

namespace ConferenceMix.Pcm

/-- The sound of one interval, addressed to one source. -/
structure Packet where
  samples : List Int16
  timestamp : Nanos
  rate : Nat
  channels : Nat
  recipient : SourceId
deriving DecidableEq, Repr

namespace Packet

/-- The number of sample frames before this packet, counted from timestamp zero in whole
milliseconds. -/
def position (p : Packet) : Nat := p.timestamp.millis * p.rate / 1000

/-- The number of sample frames: one sample of every channel. -/
def frameCount (p : Packet) : Nat :=
  if p.channels = 0 then 0 else p.samples.length / p.channels

/-- The playing time; none passes without a rate or without channels. -/
def playback (p : Packet) : Nanos :=
  if p.channels = 0 then 0 else (Nanos.ofPlayback p.frameCount p.rate).getD 0

/-- A packet of silence. -/
def Silent (p : Packet) : Prop := ∀ s ∈ p.samples, s = 0

instance (p : Packet) : Decidable p.Silent := inferInstanceAs (Decidable (∀ s ∈ p.samples, s = 0))

/-- The bytes of the samples. -/
def bytes (p : Packet) : List UInt8 := encode p.samples

end Packet

end ConferenceMix.Pcm
