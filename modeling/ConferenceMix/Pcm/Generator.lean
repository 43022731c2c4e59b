import ConferenceMix.Exact.Remainder
import ConferenceMix.Pcm.Fragment
import ConferenceMix.Word

/-! # A producer of test sound

A `Generator` makes silence, tones and noise, takes samples that are given to it, and hands all of
them out once, in order: as samples, as bytes, or cut into fragments of one packet time each. The
tone and the noise continue where they left off, by a phase and a seed that the generator keeps. How
many samples a time takes is computed in words of 64 bits, and cut short where they do not suffice. -/

namespace ConferenceMix.Pcm

/-- A producer of samples at a given rate, with at least one channel. -/
structure Generator where
  rate : Nat
  channels : Nat
  held : List Int16
  /-- The phase of the tone, in radians. -/
  phase : Float
  /-- The last number of the noise sequence. -/
  seed : UInt32

namespace Generator

/-- A generator that holds nothing. No channels count as one. -/
def create (rate channels : Nat) : Generator := ⟨rate, max channels 1, [], 0.0, 12345⟩

/-- The number of samples that `ms` milliseconds take on all channels. -/
def samplesIn (g : Generator) (ms : Nat) : Nat := word (word (g.rate * ms) / 1000 * g.channels)

/-- The number of samples that a time takes can be told in 64 bits, and the product that it comes from
as well. -/
def Fits (rate channels ms : Nat) : Prop :=
  rate * ms < wordCount ∧ rate * ms / 1000 * channels < wordCount

instance (rate channels ms : Nat) : Decidable (Fits rate channels ms) :=
  inferInstanceAs (Decidable (_ ∧ _))

theorem samplesIn_of_fits {g : Generator} {ms : Nat} (h : Fits g.rate g.channels ms) :
    g.samplesIn ms = g.rate * ms / 1000 * g.channels := by
  rw [samplesIn, word_of_lt h.1, word_of_lt h.2]

/-- The playing time of the held samples; none is defined at rate zero. -/
def playback (g : Generator) : Option Nanos := Nanos.ofPlayback (g.held.length / g.channels) g.rate

/-! ### Making samples -/

/-- Puts samples behind the held ones. -/
def add (g : Generator) (samples : List Int16) : Generator := { g with held := g.held ++ samples }

/-- Adds silence of `ms` milliseconds. -/
def silence (g : Generator) (ms : Nat) : Generator := g.add (List.replicate (g.samplesIn ms) 0)

/-- A full turn in radians. -/
def turn : Float := 6.283185307179586

/-- The amplitude held between zero and one; what is no number stays none. -/
def unitAmplitude (a : Float) : Float := if a < 0.0 then 0.0 else if 1.0 < a then 1.0 else a

/-- The next `n` values of a tone of the given amplitude from a phase on, which moves by `step` each
time, and the phase after them. -/
def toneValues (amplitude step : Float) : Nat → Float → List Int16 × Float
  | 0, phase => ([], phase)
  | n + 1, phase =>
      let rest := toneValues amplitude step n (Exact.remainder (phase + step) turn)
      ((phase.sin * amplitude).toInt16 :: rest.1, rest.2)

/-- Adds a tone of `ms` milliseconds, the same on all channels. -/
def tone (g : Generator) (frequency amplitude : Float) (ms : Nat) : Generator :=
  let step := turn * frequency / Float.ofNat g.rate
  let values := toneValues (unitAmplitude amplitude * 32767.0) step
    (g.samplesIn ms / g.channels) g.phase
  { g.add (values.1.flatMap (List.replicate g.channels)) with phase := values.2 }

/-- Adds a tone of full amplitude. -/
def sine (g : Generator) (frequency : Float) (ms : Nat) : Generator := g.tone frequency 1.0 ms

/-- The number after `x` in the noise sequence. -/
def nextSeed (x : UInt32) : UInt32 := x * 1103515245 + 12345

/-- The next `n` values of noise of the given amplitude, and the seed after them. -/
def noiseValues (amplitude : Int) : Nat → UInt32 → List Int16 × UInt32
  | 0, seed => ([], seed)
  | n + 1, seed =>
      let seed := nextSeed seed
      let deviation : Int := (seed >>> 16).toNat - 32768
      let rest := noiseValues amplitude n seed
      (Int16.ofInt ((deviation * amplitude).tdiv 32767) :: rest.1, rest.2)

/-- Adds noise of `ms` milliseconds. -/
def noise (g : Generator) (ms : Nat) (amplitude : Float) : Generator :=
  let values := noiseValues (unitAmplitude amplitude * 32767.0).toInt32.toInt (g.samplesIn ms) g.seed
  { g.add values.1 with seed := values.2 }

/-! ### Handing samples out -/

/-- Hands out all samples. -/
def handOut (g : Generator) : Generator × List Int16 := ({ g with held := [] }, g.held)

/-- Hands out all samples as bytes. -/
def handOutBytes (g : Generator) : Generator × List UInt8 := ({ g with held := [] }, encode g.held)

/-- The first `k` runs of `n` samples each. -/
def cut (n : Nat) : Nat → List Int16 → List (List Int16)
  | 0, _ => []
  | k + 1, xs => xs.take n :: cut n k (xs.drop n)

/-- Hands out as many untimed fragments of `ms` milliseconds as the held samples fill; what does not
fill one stays. A fragment of no samples is never handed out. -/
def handOutFragments (g : Generator) (ms : Nat) : Generator × List Fragment :=
  let n := g.samplesIn ms
  if n = 0 then (g, [])
  else
    let k := g.held.length / n
    ({ g with held := g.held.drop (k * n) },
      (cut n k g.held).map fun xs => .untimed (encode xs))

theorem flatten_cut (n k : Nat) (xs : List Int16) : (cut n k xs).flatten = xs.take (k * n) := by
  induction k generalizing xs with
  | zero => simp [cut]
  | succ k ih => rw [cut, List.flatten_cons, ih, Nat.succ_mul, Nat.add_comm, List.take_add]

end Generator

end ConferenceMix.Pcm
