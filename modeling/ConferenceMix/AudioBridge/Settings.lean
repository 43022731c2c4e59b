import ConferenceMix.Fault
import ConferenceMix.Nanos
import ConferenceMix.Word

/-! # Settings of an audio bridge

`AudioSettings` fixes the sample format, the packet time and the limits of the playout queues.
`AudioSettings.misuse?` names the first setting that cannot be used, and `Accepted` says that there
is none. The sizes of packets and queues follow from the settings in words of 64 bits, which
accepted settings can overflow: the product is then cut short, and nothing is reported. Settings
that do not overflow are said to fit (`Fits`). -/

namespace ConferenceMix

/-- Common sample formats. -/
inductive AudioPreset where
  | narrowband
  | wideband
  | fullband
deriving DecidableEq, Repr

namespace AudioPreset

/-- Sample frames per second. -/
def rate : AudioPreset → Nat
  | narrowband => 8000
  | wideband => 16000
  | fullband => 48000

/-- The number of channels. -/
def channels : AudioPreset → Nat
  | narrowband => 1
  | wideband => 1
  | fullband => 2

end AudioPreset

/-- How an audio bridge mixes. -/
structure AudioSettings where
  /-- Sample frames per second. -/
  rate : Nat
  channels : Nat
  /-- The time from one round to the next. -/
  packetTime : Nanos
  /-- The number of packets a queue waits for before it plays. -/
  wishPackets : Nat
  /-- The number of packets above which a queue drops a fragment. -/
  capPackets : Option Nat
  /-- The time between two looks at the clock. -/
  pollTime : Nanos
deriving DecidableEq, Repr

namespace AudioSettings

/-- The settings for a sample format: packets of 20 ms, five of them before playing, at most ten. -/
def ofPreset (p : AudioPreset) : AudioSettings :=
  ⟨p.rate, p.channels, .ofMillis 20, 5, some 10, .ofMillis 4⟩

/-- The settings for the wideband format. -/
def standard : AudioSettings := ofPreset .wideband

/-- The number of samples in a packet, all channels together. -/
def packetSamples (s : AudioSettings) : Nat :=
  word (s.rate * s.channels * s.packetTime.millis) / 1000

/-- The number of bytes in a packet. -/
def packetBytes (s : AudioSettings) : Nat := s.packetSamples * 2

/-- The number of bytes a queue waits for. -/
def wishBytes (s : AudioSettings) : Nat := word (s.wishPackets * s.packetBytes)

/-- The number of bytes above which a queue drops a fragment. -/
def capBytes (s : AudioSettings) : Option Nat :=
  s.capPackets.map fun packets => word (packets * s.packetBytes)

/-- The sizes that follow from the settings can be told in 64 bits. -/
structure Fits (s : AudioSettings) : Prop where
  samples : s.rate * s.channels * s.packetTime.millis < wordCount
  wish : s.wishPackets * s.packetBytes < wordCount
  cap : ∀ packets ∈ s.capPackets, packets * s.packetBytes < wordCount

instance (s : AudioSettings) : Decidable s.Fits :=
  decidable_of_iff (s.rate * s.channels * s.packetTime.millis < wordCount ∧
      s.wishPackets * s.packetBytes < wordCount ∧
      ∀ packets ∈ s.capPackets, packets * s.packetBytes < wordCount)
    ⟨fun ⟨hs, hw, hc⟩ => ⟨hs, hw, hc⟩, fun h => ⟨h.samples, h.wish, h.cap⟩⟩

theorem wishBytes_of_lt {s : AudioSettings} (h : s.wishPackets * s.packetBytes < wordCount) :
    s.wishBytes = s.wishPackets * s.packetBytes := word_of_lt h

theorem Fits.packetSamples_eq {s : AudioSettings} (h : s.Fits) :
    s.packetSamples = s.rate * s.channels * s.packetTime.millis / 1000 := by
  rw [packetSamples, word_of_lt h.samples]

theorem Fits.capBytes_eq {s : AudioSettings} (h : s.Fits) :
    s.capBytes = s.capPackets.map (· * s.packetBytes) := by
  unfold capBytes
  cases hc : s.capPackets with
  | none => rfl
  | some packets => exact congrArg some (word_of_lt (h.cap packets hc))

/-- The first setting that cannot be used. -/
def misuse? (s : AudioSettings) : Option Misuse :=
  if s.rate = 0 then some (.zero "sample_rate")
  else if s.channels = 0 then some (.zero "channels")
  else if s.packetTime.millis = 0 then some .shortPacket
  else if s.packetSamples = 0 then some (.emptyPacket s.packetTime.millis s.rate s.channels)
  else if s.wishPackets = 0 then some (.zero "jitter_wish_frames")
  else
    match s.capPackets.filter (· < s.wishPackets) with
    | some cap => some (.capBelowWish cap s.wishPackets)
    | none => if s.pollTime = 0 then some (.zero "poll_interval") else none

/-- The settings can be used. -/
def Accepted (s : AudioSettings) : Prop := s.misuse? = none

instance (s : AudioSettings) : Decidable s.Accepted := inferInstanceAs (Decidable (_ = none))

/-- What it takes for settings to be accepted. -/
theorem accepted_iff (s : AudioSettings) :
    s.Accepted ↔ 0 < s.packetSamples ∧ 0 < s.wishPackets ∧
      (∀ cap, s.capPackets = some cap → s.wishPackets ≤ cap) ∧ 0 < s.pollTime := by
  have hz : s.rate = 0 ∨ s.channels = 0 ∨ s.packetTime.millis = 0 → s.packetSamples = 0 := by
    rintro (h | h | h) <;> simp [packetSamples, h]
  unfold Accepted misuse?
  by_cases h1 : s.rate = 0
  · simp [h1, hz (.inl h1)]
  by_cases h2 : s.channels = 0
  · simp [h1, h2, hz (.inr (.inl h2))]
  by_cases h3 : s.packetTime.millis = 0
  · simp [h1, h2, h3, hz (.inr (.inr h3))]
  by_cases h4 : s.packetSamples = 0
  · simp [h1, h2, h3, h4]
  by_cases h5 : s.wishPackets = 0
  · simp [h1, h2, h3, h4, h5]
  have hp : 0 < s.packetSamples := Nat.pos_of_ne_zero h4
  have hw : 0 < s.wishPackets := Nat.pos_of_ne_zero h5
  simp only [h1, h2, h3, h4, h5, if_false, hp, hw, true_and]
  cases hc : s.capPackets with
  | none => simp [Nat.pos_iff_ne_zero]
  | some cap =>
      by_cases hlt : cap < s.wishPackets
      · simp [Option.filter, hlt, Nat.not_le.mpr hlt]
      · simp [Option.filter, hlt, Nat.pos_iff_ne_zero, Nat.not_lt.mp hlt]

/-- A short description of all settings. -/
def describe (s : AudioSettings) : String :=
  let cap := match s.capPackets with
    | some cap => "Some(" ++ toString cap ++ ")"
    | none => "None"
  "AudioMixerConfig \x7b sample_rate: " ++ toString s.rate ++ ", channels: " ++
    toString s.channels ++ ", ptime: " ++ s.packetTime.text ++ ", jitter_wish_frames: " ++
    toString s.wishPackets ++ ", jitter_max_frames: " ++ cap ++ ", poll_interval: " ++
    s.pollTime.text ++ " \x7d"

end AudioSettings

end ConferenceMix
