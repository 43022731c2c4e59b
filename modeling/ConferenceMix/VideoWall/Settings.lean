import ConferenceMix.Fault
import ConferenceMix.Nanos

/-! # Settings of a video wall

`VideoSettings` fixes the size of the composite picture and the frame rate. `VideoSettings.misuse?`
names the first setting that cannot be used, and `Accepted` says that there is none. -/

namespace ConferenceMix

/-- How a video wall mixes. -/
structure VideoSettings where
  size : Size
  /-- Pictures per second. -/
  frameRate : Nat
  /-- The time between two looks at the clock. -/
  pollTime : Nanos
deriving DecidableEq, Repr

namespace VideoSettings

/-- A picture of 640 by 480 pixels, 25 times a second. -/
def standard : VideoSettings := ⟨⟨640, 480⟩, 25, .ofMillis 4⟩

/-- The time from one picture to the next, in whole milliseconds. -/
def interval (s : VideoSettings) : Nanos := .ofMillis (1000 / s.frameRate)

/-- The first setting that cannot be used. -/
def misuse? (s : VideoSettings) : Option Misuse :=
  if s.size.Empty then some (.noPixels s.size)
  else if s.frameRate = 0 then some (.zero "fps")
  else if 1000 < s.frameRate then some .fastFrames
  else if s.pollTime = 0 then some (.zero "poll_interval")
  else none

/-- The settings can be used. -/
def Accepted (s : VideoSettings) : Prop := s.misuse? = none

instance (s : VideoSettings) : Decidable s.Accepted := inferInstanceAs (Decidable (_ = none))

/-- What it takes for settings to be accepted. -/
theorem accepted_iff (s : VideoSettings) :
    s.Accepted ↔ ¬ s.size.Empty ∧ 0 < s.frameRate ∧ s.frameRate ≤ 1000 ∧ 0 < s.pollTime := by
  unfold Accepted misuse?
  by_cases h1 : s.size.Empty
  · simp [h1]
  by_cases h2 : s.frameRate = 0
  · simp [h1, h2]
  by_cases h3 : 1000 < s.frameRate
  · simp [h1, h2, h3, Nat.not_le.mpr h3]
  · simp [h1, h2, h3, Nat.pos_iff_ne_zero, Nat.not_lt.mp h3]

/-- Accepted settings leave at least a millisecond from one picture to the next. -/
theorem interval_pos {s : VideoSettings} (h : s.Accepted) : 0 < s.interval := by
  obtain ⟨_, hpos, hle, _⟩ := (accepted_iff s).mp h
  exact Nat.mul_pos (Nat.div_pos hle hpos) (by decide)

/-- A short description of all settings. -/
def describe (s : VideoSettings) : String :=
  "VideoMixerConfig \x7b width: " ++ toString s.size.width ++ ", height: " ++
    toString s.size.height ++ ", fps: " ++ toString s.frameRate ++ ", poll_interval: " ++
    s.pollTime.text ++ " \x7d"

end VideoSettings

end ConferenceMix
