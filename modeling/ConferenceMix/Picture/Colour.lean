/-! # Colours

A colour is given by red, green and blue, or by one luma and two chroma components. `Yuv.ofRgb` is
the studio-swing conversion between them in whole numbers: each component is a weighted sum divided
by 256, rounded, shifted and held within a byte. -/

namespace ConferenceMix

/-- A colour by red, green and blue. -/
structure Rgb where
  r : UInt8
  g : UInt8
  b : UInt8
deriving DecidableEq, Repr

namespace Rgb

/-- The absence of light. -/
def black : Rgb := ⟨0, 0, 0⟩

end Rgb

/-- A colour by luma `y` and the chroma components `u` (blue difference) and `v` (red difference). -/
structure Yuv where
  y : UInt8
  u : UInt8
  v : UInt8
deriving DecidableEq, Repr

namespace Yuv

/-- The byte nearest to an integer. -/
def clampByte (v : Int) : UInt8 := UInt8.ofNat (max 0 (min v 255)).toNat

/-- The component `sum / 256`, rounded with a half going up, above the base value `base`. -/
def component (sum base : Int) : UInt8 := clampByte ((sum + 128) / 256 + base)

/-- The studio-swing luma and chroma of a colour. -/
def ofRgb (c : Rgb) : Yuv :=
  let r : Int := c.r.toNat
  let g : Int := c.g.toNat
  let b : Int := c.b.toNat
  { y := component (66 * r + 129 * g + 25 * b) 16
    u := component (-38 * r - 74 * g + 112 * b) 128
    v := component (112 * r - 94 * g - 18 * b) 128 }

theorem ofRgb_black : ofRgb Rgb.black = ⟨16, 128, 128⟩ := by decide +kernel

end Yuv

end ConferenceMix
