import ConferenceMix.Picture.Basic

/-! # Colour bars

A test picture of eight upright bars, from white over the mixed colours to black, that can be moved
sideways bar by bar. -/

namespace ConferenceMix

/-- The colours of the bars from left to right. -/
def barColours : Array Rgb :=
  #[⟨235, 235, 235⟩, ⟨235, 235, 16⟩, ⟨16, 235, 235⟩, ⟨16, 235, 16⟩,
    ⟨235, 16, 235⟩, ⟨235, 16, 16⟩, ⟨16, 16, 235⟩, ⟨16, 16, 16⟩]

/-- The width of a bar in a picture of the given width. -/
def barWidth (width : Nat) : Nat := max (width / 8) 1

/-- The colour in column `x` of bars moved by `offset`. -/
def barColour (width offset x : Nat) : Rgb :=
  (barColours[(x / barWidth width + offset) % 8]?).getD Rgb.black

namespace Picture

/-- The test picture of eight upright bars, moved by `offset` bars. -/
def bars (size : Size) (offset : Nat) : Except Misuse Picture :=
  tabulate size fun x _ => Yuv.ofRgb (barColour size.width offset x)

end Picture

end ConferenceMix
