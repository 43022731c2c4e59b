import ConferenceMix.Picture.Basic

/-! # Drawing one picture into another

A `Painter` draws a source picture into a rectangle of a target. `Painter.scaling` scales by taking
the nearest pixel: `lumaSample` and `chromaSample` say which byte each place of the target gets from
the source, and all other bytes of the target stay as they are. `Painter.flat` fills the rectangle
with one luma, and `Painter.selective` refuses some pictures and scales the others. -/

namespace ConferenceMix

/-- The position among `n` that corresponds to position `i` among `m`. -/
def scaleIndex (n m i : Nat) : Nat := min (i * n / m) (n - 1)

theorem scaleIndex_lt {n : Nat} (h : 0 < n) (m i : Nat) : scaleIndex n m i < n := by
  unfold scaleIndex
  omega

/-- Positions inside the target range need no clamping. -/
theorem scaleIndex_eq_div {n m i : Nat} (h : i < m) : scaleIndex n m i = i * n / m := by
  unfold scaleIndex
  by_cases hn : n = 0
  · simp [hn]
  · have hlt : i * n / m < n := by
      rw [Nat.div_lt_iff_lt_mul (by omega), Nat.mul_comm n m]
      exact (Nat.mul_lt_mul_right (by omega)).mpr h
    omega

namespace Rect

/-- The blocks of two by two pixels that a rectangle touches. -/
def blocks (r : Rect) : Rect :=
  ⟨r.x / 2, r.y / 2, (r.x + r.width + 1) / 2 - r.x / 2, (r.y + r.height + 1) / 2 - r.y / 2⟩

/-- The pixel of the source that stands at offset `(dx, dy)` in the rectangle. -/
def sample (r : Rect) (source : Picture) (dx dy : Nat) : Option Yuv :=
  source.colourAt (scaleIndex source.size.width r.width dx)
    (scaleIndex source.size.height r.height dy)

/-- The luma that the pixel `(x, y)` gets when the source is scaled into the rectangle. -/
def lumaSample (r : Rect) (source : Picture) (x y : Nat) : Option UInt8 :=
  if r.Contains x y then (r.sample source (x - r.x) (y - r.y)).map Yuv.y else none

/-- The pixel of the source that gives the block `(x, y)` its chroma: the one at the block's first
pixel, or at the nearest pixel of the rectangle when that lies outside. -/
def chromaSample (r : Rect) (source : Picture) (x y : Nat) : Option Yuv :=
  if r.blocks.Contains x y then
    r.sample source (min (2 * x - r.x) (r.width - 1)) (min (2 * y - r.y) (r.height - 1))
  else none

end Rect

/-- A way of drawing a source picture into a rectangle of a target picture. -/
abbrev Painter := (source target : Picture) → Rect → Except PaintFault Picture

namespace Painter

/-- Scales the source to the rectangle, clipped to the target, by nearest pixels. The target has to
be in three planes. -/
def scaling : Painter := fun source target rect =>
  match h : target.raster with
  | .rgb32 _ => .error (.unsupported source.format .rgb32)
  | .yuv420p luma blue red =>
      let r := rect.clip target.size
      if r.Empty then .ok target
      else .ok
        { target with
          raster := .yuv420p (luma.paint (r.lumaSample source))
            (blue.paint fun x y => (r.chromaSample source x y).map Yuv.u)
            (red.paint fun x y => (r.chromaSample source x y).map Yuv.v)
          fits := by
            have hf := target.fits
            rw [h] at hf
            exact ⟨Plane.holds_paint hf.1 _, Plane.holds_paint hf.2.1 _,
              Plane.holds_paint hf.2.2 _⟩ }

/-- Gives every pixel of the rectangle the luma `l`, whatever the source, and leaves the chroma as
it is. -/
def flat (l : UInt8) : Painter := fun source target rect =>
  match h : target.raster with
  | .rgb32 _ => .error (.unsupported source.format .rgb32)
  | .yuv420p luma blue red => .ok
      { target with
        raster := .yuv420p (luma.paint fun x y => if rect.Contains x y then some l else none) blue red
        fits := by
          have hf := target.fits
          rw [h] at hf
          exact ⟨Plane.holds_paint hf.1 _, hf.2⟩ }

/-- Scales the sources that are accepted and refuses the others. -/
def selective (accepts : Picture → Bool) (refusal : PaintFault) : Painter :=
  fun source target rect =>
    if accepts source then scaling source target rect else .error refusal

/-- The target after an attempt to draw into it: as it was, if the painter refuses. -/
def attempt (paint : Painter) (source target : Picture) (rect : Rect) : Picture :=
  match paint source target rect with
  | .ok drawn => drawn
  | .error _ => target

/-- What scaling does to a target in three planes: nothing for a rectangle outside it, and otherwise
the luma and the chroma of the clipped rectangle are painted. -/
theorem scaling_raster {source target drawn : Picture} {rect : Rect} {luma blue red : Plane}
    (ht : target.raster = .yuv420p luma blue red)
    (h : scaling source target rect = .ok drawn) :
    drawn.size = target.size ∧
      (((rect.clip target.size).Empty ∧ drawn = target) ∨
        (¬ (rect.clip target.size).Empty ∧
          drawn.raster = .yuv420p (luma.paint ((rect.clip target.size).lumaSample source))
            (blue.paint fun x y => ((rect.clip target.size).chromaSample source x y).map Yuv.u)
            (red.paint fun x y => ((rect.clip target.size).chromaSample source x y).map Yuv.v))) := by
  unfold scaling at h
  split at h
  · cases h
  · rename_i luma' blue' red' ht'
    rw [ht] at ht'
    cases ht'
    dsimp only at h
    split at h
    · rename_i he
      cases h
      exact ⟨rfl, .inl ⟨he, rfl⟩⟩
    · rename_i he
      cases h
      exact ⟨rfl, .inr ⟨he, rfl⟩⟩

/-- Scaling fails exactly for a target that is not in three planes. -/
theorem scaling_eq_error_iff (source target : Picture) (rect : Rect) (f : PaintFault) :
    scaling source target rect = .error f ↔
      target.format = .rgb32 ∧ f = .unsupported source.format .rgb32 := by
  unfold scaling
  split
  · rename_i pixels h
    simp only [Picture.format, h, Raster.format, true_and, Except.error.injEq]
    exact eq_comm
  · rename_i luma blue red h
    simp only [Picture.format, h, Raster.format]
    split <;> simp

end Painter

end ConferenceMix
