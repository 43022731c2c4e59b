/-! # Sizes and rectangles

A `Size` is the extent of a picture in pixels, a `Rect` a rectangle of pixels anywhere at or beyond
the origin. `Rect.clip` cuts a rectangle down to a picture; `Rect.contains_clip` says that what is
left is the intersection of the two. Widths, heights and positions have 32 bits where they are given,
and sums and products of two of them are told as they are. -/

namespace ConferenceMix

/-- The width and height of a picture in pixels. -/
structure Size where
  width : Nat
  height : Nat
deriving DecidableEq, Repr

namespace Size

/-- A size without pixels. -/
def Empty (s : Size) : Prop := s.width = 0 ∨ s.height = 0

instance (s : Size) : Decidable s.Empty := inferInstanceAs (Decidable (_ ∨ _))

/-- The pixel `(x, y)` belongs to a picture of this size. -/
def Contains (s : Size) (x y : Nat) : Prop := x < s.width ∧ y < s.height

instance (s : Size) (x y : Nat) : Decidable (s.Contains x y) := inferInstanceAs (Decidable (_ ∧ _))

theorem not_empty_iff (s : Size) : ¬ s.Empty ↔ 0 < s.width ∧ 0 < s.height := by
  simp only [Empty]
  omega

/-- A size in words, width first. -/
def text (s : Size) : String := toString s.width ++ "x" ++ toString s.height

end Size

/-- The `width * height` pixels from `(x, y)` rightwards and downwards. -/
structure Rect where
  x : Nat
  y : Nat
  width : Nat
  height : Nat
deriving DecidableEq, Repr, Inhabited

namespace Rect

/-- A rectangle without pixels. -/
def Empty (r : Rect) : Prop := r.width = 0 ∨ r.height = 0

instance (r : Rect) : Decidable r.Empty := inferInstanceAs (Decidable (_ ∨ _))

/-- The pixel `(x, y)` lies in the rectangle. -/
def Contains (r : Rect) (x y : Nat) : Prop :=
  r.x ≤ x ∧ r.y ≤ y ∧ x - r.x < r.width ∧ y - r.y < r.height

instance (r : Rect) (x y : Nat) : Decidable (r.Contains x y) :=
  inferInstanceAs (Decidable (_ ∧ _ ∧ _ ∧ _))

/-- The rectangle of all pixels of a picture. -/
def whole (s : Size) : Rect := ⟨0, 0, s.width, s.height⟩

/-- The part of a rectangle that lies in a picture of size `s`. -/
def clip (r : Rect) (s : Size) : Rect :=
  let x := min r.x s.width
  let y := min r.y s.height
  ⟨x, y, min r.width (s.width - x), min r.height (s.height - y)⟩

@[simp] theorem clip_x (r : Rect) (s : Size) : (r.clip s).x = min r.x s.width := rfl

@[simp] theorem clip_y (r : Rect) (s : Size) : (r.clip s).y = min r.y s.height := rfl

@[simp] theorem clip_width (r : Rect) (s : Size) :
    (r.clip s).width = min r.width (s.width - min r.x s.width) := rfl

@[simp] theorem clip_height (r : Rect) (s : Size) :
    (r.clip s).height = min r.height (s.height - min r.y s.height) := rfl

/-- Clipping is intersection with the picture. -/
theorem contains_clip (r : Rect) (s : Size) (x y : Nat) :
    (r.clip s).Contains x y ↔ r.Contains x y ∧ s.Contains x y := by
  simp only [Contains, Size.Contains, clip_x, clip_y, clip_width, clip_height]
  omega

theorem contains_whole (s : Size) (x y : Nat) : (whole s).Contains x y ↔ s.Contains x y := by
  simp [Contains, Size.Contains, whole]

end Rect

end ConferenceMix
