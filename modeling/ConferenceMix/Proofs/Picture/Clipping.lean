import ConferenceMix.VideoWall.Tiling
import Mathlib.Data.Nat.PSub

/-! # Clipping is exact intersection

A rectangle may lie anywhere, also beyond the picture that it is clipped to, and no sum of its
fields is formed. `Rect.clip?` and `Rect.contains?` evaluate clipping and the test for a pixel step
by step with differences that exist only where nothing is taken from less, and never come upon one
that does not (`Rect.clip?_eq`, `Rect.contains?_eq`). `Rect.clipping_intersects` says that clipping
keeps exactly the pixels that belong to the picture, that what it leaves lies within the picture,
and that it leaves nothing more to clip. -/

namespace ConferenceMix

namespace Rect

variable {r : Rect} {s : Size} {x y : Nat}

/-! ### Rectangles within a picture -/

/-- A rectangle within the picture is left whole. -/
theorem clip_of_encloses (h : s.Encloses r) : r.clip s = r := by
  obtain ⟨rx, ry, width, height⟩ := r
  have hx : rx + width ≤ s.width := h.1
  have hy : ry + height ≤ s.height := h.2
  simp only [clip, Rect.mk.injEq]
  omega

theorem contains_of_encloses (h : s.Encloses r) (hc : r.Contains x y) : s.Contains x y := by
  have := h.1
  have := h.2
  obtain ⟨hx, hy, hw, hh⟩ := hc
  simp only [Size.Contains]
  omega

theorem encloses_clip (r : Rect) (s : Size) : s.Encloses (r.clip s) := by
  simp only [Size.Encloses, clip_x, clip_y, clip_width, clip_height]
  omega

/-! ### The pixels of a rectangle -/

theorem contains_iff : r.Contains x y ↔
    (r.x ≤ x ∧ x < r.x + r.width) ∧ r.y ≤ y ∧ y < r.y + r.height := by
  simp only [Contains]
  omega

/-- A rectangle that is not empty contains its upper left pixel. -/
theorem empty_iff : r.Empty ↔ ∀ x y, ¬ r.Contains x y := by
  constructor
  · rintro h x y ⟨_, _, hw, hh⟩
    rcases h with h | h
    · exact Nat.not_lt_zero _ (h ▸ hw)
    · exact Nat.not_lt_zero _ (h ▸ hh)
  · intro h
    have hcorner := h r.x r.y
    simp only [Contains, Empty] at hcorner ⊢
    omega

/-! ### Evaluation with partial differences -/

/-- Clipping, if no difference in it runs below zero. -/
def clip? (r : Rect) (s : Size) : Option Rect :=
  let x := min r.x s.width
  let y := min r.y s.height
  (s.width.psub x).bind fun right =>
    (s.height.psub y).map fun below => ⟨x, y, min r.width right, min r.height below⟩

/-- The test for a pixel from left to right up to the first comparison that fails, if no difference
in it runs below zero. -/
def contains? (r : Rect) (x y : Nat) : Option Bool :=
  if r.x ≤ x ∧ r.y ≤ y then
    (x.psub r.x).bind fun dx =>
      if dx < r.width then (y.psub r.y).map fun dy => decide (dy < r.height) else some false
  else some false

theorem clip?_eq (r : Rect) (s : Size) : r.clip? s = some (r.clip s) := by
  have hx : min r.x s.width ≤ s.width := Nat.min_le_right _ _
  have hy : min r.y s.height ≤ s.height := Nat.min_le_right _ _
  simp only [clip?, Nat.psub_eq_sub hx, Nat.psub_eq_sub hy, Option.bind_some, Option.map_some]
  rfl

theorem contains?_eq (r : Rect) (x y : Nat) : r.contains? x y = some (decide (r.Contains x y)) := by
  unfold contains?
  by_cases h : r.x ≤ x ∧ r.y ≤ y
  · rw [if_pos h, Nat.psub_eq_sub h.1, Nat.psub_eq_sub h.2, Option.bind_some, Option.map_some]
    by_cases hw : x - r.x < r.width
    · rw [if_pos hw]
      exact congrArg some (decide_eq_decide.mpr ⟨fun hh => ⟨h.1, h.2, hw, hh⟩, fun hc => hc.2.2.2⟩)
    · rw [if_neg hw, decide_eq_false fun hc => hw hc.2.2.1]
  · rw [if_neg h, decide_eq_false fun hc => h ⟨hc.1, hc.2.1⟩]

/-- **Clipping is exact intersection.** A rectangle contains the pixels from its upper left corner
on, as many to the right and downwards as it is wide and high. Clipped to a picture it contains
those of them that belong to the picture. It then lies within the picture and no field of it has
grown, it is empty exactly when there is no such pixel, and clipping it again changes nothing. No
difference runs below zero, in clipping or in the test for a pixel. -/
theorem clipping_intersects (r : Rect) (s : Size) :
    (∀ x y, r.Contains x y ↔ (r.x ≤ x ∧ x < r.x + r.width) ∧ r.y ≤ y ∧ y < r.y + r.height) ∧
    (∀ x y, (r.clip s).Contains x y ↔ r.Contains x y ∧ x < s.width ∧ y < s.height) ∧
    ((r.clip s).x + (r.clip s).width ≤ s.width ∧ (r.clip s).y + (r.clip s).height ≤ s.height) ∧
    ((r.clip s).x ≤ r.x ∧ (r.clip s).y ≤ r.y ∧ (r.clip s).width ≤ r.width ∧
      (r.clip s).height ≤ r.height) ∧
    ((r.clip s).Empty ↔ ∀ x y, ¬ (r.Contains x y ∧ x < s.width ∧ y < s.height)) ∧
    (r.clip s).clip s = r.clip s ∧
    r.clip? s = some (r.clip s) ∧
    ∀ x y, r.contains? x y = some (decide (r.Contains x y)) := by
  have hcontains : ∀ x y, (r.clip s).Contains x y ↔ r.Contains x y ∧ x < s.width ∧ y < s.height :=
    r.contains_clip s
  refine ⟨fun x y => contains_iff, hcontains, r.encloses_clip s, ?_, ?_,
    clip_of_encloses (r.encloses_clip s), r.clip?_eq s, r.contains?_eq⟩
  · exact ⟨Nat.min_le_left _ _, Nat.min_le_left _ _, Nat.min_le_left _ _, Nat.min_le_left _ _⟩
  · simp only [empty_iff, hcontains]

/-- The right edge of this rectangle is beyond 32 bits. -/
example : (Rect.mk 4294967290 400 10 100).clip ⟨4294967295, 480⟩ = ⟨4294967290, 400, 5, 80⟩ := by
  decide

end Rect

end ConferenceMix
