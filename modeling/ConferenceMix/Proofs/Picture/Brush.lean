import ConferenceMix.Picture.Scaling

/-! # Drawing as laying brushes over each other

A `Brush` gives new bytes to some places of three planes, and `Picture.daub` puts them there. One
daub after another is a single one (`daub_daub`), and filling a picture wipes out any (`fill_daub`).
Scaling a source into a rectangle is such a daub (`Painter.attempt_scaling`), and which places it
reaches depends on the rectangle alone and not on the source (`Rect.brush_within`). -/

namespace ConferenceMix

namespace Plane

theorem paint_none (p : Plane) : (p.paint fun _ _ => none) = p := by
  obtain ⟨stride, bytes⟩ := p
  simp only [paint, Plane.mk.injEq, true_and]
  apply Array.ext
  · simp
  · intro i _ _
    simp

theorem paint_paint (p : Plane) (f g : Nat → Nat → Option UInt8) :
    (p.paint f).paint g = p.paint fun x y => (g x y).or (f x y) := by
  have hb : ∀ (o o' : Option UInt8) (b : UInt8), o.getD (o'.getD b) = (o.or o').getD b := by
    intro o o' b
    cases o <;> rfl
  simp only [paint, Array.mapIdx_mapIdx, Plane.mk.injEq, true_and]
  congr
  funext i b
  exact hb _ _ b

theorem flood_paint (p : Plane) (f : Nat → Nat → Option UInt8) (b : UInt8) :
    (p.paint f).flood b = p.flood b := by
  simp only [flood, paint, Plane.mk.injEq, true_and]
  apply Array.ext
  · simp
  · intro i _ _
    simp

end Plane

/-! ### Brushes -/

/-- New bytes for some places of a luma and two chroma planes. -/
structure Brush where
  luma : Nat → Nat → Option UInt8
  blue : Nat → Nat → Option UInt8
  red : Nat → Nat → Option UInt8

namespace Brush

/-- The brush that changes nothing. -/
def clear : Brush := ⟨fun _ _ => none, fun _ _ => none, fun _ _ => none⟩

/-- One brush after another: where both give a byte, `a` has the last word. -/
def atop (a b : Brush) : Brush :=
  { luma := fun x y => (a.luma x y).or (b.luma x y)
    blue := fun x y => (a.blue x y).or (b.blue x y)
    red := fun x y => (a.red x y).or (b.red x y) }

/-- What `b` leaves alone in a plane, `a` leaves alone as well. -/
def Reaches (a b : Nat → Nat → Option UInt8) : Prop := ∀ x y, b x y = none → a x y = none

/-- What `b` leaves alone, `a` leaves alone as well. -/
structure Within (a b : Brush) : Prop where
  luma : Reaches a.luma b.luma
  blue : Reaches a.blue b.blue
  red : Reaches a.red b.red

theorem Within.refl (a : Brush) : a.Within a := ⟨fun _ _ h => h, fun _ _ h => h, fun _ _ h => h⟩

theorem Within.trans {a b c : Brush} (hab : a.Within b) (hbc : b.Within c) : a.Within c :=
  ⟨fun x y h => hab.luma x y (hbc.luma x y h), fun x y h => hab.blue x y (hbc.blue x y h),
    fun x y h => hab.red x y (hbc.red x y h)⟩

theorem clear_within (a : Brush) : clear.Within a :=
  ⟨fun _ _ _ => rfl, fun _ _ _ => rfl, fun _ _ _ => rfl⟩

theorem Within.atop {a a' b b' : Brush} (ha : a.Within a') (hb : b.Within b') :
    (a.atop b).Within (a'.atop b') := by
  have h : ∀ {f f' g g' : Nat → Nat → Option UInt8}, Reaches f f' → Reaches g g' →
      Reaches (fun x y => (f x y).or (g x y)) fun x y => (f' x y).or (g' x y) := by
    intro f f' g g' hf hg x y hn
    obtain ⟨hf', hg'⟩ := Option.or_eq_none_iff.mp hn
    exact Option.or_eq_none_iff.mpr ⟨hf x y hf', hg x y hg'⟩
  exact ⟨h ha.luma hb.luma, h ha.blue hb.blue, h ha.red hb.red⟩

/-- A brush hides one that reaches no further. -/
theorem atop_eq_of_within {a b : Brush} (h : a.Within b) : b.atop a = b := by
  have hp : ∀ {f g : Nat → Nat → Option UInt8}, Reaches f g →
      (fun x y => (g x y).or (f x y)) = g := by
    intro f g hr
    funext x y
    cases hg : g x y with
    | none => exact hr x y hg
    | some b => rfl
  unfold atop
  rw [hp h.luma, hp h.blue, hp h.red]

end Brush

namespace Raster

/-- Puts the bytes of a brush into three planes. -/
def daub (b : Brush) : Raster → Raster
  | yuv420p luma blue red => yuv420p (luma.paint b.luma) (blue.paint b.blue) (red.paint b.red)
  | rgb32 pixels => rgb32 pixels

theorem fits_daub {s : Size} {r : Raster} (h : r.Fits s) (b : Brush) : (r.daub b).Fits s := by
  cases r with
  | yuv420p luma blue red =>
      exact ⟨Plane.holds_paint h.1 _, Plane.holds_paint h.2.1 _, Plane.holds_paint h.2.2 _⟩
  | rgb32 pixels => exact h

end Raster

namespace Picture

theorem eq_of_raster_eq {p q : Picture} (hr : p.raster = q.raster) (hs : p.size = q.size) :
    p = q := by
  cases p
  cases q
  cases hs
  cases hr
  rfl

/-- Puts the bytes of a brush into a picture in three planes. -/
def daub (p : Picture) (b : Brush) : Picture :=
  { p with raster := p.raster.daub b, fits := Raster.fits_daub p.fits b }

@[simp] theorem size_daub (p : Picture) (b : Brush) : (p.daub b).size = p.size := rfl

@[simp] theorem format_daub (p : Picture) (b : Brush) : (p.daub b).format = p.format := by
  obtain ⟨size, raster, hne, hfit⟩ := p
  cases raster <;> rfl

theorem daub_clear (p : Picture) : p.daub .clear = p := by
  refine eq_of_raster_eq ?_ rfl
  show p.raster.daub .clear = p.raster
  cases p.raster with
  | yuv420p luma blue red => simp [Raster.daub, Brush.clear, Plane.paint_none]
  | rgb32 pixels => rfl

theorem daub_daub (p : Picture) (a b : Brush) : (p.daub a).daub b = p.daub (b.atop a) := by
  refine eq_of_raster_eq ?_ rfl
  show (p.raster.daub a).daub b = p.raster.daub (b.atop a)
  cases p.raster with
  | yuv420p luma blue red => simp [Raster.daub, Brush.atop, Plane.paint_paint]
  | rgb32 pixels => rfl

theorem fill_daub (p : Picture) (b : Brush) (c : Rgb) : (p.daub b).fill c = p.fill c := by
  refine eq_of_raster_eq ?_ rfl
  show (p.raster.daub b).fill c = p.raster.fill c
  cases p.raster with
  | yuv420p luma blue red => simp [Raster.daub, Raster.fill, Plane.flood_paint]
  | rgb32 pixels => rfl

theorem fill_fill (p : Picture) (c : Rgb) (h : p.format = .yuv420p) :
    (p.fill c).fill c = p.fill c := by
  refine eq_of_raster_eq ?_ rfl
  show (p.raster.fill c).fill c = p.raster.fill c
  unfold format at h
  cases hr : p.raster with
  | yuv420p luma blue red => simp [Raster.fill, Plane.flood]
  | rgb32 pixels =>
      rw [hr] at h
      cases h

/-- Daubs one after another are a single daub. -/
theorem foldl_daub {τ : Type} (g : τ → Brush) (p : Picture) (ts : List τ) :
    ts.foldl (fun q t => q.daub (g t)) p =
      p.daub (ts.foldl (fun b t => (g t).atop b) .clear) := by
  have h : ∀ b, ts.foldl (fun q t => q.daub (g t)) (p.daub b) =
      p.daub (ts.foldl (fun b t => (g t).atop b) b) := by
    induction ts with
    | nil => exact fun _ => rfl
    | cons t ts ih =>
        intro b
        rw [List.foldl_cons, List.foldl_cons, daub_daub, ih]
  rw [← h .clear, daub_clear]

end Picture

/-! ### Scaling as a brush -/

namespace Rect

/-- What scaling a source into a rectangle puts into a picture of size `s`. -/
def brush (r : Rect) (s : Size) (source : Picture) : Brush :=
  if (r.clip s).Empty then .clear
  else
    { luma := (r.clip s).lumaSample source
      blue := fun x y => ((r.clip s).chromaSample source x y).map Yuv.u
      red := fun x y => ((r.clip s).chromaSample source x y).map Yuv.v }

theorem isSome_sample (r : Rect) (source : Picture) (dx dy : Nat) :
    (r.sample source dx dy).isSome := by
  obtain ⟨hw, hh⟩ := (Size.not_empty_iff source.size).mp source.nonempty
  exact (source.isSome_colourAt_iff _ _).mpr ⟨scaleIndex_lt hw _ _, scaleIndex_lt hh _ _⟩

theorem sample_ne_none (r : Rect) (source : Picture) (dx dy : Nat) :
    r.sample source dx dy ≠ none := by
  intro hn
  have h := r.isSome_sample source dx dy
  rw [hn] at h
  cases h

theorem lumaSample_eq_none_iff (r : Rect) (source : Picture) (x y : Nat) :
    r.lumaSample source x y = none ↔ ¬ r.Contains x y := by
  unfold lumaSample
  split
  · rename_i hc
    refine iff_of_false ?_ (not_not_intro hc)
    rw [Option.map_eq_none_iff]
    exact r.sample_ne_none source _ _
  · rename_i hc
    exact iff_of_true rfl hc

theorem chromaSample_eq_none_iff (r : Rect) (source : Picture) (x y : Nat) :
    r.chromaSample source x y = none ↔ ¬ r.blocks.Contains x y := by
  unfold chromaSample
  split
  · rename_i hc
    exact iff_of_false (r.sample_ne_none source _ _) (not_not_intro hc)
  · rename_i hc
    exact iff_of_true rfl hc

/-- All sources reach the same places of a rectangle. -/
theorem brush_within (r : Rect) (s : Size) (a b : Picture) :
    (r.brush s a).Within (r.brush s b) := by
  unfold brush
  split
  · exact .refl _
  · refine ⟨?_, ?_, ?_⟩
    · intro x y hn
      exact ((r.clip s).lumaSample_eq_none_iff a x y).mpr
        (((r.clip s).lumaSample_eq_none_iff b x y).mp hn)
    all_goals
      intro x y hn
      rw [Option.map_eq_none_iff, chromaSample_eq_none_iff] at hn ⊢
      exact hn

end Rect

namespace Painter

variable {source target : Picture}

/-- Scaling into a picture in three planes never fails. -/
theorem scaling_eq_ok (h : target.format = .yuv420p) (rect : Rect) :
    scaling source target rect = .ok (scaling.attempt source target rect) := by
  unfold attempt
  cases hd : scaling source target rect with
  | error f =>
      have hf := ((scaling_eq_error_iff source target rect f).mp hd).1
      rw [h] at hf
      cases hf
  | ok drawn => rfl

/-- Scaling a source into a picture in three planes is a daub. -/
theorem attempt_scaling (h : target.format = .yuv420p) (rect : Rect) :
    scaling.attempt source target rect = target.daub (rect.brush target.size source) := by
  have hd : scaling source target rect = .ok _ := scaling_eq_ok h rect
  unfold Picture.format at h
  cases hr : target.raster with
  | rgb32 pixels =>
      rw [hr] at h
      cases h
  | yuv420p luma blue red =>
      obtain ⟨hs, ⟨he, hdrawn⟩ | ⟨he, hraster⟩⟩ := scaling_raster hr hd
      · rw [Rect.brush, if_pos he, Picture.daub_clear, hdrawn]
      · refine Picture.eq_of_raster_eq ?_ hs
        show _ = target.raster.daub (rect.brush target.size source)
        rw [hraster, hr, Rect.brush, if_neg he]
        rfl

end Painter

end ConferenceMix
