import ConferenceMix.Proofs.Picture.Brush
import ConferenceMix.Proofs.Picture.Clipping

/-! # Reading single pixels

`Picture.lumaAt` and `Picture.chromaAt` read the bytes of a picture in three planes that belong to a
pixel or to a block of two by two pixels. A daub replaces those for which the brush has a byte
(`Picture.lumaAt_daub`, `Picture.chromaAt_daub`). In a rectangle within the picture, scaling puts
the luma of the pixel of the source at the same share of the way (`Rect.luma_brush`), and it leaves
alone the chroma of blocks without a pixel in the rectangle (`Rect.brush_leaves_block`). -/

namespace ConferenceMix

theorem Plane.byteAt_flood (p : Plane) (b : UInt8) (x y : Nat) :
    (p.flood b).byteAt x y = (p.byteAt x y).map fun _ => b := by
  simp [byteAt, flood]

namespace Picture

variable {p : Picture} {x y : Nat}

/-- The luma of the pixel `(x, y)` of a picture in three planes. -/
def lumaAt (p : Picture) (x y : Nat) : Option UInt8 :=
  match p.raster with
  | .yuv420p luma _ _ => luma.byteAt x y
  | .rgb32 _ => none

/-- The chroma of the block `(x, y)` of two by two pixels of a picture in three planes. -/
def chromaAt (p : Picture) (x y : Nat) : Option (UInt8 × UInt8) :=
  match p.raster with
  | .yuv420p _ blue red => do return (← blue.byteAt x y, ← red.byteAt x y)
  | .rgb32 _ => none

/-- Every pixel inside a picture in three planes has a luma. -/
theorem isSome_lumaAt (hf : p.format = .yuv420p) (hc : p.size.Contains x y) :
    (p.lumaAt x y).isSome := by
  obtain ⟨size, raster, hne, hfit⟩ := p
  cases raster with
  | yuv420p luma blue red => exact Plane.isSome_byteAt hfit.1 hc.1 hc.2
  | rgb32 pixels => cases hf

/-- In three planes, the colour of a pixel is its luma and the chroma of its block. -/
theorem colourAt_planar (hf : p.format = .yuv420p) (hc : p.size.Contains x y) {c : Yuv} :
    p.colourAt x y = some c ↔
      p.lumaAt x y = some c.y ∧ p.chromaAt (x / 2) (y / 2) = some (c.u, c.v) := by
  obtain ⟨size, raster, hne, hfit⟩ := p
  obtain ⟨l, u, v⟩ := c
  cases raster with
  | yuv420p luma blue red =>
      unfold colourAt
      rw [if_pos hc]
      simp only [lumaAt, chromaAt, Option.bind_eq_bind, Option.bind_eq_some_iff, Option.pure_def,
        Option.some_inj, Yuv.mk.injEq, Prod.mk.injEq]
      constructor
      · rintro ⟨_, hl, _, hu, _, hv, rfl, rfl, rfl⟩
        exact ⟨hl, _, hu, _, hv, rfl, rfl⟩
      · rintro ⟨hl, _, hu, _, hv, rfl, rfl⟩
        exact ⟨_, hl, _, hu, _, hv, rfl, rfl, rfl⟩
  | rgb32 pixels => cases hf

/-! ### Daubs and fills -/

theorem lumaAt_daub (b : Brush) (hc : p.size.Contains x y) :
    (p.daub b).lumaAt x y = (p.lumaAt x y).map (b.luma x y).getD := by
  obtain ⟨size, raster, hne, hfit⟩ := p
  cases raster with
  | yuv420p luma blue red => exact luma.byteAt_paint _ y (Nat.lt_of_lt_of_le hc.1 hfit.1.1)
  | rgb32 pixels => rfl

theorem chromaAt_daub (b : Brush) (hx : x < (PixelFormat.halfPlane p.size).rowBytes) :
    (p.daub b).chromaAt x y =
      (p.chromaAt x y).map fun c => ((b.blue x y).getD c.1, (b.red x y).getD c.2) := by
  obtain ⟨size, raster, hne, hfit⟩ := p
  cases raster with
  | yuv420p luma blue red =>
      simp only [chromaAt, daub, Raster.daub]
      rw [blue.byteAt_paint _ y (Nat.lt_of_lt_of_le hx hfit.2.1.1),
        red.byteAt_paint _ y (Nat.lt_of_lt_of_le hx hfit.2.2.1)]
      cases blue.byteAt x y <;> cases red.byteAt x y <;> rfl
  | rgb32 pixels => rfl

theorem lumaAt_fill (hf : p.format = .yuv420p) (hc : p.size.Contains x y) (c : Rgb) :
    (p.fill c).lumaAt x y = some (Yuv.ofRgb c).y := by
  obtain ⟨size, raster, hne, hfit⟩ := p
  cases raster with
  | yuv420p luma blue red =>
      obtain ⟨l, hl⟩ := Option.isSome_iff_exists.mp (Plane.isSome_byteAt hfit.1 hc.1 hc.2)
      simp only [lumaAt, fill, Raster.fill]
      rw [Plane.byteAt_flood, hl]
      rfl
  | rgb32 pixels => cases hf

theorem chromaAt_fill (hf : p.format = .yuv420p)
    (hx : x < (PixelFormat.halfPlane p.size).rowBytes)
    (hy : y < (PixelFormat.halfPlane p.size).rows) (c : Rgb) :
    (p.fill c).chromaAt x y = some ((Yuv.ofRgb c).u, (Yuv.ofRgb c).v) := by
  obtain ⟨size, raster, hne, hfit⟩ := p
  cases raster with
  | yuv420p luma blue red =>
      obtain ⟨u, hu⟩ := Option.isSome_iff_exists.mp (Plane.isSome_byteAt hfit.2.1 hx hy)
      obtain ⟨v, hv⟩ := Option.isSome_iff_exists.mp (Plane.isSome_byteAt hfit.2.2 hx hy)
      simp only [chromaAt, fill, Raster.fill]
      rw [Plane.byteAt_flood, Plane.byteAt_flood, hu, hv]
      rfl
  | rgb32 pixels => cases hf

end Picture

namespace Rect

variable {r : Rect} {s : Size} {x y : Nat}

/-! ### What scaling gives to a pixel -/

theorem luma_brush (h : s.Encloses r) (source : Picture) :
    (r.brush s source).luma = r.lumaSample source := by
  unfold brush
  rw [clip_of_encloses h]
  split
  · rename_i he
    funext x y
    refine ((r.lumaSample_eq_none_iff source x y).mpr ?_).symm
    rintro ⟨_, _, hw, hh⟩
    rcases he with he | he
    · omega
    · omega
  · rfl

/-- The luma of a pixel comes from the pixel of the source at the same share of the way. -/
theorem lumaSample_of_contains (hc : r.Contains x y) (source : Picture) :
    ∃ c, source.colourAt ((x - r.x) * source.size.width / r.width)
        ((y - r.y) * source.size.height / r.height) = some c ∧
      r.lumaSample source x y = some c.y := by
  obtain ⟨c, hs⟩ := Option.isSome_iff_exists.mp (r.isSome_sample source (x - r.x) (y - r.y))
  have hl : r.lumaSample source x y = some c.y := by
    rw [lumaSample, if_pos hc, hs]
    rfl
  rw [sample, scaleIndex_eq_div hc.2.2.1, scaleIndex_eq_div hc.2.2.2] at hs
  exact ⟨c, hs, hl⟩

/-- A block that a rectangle touches has a pixel in it. -/
theorem exists_contains_of_blocks (hne : ¬ r.Empty) (hb : r.blocks.Contains x y) :
    ∃ px py, px / 2 = x ∧ py / 2 = y ∧ r.Contains px py := by
  obtain ⟨hx, hy, hw, hh⟩ := hb
  simp only [blocks] at hx hy hw hh
  simp only [Empty] at hne
  refine ⟨max r.x (2 * x), max r.y (2 * y), by omega, by omega, ?_⟩
  simp only [Contains]
  omega

/-- Scaling leaves alone the chroma of a block without a pixel in the rectangle. -/
theorem brush_leaves_block (h : s.Encloses r)
    (hno : ∀ px py, px / 2 = x → py / 2 = y → ¬ r.Contains px py) (source : Picture) :
    (r.brush s source).blue x y = none ∧ (r.brush s source).red x y = none := by
  unfold brush
  rw [clip_of_encloses h]
  split
  · exact ⟨rfl, rfl⟩
  · rename_i hne
    have hn : r.chromaSample source x y = none := by
      rw [chromaSample_eq_none_iff]
      intro hb
      obtain ⟨px, py, hx, hy, hc⟩ := exists_contains_of_blocks hne hb
      exact hno px py hx hy hc
    exact ⟨by simp [hn], by simp [hn]⟩

end Rect

end ConferenceMix
