import ConferenceMix.Proofs.Picture.Pixels

/-! # What scaling does to every byte

`Plane.Redrawn` says of a plane that the bytes at some places have become given ones and that no
other byte, row padding included, has changed. Painting does this (`Plane.redrawn_paint`), and
`Painter.Rescales` puts together what scaling does to a picture in three planes
(`Painter.rescales_brush`): each pixel of the clipped rectangle takes its luma, and each chroma sample
that covers one of these pixels (`Rect.Touches`) takes its chroma, from the pixel of the source at the
same share of the way. -/

namespace ConferenceMix

namespace Plane

/-- `q` is `p` with the byte `value x y` at each place `(x, y)` in `At`, and nothing else changed.
-/
structure Redrawn (p q : Plane) (At : Nat → Nat → Prop) (value : Nat → Nat → Option UInt8) :
    Prop where
  stride : q.stride = p.stride
  size : q.bytes.size = p.bytes.size
  inside : ∀ x y, At x y → ∃ b, value x y = some b ∧ q.byteAt x y = some b
  rest : ∀ i, (∀ x y, At x y → i ≠ y * p.stride + x) → q.bytes[i]? = p.bytes[i]?

/-- Painting redraws the places for which it has a byte. -/
theorem redrawn_paint {p : Plane} {s : PlaneShape} (h : p.Holds s) {At : Nat → Nat → Prop}
    {f value : Nat → Nat → Option UInt8} (hin : ∀ x y, At x y → x < s.rowBytes ∧ y < s.rows)
    (hvalue : ∀ x y, At x y → ∃ b, value x y = some b ∧ f x y = some b)
    (hout : ∀ x y, ¬ At x y → f x y = none) : p.Redrawn (p.paint f) At value where
  stride := rfl
  size := p.size_paint f
  inside := by
    intro x y hat
    obtain ⟨hx, hy⟩ := hin x y hat
    obtain ⟨b, hb, hf⟩ := hvalue x y hat
    obtain ⟨old, hold⟩ := Option.isSome_iff_exists.mp (isSome_byteAt h hx hy)
    refine ⟨b, hb, ?_⟩
    rw [p.byteAt_paint f y (Nat.lt_of_lt_of_le hx h.1), hold, hf]
    rfl
  rest := by
    intro i hi
    have hnot : ¬ At (i % p.stride) (i / p.stride) := fun hat =>
      hi _ _ hat (Nat.div_add_mod' i p.stride).symm
    rw [p.getElem?_paint, hout _ _ hnot]
    exact Option.map_id'

end Plane

namespace Rect

variable {r : Rect} {s : Size} {x y : Nat}

/-! ### Clipped rectangles -/

/-- Scaling sees nothing of a rectangle but its part in the picture. -/
theorem brush_clip (r : Rect) (s : Size) (source : Picture) :
    (r.clip s).brush s source = r.brush s source := by
  unfold brush
  rw [clip_of_encloses (r.encloses_clip s)]

/-! ### Blocks that a rectangle touches -/

/-- The block `(x, y)` of two by two pixels has a pixel in the rectangle. -/
def Touches (r : Rect) (x y : Nat) : Prop := ∃ px py, px / 2 = x ∧ py / 2 = y ∧ r.Contains px py

theorem touches_iff : r.Touches x y ↔ ¬ r.Empty ∧ r.blocks.Contains x y := by
  constructor
  · rintro ⟨px, py, rfl, rfl, hx, hy, hw, hh⟩
    simp only [Empty, Contains, blocks]
    omega
  · rintro ⟨hne, hb⟩
    exact exists_contains_of_blocks hne hb

/-- A block that a rectangle within the picture touches has its chroma samples. -/
theorem lt_half_of_touches (h : s.Encloses r) (ht : r.Touches x y) :
    x < (PixelFormat.halfPlane s).rowBytes ∧ y < (PixelFormat.halfPlane s).rows := by
  obtain ⟨px, py, rfl, rfl, hc⟩ := ht
  have hp := contains_of_encloses h hc
  simp only [Size.Contains] at hp
  simp only [PixelFormat.halfPlane]
  omega

/-! ### The colours that a rectangle gets -/

/-- The colour of the source at the share of the way at which the offset `(dx, dy)` stands in the
rectangle. -/
def share (r : Rect) (source : Picture) (dx dy : Nat) : Option Yuv :=
  source.colourAt (dx * source.size.width / r.width) (dy * source.size.height / r.height)

theorem sample_eq_share {dx dy : Nat} (hx : dx < r.width) (hy : dy < r.height)
    (source : Picture) : r.sample source dx dy = r.share source dx dy := by
  rw [sample, share, scaleIndex_eq_div hx, scaleIndex_eq_div hy]

/-- The offset in the rectangle that gives the block `(x, y)` its chroma: that of the block's first
pixel, brought into the rectangle where it lies outside. -/
def anchor (r : Rect) (x y : Nat) : Nat × Nat :=
  (min (2 * x - r.x) (r.width - 1), min (2 * y - r.y) (r.height - 1))

/-- A block that the rectangle touches takes its chroma from one pixel of the source. -/
theorem chroma_brush (h : s.Encloses r) (ht : r.Touches x y) (source : Picture) :
    ∃ c, r.share source (r.anchor x y).1 (r.anchor x y).2 = some c ∧
      (r.brush s source).blue x y = some c.u ∧ (r.brush s source).red x y = some c.v := by
  obtain ⟨hne, hb⟩ := touches_iff.mp ht
  obtain ⟨hw, hh⟩ : 0 < r.width ∧ 0 < r.height := by
    simp only [Empty] at hne
    omega
  have hsample : r.chromaSample source x y =
      r.share source (r.anchor x y).1 (r.anchor x y).2 := by
    rw [chromaSample, if_pos hb]
    exact sample_eq_share (by omega) (by omega) source
  obtain ⟨c, hc⟩ := Option.isSome_iff_exists.mp
    (r.isSome_sample source (min (2 * x - r.x) (r.width - 1)) (min (2 * y - r.y) (r.height - 1)))
  have hchroma : r.chromaSample source x y = some c := by rw [chromaSample, if_pos hb, hc]
  refine ⟨c, hsample ▸ hchroma, ?_, ?_⟩
  all_goals
    rw [brush, clip_of_encloses h, if_neg hne]
    simp only [hchroma, Option.map_some]

theorem brush_leaves_untouched (h : s.Encloses r) (hno : ¬ r.Touches x y) (source : Picture) :
    (r.brush s source).blue x y = none ∧ (r.brush s source).red x y = none :=
  brush_leaves_block h (fun px py hx hy hc => hno ⟨px, py, hx, hy, hc⟩) source

end Rect

namespace Painter

/-- What scaling a source into a rectangle within the picture does to its three planes. -/
structure Rescales (source : Picture) (r : Rect)
    (luma blue red luma' blue' red' : Plane) : Prop where
  luma : luma.Redrawn luma' r.Contains fun x y =>
    (r.share source (x - r.x) (y - r.y)).map Yuv.y
  blue : blue.Redrawn blue' r.Touches fun x y =>
    (r.share source (r.anchor x y).1 (r.anchor x y).2).map Yuv.u
  red : red.Redrawn red' r.Touches fun x y =>
    (r.share source (r.anchor x y).1 (r.anchor x y).2).map Yuv.v

/-- A chroma plane is redrawn with one component of the colours that the touched blocks take. -/
theorem redrawn_chroma {s : Size} {p : Plane} (hp : p.Holds (PixelFormat.halfPlane s)) {r : Rect}
    (h : s.Encloses r) {source : Picture} {f : Nat → Nat → Option UInt8} {component : Yuv → UInt8}
    (hin : ∀ x y, r.Touches x y → ∃ c,
      r.share source (r.anchor x y).1 (r.anchor x y).2 = some c ∧ f x y = some (component c))
    (hout : ∀ x y, ¬ r.Touches x y → f x y = none) :
    p.Redrawn (p.paint f) r.Touches fun x y =>
      (r.share source (r.anchor x y).1 (r.anchor x y).2).map component := by
  refine Plane.redrawn_paint hp (fun x y ht => Rect.lt_half_of_touches h ht) ?_ hout
  intro x y ht
  obtain ⟨c, hcolour, hf⟩ := hin x y ht
  exact ⟨component c, by rw [hcolour]; rfl, hf⟩

/-- The brush of a rectangle within the picture rescales the source into it. -/
theorem rescales_brush {s : Size} {luma blue red : Plane}
    (hfit : (Raster.yuv420p luma blue red).Fits s) {r : Rect} (h : s.Encloses r)
    (source : Picture) :
    Rescales source r luma blue red (luma.paint (r.brush s source).luma)
      (blue.paint (r.brush s source).blue) (red.paint (r.brush s source).red) where
  luma := by
    rw [Rect.luma_brush h]
    refine Plane.redrawn_paint hfit.1 (fun x y hc => Rect.contains_of_encloses h hc) ?_
      (fun x y hc => (r.lumaSample_eq_none_iff source x y).mpr hc)
    intro x y hc
    obtain ⟨c, hcolour, hluma⟩ := Rect.lumaSample_of_contains hc source
    exact ⟨c.y, by rw [Rect.share, hcolour]; rfl, hluma⟩
  blue := redrawn_chroma hfit.2.1 h
    (fun _ _ ht => (Rect.chroma_brush h ht source).imp fun _ hc => ⟨hc.1, hc.2.1⟩)
    (fun _ _ hno => (Rect.brush_leaves_untouched h hno source).1)
  red := redrawn_chroma hfit.2.2 h
    (fun _ _ ht => (Rect.chroma_brush h ht source).imp fun _ hc => ⟨hc.1, hc.2.2⟩)
    (fun _ _ hno => (Rect.brush_leaves_untouched h hno source).2)

end Painter

end ConferenceMix
