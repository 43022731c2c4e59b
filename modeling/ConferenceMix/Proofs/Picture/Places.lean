import ConferenceMix.Picture.Bars
import ConferenceMix.Proofs.Picture.Filling
import Mathlib.Data.List.Forall2

/-! # The bytes that a pixel is read from

`PixelFormat.places` lists for each plane the bytes that make up the colour of a pixel, and a pixel
is `Legible` in given planes when all of them lie within the planes; then, and only then, its colour
can be read (`Raster.isSome_colour?_iff`). The places of all pixels together are the columns and
rows of the planes (`PixelFormat.covered_shapes`), and so planes with rows that do not overlap are
accepted exactly when every pixel is legible (`Picture.accepts_iff`).

What is drawn into a picture afterwards changes neither its size nor the extent of its planes
(`Picture.congruent_edits`). `Picture.pixels_stay_legible` concludes that every pixel of every
picture can be read for all of its life, and nothing beyond its edges. -/

namespace ConferenceMix

/-! ### Places in a plane -/

/-- The byte in column `c` of row `r` lies within the plane. -/
def Plane.Has (p : Plane) (c r : Nat) : Prop := r * p.stride + c < p.bytes.size

theorem Plane.isSome_byteAt_iff (p : Plane) (c r : Nat) : (p.byteAt c r).isSome ↔ p.Has c r := by
  simp [byteAt, Has]

namespace PlaneShape

/-- Column `c` of row `r` belongs to the shape. -/
def Contains (s : PlaneShape) (c r : Nat) : Prop := c < s.rowBytes ∧ r < s.rows

/-- The columns and rows of the shape are the places of the pixels of a picture of this size. -/
def CoveredBy (s : PlaneShape) (size : Size) (places : Nat → Nat → List (Nat × Nat)) : Prop :=
  ∀ c r, s.Contains c r ↔ ∃ x y, size.Contains x y ∧ (c, r) ∈ places x y

variable {s : PlaneShape} {p : Plane}

/-- A plane whose rows do not overlap holds a shape exactly when it has all bytes of it; that of the
last column in the last row is enough. -/
theorem holds_iff_has (hs : s.Contains 0 0) (hp : s.rowBytes ≤ p.stride) :
    p.Holds s ↔ ∀ c r, s.Contains c r → p.Has c r := by
  have hc := hs.1
  have hr := hs.2
  constructor
  · intro h c r hc
    exact Plane.index_lt h hc.1 hc.2
  · intro h
    have hlast : (s.rows - 1) * p.stride + (s.rowBytes - 1) < p.bytes.size :=
      h _ _ ⟨by omega, by omega⟩
    refine ⟨hp, ?_⟩
    rw [span, Nat.mul_comm]
    omega

/-- It has all bytes of the shape exactly when it has those of every pixel. -/
theorem CoveredBy.holds_iff {size : Size} {places : Nat → Nat → List (Nat × Nat)}
    (h : s.CoveredBy size places) (hs : s.Contains 0 0) (hp : s.rowBytes ≤ p.stride) :
    p.Holds s ↔ ∀ x y, size.Contains x y → ∀ b ∈ places x y, p.Has b.1 b.2 := by
  rw [holds_iff_has hs hp]
  constructor
  · intro hall x y hxy b hb
    exact hall _ _ ((h b.1 b.2).mpr ⟨x, y, hxy, hb⟩)
  · intro hall c r hcr
    obtain ⟨x, y, hxy, hb⟩ := (h c r).mp hcr
    exact hall x y hxy _ hb

end PlaneShape

namespace PixelFormat

/-- The byte of a pixel in a plane with one byte per pixel. -/
def fullPlaces (x y : Nat) : List (Nat × Nat) := [(x, y)]

/-- The byte of a pixel in a plane with one byte per block. -/
def halfPlaces (x y : Nat) : List (Nat × Nat) := [(x / 2, y / 2)]

/-- The bytes of a pixel in a plane with four bytes per pixel. -/
def packedPlaces (x y : Nat) : List (Nat × Nat) :=
  [(4 * x, y), (4 * x + 1, y), (4 * x + 2, y), (4 * x + 3, y)]

/-- For each plane the columns and rows of the bytes that the colour of a pixel is read from. -/
def places : PixelFormat → List (Nat → Nat → List (Nat × Nat))
  | yuv420p => [fullPlaces, halfPlaces, halfPlaces]
  | rgb32 => [packedPlaces]

variable (size : Size)

theorem covered_full : (fullPlane size).CoveredBy size fullPlaces := by
  intro c r
  simp only [fullPlane, PlaneShape.Contains, fullPlaces, List.mem_singleton, Prod.mk.injEq]
  exact ⟨fun h => ⟨c, r, h, rfl, rfl⟩, fun ⟨x, y, h, hx, hy⟩ => hx ▸ hy ▸ h⟩

/-- A block that is begun has its first pixel in the picture. -/
theorem covered_half : (halfPlane size).CoveredBy size halfPlaces := by
  intro c r
  simp only [halfPlane, PlaneShape.Contains, halfPlaces, Size.Contains, List.mem_singleton,
    Prod.mk.injEq]
  constructor
  · rintro ⟨hc, hr⟩
    exact ⟨2 * c, 2 * r, by omega, by omega⟩
  · rintro ⟨x, y, hxy, rfl, rfl⟩
    omega

theorem covered_packed : (packedPlane size).CoveredBy size packedPlaces := by
  intro c r
  simp only [packedPlane, PlaneShape.Contains, packedPlaces, Size.Contains, List.mem_cons,
    Prod.mk.injEq, List.not_mem_nil, or_false]
  constructor
  · rintro ⟨hc, hr⟩
    exact ⟨c / 4, r, by omega, by omega⟩
  · rintro ⟨x, y, hxy, hcr⟩
    omega

/-- Plane by plane, the places of all pixels are the columns and rows of the shape. -/
theorem covered_shapes (f : PixelFormat) :
    List.Forall₂ (fun s ps => s.CoveredBy size ps) (f.shapes size) f.places := by
  cases f with
  | yuv420p =>
      exact .cons (covered_full size) (.cons (covered_half size) (.cons (covered_half size) .nil))
  | rgb32 => exact .cons (covered_packed size) .nil

/-- In a picture with pixels every plane has at least one byte. -/
theorem contains_shapes {size : Size} (hne : ¬ size.Empty) (f : PixelFormat) :
    ∀ s ∈ f.shapes size, s.Contains 0 0 := by
  obtain ⟨hw, hh⟩ := (Size.not_empty_iff size).mp hne
  cases f <;> simp [shapes, PlaneShape.Contains, fullPlane, halfPlane, packedPlane, hw, hh]
  omega

end PixelFormat

/-! ### Legible pixels -/

/-- All bytes that the colour of the pixel `(x, y)` is read from lie within their planes. -/
def Legible (f : PixelFormat) (planes : List Plane) (x y : Nat) : Prop :=
  List.Forall₂ (fun q ps => ∀ b ∈ ps x y, q.Has b.1 b.2) planes f.places

/-- The rows of each plane do not overlap, and there are as many planes as the format has. -/
def Spaced (f : PixelFormat) (size : Size) (planes : List Plane) : Prop :=
  List.Forall₂ (fun q s => s.rowBytes ≤ q.stride) planes (f.shapes size)

namespace Raster

/-- The colour made of the bytes of the pixel `(x, y)`, if the planes have them. -/
def colour? (r : Raster) (x y : Nat) : Option Yuv :=
  match r with
  | .yuv420p luma blue red => do
      let l ← luma.byteAt x y
      let u ← blue.byteAt (x / 2) (y / 2)
      let v ← red.byteAt (x / 2) (y / 2)
      return ⟨l, u, v⟩
  | .rgb32 pixels => do
      let b ← pixels.byteAt (4 * x) y
      let g ← pixels.byteAt (4 * x + 1) y
      let r ← pixels.byteAt (4 * x + 2) y
      let _ ← pixels.byteAt (4 * x + 3) y
      return Yuv.ofRgb ⟨r, g, b⟩

/-- A colour can be read exactly when no byte of it is missing. -/
theorem isSome_colour?_iff (r : Raster) (x y : Nat) :
    (r.colour? x y).isSome ↔ Legible r.format r.planes x y := by
  cases r with
  | yuv420p luma blue red =>
      have hl : Legible .yuv420p [luma, blue, red] x y ↔ (luma.byteAt x y).isSome ∧
          (blue.byteAt (x / 2) (y / 2)).isSome ∧ (red.byteAt (x / 2) (y / 2)).isSome := by
        simp [Legible, PixelFormat.places, PixelFormat.fullPlaces, PixelFormat.halfPlaces,
          Plane.isSome_byteAt_iff]
      show _ ↔ Legible .yuv420p [luma, blue, red] x y
      rw [hl, colour?]
      cases luma.byteAt x y <;> cases blue.byteAt (x / 2) (y / 2) <;>
        cases red.byteAt (x / 2) (y / 2) <;> simp
  | rgb32 pixels =>
      have hl : Legible .rgb32 [pixels] x y ↔ (pixels.byteAt (4 * x) y).isSome ∧
          (pixels.byteAt (4 * x + 1) y).isSome ∧ (pixels.byteAt (4 * x + 2) y).isSome ∧
            (pixels.byteAt (4 * x + 3) y).isSome := by
        simp [Legible, PixelFormat.places, PixelFormat.packedPlaces, Plane.isSome_byteAt_iff,
          or_imp, forall_and]
      show _ ↔ Legible .rgb32 [pixels] x y
      rw [hl, colour?]
      cases pixels.byteAt (4 * x) y <;> cases pixels.byteAt (4 * x + 1) y <;>
        cases pixels.byteAt (4 * x + 2) y <;> cases pixels.byteAt (4 * x + 3) y <;> simp

theorem fits_iff (s : Size) (r : Raster) :
    r.Fits s ↔ List.Forall₂ Plane.Holds r.planes (r.format.shapes s) := by
  cases r <;> simp [Fits, planes, format, PixelFormat.shapes]

end Raster

/-! ### Planes that are accepted -/

namespace Picture

variable {p : Picture} {f : PixelFormat} {size : Size} {planes : List Plane} {x y : Nat}

theorem colourAt_eq (p : Picture) (x y : Nat) :
    p.colourAt x y = if p.size.Contains x y then p.raster.colour? x y else none := rfl

/-- A picture in given planes has these planes, in the given format and size. -/
theorem eq_of_ofPlanes (h : ofPlanes f size planes = .ok p) :
    p.format = f ∧ p.size = size ∧ p.planes = planes := by
  unfold ofPlanes at h
  split at h
  · cases h
  · split at h
    · split at h <;> cases h
      exact ⟨rfl, rfl, rfl⟩
    · split at h <;> cases h
      exact ⟨rfl, rfl, rfl⟩
    · cases h

/-- Planes are accepted exactly when the size has pixels and each plane holds its shape. -/
theorem exists_ofPlanes_iff : (∃ p, ofPlanes f size planes = .ok p) ↔
    ¬ size.Empty ∧ List.Forall₂ Plane.Holds planes (f.shapes size) := by
  constructor
  · rintro ⟨p, h⟩
    obtain ⟨rfl, rfl, rfl⟩ := eq_of_ofPlanes h
    exact ⟨p.nonempty, (p.raster.fits_iff p.size).mp p.fits⟩
  · rintro ⟨hne, h⟩
    have hr : ∃ r : Raster, r.format = f ∧ r.planes = planes := by
      cases f with
      | yuv420p =>
          obtain _ | ⟨_, _ | ⟨_, _ | ⟨_, _ | _⟩⟩⟩ := h
          exact ⟨.yuv420p _ _ _, rfl, rfl⟩
      | rgb32 =>
          obtain _ | ⟨_, _ | _⟩ := h
          exact ⟨.rgb32 _, rfl, rfl⟩
    obtain ⟨r, rfl, rfl⟩ := hr
    let p : Picture := ⟨size, r, hne, (r.fits_iff size).mpr h⟩
    exact ⟨p, ofPlanes_planes p⟩

/-- Plane by plane, shapes are held exactly when all pixels have their bytes. -/
theorem forall₂_holds_iff {planes : List Plane} {shapes : List PlaneShape}
    {places : List (Nat → Nat → List (Nat × Nat))}
    (hp : List.Forall₂ (fun q s => s.rowBytes ≤ q.stride) planes shapes)
    (hc : List.Forall₂ (fun s ps => s.CoveredBy size ps) shapes places)
    (hs : ∀ s ∈ shapes, s.Contains 0 0) :
    List.Forall₂ Plane.Holds planes shapes ↔ ∀ x y, size.Contains x y →
      List.Forall₂ (fun q ps => ∀ b ∈ ps x y, q.Has b.1 b.2) planes places := by
  induction hp generalizing places with
  | nil =>
      cases hc
      exact iff_of_true .nil fun _ _ _ => .nil
  | cons hq _ ih =>
      obtain _ | ⟨hcov, hc⟩ := hc
      obtain ⟨hs₀, hs⟩ := List.forall_mem_cons.mp hs
      simp only [List.forall₂_cons, imp_and, forall_and]
      exact and_congr (hcov.holds_iff hs₀ hq) (ih hc hs)

/-- **Planes are accepted exactly when all pixels are legible**, if the size has pixels and the rows
do not overlap. -/
theorem accepts_iff (hne : ¬ size.Empty) (h : Spaced f size planes) :
    (∃ p, ofPlanes f size planes = .ok p) ↔
      ∀ x y, size.Contains x y → Legible f planes x y := by
  rw [exists_ofPlanes_iff, and_iff_right hne]
  exact forall₂_holds_iff h (PixelFormat.covered_shapes size f) (f.contains_shapes hne)

end Picture

/-! ### The life of a picture -/

/-- The distance between rows and the number of bytes of each plane. -/
def Raster.extents (r : Raster) : List (Nat × Nat) :=
  r.planes.map fun q => (q.stride, q.bytes.size)

theorem Plane.extent_write? {p q : Plane} {start : Nat} {data : Array UInt8}
    (h : p.write? start data = some q) : q.stride = p.stride ∧ q.bytes.size = p.bytes.size := by
  unfold write? at h
  split at h
  · cases h
    exact ⟨rfl, Array.size_mapIdx⟩
  · cases h

/-- Writing into one plane changes the extent of none. -/
theorem Raster.extents_write? {r r' : Raster} {i start : Nat} {data : Array UInt8}
    (h : r.write? i start data = some r') : r'.format = r.format ∧ r'.extents = r.extents := by
  cases r with
  | yuv420p luma blue red =>
      match i with
      | 0 | 1 | 2 =>
          obtain ⟨q, hq, rfl⟩ := Option.map_eq_some_iff.mp h
          obtain ⟨hstride, hsize⟩ := Plane.extent_write? hq
          exact ⟨rfl, by simp [extents, planes, hstride, hsize]⟩
      | _ + 3 => cases h
  | rgb32 pixels =>
      match i with
      | 0 =>
          obtain ⟨q, hq, rfl⟩ := Option.map_eq_some_iff.mp h
          obtain ⟨hstride, hsize⟩ := Plane.extent_write? hq
          exact ⟨rfl, by simp [extents, planes, hstride, hsize]⟩
      | _ + 1 => cases h

namespace Picture

/-- A way to make a picture. -/
inductive Origin where
  | blank (format : PixelFormat) (size : Size)
  | filled (format : PixelFormat) (size : Size) (colour : Rgb)
  | given (format : PixelFormat) (size : Size) (planes : List Plane)
  | bars (size : Size) (offset : Nat)

namespace Origin

/-- The format of the picture. -/
def format : Origin → PixelFormat
  | blank format _ => format
  | filled format _ _ => format
  | given format _ _ => format
  | bars _ _ => .yuv420p

/-- The size of the picture. -/
def size : Origin → Size
  | blank _ size => size
  | filled _ size _ => size
  | given _ size _ => size
  | bars size _ => size

/-- Makes the picture. -/
def make : Origin → Except Misuse Picture
  | blank format size => Picture.blank format size
  | filled format size colour => Picture.filled format size colour
  | given format size planes => ofPlanes format size planes
  | bars size offset => Picture.bars size offset

end Origin

/-- A change to a picture. -/
inductive Edit where
  | fill (colour : Rgb)
  /-- Replaces bytes of a plane, if they all lie in it. -/
  | write (plane start : Nat) (data : Array UInt8)
  /-- Scales a source into a rectangle. -/
  | draw (source : Picture) (rect : Rect)

variable {p q : Picture}

/-- Makes one change. One that is refused leaves the picture as it is. -/
def edit (p : Picture) : Edit → Picture
  | .fill colour => p.fill colour
  | .write plane start data => (p.write? plane start data).getD p
  | .draw source rect => Painter.scaling.attempt source p rect

/-- Makes one change after another. -/
def edits (p : Picture) (es : List Edit) : Picture := es.foldl edit p

/-- The pictures have the same size and format, and the same extents of their planes. -/
structure Congruent (p q : Picture) : Prop where
  size : q.size = p.size
  format : q.format = p.format
  extents : q.raster.extents = p.raster.extents

theorem Congruent.refl (p : Picture) : p.Congruent p := ⟨rfl, rfl, rfl⟩

theorem Congruent.trans {r : Picture} (h : p.Congruent q) (h' : q.Congruent r) : p.Congruent r :=
  ⟨h'.size.trans h.size, h'.format.trans h.format, h'.extents.trans h.extents⟩

theorem congruent_fill (p : Picture) (c : Rgb) : p.Congruent (p.fill c) := by
  refine ⟨rfl, p.format_fill c, ?_⟩
  show (p.raster.fill c).extents = _
  cases p.raster <;>
    simp [Raster.extents, Raster.fill, Raster.planes, Plane.flood, Plane.floodFours]

theorem congruent_daub (p : Picture) (b : Brush) : p.Congruent (p.daub b) := by
  refine ⟨rfl, p.format_daub b, ?_⟩
  show (p.raster.daub b).extents = _
  cases p.raster <;> simp [Raster.extents, Raster.daub, Raster.planes]

theorem congruent_write? {plane start : Nat} {data : Array UInt8}
    (h : p.write? plane start data = some q) : p.Congruent q := by
  unfold write? at h
  split at h
  · rename_i raster hr
    cases h
    obtain ⟨hformat, hextents⟩ := Raster.extents_write? hr
    exact ⟨rfl, hformat, hextents⟩
  · cases h

/-- No change reaches beyond the bytes of the planes. -/
theorem congruent_edit (p : Picture) (e : Edit) : p.Congruent (p.edit e) := by
  cases e with
  | fill colour => exact p.congruent_fill colour
  | write plane start data =>
      show p.Congruent ((p.write? plane start data).getD p)
      cases h : p.write? plane start data with
      | none => exact .refl p
      | some q => exact congruent_write? h
  | draw source rect =>
      show p.Congruent (Painter.scaling.attempt source p rect)
      cases h : p.format with
      | yuv420p =>
          rw [Painter.attempt_scaling h]
          exact p.congruent_daub _
      | rgb32 =>
          have hrefused := (Painter.scaling_eq_error_iff source p rect _).mpr ⟨h, rfl⟩
          rw [Painter.attempt, hrefused]
          exact .refl p

theorem congruent_edits (p : Picture) (es : List Edit) : p.Congruent (p.edits es) := by
  induction es generalizing p with
  | nil => exact .refl p
  | cons e es ih => exact (p.congruent_edit e).trans (ih (p.edit e))

theorem eq_of_blank {format : PixelFormat} {size : Size} (h : blank format size = .ok p) :
    p.format = format ∧ p.size = size := by
  unfold blank at h
  split at h
  · cases h
  · cases format <;> cases h <;> exact ⟨rfl, rfl⟩

/-- A picture is made in the format and the size that were asked for. -/
theorem eq_of_make {o : Origin} (h : o.make = .ok p) : p.format = o.format ∧ p.size = o.size := by
  cases o with
  | blank format size => exact eq_of_blank h
  | filled format size colour =>
      change (blank format size).map _ = _ at h
      cases hb : blank format size with
      | error cause =>
          rw [hb] at h
          cases h
      | ok q =>
          rw [hb] at h
          cases h
          obtain ⟨rfl, rfl⟩ := eq_of_blank hb
          exact ⟨q.format_fill colour, rfl⟩
  | given format size planes =>
      obtain ⟨hf, hs, _⟩ := eq_of_ofPlanes h
      exact ⟨hf, hs⟩
  | bars size offset =>
      change tabulate size _ = _ at h
      unfold tabulate at h
      split at h
      · cases h
      · cases h
        exact ⟨rfl, rfl⟩

/-- What is legible depends on the extents of the planes alone. -/
theorem Congruent.legible_iff (h : p.Congruent q) (f : PixelFormat) (x y : Nat) :
    Legible f q.planes x y ↔ Legible f p.planes x y := by
  have hmap : ∀ r : Picture, Legible f r.planes x y ↔
      List.Forall₂ (fun e ps => ∀ b ∈ ps x y, b.2 * e.1 + b.1 < e.2) r.raster.extents f.places :=
    fun r => by
      rw [Raster.extents, List.forall₂_map_left_iff]
      rfl
  rw [hmap q, hmap p, h.extents]

/-- All pixels inside a picture are legible. -/
theorem legible_of_contains (p : Picture) (hc : p.size.Contains x y) :
    Legible p.format p.planes x y := by
  have hsome := (p.isSome_colourAt_iff x y).mpr hc
  rw [colourAt_eq, if_pos hc] at hsome
  exact (p.raster.isSome_colour?_iff x y).mp hsome

/-- **Planes are accepted exactly when every pixel can be read from them, and it can be read ever
after.** If the size has pixels and the rows of the planes do not overlap, the planes make a picture
exactly when all bytes of every pixel lie within them. Whatever way a picture is made and whatever
is then done to it, exactly the pixels inside the size that was asked for have a colour, and all
bytes that these are read from lie within the planes. -/
theorem pixels_stay_legible :
    (∀ (f : PixelFormat) (size : Size) (planes : List Plane), ¬ size.Empty →
      Spaced f size planes →
        ((∃ p, ofPlanes f size planes = .ok p) ↔
          ∀ x y, size.Contains x y → Legible f planes x y)) ∧
    ∀ (o : Origin) (p : Picture), o.make = .ok p → ∀ (es : List Edit) (x y : Nat),
      (((p.edits es).colourAt x y).isSome ↔ o.size.Contains x y) ∧
        (o.size.Contains x y → Legible o.format (p.edits es).planes x y) := by
  refine ⟨fun f size planes hne h => accepts_iff hne h, fun o p h es x y => ?_⟩
  obtain ⟨hformat, hsize⟩ := eq_of_make h
  have hcong := p.congruent_edits es
  have hlegible : o.size.Contains x y → Legible o.format (p.edits es).planes x y := by
    intro hc
    rw [hcong.legible_iff, ← hformat]
    exact p.legible_of_contains (hsize ▸ hc)
  refine ⟨?_, hlegible⟩
  rw [colourAt_eq, hcong.size, hsize]
  split
  · rename_i hc
    refine iff_of_true (((p.edits es).raster.isSome_colour?_iff x y).mpr ?_) hc
    show Legible (p.edits es).format _ x y
    rw [hcong.format, hformat]
    exact hlegible hc
  · rename_i hc
    exact iff_of_false nofun hc

/-- Planes for three by three pixels, with padding behind all rows but the last, and a given number
of luma bytes. -/
def paddedThree (n : Nat) : List Plane :=
  [⟨5, Array.replicate n 0⟩, ⟨4, Array.replicate 6 0⟩, ⟨4, Array.replicate 6 0⟩]

/-- The last byte is written, then the picture is painted over and drawn into. -/
def thriceEdited : List Edit :=
  [.write 0 12 #[9], .fill .white, .draw oblique ⟨1, 1, 9, 9⟩]

/-- Thirteen bytes of luma are enough for the nine pixels, and twelve are not. -/
theorem pixels_stay_legible_oddSize :
    ¬ (Size.mk 3 3).Empty ∧ Spaced .yuv420p ⟨3, 3⟩ (paddedThree 13) ∧
      Spaced .yuv420p ⟨3, 3⟩ (paddedThree 12) ∧
      (∃ x y, (Size.mk 3 3).Contains x y ∧ ¬ Legible .yuv420p (paddedThree 12) x y) ∧
      ∃ p, ofPlanes .yuv420p ⟨3, 3⟩ (paddedThree 13) = .ok p ∧
        Legible .yuv420p (paddedThree 13) 2 2 ∧
        ((p.edits thriceEdited).colourAt 2 2).isSome ∧
        ¬ ((p.edits thriceEdited).colourAt 3 2).isSome ∧
        Legible .yuv420p (p.edits thriceEdited).planes 2 2 := by
  have hne : ¬ (Size.mk 3 3).Empty := by decide
  have hspaced : ∀ n, Spaced .yuv420p ⟨3, 3⟩ (paddedThree n) := fun n =>
    .cons (show 3 ≤ 5 by decide) (.cons (show 2 ≤ 4 by decide) (.cons (show 2 ≤ 4 by decide) .nil))
  have haccepts := fun n => pixels_stay_legible.1 .yuv420p ⟨3, 3⟩ (paddedThree n) hne (hspaced n)
  have hshort : ¬ ∃ p, ofPlanes .yuv420p ⟨3, 3⟩ (paddedThree 12) = .ok p := by
    rintro ⟨p, hp⟩
    cases hp
  have hmade : ∃ p, ofPlanes .yuv420p ⟨3, 3⟩ (paddedThree 13) = .ok p := ⟨_, rfl⟩
  refine ⟨hne, hspaced 13, hspaced 12, ?_, ?_⟩
  · by_contra hno
    refine hshort ((haccepts 12).mpr fun x y hc => ?_)
    by_contra hillegible
    exact hno ⟨x, y, hc, hillegible⟩
  · obtain ⟨p, hp⟩ := hmade
    have hlife := pixels_stay_legible.2 (.given .yuv420p ⟨3, 3⟩ (paddedThree 13)) p hp thriceEdited
    refine ⟨p, hp, (haccepts 13).mp ⟨p, hp⟩ 2 2 (by decide), ?_, ?_, (hlife 2 2).2 (by decide)⟩
    · exact (hlife 2 2).1.mpr (by decide)
    · exact fun h => absurd ((hlife 3 2).1.mp h) (by decide)

end Picture

end ConferenceMix
