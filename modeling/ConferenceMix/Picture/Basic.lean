import ConferenceMix.Picture.Colour
import ConferenceMix.Picture.Plane

/-! # Pictures

A `Picture` has a size and a `Raster`, its planes; the planes are always large enough for the size,
however many bytes that takes. The module on frames is about planes as they are kept in memory.
`Picture.colourAt` is the colour of a pixel, and `isSome_colourAt_iff` says that exactly the pixels
inside the picture have one. Pictures are made blank (`blank`), of one colour (`filled`), from given planes
(`ofPlanes`) or pixel by pixel (`tabulate`), and changed by `fill` and `write?`. -/

namespace ConferenceMix

/-- The planes of a picture. -/
inductive Raster where
  | yuv420p (luma blue red : Plane)
  | rgb32 (pixels : Plane)
deriving DecidableEq, Repr

namespace Raster

/-- How the pixels are stored. -/
def format : Raster → PixelFormat
  | yuv420p .. => .yuv420p
  | rgb32 _ => .rgb32

/-- The planes in order. -/
def planes : Raster → List Plane
  | yuv420p luma blue red => [luma, blue, red]
  | rgb32 pixels => [pixels]

/-- Every plane is large enough for a picture of size `s`. -/
def Fits (s : Size) : Raster → Prop
  | yuv420p luma blue red =>
      luma.Holds (PixelFormat.fullPlane s) ∧ blue.Holds (PixelFormat.halfPlane s) ∧
        red.Holds (PixelFormat.halfPlane s)
  | rgb32 pixels => pixels.Holds (PixelFormat.packedPlane s)

/-- Gives all planes one colour. -/
def fill (c : Rgb) : Raster → Raster
  | yuv420p luma blue red =>
      let w := Yuv.ofRgb c
      yuv420p (luma.flood w.y) (blue.flood w.u) (red.flood w.v)
  | rgb32 pixels => rgb32 (pixels.floodFours c.b c.g c.r 0)

theorem fits_fill {s : Size} {r : Raster} (h : r.Fits s) (c : Rgb) : (r.fill c).Fits s := by
  cases r with
  | yuv420p luma blue red =>
      exact ⟨Plane.holds_flood h.1 _, Plane.holds_flood h.2.1 _, Plane.holds_flood h.2.2 _⟩
  | rgb32 pixels => exact Plane.holds_floodFours (p := pixels) h _ _ _ _

/-- Replaces bytes of plane number `i` from index `start` on, if they all lie in that plane. -/
def write? (i start : Nat) (data : Array UInt8) : Raster → Option Raster
  | yuv420p luma blue red =>
      match i with
      | 0 => (luma.write? start data).map (yuv420p · blue red)
      | 1 => (blue.write? start data).map (yuv420p luma · red)
      | 2 => (red.write? start data).map (yuv420p luma blue ·)
      | _ => none
  | rgb32 pixels =>
      match i with
      | 0 => (pixels.write? start data).map rgb32
      | _ => none

theorem fits_write? {s : Size} {r r' : Raster} (h : r.Fits s) {i start : Nat}
    {data : Array UInt8} (hw : r.write? i start data = some r') : r'.Fits s := by
  cases r with
  | yuv420p luma blue red =>
      match i with
      | 0 =>
          obtain ⟨q, hq, rfl⟩ := Option.map_eq_some_iff.mp hw
          exact ⟨Plane.holds_write? h.1 hq, h.2⟩
      | 1 =>
          obtain ⟨q, hq, rfl⟩ := Option.map_eq_some_iff.mp hw
          exact ⟨h.1, Plane.holds_write? h.2.1 hq, h.2.2⟩
      | 2 =>
          obtain ⟨q, hq, rfl⟩ := Option.map_eq_some_iff.mp hw
          exact ⟨h.1, h.2.1, Plane.holds_write? h.2.2 hq⟩
      | _ + 3 => cases hw
  | rgb32 pixels =>
      match i with
      | 0 =>
          obtain ⟨q, hq, rfl⟩ := Option.map_eq_some_iff.mp hw
          exact Plane.holds_write? (p := pixels) h hq
      | _ + 1 => cases hw

end Raster

/-- A picture with at least one pixel, in planes that are large enough for it. -/
structure Picture where
  size : Size
  raster : Raster
  nonempty : ¬ size.Empty
  fits : raster.Fits size
deriving DecidableEq, Repr

namespace Picture

/-- How the pixels are stored. -/
def format (p : Picture) : PixelFormat := p.raster.format

/-- The planes in order. -/
def planes (p : Picture) : List Plane := p.raster.planes

/-- The colour of the pixel `(x, y)`, if it lies in the picture. -/
def colourAt (p : Picture) (x y : Nat) : Option Yuv :=
  if p.size.Contains x y then
    match p.raster with
    | .yuv420p luma blue red => do
        let l ← luma.byteAt x y
        let u ← blue.byteAt (x / 2) (y / 2)
        let v ← red.byteAt (x / 2) (y / 2)
        return ⟨l, u, v⟩
    | .rgb32 pixels => do
        let b ← pixels.byteAt (4 * x) y
        let g ← pixels.byteAt (4 * x + 1) y
        let r ← pixels.byteAt (4 * x + 2) y
        let _ ← pixels.byteAt (4 * x + 3) y
        return Yuv.ofRgb ⟨r, g, b⟩
  else none

/-- Exactly the pixels inside the picture have a colour. -/
theorem isSome_colourAt_iff (p : Picture) (x y : Nat) :
    (p.colourAt x y).isSome ↔ p.size.Contains x y := by
  obtain ⟨size, raster, hne, hfit⟩ := p
  unfold colourAt
  dsimp only
  split
  · rename_i hc
    have hx := hc.1
    have hy := hc.2
    simp only [hc, iff_true]
    cases raster with
    | yuv420p luma blue red =>
        obtain ⟨l, hl⟩ := Option.isSome_iff_exists.mp (Plane.isSome_byteAt hfit.1 hx hy)
        obtain ⟨u, hu⟩ := Option.isSome_iff_exists.mp
          (Plane.isSome_byteAt (x := x / 2) (y := y / 2) hfit.2.1
            (by simp only [PixelFormat.halfPlane]; omega)
            (by simp only [PixelFormat.halfPlane]; omega))
        obtain ⟨v, hv⟩ := Option.isSome_iff_exists.mp
          (Plane.isSome_byteAt (x := x / 2) (y := y / 2) hfit.2.2
            (by simp only [PixelFormat.halfPlane]; omega)
            (by simp only [PixelFormat.halfPlane]; omega))
        simp [hl, hu, hv]
    | rgb32 pixels =>
        have hb : ∀ k, k < 4 → ∃ b, pixels.byteAt (4 * x + k) y = some b := fun k hk =>
          Option.isSome_iff_exists.mp (Plane.isSome_byteAt (p := pixels) hfit
            (by simp only [PixelFormat.packedPlane]; omega) hy)
        obtain ⟨b, h0⟩ := hb 0 (by omega)
        obtain ⟨g, h1⟩ := hb 1 (by omega)
        obtain ⟨r, h2⟩ := hb 2 (by omega)
        obtain ⟨a, h3⟩ := hb 3 (by omega)
        rw [Nat.add_zero] at h0
        simp [h0, h1, h2, h3]
  · rename_i hc
    simp [hc]

/-! ### Making pictures -/

/-- The picture in three planes whose luma at `(x, y)` is that of `colour x y` and whose chroma
sample `(x, y)` is that of `colour (2 * x) (2 * y)`. -/
def tabulate (size : Size) (colour : Nat → Nat → Yuv) : Except Misuse Picture :=
  if h : size.Empty then .error (.noPixels size)
  else .ok
    { size
      raster := .yuv420p (Plane.tabulate (PixelFormat.fullPlane size) fun x y => (colour x y).y)
        (Plane.tabulate (PixelFormat.halfPlane size) fun x y => (colour (2 * x) (2 * y)).u)
        (Plane.tabulate (PixelFormat.halfPlane size) fun x y => (colour (2 * x) (2 * y)).v)
      nonempty := h
      fits := by
        have hs := (Size.not_empty_iff size).mp h
        refine ⟨Plane.holds_tabulate hs.2 _, Plane.holds_tabulate ?_ _, Plane.holds_tabulate ?_ _⟩
          <;> simp only [PixelFormat.halfPlane] <;> omega }

/-- The picture of zero bytes, without padding. -/
def blank (format : PixelFormat) (size : Size) : Except Misuse Picture :=
  if h : size.Empty then .error (.noPixels size)
  else
    have hs := (Size.not_empty_iff size).mp h
    match format with
    | .yuv420p => .ok
        { size
          raster := .yuv420p (Plane.blank (PixelFormat.fullPlane size))
            (Plane.blank (PixelFormat.halfPlane size)) (Plane.blank (PixelFormat.halfPlane size))
          nonempty := h
          fits := by
            refine ⟨Plane.holds_tabulate hs.2 _, Plane.holds_tabulate ?_ _,
              Plane.holds_tabulate ?_ _⟩ <;> simp only [PixelFormat.halfPlane] <;> omega }
    | .rgb32 => .ok
        { size
          raster := .rgb32 (Plane.blank (PixelFormat.packedPlane size))
          nonempty := h
          fits := Plane.holds_tabulate hs.2 _ }

/-- Gives the whole picture one colour. -/
def fill (p : Picture) (c : Rgb) : Picture :=
  { p with raster := p.raster.fill c, fits := Raster.fits_fill p.fits c }

/-- The picture of one colour, without padding. -/
def filled (format : PixelFormat) (size : Size) (c : Rgb) : Except Misuse Picture :=
  (blank format size).map (·.fill c)

/-- The picture in the given planes. The size is examined first, then the number of planes, then
each plane in order. -/
def ofPlanes (format : PixelFormat) (size : Size) (planes : List Plane) : Except Misuse Picture :=
  if h : size.Empty then .error (.noPixels size)
  else
    match format, planes with
    | .yuv420p, [luma, blue, red] =>
        match h₀ : luma.misuse? 0 (PixelFormat.fullPlane size),
          h₁ : blue.misuse? 1 (PixelFormat.halfPlane size),
          h₂ : red.misuse? 2 (PixelFormat.halfPlane size) with
        | some m, _, _ => .error m
        | none, some m, _ => .error m
        | none, none, some m => .error m
        | none, none, none => .ok
            { size
              raster := .yuv420p luma blue red
              nonempty := h
              fits := ⟨(Plane.misuse?_eq_none_iff ..).mp h₀, (Plane.misuse?_eq_none_iff ..).mp h₁,
                (Plane.misuse?_eq_none_iff ..).mp h₂⟩ }
    | .rgb32, [pixels] =>
        match h₀ : pixels.misuse? 0 (PixelFormat.packedPlane size) with
        | some m => .error m
        | none => .ok
            { size
              raster := .rgb32 pixels
              nonempty := h
              fits := (Plane.misuse?_eq_none_iff ..).mp h₀ }
    | format, planes => .error (.planeCount format planes.length)

/-- Replaces bytes of plane number `i` from index `start` on, if they all lie in that plane. -/
def write? (p : Picture) (i start : Nat) (data : Array UInt8) : Option Picture :=
  match h : p.raster.write? i start data with
  | some raster => some { p with raster, fits := Raster.fits_write? p.fits h }
  | none => none

@[simp] theorem size_fill (p : Picture) (c : Rgb) : (p.fill c).size = p.size := rfl

theorem format_fill (p : Picture) (c : Rgb) : (p.fill c).format = p.format := by
  obtain ⟨size, raster, hne, hfit⟩ := p
  cases raster <;> rfl

end Picture

end ConferenceMix
