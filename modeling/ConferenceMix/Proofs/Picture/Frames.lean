import ConferenceMix.Picture.Frame
import ConferenceMix.Proofs.Picture.Places
import ConferenceMix.Proofs.Picture.Rendering

/-! # Pictures as frames

A picture whose planes are kept in memory is a frame that no call breaks off on: its planes have fewer
bytes than 64 bits can count (`Picture.InMemory`), and so every index is the one that it should be.
Frames are made from given planes as pictures are when 64 bits are enough for the bytes that are
needed (`Frame.ofPlanes_eq`), and blank frames as blank pictures when their planes can be made
(`Frame.filled?_eq`). A pixel of the frame has the colour that it has in the picture
(`Picture.colourAt?_frame`).

Drawing byte by byte is painting all places at once (`Plane.draw?_eq_paint`), from which it follows that
scaling frames is scaling pictures (`Picture.scale?_frame`). -/

namespace ConferenceMix

/-! ### Single bytes -/

namespace Plane

variable {p : Plane} {s : PlaneShape} {x y : Nat}

theorem get?_eq_byteAt (h : p.Holds s) (hm : p.bytes.size < wordCount) (hx : x < s.rowBytes)
    (hy : y < s.rows) : p.get? x y = p.byteAt x y := by
  have hlt := index_lt h hx hy
  rw [get?, word_of_lt (by omega), byteAt]

/-- The four bytes of a pixel of a picture. -/
theorem pixel?_eq (h : p.Holds s) (hm : p.bytes.size < wordCount) (hx : 4 * x < s.rowBytes)
    (hy : y < s.rows) : p.pixel? x y = (do
      let b ← p.byteAt (4 * x) y
      let g ← p.byteAt (4 * x + 1) y
      let r ← p.byteAt (4 * x + 2) y
      let _ ← p.byteAt (4 * x + 3) y
      return ⟨r, g, b⟩) := by
  have hlt := index_lt h hx hy
  rw [pixel?, word_of_lt (by omega)]
  rfl

/-- Replacing a byte is painting its place. -/
theorem set?_eq_paint (hm : p.bytes.size < wordCount) (hx : x < p.stride)
    (hi : y * p.stride + x < p.bytes.size) (b : UInt8) :
    p.set? x y b = some (p.paint fun x' y' => if x' = x ∧ y' = y then some b else none) := by
  have hbytes : p.bytes.setIfInBounds (y * p.stride + x) b =
      (p.paint fun x' y' => if x' = x ∧ y' = y then some b else none).bytes := by
    apply Array.ext_getElem?
    intro i
    rw [getElem?_paint, Array.getElem?_setIfInBounds]
    by_cases he : y * p.stride + x = i
    · have hlt : i < p.bytes.size := he ▸ hi
      rw [if_pos he, if_pos hi, if_pos ((index_eq_iff hx).mp he), Array.getElem?_eq_getElem hlt]
      rfl
    · rw [if_neg he, if_neg fun hplace => he ((index_eq_iff hx).mpr hplace)]
      exact Option.map_id'.symm
  simp only [set?, word_of_lt (Nat.lt_trans hi hm), if_pos hi, hbytes]
  rfl

/-- Replacing the bytes at some places one after another is painting all of them. -/
theorem draw?_eq_paint {f : Nat → Nat → Option UInt8} {places : List (Nat × Nat)}
    (hm : p.bytes.size < wordCount)
    (hin : ∀ x y, (x, y) ∈ places → x < p.stride ∧ y * p.stride + x < p.bytes.size ∧
      (f x y).isSome) :
    p.draw? f places = some (p.paint fun x y => if (x, y) ∈ places then f x y else none) := by
  unfold draw?
  induction places generalizing p with
  | nil => simp [paint_none]
  | cons place places ih =>
      obtain ⟨x, y⟩ := place
      obtain ⟨hx, hi, hsome⟩ := hin x y (List.mem_cons_self ..)
      obtain ⟨b, hb⟩ := Option.isSome_iff_exists.mp hsome
      rw [List.foldlM_cons, hb, Option.bind_some, set?_eq_paint hm hx hi]
      refine (ih ?_ ?_).trans ?_
      · rwa [size_paint]
      · intro x' y' hmem
        rw [size_paint]
        exact hin x' y' (List.mem_cons_of_mem _ hmem)
      · rw [paint_paint]
        congr
        funext x' y'
        by_cases hmem : (x', y') ∈ places
        · obtain ⟨c, hc⟩ := Option.isSome_iff_exists.mp (hin x' y' (List.mem_cons_of_mem _ hmem)).2.2
          rw [if_pos hmem, if_pos (List.mem_cons_of_mem _ hmem), hc]
          rfl
        · rw [if_neg hmem, Option.none_or]
          by_cases hplace : x' = x ∧ y' = y
          · obtain ⟨rfl, rfl⟩ := hplace
            rw [if_pos ⟨rfl, rfl⟩, if_pos (List.mem_cons_self ..), hb]
          · rw [if_neg hplace, if_neg]
            intro h
            rcases List.mem_cons.mp h with he | h
            · exact hplace ⟨congrArg Prod.fst he, congrArg Prod.snd he⟩
            · exact hmem h

/-- When 64 bits are enough for the bytes that are needed, a plane is examined as it should be. -/
theorem refusal?_eq (h : s.span p.stride < wordCount) (i : Nat) : p.refusal? i s = p.misuse? i s := by
  rw [refusal?, PlaneShape.need, word_of_lt h]
  rfl

theorem alloc?_eq (h : s.area ≤ longestArray) : alloc? s = some (blank s) := by
  have hlt : s.area < wordCount := Nat.lt_of_le_of_lt h (by decide)
  rw [alloc?, word_of_lt hlt, if_pos h, blank, tabulate]
  congr
  apply Array.ext
  · simp
  · intro i _ _
    simp

end Plane

theorem Rect.mem_places {r : Rect} {x y : Nat} : (x, y) ∈ r.places ↔ r.Contains x y := by
  simp only [places, List.mem_flatMap, List.mem_map, List.mem_range'_1, Prod.mk.injEq]
  constructor
  · rintro ⟨y, hy, x, hx, rfl, rfl⟩
    simp only [Contains]
    omega
  · rintro ⟨hx, hy, hw, hh⟩
    exact ⟨y, by omega, x, by omega, rfl, rfl⟩

/-! ### Making frames -/

namespace PixelFormat

/-- The bytes that the planes need can be counted with 64 bits. -/
def Counts (f : PixelFormat) (size : Size) (planes : List Plane) : Prop :=
  ∀ z ∈ planes.zip (f.shapes size), z.2.span z.1.stride < wordCount

instance (f : PixelFormat) (size : Size) (planes : List Plane) :
    Decidable (f.Counts size planes) := inferInstanceAs (Decidable (∀ z ∈ _, _))

/-- Planes without padding can be made. -/
def Allocates (f : PixelFormat) (size : Size) : Prop := ∀ s ∈ f.shapes size, s.area ≤ longestArray

instance (f : PixelFormat) (size : Size) : Decidable (f.Allocates size) :=
  inferInstanceAs (Decidable (∀ s ∈ _, _))

end PixelFormat

namespace Frame

/-- Frames are made from planes as pictures are. -/
theorem ofPlanes_eq {format : PixelFormat} {size : Size} {planes : List Plane}
    (h : format.Counts size planes) :
    ofPlanes format size planes = (Picture.ofPlanes format size planes).map Picture.frame := by
  unfold ofPlanes Picture.ofPlanes
  by_cases he : size.Empty
  · rw [if_pos he, dif_pos he]
    rfl
  · rw [if_neg he, dif_neg he]
    match format, planes with
    | .yuv420p, [luma, blue, red] =>
        simp only [PixelFormat.Counts, PixelFormat.shapes, List.zip_cons_cons, List.forall_mem_cons]
          at h
        have h₀ := Plane.refusal?_eq h.1 0
        have h₁ := Plane.refusal?_eq h.2.1 1
        have h₂ := Plane.refusal?_eq h.2.2.1 2
        symm
        dsimp only
        split
        · rename_i hm₀
          rw [h₀.trans hm₀]
          rfl
        · rename_i hm₀ hm₁
          rw [h₀.trans hm₀, h₁.trans hm₁]
          rfl
        · rename_i hm₀ hm₁ hm₂
          rw [h₀.trans hm₀, h₁.trans hm₁, h₂.trans hm₂]
          rfl
        · rename_i hm₀ hm₁ hm₂
          rw [h₀.trans hm₀, h₁.trans hm₁, h₂.trans hm₂]
          rfl
    | .rgb32, [pixels] =>
        simp only [PixelFormat.Counts, PixelFormat.shapes, List.zip_cons_cons, List.forall_mem_cons]
          at h
        have h₀ := Plane.refusal?_eq h.1 0
        symm
        dsimp only
        split
        · rename_i hm₀
          rw [h₀.trans hm₀]
          rfl
        · rename_i hm₀
          rw [h₀.trans hm₀]
          rfl
    | .yuv420p, [] | .yuv420p, [_] | .yuv420p, [_, _] | .yuv420p, _ :: _ :: _ :: _ :: _ => rfl
    | .rgb32, [] | .rgb32, _ :: _ :: _ => rfl

theorem blank?_eq {format : PixelFormat} {size : Size} (h : format.Allocates size) :
    blank? format size = some ((Picture.blank format size).map Picture.frame) := by
  unfold blank? Picture.blank
  split
  · rfl
  · cases format with
    | yuv420p =>
        simp only [PixelFormat.Allocates, PixelFormat.shapes, List.forall_mem_cons] at h
        rw [Plane.alloc?_eq h.1, Plane.alloc?_eq h.2.1]
        rfl
    | rgb32 =>
        simp only [PixelFormat.Allocates, PixelFormat.shapes, List.forall_mem_cons] at h
        rw [Plane.alloc?_eq h.1]
        rfl

/-- Frames of one colour are made as pictures are. -/
theorem filled?_eq {format : PixelFormat} {size : Size} (h : format.Allocates size) (c : Rgb) :
    filled? format size c = some ((Picture.filled format size c).map Picture.frame) := by
  rw [filled?, blank?_eq h, Picture.filled]
  cases Picture.blank format size <;> rfl

end Frame

/-- Scaling into a frame in three planes. -/
theorem Frame.scale?_planar {target : Frame} {luma blue red : Plane}
    (h : target.raster = .yuv420p luma blue red) (source : Frame) (rect : Rect) :
    source.scale? target rect =
      if (rect.clip target.size).Empty then some (.ok target)
      else ((rect.clip target.size).render? source luma blue red).map
        fun raster => .ok { target with raster } := by
  rw [scale?, h]

namespace Picture

variable {p : Picture} {x y : Nat}

/-- The planes have fewer bytes than 64 bits can count. -/
def InMemory (p : Picture) : Prop := ∀ q ∈ p.planes, q.bytes.size < wordCount

/-! ### Reading -/

/-- A component of the colour of a pixel. -/
theorem sample?_frame (hm : p.InMemory) (hc : p.size.Contains x y) (c : Channel) :
    p.frame.sample? c x y = (p.colourAt x y).map c.of := by
  obtain ⟨w, hw⟩ := Option.isSome_iff_exists.mp ((p.isSome_colourAt_iff x y).mpr hc)
  obtain ⟨hx, hy⟩ := hc
  obtain ⟨size, raster, hne, hfit⟩ := p
  rw [hw]
  dsimp only at hx hy
  rw [colourAt, if_pos ⟨hx, hy⟩] at hw
  cases raster with
  | yuv420p luma blue red =>
      obtain ⟨hluma, hblue, hred⟩ : luma.bytes.size < wordCount ∧ blue.bytes.size < wordCount ∧
          red.bytes.size < wordCount := by
        simpa [InMemory, planes, Raster.planes] using hm
      have hx2 : x / 2 < (PixelFormat.halfPlane size).rowBytes := by
        simp only [PixelFormat.halfPlane]
        omega
      have hy2 : y / 2 < (PixelFormat.halfPlane size).rows := by
        simp only [PixelFormat.halfPlane]
        omega
      simp only [Option.bind_eq_bind, Option.bind_eq_some_iff] at hw
      obtain ⟨l, hl, u, hu, v, hv, hw⟩ := hw
      cases hw
      cases c with
      | luma => exact (Plane.get?_eq_byteAt hfit.1 hluma hx hy).trans hl
      | blue => exact (Plane.get?_eq_byteAt hfit.2.1 hblue hx2 hy2).trans hu
      | red => exact (Plane.get?_eq_byteAt hfit.2.2 hred hx2 hy2).trans hv
  | rgb32 pixels =>
      have hpixels : pixels.bytes.size < wordCount := by
        simpa [InMemory, planes, Raster.planes] using hm
      have hx4 : 4 * x < (PixelFormat.packedPlane size).rowBytes := by
        simp only [PixelFormat.packedPlane]
        omega
      simp only [Option.bind_eq_bind, Option.bind_eq_some_iff] at hw
      obtain ⟨b, hb, g, hg, r, hr, a, ha, hw⟩ := hw
      have hw : Yuv.ofRgb ⟨r, g, b⟩ = w := Option.some.inj hw
      have hpixel : pixels.pixel? x y = some ⟨r, g, b⟩ := by
        rw [Plane.pixel?_eq hfit hpixels hx4 hy, hb, hg, hr, ha]
        rfl
      simp only [frame, Frame.sample?, hpixel, Option.map_some, hw]

/-- A pixel has the same colour in the frame. -/
theorem colourAt?_frame (hm : p.InMemory) (x y : Nat) :
    p.frame.colourAt? x y = some (p.colourAt x y) := by
  unfold Frame.colourAt?
  split
  · rename_i hc
    obtain ⟨c, hcolour⟩ := Option.isSome_iff_exists.mp ((p.isSome_colourAt_iff x y).mpr hc)
    simp only [sample?_frame hm hc, hcolour, Option.map_some]
    rfl
  · rename_i hc
    have hnone : p.colourAt x y = none := if_neg hc
    rw [hnone]

/-! ### Drawing -/

/-- A component of the pixel that stands at an offset in a rectangle. -/
theorem byte?_frame (hm : p.InMemory) (r : Rect) (c : Channel) (dx dy : Nat) :
    r.byte? p.frame c dx dy = (r.sample p dx dy).map c.of := by
  obtain ⟨hw, hh⟩ := (Size.not_empty_iff p.size).mp p.nonempty
  exact sample?_frame hm ⟨scaleIndex_lt hw _ _, scaleIndex_lt hh _ _⟩ c

/-- Drawing the luma of a rectangle byte by byte. -/
theorem draw?_luma (hm : p.InMemory) {r : Rect} {s : Size} (hr : s.Encloses r) {luma : Plane}
    (hl : luma.Holds (PixelFormat.fullPlane s)) (hlm : luma.bytes.size < wordCount) :
    luma.draw? (r.lumaByte? p.frame) r.places = some (luma.paint (r.lumaSample p)) := by
  have hbyte : ∀ x y, r.lumaByte? p.frame x y = (r.sample p (x - r.x) (y - r.y)).map Yuv.y :=
    fun x y => byte?_frame hm r .luma _ _
  rw [Plane.draw?_eq_paint hlm]
  · congr
    funext x y
    simp only [Rect.mem_places, Rect.lumaSample, hbyte]
  · intro x y hmem
    have hc := Rect.contains_of_encloses hr (Rect.mem_places.mp hmem)
    rw [hbyte, Option.isSome_map]
    exact ⟨Nat.lt_of_lt_of_le hc.1 hl.1, Plane.index_lt hl hc.1 hc.2, r.isSome_sample p _ _⟩

/-- Drawing the chroma of a rectangle byte by byte. -/
theorem draw?_chroma (hm : p.InMemory) {r : Rect} {s : Size} (hr : s.Encloses r) (hne : ¬ r.Empty)
    {plane : Plane} (hp : plane.Holds (PixelFormat.halfPlane s))
    (hpm : plane.bytes.size < wordCount) (c : Channel) :
    plane.draw? (r.chromaByte? p.frame c) r.blocks.places =
      some (plane.paint fun x y => (r.chromaSample p x y).map c.of) := by
  have hbyte : ∀ x y, r.chromaByte? p.frame c x y = (r.sample p (min (2 * x - r.x) (r.width - 1))
      (min (2 * y - r.y) (r.height - 1))).map c.of := fun x y => byte?_frame hm r c _ _
  rw [Plane.draw?_eq_paint hpm]
  · congr
    funext x y
    simp only [Rect.mem_places, Rect.chromaSample, hbyte]
    split <;> rfl
  · intro x y hmem
    have hin := Rect.lt_half_of_touches hr (Rect.touches_iff.mpr ⟨hne, Rect.mem_places.mp hmem⟩)
    rw [hbyte, Option.isSome_map]
    exact ⟨Nat.lt_of_lt_of_le hin.1 hp.1, Plane.index_lt hp hin.1 hin.2, r.isSome_sample p _ _⟩

/-- Drawing a picture into a rectangle byte by byte paints the three planes. -/
theorem render?_frame (hm : p.InMemory) {r : Rect} {s : Size} (hr : s.Encloses r) (hne : ¬ r.Empty)
    {luma blue red : Plane} (hfit : (Raster.yuv420p luma blue red).Fits s)
    (hplanes : ∀ q ∈ [luma, blue, red], q.bytes.size < wordCount) :
    r.render? p.frame luma blue red = some (.yuv420p (luma.paint (r.lumaSample p))
      (blue.paint fun x y => (r.chromaSample p x y).map Yuv.u)
      (red.paint fun x y => (r.chromaSample p x y).map Yuv.v)) := by
  have hluma := draw?_luma hm hr hfit.1 (hplanes luma (by simp))
  have hblue := draw?_chroma hm hr hne hfit.2.1 (hplanes blue (by simp)) .blue
  have hred := draw?_chroma hm hr hne hfit.2.2 (hplanes red (by simp)) .red
  rw [Rect.render?, hluma, hblue, hred]
  rfl

/-- Scaling frames is scaling pictures. -/
theorem scale?_frame {source target : Picture} (hs : source.InMemory) (ht : target.InMemory)
    (rect : Rect) : source.frame.scale? target.frame rect =
      some ((Painter.scaling source target rect).map frame) := by
  cases hr : target.raster with
  | rgb32 pixels =>
      have herror := (Painter.scaling_eq_error_iff source target rect _).mpr
        ⟨by rw [format, hr]; rfl, rfl⟩
      rw [herror, Frame.scale?, frame, frame, hr]
      rfl
  | yuv420p luma blue red =>
      have hformat : target.format = .yuv420p := by
        rw [format, hr]
        rfl
      have hplanar : target.frame.raster = .yuv420p luma blue red := hr
      have hdrawn : Painter.scaling source target rect =
          .ok (Painter.scaling.attempt source target rect) :=
        Painter.scaling_eq_ok hformat rect
      rw [hdrawn, Frame.scale?_planar hplanar]
      obtain ⟨hsize, ⟨he, hsame⟩ | ⟨he, hpainted⟩⟩ := Painter.scaling_raster hr hdrawn
      · rw [hsame]
        exact if_pos he
      · have hplanes : ∀ q ∈ [luma, blue, red], q.bytes.size < wordCount := by
          rwa [InMemory, planes, hr] at ht
        have hrender := render?_frame hs (rect.encloses_clip target.size) he (hr ▸ target.fits) hplanes
        refine (if_neg he).trans ?_
        show ((rect.clip target.size).render? source.frame luma blue red).map _ = _
        have hframe : (Painter.scaling.attempt source target rect).frame =
            ⟨target.size, (Painter.scaling.attempt source target rect).raster⟩ := by
          rw [frame, hsize]
        rw [hrender, ← hpainted, Option.map_some, Except.map, hframe]
        rfl

/-! ### Keeping pictures in memory -/

/-- Changes that leave the planes as long as they are leave a picture in memory. -/
theorem Congruent.inMemory {q : Picture} (h : p.Congruent q) (hp : p.InMemory) : q.InMemory := by
  intro plane hplane
  have hextent : (plane.stride, plane.bytes.size) ∈ p.raster.extents :=
    h.extents ▸ List.mem_map_of_mem hplane
  obtain ⟨plane', hplane', he⟩ := List.mem_map.mp hextent
  have hsize : plane'.bytes.size = plane.bytes.size := congrArg Prod.snd he
  exact hsize ▸ hp plane' hplane'

theorem planes_of_blank {format : PixelFormat} {size : Size} (h : blank format size = .ok p) :
    p.planes = (format.shapes size).map Plane.blank := by
  unfold blank at h
  split at h
  · cases h
  · cases format <;> cases h <;> rfl

/-- A blank picture whose planes can be made is kept in memory. -/
theorem inMemory_of_blank {format : PixelFormat} {size : Size} (ha : format.Allocates size)
    (h : blank format size = .ok p) : p.InMemory := by
  intro q hq
  rw [planes_of_blank h] at hq
  obtain ⟨s, hs, rfl⟩ := List.mem_map.mp hq
  rw [Plane.blank, Plane.tabulate, Array.size_ofFn]
  exact Nat.lt_of_le_of_lt (ha s hs) (by decide)

end Picture

/-! ### Sound frames -/

namespace Frame

/-- A frame that is accepted from its planes, with as many bytes as 64 bits can count, those that its
planes need and those that they have. -/
structure Sound (f : Frame) : Prop where
  accepted : ofPlanes f.format f.size f.raster.planes = .ok f
  counts : f.format.Counts f.size f.raster.planes
  inMemory : ∀ q ∈ f.raster.planes, q.bytes.size < wordCount

/-- Pictures that are kept in memory are sound frames. -/
theorem sound_of_inMemory {p : Picture} (h : p.InMemory) : p.frame.Sound := by
  have hcounts : p.format.Counts p.size p.planes := by
    intro z hz
    have hholds := (List.forall₂_iff_zip.mp ((p.raster.fits_iff p.size).mp p.fits)).2 hz
    exact Nat.lt_of_le_of_lt hholds.2 (h z.1 (List.of_mem_zip hz).1)
  refine ⟨?_, hcounts, h⟩
  exact (ofPlanes_eq hcounts).trans (by rw [Picture.ofPlanes_planes]; rfl)

/-- Sound frames are pictures. -/
theorem Sound.exists_picture {f : Frame} (h : f.Sound) :
    ∃ p : Picture, p.InMemory ∧ p.frame = f := by
  have hmade := h.accepted
  rw [ofPlanes_eq h.counts] at hmade
  cases hp : Picture.ofPlanes f.format f.size f.raster.planes with
  | error cause =>
      rw [hp] at hmade
      cases hmade
  | ok p =>
      rw [hp] at hmade
      obtain rfl := Except.ok.inj hmade
      exact ⟨p, h.inMemory, rfl⟩

/-- Frames of one colour are sound. -/
theorem sound_of_filled? {format : PixelFormat} {size : Size} {c : Rgb} {f : Frame}
    (ha : format.Allocates size) (h : filled? format size c = some (.ok f)) : f.Sound := by
  rw [filled?_eq ha, Picture.filled] at h
  cases hb : Picture.blank format size with
  | error cause =>
      rw [hb] at h
      cases h
  | ok p =>
      rw [hb] at h
      cases h
      exact sound_of_inMemory ((p.congruent_fill c).inMemory (Picture.inMemory_of_blank ha hb))

/-- A black pixel beside a white one. -/
def blackAndWhite : Frame := ⟨⟨2, 1⟩, .rgb32 ⟨9, #[0, 0, 0, 0, 255, 255, 255, 0]⟩⟩

theorem sound_blackAndWhite : blackAndWhite.Sound := ⟨rfl, by decide, by decide⟩

/-- Three by three pixels in rows with a byte of padding. -/
def canvas : Frame :=
  ⟨⟨3, 3⟩,
    .yuv420p ⟨4, Array.replicate 11 7⟩ ⟨3, Array.replicate 5 7⟩ ⟨3, Array.replicate 5 7⟩⟩

theorem sound_canvas : canvas.Sound := ⟨rfl, by decide, by decide⟩

/-- One by three pixels with rows so far apart that 64 bits count one byte for all of them. -/
def farRows : Frame :=
  ⟨⟨1, 3⟩, .yuv420p ⟨9223372036854775808, #[0]⟩ ⟨1, #[0, 0]⟩ ⟨1, #[0, 0]⟩⟩

end Frame

end ConferenceMix
