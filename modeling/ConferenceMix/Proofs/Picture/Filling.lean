import ConferenceMix.Proofs.Picture.Pixels

/-! # Filling a picture with one colour

Three planes are filled byte by byte, padding included, so every pixel gets the colour. Packed
pixels are filled in groups of four bytes from the start of the plane, whereas the rows start where
the stride says: the two agree in a row exactly when it starts at a whole group
(`Picture.fill_paints_pixel_iff`). `Picture.fill_paints_iff` says when every colour reaches every
pixel: always in three planes, and with packed pixels when there is one row only or the stride is a
multiple of four.

`Picture.ofPlanes_planes` says that every picture is accepted from its planes, so this is about all
pictures that can be made. -/

namespace ConferenceMix

/-! ### Groups of four bytes -/

namespace Plane

theorem getElem?_floodFours {p : Plane} {i : Nat} (h : i / 4 * 4 + 4 ≤ p.bytes.size)
    (b₀ b₁ b₂ b₃ : UInt8) :
    (p.floodFours b₀ b₁ b₂ b₃).bytes[i]? = [b₀, b₁, b₂, b₃][i % 4]? := by
  have hi : i < p.bytes.size := by omega
  have hm : i % 4 = 0 ∨ i % 4 = 1 ∨ i % 4 = 2 ∨ i % 4 = 3 := by omega
  simp only [floodFours, Array.getElem?_mapIdx, Array.getElem?_eq_getElem hi, Option.map_some,
    if_pos h]
  rcases hm with hm | hm | hm | hm <;> rw [hm] <;> rfl

/-- The bytes of a pixel, up to the end of the group in which they start, are filled by their places
in that group. -/
theorem byteAt_floodFours {p : Plane} {x y j : Nat} (h : y * p.stride + 4 * x + 4 ≤ p.bytes.size)
    (hj : y * p.stride % 4 + j < 4) (b₀ b₁ b₂ b₃ : UInt8) :
    (p.floodFours b₀ b₁ b₂ b₃).byteAt (4 * x + j) y =
      [b₀, b₁, b₂, b₃][y * p.stride % 4 + j]? := by
  show (p.floodFours b₀ b₁ b₂ b₃).bytes[y * p.stride + (4 * x + j)]? = _
  have hplace : (y * p.stride + (4 * x + j)) % 4 = y * p.stride % 4 + j := by omega
  rw [getElem?_floodFours (by omega), hplace]

end Plane

/-! ### A colour that shows every gap -/

namespace Rgb

/-- All components at their highest. -/
def white : Rgb := ⟨255, 255, 255⟩

end Rgb

/-- A colour that lacks a component is darker than white. -/
theorem Yuv.ofRgb_ne_white {c : Rgb} (h : c.r = 0 ∨ c.g = 0 ∨ c.b = 0) :
    ofRgb c ≠ ofRgb .white := by
  intro he
  have hy : (ofRgb c).y.toNat = 235 := by
    rw [he]
    decide
  have hr := c.r.toNat_lt
  have hg := c.g.toNat_lt
  have hb := c.b.toNat_lt
  have hz : c.r.toNat = 0 ∨ c.g.toNat = 0 ∨ c.b.toNat = 0 := by
    rcases h with h | h | h
    · exact .inl (by rw [h]; rfl)
    · exact .inr (.inl (by rw [h]; rfl))
    · exact .inr (.inr (by rw [h]; rfl))
  simp only [ofRgb, component, clampByte, UInt8.toNat_ofNat'] at hy
  omega

namespace Picture

variable {p : Picture} {x y : Nat}

/-! ### Single pixels -/

/-- The colour of a packed pixel comes from its first three bytes. -/
theorem colourAt_packed {pixels : Plane} (hr : p.raster = .rgb32 pixels)
    (hc : p.size.Contains x y) {c : Yuv} :
    p.colourAt x y = some c ↔ ∃ b g r, pixels.byteAt (4 * x) y = some b ∧
      pixels.byteAt (4 * x + 1) y = some g ∧ pixels.byteAt (4 * x + 2) y = some r ∧
      Yuv.ofRgb ⟨r, g, b⟩ = c := by
  have hfit := p.fits
  rw [hr] at hfit
  have hlast : (pixels.byteAt (4 * x + 3) y).isSome :=
    Plane.isSome_byteAt hfit (by have := hc.1; simp only [PixelFormat.packedPlane]; omega) hc.2
  obtain ⟨a, ha⟩ := Option.isSome_iff_exists.mp hlast
  unfold colourAt
  rw [if_pos hc, hr]
  simp [ha, Option.bind_eq_some_iff]

/-- The bytes of a pixel lie in the plane. -/
theorem packed_index_le {pixels : Plane} (hr : p.raster = .rgb32 pixels)
    (hc : p.size.Contains x y) : y * pixels.stride + 4 * x + 4 ≤ pixels.bytes.size := by
  have hfit := p.fits
  rw [hr] at hfit
  have hlast := Plane.index_lt (x := 4 * x + 3) (y := y) hfit
    (by have := hc.1; simp only [PixelFormat.packedPlane]; omega) hc.2
  omega

/-- Every colour reaches a packed pixel exactly when its row starts at a whole group of four bytes.
-/
theorem fill_paints_pixel_iff {pixels : Plane} (hr : p.raster = .rgb32 pixels)
    (hc : p.size.Contains x y) :
    (∀ c, (p.fill c).colourAt x y = some (Yuv.ofRgb c)) ↔ y * pixels.stride % 4 = 0 := by
  have hle := packed_index_le hr hc
  have hfill : ∀ c, (p.fill c).raster = .rgb32 (pixels.floodFours c.b c.g c.r 0) := by
    intro c
    show p.raster.fill c = _
    rw [hr]
    rfl
  constructor
  · intro h
    obtain ⟨b, g, r, hb, hg, hred, hcolour⟩ := (colourAt_packed (hfill .white) hc).mp (h .white)
    have hm : y * pixels.stride % 4 = 0 ∨ y * pixels.stride % 4 = 1 ∨
        y * pixels.stride % 4 = 2 ∨ y * pixels.stride % 4 = 3 := by omega
    rcases hm with hm | hm | hm | hm
    · exact hm
    -- otherwise the unused byte of a group falls on one of the components
    · rw [Plane.byteAt_floodFours hle (by omega), hm] at hred
      exact absurd hcolour (Yuv.ofRgb_ne_white (.inl (Option.some.inj hred).symm))
    · rw [Plane.byteAt_floodFours hle (by omega), hm] at hg
      exact absurd hcolour (Yuv.ofRgb_ne_white (.inr (.inl (Option.some.inj hg).symm)))
    · rw [← Nat.add_zero (4 * x), Plane.byteAt_floodFours hle (by omega), hm] at hb
      exact absurd hcolour (Yuv.ofRgb_ne_white (.inr (.inr (Option.some.inj hb).symm)))
  · intro h c
    have hplace : ∀ j, j < 4 → (pixels.floodFours c.b c.g c.r 0).byteAt (4 * x + j) y =
        [c.b, c.g, c.r, 0][j]? := by
      intro j hj
      rw [Plane.byteAt_floodFours hle (by omega), h, Nat.zero_add]
    exact (colourAt_packed (hfill c) hc).mpr ⟨c.b, c.g, c.r, hplace 0 (by decide),
      hplace 1 (by decide), hplace 2 (by decide), rfl⟩

/-- Every colour reaches every pixel in three planes. -/
theorem fill_paints_planar (hf : p.format = .yuv420p) (hc : p.size.Contains x y) (c : Rgb) :
    (p.fill c).colourAt x y = some (Yuv.ofRgb c) := by
  have hx := hc.1
  have hy := hc.2
  refine (colourAt_planar (p.format_fill c |>.trans hf) hc).mpr ⟨lumaAt_fill hf hc c, ?_⟩
  exact chromaAt_fill hf (by simp only [PixelFormat.halfPlane]; omega)
    (by simp only [PixelFormat.halfPlane]; omega) c

/-! ### Whole pictures -/

/-- Every picture is accepted from its planes. -/
theorem ofPlanes_planes (p : Picture) : ofPlanes p.format p.size p.planes = .ok p := by
  obtain ⟨size, raster, hne, hfit⟩ := p
  unfold ofPlanes
  rw [dif_neg hne]
  cases raster with
  | yuv420p luma blue red =>
      have h₀ := (Plane.misuse?_eq_none_iff luma 0 _).mpr hfit.1
      have h₁ := (Plane.misuse?_eq_none_iff blue 1 _).mpr hfit.2.1
      have h₂ := (Plane.misuse?_eq_none_iff red 2 _).mpr hfit.2.2
      dsimp only [format, planes, Raster.format, Raster.planes]
      split
      · rename_i h
        rw [h₀] at h
        cases h
      · rename_i h
        rw [h₁] at h
        cases h
      · rename_i h
        rw [h₂] at h
        cases h
      · rfl
  | rgb32 pixels =>
      have h₀ := (Plane.misuse?_eq_none_iff pixels 0 _).mpr hfit
      dsimp only [format, planes, Raster.format, Raster.planes]
      split
      · rename_i h
        rw [h₀] at h
        cases h
      · rfl

/-- Rows of packed pixels start at whole groups of four bytes, as far as there is more than one. -/
def Aligned (p : Picture) : Prop :=
  p.format = .yuv420p ∨ p.size.height = 1 ∨ ∀ q ∈ p.planes, q.stride % 4 = 0

instance (p : Picture) : Decidable p.Aligned := inferInstanceAs (Decidable (_ ∨ _ ∨ _))

theorem fill_paints_of_aligned (h : p.Aligned) (hc : p.size.Contains x y) (c : Rgb) :
    (p.fill c).colourAt x y = some (Yuv.ofRgb c) := by
  cases hr : p.raster with
  | yuv420p luma blue red => exact fill_paints_planar (by rw [format, hr]; rfl) hc c
  | rgb32 pixels =>
      refine (fill_paints_pixel_iff hr hc).mpr ?_ c
      rcases h with hf | hone | hstride
      · rw [format, hr] at hf
        cases hf
      · have hy : y = 0 := by have := hc.2; omega
        rw [hy, Nat.zero_mul]
      · have hs := hstride pixels (by rw [planes, hr]; exact List.mem_singleton_self _)
        rw [Nat.mul_mod, hs, Nat.mul_zero, Nat.zero_mod]

/-- A white fill already shows whether the rows are aligned. -/
theorem aligned_of_fill_paints (h : ∀ (c : Rgb) (x y : Nat), p.size.Contains x y →
    (p.fill c).colourAt x y = some (Yuv.ofRgb c)) : p.Aligned := by
  obtain ⟨hw, hh⟩ := (Size.not_empty_iff p.size).mp p.nonempty
  cases hr : p.raster with
  | yuv420p luma blue red => exact .inl (by rw [format, hr]; rfl)
  | rgb32 pixels =>
      by_cases hone : p.size.height = 1
      · exact .inr (.inl hone)
      · -- the first pixel of the second row
        have hc : p.size.Contains 0 1 := ⟨hw, by omega⟩
        have hrow := (fill_paints_pixel_iff hr hc).mp fun c => h c 0 1 hc
        refine .inr (.inr fun q hq => ?_)
        rw [planes, hr] at hq
        rw [List.mem_singleton.mp hq]
        omega

/-- **When filling paints the whole picture.** Every picture is accepted from its planes, and every
colour reaches all its pixels exactly when its planes are three, or it has one row only, or the rows
of its packed pixels start a multiple of four bytes apart. -/
theorem fill_paints_iff (p : Picture) :
    ofPlanes p.format p.size p.planes = .ok p ∧
    ((∀ (c : Rgb) (x y : Nat), p.size.Contains x y →
      (p.fill c).colourAt x y = some (Yuv.ofRgb c)) ↔ p.Aligned) :=
  ⟨ofPlanes_planes p, aligned_of_fill_paints, fun h c _ _ hc => fill_paints_of_aligned h hc c⟩

/-- Two packed pixels above each other, in rows that start five bytes apart. -/
def oblique : Picture :=
  { size := ⟨1, 2⟩
    raster := .rgb32 ⟨5, Array.replicate 9 0⟩
    nonempty := by decide
    fits := by unfold Raster.Fits; decide }

/-- Filling does not paint every accepted picture: a white fill leaves the lower pixel without
red. -/
theorem fill_misses_pixel :
    ¬ ∀ (format : PixelFormat) (size : Size) (planes : List Plane) (p : Picture),
      ofPlanes format size planes = .ok p → ∀ (c : Rgb) (x y : Nat), p.size.Contains x y →
        (p.fill c).colourAt x y = some (Yuv.ofRgb c) := by
  intro h
  have hlower := h .rgb32 ⟨1, 2⟩ [⟨5, Array.replicate 9 0⟩] oblique (ofPlanes_planes oblique) .white
    0 1 (by decide)
  revert hlower
  decide +kernel

end Picture

end ConferenceMix
