import ConferenceMix.Proofs.Picture.Pixels
import ConferenceMix.Proofs.VideoWall.Tiles
import Mathlib.Data.List.Pairwise

/-! # Every pixel of the composite shows the right source

On an arranged wall at most one of the overlaid brushes has a byte for the luma of a pixel, the one
of the tile that the pixel lies in. So a round leaves a composite that `Layout.Depicts` the latest
pictures: each in the tile of its source, scaled by nearest pixels, and black everywhere else.
`VideoWall.run_depicts` says so for what every source is shown in every round of every run. -/

namespace ConferenceMix

namespace Layout

/-- The pixel `(x, y)` lies in the tile of a source that has a picture. -/
def Covers (l : Layout) (latest : SourceId → Option Picture) (x y : Nat) : Prop :=
  ∃ id tile, l.tile? id = some tile ∧ (latest id).isSome ∧ tile.Contains x y

/-- A picture in three planes shows, in the tile of every source that has a picture, that picture
scaled by nearest pixels, if the products that the tiles begin with have 32 bits; all other pixels have
the luma of black, and all blocks without a pixel in such a tile the chroma of black. -/
structure Depicts (l : Layout) (latest : SourceId → Option Picture) (p : Picture) : Prop where
  shown : p.size.Divides l.rows →
    ∀ {id tile source}, l.tile? id = some tile → latest id = some source →
    ∀ {x y}, tile.Contains x y → p.size.Contains x y ∧
      ∃ c, source.colourAt ((x - tile.x) * source.size.width / tile.width)
          ((y - tile.y) * source.size.height / tile.height) = some c ∧
        p.lumaAt x y = some c.y
  gap : ∀ {x y}, p.size.Contains x y → ¬ l.Covers latest x y → p.lumaAt x y = some 16
  block : ∀ {x y}, x < (PixelFormat.halfPlane p.size).rowBytes →
    y < (PixelFormat.halfPlane p.size).rows →
    (∀ px py, p.size.Contains px py → px / 2 = x → py / 2 = y → ¬ l.Covers latest px py) →
      p.chromaAt x y = some (128, 128)

end Layout

namespace Wall

variable {f : Floor Wall Screen}

/-! ### Reading an overlay -/

/-- An overlay has the byte of the last brush that has one. -/
theorem read_overlay (read : Brush → Option UInt8) (hclear : read .clear = none)
    (hatop : ∀ a b, read (a.atop b) = (read a).or (read b)) (w : Wall)
    (seated : List (SourceId × Screen)) :
    read (w.overlay seated) = (w.hung seated).reverse.findSome? fun z =>
      read (tileBrush w.settings.size (z.1.2, z.2)) := by
  have h : ∀ (zs : List ((SourceId × Screen) × Rect)) (b : Brush),
      read (zs.foldl (fun b z => (tileBrush w.settings.size (z.1.2, z.2)).atop b) b) =
        (zs.reverse.findSome? fun z => read (tileBrush w.settings.size (z.1.2, z.2))).or
          (read b) := by
    intro zs
    induction zs with
    | nil => exact fun _ => rfl
    | cons z zs ih =>
        intro b
        rw [List.foldl_cons, ih, hatop, List.reverse_cons, List.findSome?_append,
          List.findSome?_singleton, Option.or_assoc]
  unfold overlay
  rw [framed_eq_map_hung, List.foldl_map, h, hclear, Option.or_none]

/-- Where no other brush has a byte, an overlay has that of the one. -/
theorem read_overlay_of_alone (read : Brush → Option UInt8) (hclear : read .clear = none)
    (hatop : ∀ a b, read (a.atop b) = (read a).or (read b)) {w : Wall}
    {seated : List (SourceId × Screen)} {z : (SourceId × Screen) × Rect} (hz : z ∈ w.hung seated)
    (ho : ∀ u ∈ w.hung seated, u ≠ z → read (tileBrush w.settings.size (u.1.2, u.2)) = none) :
    read (w.overlay seated) = read (tileBrush w.settings.size (z.1.2, z.2)) := by
  rw [read_overlay read hclear hatop]
  cases hf : (w.hung seated).reverse.findSome? fun z =>
      read (tileBrush w.settings.size (z.1.2, z.2)) with
  | none => exact (List.findSome?_eq_none_iff.mp hf z (List.mem_reverse.mpr hz)).symm
  | some byte =>
      obtain ⟨u, hu, hbyte⟩ := List.exists_of_findSome?_eq_some hf
      by_cases he : u = z
      · rw [← he, hbyte]
      · rw [ho u (List.mem_reverse.mp hu) he] at hbyte
        cases hbyte

/-- Where no brush has a byte, an overlay has none. -/
theorem read_overlay_eq_none (read : Brush → Option UInt8) (hclear : read .clear = none)
    (hatop : ∀ a b, read (a.atop b) = (read a).or (read b)) {w : Wall}
    {seated : List (SourceId × Screen)}
    (ho : ∀ u ∈ w.hung seated, read (tileBrush w.settings.size (u.1.2, u.2)) = none) :
    read (w.overlay seated) = none := by
  rw [read_overlay read hclear hatop]
  exact List.findSome?_eq_none_iff.mpr fun u hu => ho u (List.mem_reverse.mp hu)

/-! ### Brushes of tiles within the picture -/

theorem luma_tileBrush_eq_none {s : Size} {screen : Screen} {r : Rect} (h : s.Encloses r)
    {x y : Nat} (hno : screen.latest.isSome → ¬ r.Contains x y) :
    (tileBrush s (screen, r)).luma x y = none := by
  cases hl : screen.latest with
  | none => simp only [tileBrush, hl, Brush.clear]
  | some source =>
      simp only [tileBrush, hl, Rect.luma_brush h]
      exact (r.lumaSample_eq_none_iff source x y).mpr (hno (by rw [hl]; rfl))

theorem tileBrush_leaves_block {s : Size} {screen : Screen} {r : Rect} (h : s.Encloses r)
    {x y : Nat} (hno : screen.latest.isSome →
      ∀ px py, px / 2 = x → py / 2 = y → ¬ r.Contains px py) :
    (tileBrush s (screen, r)).blue x y = none ∧ (tileBrush s (screen, r)).red x y = none := by
  cases hl : screen.latest with
  | none => simp only [tileBrush, hl, Brush.clear, and_self]
  | some source =>
      simp only [tileBrush, hl]
      exact Rect.brush_leaves_block h (hno (by rw [hl]; rfl)) source

/-! ### Tiles and sources -/

theorem mem_tiles_of_tile? {w : Wall} {seated : List (SourceId × Screen)} {id : SourceId}
    {tile : Rect} (h : (w.layout seated).tile? id = some tile) : (id, tile) ∈ w.tiles seated := by
  obtain ⟨t, hf, rfl⟩ := Option.map_eq_some_iff.mp h
  have hid : t.1 = id := by simpa using List.find?_some hf
  rw [← hid]
  exact List.mem_of_find?_eq_some hf

theorem mem_hung_of_mem_tiles {w : Wall} {seated : List (SourceId × Screen)}
    {t : SourceId × Rect} (h : t ∈ w.tiles seated) :
    ∃ z ∈ w.hung seated, z.1.1 = t.1 ∧ z.2 = t.2 := by
  rw [tiles_eq_map_hung] at h
  obtain ⟨z, hz, rfl⟩ := List.mem_map.mp h
  exact ⟨z, hz, rfl, rfl⟩

theorem covers_of_mem_hung {w : Wall} {seated : List (SourceId × Screen)}
    (hn : (seated.map Prod.fst).Nodup) {latest : SourceId → Option Picture}
    (hl : ∀ m ∈ seated, m.2.latest = latest m.1) {z : (SourceId × Screen) × Rect}
    (hz : z ∈ w.hung seated) (hsome : z.1.2.latest.isSome) {x y : Nat} (hc : z.2.Contains x y) :
    (w.layout seated).Covers latest x y := by
  refine ⟨z.1.1, z.2, tile?_of_mem_hung hn hz, ?_, hc⟩
  rw [← hl z.1 (mem_seated_of_mem_hung hz)]
  exact hsome

theorem Arranged.hung_fit (h : Arranged f) {z : (SourceId × Screen) × Rect}
    (hz : z ∈ f.room.hung f.seated) : f.room.settings.size.Encloses z.2 :=
  h.tiles_fit (mem_tiles_of_mem_hung hz)

theorem Arranged.hung_apart (h : Arranged f) (hd : f.room.settings.size.Divides f.room.rows)
    {z u : (SourceId × Screen) × Rect} (hz : z ∈ f.room.hung f.seated)
    (hu : u ∈ f.room.hung f.seated) (hne : u ≠ z) : u.2.Apart z.2 := by
  have hp := h.tiles_apart hd
  rw [tiles_eq_map_hung] at hp
  have hp := List.pairwise_map.mp hp
  have : Std.Symm fun a b : (SourceId × Screen) × Rect => a.2.Apart b.2 := ⟨fun _ _ => .symm⟩
  exact hp.forall hu hz hne

/-! ### What the composite shows -/

/-- In a tile, the overlay has the luma of the latest picture of its source alone. -/
theorem Arranged.luma_overlay (h : Arranged f) (hd : f.room.settings.size.Divides f.room.rows)
    {z : (SourceId × Screen) × Rect} (hz : z ∈ f.room.hung f.seated) {x y : Nat}
    (hc : z.2.Contains x y) :
    (f.room.overlay f.seated).luma x y =
      z.1.2.latest.bind fun source => z.2.lumaSample source x y := by
  have halone := read_overlay_of_alone (fun b => b.luma x y) rfl (fun _ _ => rfl) hz
    fun u hu hne => luma_tileBrush_eq_none (h.hung_fit hu) fun _ hcu =>
      h.hung_apart hd hz hu hne x y hcu hc
  rw [halone, tileBrush]
  cases hl : z.1.2.latest with
  | none => rfl
  | some source => simp only [Rect.luma_brush (h.hung_fit hz), Option.bind_some]

/-- What is drawn on black on an arranged wall. -/
theorem Arranged.depicts (h : Arranged f) (hn : f.ids.Nodup) {latest : SourceId → Option Picture}
    (hl : ∀ m ∈ f.seated, m.2.latest = latest m.1) {black : Picture}
    (hsize : black.size = f.room.settings.size) (hformat : black.format = .yuv420p)
    (hfill : black.fill .black = black) :
    (f.room.layout f.seated).Depicts latest (black.daub (f.room.overlay f.seated)) where
  shown := by
    intro hd id tile source htile hsource x y hc
    rw [Picture.size_daub, hsize] at hd
    obtain ⟨z, hz, rfl, rfl⟩ := mem_hung_of_mem_tiles (mem_tiles_of_tile? htile)
    have hlatest : z.1.2.latest = some source :=
      (hl z.1 (mem_seated_of_mem_hung hz)).trans hsource
    have hin : black.size.Contains x y := by
      rw [hsize]
      exact Rect.contains_of_encloses (h.hung_fit hz) hc
    refine ⟨hin, ?_⟩
    obtain ⟨c, hcolour, hsample⟩ := Rect.lumaSample_of_contains hc source
    refine ⟨c, hcolour, ?_⟩
    have hluma : (f.room.overlay f.seated).luma x y = some c.y := by
      rw [h.luma_overlay hd hz hc, hlatest]
      exact hsample
    rw [Picture.lumaAt_daub _ hin, hluma, ← hfill, Picture.lumaAt_fill hformat hin]
    rfl
  gap := by
    intro x y hin hno
    rw [Picture.size_daub] at hin
    have hluma : (f.room.overlay f.seated).luma x y = none := by
      refine read_overlay_eq_none (fun b => b.luma x y) rfl (fun _ _ => rfl) ?_
      intro u hu
      exact luma_tileBrush_eq_none (h.hung_fit hu) fun hsome hc =>
        hno (covers_of_mem_hung hn hl hu hsome hc)
    rw [Picture.lumaAt_daub _ hin, hluma, ← hfill, Picture.lumaAt_fill hformat hin,
      Yuv.ofRgb_black]
    rfl
  block := by
    intro x y hx hy hno
    simp only [Picture.size_daub] at hx hy hno
    have hleaves : ∀ u ∈ f.room.hung f.seated,
        (tileBrush f.room.settings.size (u.1.2, u.2)).blue x y = none ∧
          (tileBrush f.room.settings.size (u.1.2, u.2)).red x y = none := by
      intro u hu
      refine tileBrush_leaves_block (h.hung_fit hu) fun hsome px py hpx hpy hc => ?_
      have hin : black.size.Contains px py := by
        rw [hsize]
        exact Rect.contains_of_encloses (h.hung_fit hu) hc
      exact hno px py hin hpx hpy (covers_of_mem_hung hn hl hu hsome hc)
    have hblue : (f.room.overlay f.seated).blue x y = none :=
      read_overlay_eq_none (fun b => b.blue x y) rfl (fun _ _ => rfl) fun u hu => (hleaves u hu).1
    have hred : (f.room.overlay f.seated).red x y = none :=
      read_overlay_eq_none (fun b => b.red x y) rfl (fun _ _ => rfl) fun u hu => (hleaves u hu).2
    rw [Picture.chromaAt_daub _ hx, hblue, hred, ← hfill, Picture.chromaAt_fill hformat hx hy,
      Yuv.ofRgb_black]
    rfl

end Wall

namespace VideoWall

/-- **Every pixel of the composite shows the right source.** A wall with accepted settings can be
made. In every round of every run, every source is shown a picture of the size that was set, in
three planes: a pixel in the tile of a source has the luma of the pixel of its latest picture at the
same share of the way if the products that the tiles begin with have 32 bits, all other pixels have the
luma of black, and a block of two by two pixels none of which shows a source has the chroma of
black. -/
theorem run_depicts {s : VideoSettings} (h : s.Accepted) :
    ∃ v : VideoWall, VideoWall.create s .scaling = .ok v ∧
      ∀ as : List (Action View VideoRequest), Mixer.Logs (v.run as).2 (v.history as) ∧
        ∀ t ∈ v.history as, t.log.offers.map Offer.source = t.sources ∧
          ∀ o ∈ t.log.offers, o.payload.picture.size = s.size ∧
            o.payload.picture.format = .yuv420p ∧
            (VideoWall.layout t.mixer).Depicts (lastPut t.asked) o.payload.picture := by
  obtain ⟨black, hblack, hsize, hformat, hfill⟩ := filled_black h
  refine ⟨_, create_of_accepted h hblack _, ?_⟩
  intro as
  refine ⟨Mixer.log_run _ as, ?_⟩
  intro t ht
  obtain ⟨before, after, hs⟩ := List.append_of_mem ht
  obtain ⟨hk, hkempt⟩ := (Wall.kempt_kept hsize hformat).history
    (Wall.kempt_create hfill) (fun _ _ => trivial) hs
  obtain ⟨_, harranged⟩ := Wall.arranged_kept.history
    (Wall.arranged_create s black .scaling) (fun _ _ => trivial) hs
  refine ⟨(t.mixer.offers_round t.timeline).1, ?_⟩
  intro o ho
  obtain ⟨_, hview⟩ := Mixer.offer_of_payloads (Wall.payloads_yield t) ho
  have hpicture : o.payload.picture =
      black.daub (t.mixer.floor.room.overlay t.mixer.floor.seated) := by
    rw [hview]
    exact hkempt.composite_mix hsize hformat t.stamp
  rw [hpicture]
  refine ⟨hsize, by rw [Picture.format_daub, hformat], ?_⟩
  exact harranged.depicts hk.numbered.nodup hkempt.latest
    (hsize.trans (congrArg VideoSettings.size hkempt.settings.symm)) hformat hfill

/-- The first of three sources shows a picture. -/
def oneOfThree : List (Action View VideoRequest) :=
  [.join .discard, .join .discard, .join .discard, .ask (.put .first (greyDot 50)),
    .advance (.ofMillis 40)]

theorem run_depicts_oneOfThree :
    ∃ v : VideoWall, VideoWall.create ⟨⟨5, 5⟩, 25, 4⟩ .scaling = .ok v ∧
      ∃ t, (v.history oneOfThree)[1]? = some t ∧ t.sources.length = 3 ∧
        ∀ o ∈ t.log.offers, o.payload.picture.size = ⟨5, 5⟩ ∧
          o.payload.picture.lumaAt 1 1 = some 50 := by
  have ha : VideoSettings.Accepted ⟨⟨5, 5⟩, 25, 4⟩ := by decide
  obtain ⟨v, hv, hrun⟩ := run_depicts ha
  have hany : (v.history oneOfThree)[1]?.any (fun t => decide (t.sources.length = 3 ∧
      Size.Divides ⟨5, 5⟩ (VideoWall.layout t.mixer).rows ∧
      (VideoWall.layout t.mixer).tile? .first = some ⟨0, 0, 2, 2⟩ ∧
      lastPut t.asked .first = some (greyDot 50))) = true := by
    cases hv
    decide +kernel
  obtain ⟨t, ht, hdecide⟩ := (Option.any_eq_true _ _).mp hany
  obtain ⟨hlength, hdivides, htile, hput⟩ := of_decide_eq_true hdecide
  refine ⟨v, hv, t, ht, hlength, ?_⟩
  intro o ho
  obtain ⟨hsize, _, hdepicts⟩ := ((hrun oneOfThree).2 t (List.mem_of_getElem? ht)).2 o ho
  obtain ⟨_, c, hcolour, hluma⟩ := hdepicts.shown (by rw [hsize]; exact hdivides) htile hput
    (show Rect.Contains _ 1 1 by decide)
  have hdot : (greyDot 50).colourAt 0 0 = some ⟨50, 128, 128⟩ := by decide +kernel
  have hc : c = ⟨50, 128, 128⟩ := Option.some.inj (hcolour.symm.trans hdot)
  rw [hluma, hc]
  exact ⟨hsize, rfl⟩

end VideoWall

end ConferenceMix
