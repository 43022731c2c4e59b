import ConferenceMix.Proofs.VideoWall.Overlay
import ConferenceMix.Proofs.VideoWall.Requests
import Mathlib.Data.List.Basic

/-! # Drawing over is as good as drawing from scratch

The composite of a video wall is drawn over from round to round and made black only when it is
stale. As long as it is not stale, it is black but for places that drawing all tiles reaches again
(`Wall.Kempt`): whatever moves a tile makes it stale, and a new picture reaches all the places of
the one before. `VideoWall.run_redraws` concludes that in every run every source is shown the
picture that `fromScratch` draws on black from the latest pictures and the present layout. -/

namespace ConferenceMix

/-- The latest picture of every source that has one, drawn into the tile of that source, in the
given order. -/
def fromScratch (target : Picture) (ids : List SourceId) (latest : SourceId → Option Picture)
    (l : Layout) : Picture :=
  ids.foldl (fun drawn id =>
    match latest id, l.tile? id with
    | some source, some tile => Painter.scaling.attempt source drawn tile
    | _, _ => drawn) target

namespace Wall

/-! ### The tile of a source -/

/-- The sources with their screens and tiles. -/
def hung (w : Wall) (seated : List (SourceId × Screen)) : List ((SourceId × Screen) × Rect) :=
  seated.zip ((w.tiles seated).map Prod.snd)

theorem map_fst_hung (w : Wall) (seated : List (SourceId × Screen)) :
    (w.hung seated).map Prod.fst = seated := by
  rw [hung, List.map_fst_zip]
  simp [length_tiles]

theorem tiles_eq_map_hung (w : Wall) (seated : List (SourceId × Screen)) :
    w.tiles seated = (w.hung seated).map fun z => (z.1.1, z.2) := by
  calc w.tiles seated
      = ((w.tiles seated).map Prod.fst).zip ((w.tiles seated).map Prod.snd) := by
        rw [List.zip_map']
        exact (List.map_id' _).symm
    _ = (seated.map Prod.fst).zip ((w.tiles seated).map Prod.snd) := by rw [map_fst_tiles]
    _ = (w.hung seated).map fun z => (z.1.1, z.2) := by
        rw [List.zip_map_left]
        rfl

theorem mem_seated_of_mem_hung {w : Wall} {seated : List (SourceId × Screen)}
    {z : (SourceId × Screen) × Rect} (hz : z ∈ w.hung seated) : z.1 ∈ seated := by
  rw [← w.map_fst_hung seated]
  exact List.mem_map_of_mem hz

theorem mem_tiles_of_mem_hung {w : Wall} {seated : List (SourceId × Screen)}
    {z : (SourceId × Screen) × Rect} (hz : z ∈ w.hung seated) : (z.1.1, z.2) ∈ w.tiles seated := by
  rw [tiles_eq_map_hung]
  exact List.mem_map_of_mem hz

theorem framed_eq_map_hung (w : Wall) (seated : List (SourceId × Screen)) :
    w.framed seated = (w.hung seated).map fun z => (z.1.2, z.2) := by
  rw [framed, List.zip_map_left]
  rfl

/-- The layout has the tile of every source under its number. -/
theorem tile?_of_mem_hung {w : Wall} {seated : List (SourceId × Screen)}
    (hn : (seated.map Prod.fst).Nodup) {z : (SourceId × Screen) × Rect}
    (hz : z ∈ w.hung seated) : (w.layout seated).tile? z.1.1 = some z.2 := by
  have hkeys : ((w.tiles seated).map Prod.fst).Nodup := by
    rw [map_fst_tiles]
    exact hn
  have hf := find?_of_nodup_keys hkeys (mem_tiles_of_mem_hung hz)
  simp only [Layout.tile?, layout, hf, Option.map_some]

/-- Drawing the screens of the sources is drawing the latest pictures from scratch. -/
theorem drawAll_eq_fromScratch {w : Wall} {seated : List (SourceId × Screen)}
    (hp : w.painter = .scaling) (hn : (seated.map Prod.fst).Nodup)
    {latest : SourceId → Option Picture} (hl : ∀ m ∈ seated, m.2.latest = latest m.1)
    (target : Picture) :
    w.drawAll seated target =
      fromScratch target (seated.map Prod.fst) latest (w.layout seated) := by
  have hids : seated.map Prod.fst = (w.hung seated).map fun z => z.1.1 :=
    (congrArg (List.map Prod.fst) (w.map_fst_hung seated)).symm.trans List.map_map
  have hframed : (seated.map Prod.snd).zip ((w.tiles seated).map Prod.snd) =
      (w.hung seated).map fun z => (z.1.2, z.2) := w.framed_eq_map_hung seated
  unfold drawAll fromScratch
  rw [hids, hframed, List.foldl_map, List.foldl_map]
  apply List.foldl_ext
  intro drawn z hz
  rw [tile?_of_mem_hung hn hz, ← hl z.1 (mem_seated_of_mem_hung hz), hp]
  unfold drawTile
  cases z.1.2.latest <;> rfl

/-! ### What a run keeps -/

/-- A round of a wall. -/
abbrev WallTick := Tick Wall Screen View VideoRequest

/-- Every source has the latest picture that was put for it. -/
def UpToDate (asked : List (Asked VideoRequest)) (f : Floor Wall Screen) : Prop :=
  ∀ m ∈ f.seated, m.2.latest = lastPut asked m.1

section UpToDate

variable {asked : List (Asked VideoRequest)} {f : Floor Wall Screen}

theorem UpToDate.enter (h : UpToDate asked f) {done : List WallTick} (hk : f.Known asked done)
    {admission : Admission Wall Screen}
    (hw : Wall.welcome f.room (f.seated.map Prod.snd) = .ok admission) :
    UpToDate asked (f.enter admission) := by
  intro m hm
  cases hw
  rcases List.mem_append.mp hm with hold | hnew
  · exact h m hold
  · rw [List.mem_singleton.mp hnew]
    refine (lastPut_eq_none ?_).symm
    intro a ha hid
    exact SourceId.ne_of_lt (hk.asked a ha _ hid) rfl

theorem UpToDate.exit (h : UpToDate asked f) (id : SourceId) : UpToDate asked (f.exit id) :=
  fun m hm => h m (List.mem_of_mem_eraseP hm)

theorem UpToDate.ask (h : UpToDate asked f) (r : VideoRequest) :
    UpToDate (asked ++ [⟨f.ids, r⟩])
      (f.become (f.room.serve f.seated r).room (f.room.serve f.seated r).seats) := by
  rcases f.room.serve_cases f.seated r with ⟨id, p, rfl, _, hseats⟩ | ⟨hr, _, hseats⟩ |
    ⟨hr, _, hlatest⟩
  · rw [hseats, Floor.become_map]
    intro m hm
    obtain ⟨x, hx, rfl⟩ := List.mem_map.mp hm
    have hid : x.1 ∈ f.ids := List.mem_map_of_mem hx
    rw [lastPut_append, putOf]
    by_cases he : x.1 = id
    · subst he
      simp [hid]
    · simp [he, Ne.symm he, h x hx]
  · rw [hseats, Floor.become_seats]
    intro m hm
    rw [lastPut_append, putOf_eq_none hr]
    exact h m hm
  · intro m hm
    -- the pictures in the new seats are those in the old ones
    have hzip : (f.ids.zip (f.room.serve f.seated r).seats).map (fun m => (m.1, m.2.latest)) =
        f.seated.map fun m => (m.1, m.2.latest) := by
      calc (f.ids.zip (f.room.serve f.seated r).seats).map (fun m => (m.1, m.2.latest))
          = f.ids.zip ((f.room.serve f.seated r).seats.map Screen.latest) :=
            List.zip_map_right.symm
        _ = f.ids.zip (f.seated.map fun m => m.2.latest) := by rw [hlatest]
        _ = f.seated.map fun m => (m.1, m.2.latest) := List.zip_map'
    have hmem : (m.1, m.2.latest) ∈ f.seated.map fun m => (m.1, m.2.latest) := by
      rw [← hzip]
      exact List.mem_map_of_mem hm
    obtain ⟨x, hx, he⟩ := List.mem_map.mp hmem
    rw [Prod.mk.injEq] at he
    rw [lastPut_append, putOf_eq_none hr, ← he.1, ← he.2]
    exact h x hx

end UpToDate

/-- The composite is black but for places that drawing all tiles reaches again, unless it is stale;
and every source has the latest picture that was put for it. -/
structure Kempt (s : VideoSettings) (black : Picture) (asked : List (Asked VideoRequest))
    (f : Floor Wall Screen) : Prop where
  settings : f.room.settings = s
  painter : f.room.painter = .scaling
  blackened : f.room.composite.fill .black = black
  drawn : f.room.stale = false →
    ∃ b, f.room.composite = black.daub b ∧ b.Within (f.room.overlay f.seated)
  latest : ∀ m ∈ f.seated, m.2.latest = lastPut asked m.1

variable {s : VideoSettings} {black : Picture} {asked : List (Asked VideoRequest)}
  {f : Floor Wall Screen}

theorem kempt_create (h : black.fill .black = black) :
    Kempt s black [] (Mixer.create ⟨s, 1, black, false, .scaling⟩ : VideoWall).floor :=
  ⟨rfl, rfl, h, fun _ => ⟨.clear, black.daub_clear.symm, Brush.clear_within _⟩,
    fun _ hm => absurd hm List.not_mem_nil⟩

/-- Every source is shown the composite. -/
theorem payloads_yield (t : WallTick) :
    t.yield.payloads = t.sources.map (view t.yield.room.composite t.stamp) := by
  rw [← Tick.ids_floor, Floor.ids, List.map_map]
  rfl

/-- Whatever is left of earlier rounds is drawn over. -/
theorem Kempt.composite_mix (h : Kempt s black asked f) (hs : black.size = s.size)
    (hb : black.format = .yuv420p) (stamp : Nanos) :
    (f.room.mix stamp f.seated).room.composite = black.daub (f.room.overlay f.seated) := by
  have hdraw : f.room.drawAll f.seated black = black.daub (f.room.overlay f.seated) :=
    drawAll_eq_daub h.painter hb (by rw [hs, h.settings]) _
  cases hst : f.room.stale with
  | true => rw [composite_mix_of_stale hst, redrawn, h.blackened, hdraw]
  | false =>
      -- what is left of earlier rounds lies within the overlay, which hides it
      obtain ⟨b, hc, hw⟩ := h.drawn hst
      have hover := drawAll_eq_daub h.painter (show (black.daub b).format = .yuv420p by
        rw [Picture.format_daub, hb]) (by rw [Picture.size_daub, hs, h.settings]) f.seated
      simp only [mix, hst, Bool.false_eq_true, if_false, hc]
      rw [hover, Picture.daub_daub, Brush.atop_eq_of_within hw]

/-- A change that spoils the composite and keeps all pictures. -/
theorem Kempt.of_spoils (h : Kempt s black asked f) {f' : Floor Wall Screen}
    {asked' : List (Asked VideoRequest)} (hw : f.room.Spoils f'.room)
    (hl : ∀ m ∈ f'.seated, m.2.latest = lastPut asked' m.1) : Kempt s black asked' f' := by
  obtain ⟨hsettings, hcomposite, hpainter, hstale⟩ := hw
  refine ⟨hsettings.trans h.settings, hpainter.trans h.painter, ?_, ?_, hl⟩
  · rw [hcomposite]
    exact h.blackened
  · intro hfalse
    rw [hstale] at hfalse
    cases hfalse

theorem Kempt.enter (h : Kempt s black asked f) {done : List WallTick} (hk : f.Known asked done)
    {admission : Admission Wall Screen}
    (hw : Wall.welcome f.room (f.seated.map Prod.snd) = .ok admission) :
    Kempt s black asked (f.enter admission) := by
  have hlatest : UpToDate asked (f.enter admission) := UpToDate.enter h.latest hk hw
  cases hw
  exact h.of_spoils ⟨rfl, rfl, rfl, rfl⟩ hlatest

theorem Kempt.exit (h : Kempt s black asked f) (id : SourceId) :
    Kempt s black asked (f.exit id) :=
  h.of_spoils ⟨rfl, rfl, rfl, rfl⟩ (UpToDate.exit h.latest id)

theorem Kempt.ask (h : Kempt s black asked f) (r : VideoRequest) :
    Kempt s black (asked ++ [⟨f.ids, r⟩])
      (f.become (f.room.serve f.seated r).room (f.room.serve f.seated r).seats) := by
  have hlatest := UpToDate.ask h.latest r
  rcases f.room.serve_cases f.seated r with ⟨id, p, rfl, hroom, hseats⟩ | ⟨_, hroom, hseats⟩ |
    ⟨_, hspoils, _⟩
  · rw [hroom, hseats, Floor.become_map] at hlatest ⊢
    refine ⟨h.settings, h.painter, h.blackened, ?_, hlatest⟩
    intro hst
    obtain ⟨b, hc, hb⟩ := h.drawn hst
    exact ⟨b, hc, hb.trans (f.room.overlay_within_put f.seated id p)⟩
  · rw [hroom, hseats, Floor.become_seats] at hlatest ⊢
    exact ⟨h.settings, h.painter, h.blackened, h.drawn, hlatest⟩
  · exact h.of_spoils hspoils hlatest

theorem Kempt.round (h : Kempt s black asked f) (hs : black.size = s.size)
    (hb : black.format = .yuv420p) (stamp : Nanos) :
    Kempt s black asked (f.become (f.room.mix stamp f.seated).room
      (f.room.mix stamp f.seated).seats) := by
  have hc := h.composite_mix hs hb stamp
  rw [show (f.room.mix stamp f.seated).seats = f.seated.map Prod.snd from rfl, Floor.become_seats]
  refine ⟨h.settings, h.painter, ?_, ?_, h.latest⟩
  · show (f.room.mix stamp f.seated).room.composite.fill .black = black
    have hf : f.room.composite.format = .yuv420p := by
      rw [← h.blackened, Picture.format_fill] at hb
      exact hb
    rw [hc, Picture.fill_daub, ← h.blackened, Picture.fill_fill _ _ hf]
  · intro _
    exact ⟨_, hc, .refl _⟩

/-- Every action and every round keeps a wall kempt. -/
theorem kempt_kept (hs : black.size = s.size) (hb : black.format = .yuv420p) :
    Kept (fun _ : Action View VideoRequest => True) fun asked _ f => Kempt s black asked f where
  enter hk h _ hw := h.enter hk hw
  exit _ h _ := h.exit _
  ask _ h _ := h.ask _
  round t _ _ h := h.round hs hb t.stamp

end Wall

namespace VideoWall

/-- The black picture that an accepted wall starts from. -/
theorem filled_black {s : VideoSettings} (h : s.Accepted) :
    ∃ black, Picture.filled .yuv420p s.size .black = .ok black ∧ black.size = s.size ∧
      black.format = .yuv420p ∧ black.fill .black = black := by
  obtain ⟨hne, _⟩ := (VideoSettings.accepted_iff s).mp h
  unfold Picture.filled Picture.blank
  rw [dif_neg hne]
  refine ⟨_, rfl, rfl, rfl, ?_⟩
  exact Picture.fill_fill _ _ rfl

theorem create_of_accepted {s : VideoSettings} (h : s.Accepted) {black : Picture}
    (hb : Picture.filled .yuv420p s.size .black = .ok black) (paint : Painter) :
    VideoWall.create s paint = .ok (Mixer.create ⟨s, 1, black, false, paint⟩) := by
  have hm : s.misuse? = none := h
  rw [create, hm, hb]
  rfl

/-- A wall with accepted settings can be made, and time goes by between its rounds. -/
theorem exists_create {s : VideoSettings} (h : s.Accepted) (paint : Painter) : ∃ black : Picture,
    VideoWall.create s paint = .ok (Mixer.create ⟨s, 1, black, false, paint⟩) ∧
      0 < Mixing.interval (⟨s, 1, black, false, paint⟩ : Wall) := by
  obtain ⟨black, hblack, _⟩ := filled_black h
  exact ⟨black, create_of_accepted h hblack paint, VideoSettings.interval_pos h⟩

/-- **Drawing over is as good as drawing from scratch.** A wall with accepted settings can be made.
In every round of every run, every source is shown, in all bytes of all planes, the black picture
into which the latest picture of every registered source is scaled, in the order of registration,
each into the tile that the layout has for it. -/
theorem run_redraws {s : VideoSettings} (h : s.Accepted) :
    ∃ (v : VideoWall) (black : Picture), VideoWall.create s .scaling = .ok v ∧
      Picture.filled .yuv420p s.size .black = .ok black ∧
      ∀ as : List (Action View VideoRequest), Mixer.Logs (v.run as).2 (v.history as) ∧
        ∀ t ∈ v.history as, t.log.offers.map Offer.source = t.sources ∧
          ∀ o ∈ t.log.offers, o.payload.picture =
            fromScratch black t.sources (lastPut t.asked) (VideoWall.layout t.mixer) := by
  obtain ⟨black, hblack, hsize, hformat, hfill⟩ := filled_black h
  refine ⟨_, black, create_of_accepted h hblack _, hblack, ?_⟩
  intro as
  refine ⟨Mixer.log_run _ as, ?_⟩
  intro t ht
  obtain ⟨before, after, hs⟩ := List.append_of_mem ht
  obtain ⟨hk, hkempt⟩ := (Wall.kempt_kept hsize hformat).history
    (Wall.kempt_create hfill) (fun _ _ => trivial) hs
  refine ⟨(t.mixer.offers_round t.timeline).1, ?_⟩
  intro o ho
  obtain ⟨_, hview⟩ := Mixer.offer_of_payloads (Wall.payloads_yield t) ho
  have hdraw := Wall.drawAll_eq_daub hkempt.painter hformat
    (hsize.trans (congrArg VideoSettings.size hkempt.settings.symm)) t.mixer.floor.seated
  have hscratch := Wall.drawAll_eq_fromScratch hkempt.painter hk.numbered.nodup hkempt.latest black
  calc o.payload.picture
      = (t.mixer.floor.room.mix t.stamp t.mixer.floor.seated).room.composite := by
        rw [hview]
        rfl
    _ = t.mixer.floor.room.drawAll t.mixer.floor.seated black := by
        rw [hkempt.composite_mix hsize hformat, hdraw]
    _ = fromScratch black t.sources (lastPut t.asked) (VideoWall.layout t.mixer) := by
        rw [hscratch, ← Tick.ids_floor]
        rfl

/-- A picture of one grey pixel. -/
def greyDot (luma : UInt8) : Picture where
  size := ⟨1, 1⟩
  raster := .yuv420p ⟨1, #[luma]⟩ ⟨1, #[128]⟩ ⟨1, #[128]⟩
  nonempty := by decide
  fits := by
    simp [Raster.Fits, Plane.Holds, PixelFormat.fullPlane, PixelFormat.halfPlane, PlaneShape.span]

/-- The first of two sources shows a picture, gets the stage, and leaves. -/
def onAndOffStage : List (Action View VideoRequest) :=
  [.join .discard, .ask (.put .first (greyDot 50)), .join .discard, .advance (.ofMillis 40),
    .ask (.stage (some .first)), .advance (.ofMillis 40), .leave .first, .advance (.ofMillis 40)]

theorem run_redraws_onAndOffStage :
    ∃ (v : VideoWall) (black : Picture), VideoWall.create ⟨⟨2, 2⟩, 25, 4⟩ .scaling = .ok v ∧
      (v.history onAndOffStage).length = 4 ∧
      ∀ t ∈ v.history onAndOffStage, ∀ o ∈ t.log.offers, o.payload.picture =
        fromScratch black t.sources (lastPut t.asked) (VideoWall.layout t.mixer) := by
  have ha : VideoSettings.Accepted ⟨⟨2, 2⟩, 25, 4⟩ := by decide
  obtain ⟨v, black, hv, hblack, hrun⟩ := run_redraws ha
  refine ⟨v, black, hv, ?_, fun t ht => ((hrun onAndOffStage).2 t ht).2⟩
  cases hv
  decide +kernel

end VideoWall

end ConferenceMix
