import ConferenceMix.Proofs.VideoWall.Composite

/-! # A rejected picture leaves its tile as it was

A `Painter.Choosy` painter scales the sources that are accepted and refuses all others, so that a
round draws the latest pictures that are accepted over what is there (`Wall.luma_mix`). What is there
in a tile has come from the rounds since the composite was last made black, in which all tiles were
where they are now. `VideoWall.run_retains` concludes that every tile shows the last picture that was
accepted in one of these rounds. -/

namespace ConferenceMix

namespace Painter

variable {accepts : Picture → Bool} {paint : Painter}

/-- The painter scales the sources that are accepted and refuses all others. -/
def Choosy (accepts : Picture → Bool) (paint : Painter) : Prop :=
  ∀ source target rect, if accepts source then paint source target rect = scaling source target rect
    else ∃ fault, paint source target rect = .error fault

theorem choosy_selective (accepts : Picture → Bool) (refusal : PaintFault) :
    Choosy accepts (selective accepts refusal) := by
  intro source target rect
  cases ha : accepts source <;> simp [selective, ha]

/-- What is refused is not drawn. -/
theorem Choosy.attempt (h : Choosy accepts paint) (source target : Picture) (rect : Rect) :
    paint.attempt source target rect =
      if accepts source then scaling.attempt source target rect else target := by
  have hpaint := h source target rect
  cases ha : accepts source with
  | true =>
      rw [ha, if_pos rfl] at hpaint
      rw [Painter.attempt, hpaint]
      rfl
  | false =>
      rw [ha, if_neg Bool.false_ne_true] at hpaint
      obtain ⟨fault, hpaint⟩ := hpaint
      rw [Painter.attempt, hpaint]
      rfl

end Painter

namespace Wall

/-! ### Rounds since the composite was made black -/

/-- The rounds since the composite was last made black, from the one on that did so. -/
def sinceCleared (ts : List WallTick) : List WallTick :=
  ts.foldl (fun kept t => if t.mixer.room.stale then [t] else kept ++ [t]) []

theorem sinceCleared_append (ts : List WallTick) (t : WallTick) : sinceCleared (ts ++ [t]) =
    (if t.mixer.room.stale then [] else sinceCleared ts) ++ [t] := by
  unfold sinceCleared
  rw [List.foldl_append, List.foldl_cons, List.foldl_nil]
  split <;> rfl

/-- The picture of a source that was accepted last when the latest pictures were drawn in the given
rounds. -/
def lastAccepted (accepts : Picture → Bool) (ts : List WallTick) (id : SourceId) : Option Picture :=
  (ts.filterMap fun t => (lastPut t.asked id).filter accepts).getLast?

theorem lastAccepted_append (accepts : Picture → Bool) (ts : List WallTick) (t : WallTick)
    (id : SourceId) : lastAccepted accepts (ts ++ [t]) id =
      ((lastPut t.asked id).filter accepts).or (lastAccepted accepts ts id) :=
  getLast?_filterMap_concat (fun t : WallTick => (lastPut t.asked id).filter accepts) ts t

end Wall

namespace Layout

/-- A picture in three planes shows, in the tile of every source that has one, the last picture that
was drawn there, scaled by nearest pixels, and the luma of black where none was drawn. -/
structure Retains (l : Layout) (drawn : SourceId → Option Picture) (p : Picture) : Prop where
  shown : ∀ {id tile source}, l.tile? id = some tile → drawn id = some source →
    ∀ {x y}, tile.Contains x y → p.size.Contains x y ∧
      ∃ c, source.colourAt ((x - tile.x) * source.size.width / tile.width)
          ((y - tile.y) * source.size.height / tile.height) = some c ∧
        p.lumaAt x y = some c.y
  blank : ∀ {id tile}, l.tile? id = some tile → drawn id = none →
    ∀ {x y}, tile.Contains x y → p.size.Contains x y ∧ p.lumaAt x y = some 16

end Layout

namespace Wall

variable {f : Floor Wall Screen} {accepts : Picture → Bool}

/-! ### Drawing what is accepted -/

/-- The screen of a source with its latest picture if that is accepted, and without one otherwise. -/
def judged (accepts : Picture → Bool) (m : SourceId × Screen) : Screen :=
  { m.2 with latest := m.2.latest.filter accepts }

/-- Drawing all tiles is one daub with what is accepted. -/
theorem drawAll_eq_daub_judged {w : Wall} (hp : w.painter.Choosy accepts) {target : Picture}
    (hf : target.format = .yuv420p) (hs : target.size = w.settings.size)
    (seated : List (SourceId × Screen)) : w.drawAll seated target =
      target.daub (w.overlay (seated.map fun m => (m.1, judged accepts m))) := by
  let w' : Wall := { w with painter := .scaling }
  have htile : ∀ (drawn : Picture) (z : (SourceId × Screen) × Rect),
      drawTile w.painter drawn (z.1.2, z.2) =
        drawTile .scaling drawn (judged accepts z.1, z.2) := by
    intro drawn z
    unfold drawTile judged
    cases z.1.2.latest with
    | none => rfl
    | some source =>
        simp only [hp.attempt, Option.filter]
        cases accepts source <;> rfl
  have hdraw : w.drawAll seated target =
      w'.drawAll (seated.map fun m => (m.1, judged accepts m)) target := by
    show (w.framed seated).foldl _ target =
      (w'.framed (seated.map fun m => (m.1, judged accepts m))).foldl _ target
    rw [framed_eq_map_hung, framed_map (g := judged accepts) (fun _ => rfl) fun _ => rfl,
      List.zip_map_left, List.foldl_map, List.foldl_map]
    simp only [htile]
    rfl
  rw [hdraw]
  exact drawAll_eq_daub (w := w') rfl hf hs _

/-- A round replaces the luma in a tile by that of the latest picture if this is accepted, and leaves
the ground as it is otherwise. -/
theorem luma_mix (h : Arranged f) (hd : f.room.settings.size.Divides f.room.rows)
    (hp : f.room.painter.Choosy accepts) (hf : f.room.ground.format = .yuv420p)
    (hs : f.room.ground.size = f.room.settings.size)
    {z : (SourceId × Screen) × Rect} (hz : z ∈ f.room.hung f.seated) {x y : Nat}
    (hc : z.2.Contains x y) (stamp : Nanos) :
    (f.room.mix stamp f.seated).room.composite.lumaAt x y =
      (z.1.2.latest.filter accepts).elim (f.room.ground.lumaAt x y) fun source =>
        z.2.lumaSample source x y := by
  have hin : f.room.ground.size.Contains x y := by
    rw [hs]
    exact Rect.contains_of_encloses (h.hung_fit hz) hc
  -- the tiles do not move when pictures that are not accepted are taken away
  have hjudged : Arranged (f.become f.room (f.seated.map (judged accepts))) :=
    h.become_map rfl (fun _ => rfl) h.stage
  rw [Floor.become_map] at hjudged
  have hhung : ((z.1.1, judged accepts z.1), z.2) ∈
      f.room.hung (f.seated.map fun m => (m.1, judged accepts m)) := by
    rw [hung, tiles_map (g := judged accepts) (fun _ => rfl) fun _ => rfl, List.zip_map_left]
    exact List.mem_map_of_mem hz
  have hluma := hjudged.luma_overlay hd hhung hc
  have hmix : (f.room.mix stamp f.seated).room.composite = f.room.ground.daub
      (f.room.overlay (f.seated.map fun m => (m.1, judged accepts m))) :=
    drawAll_eq_daub_judged hp hf hs f.seated
  rw [hmix, Picture.lumaAt_daub _ hin, hluma]
  show (f.room.ground.lumaAt x y).map ((z.1.2.latest.filter accepts).bind _).getD = _
  cases z.1.2.latest.filter accepts with
  | none => exact Option.map_id'
  | some source =>
      obtain ⟨c, _, hsample⟩ := Rect.lumaSample_of_contains hc source
      obtain ⟨old, hold⟩ := Option.isSome_iff_exists.mp (Picture.isSome_lumaAt hf hin)
      rw [hold, Option.bind_some, Option.elim_some, hsample]
      rfl

/-! ### What a run keeps -/

/-- In the tile of every source, the composite has the luma of what was drawn there, if the products
that the tiles begin with have 32 bits. -/
def Retains (w : Wall) (seated : List (SourceId × Screen)) (drawn : SourceId → Option Picture) :
    Prop :=
  w.settings.size.Divides w.rows → ∀ t ∈ w.tiles seated, ∀ x y, t.2.Contains x y →
    w.composite.lumaAt x y = (drawn t.1).elim (some 16) fun source => t.2.lumaSample source x y

/-- An arranged wall with a choosy painter retains what was accepted since its composite was made
black, unless it is stale; and every source has the latest picture that was put for it. -/
structure Retentive (s : VideoSettings) (black : Picture) (accepts : Picture → Bool)
    (asked : List (Asked VideoRequest)) (done : List WallTick) (f : Floor Wall Screen) : Prop where
  settings : f.room.settings = s
  choosy : f.room.painter.Choosy accepts
  blackened : f.room.composite.fill .black = black
  arranged : Arranged f
  latest : UpToDate asked f
  retained : f.room.stale = false →
    f.room.Retains f.seated (lastAccepted accepts (sinceCleared done))

variable {s : VideoSettings} {black : Picture} {asked : List (Asked VideoRequest)}
  {done : List WallTick}

/-- A change that spoils the composite. -/
theorem Retentive.of_spoils (h : Retentive s black accepts asked done f) {f' : Floor Wall Screen}
    {asked' : List (Asked VideoRequest)} (hw : f.room.Spoils f'.room) (ha : Arranged f')
    (hl : UpToDate asked' f') : Retentive s black accepts asked' done f' := by
  obtain ⟨hsettings, hcomposite, hpainter, hstale⟩ := hw
  refine ⟨hsettings.trans h.settings, ?_, ?_, ha, hl, ?_⟩
  · rw [hpainter]
    exact h.choosy
  · rw [hcomposite]
    exact h.blackened
  · intro hfalse
    rw [hstale] at hfalse
    cases hfalse

theorem Retentive.ask (h : Retentive s black accepts asked done f) (hk : f.Known asked done)
    (r : VideoRequest) : Retentive s black accepts (asked ++ [⟨f.ids, r⟩]) done
      (f.become (f.room.serve f.seated r).room (f.room.serve f.seated r).seats) := by
  have harranged := h.arranged.ask hk.numbered.nodup r
  have hlatest := h.latest.ask r
  rcases f.room.serve_cases f.seated r with ⟨id, p, rfl, hroom, hseats⟩ | ⟨_, hroom, hseats⟩ |
    ⟨_, hspoils, _⟩
  · rw [hroom, hseats] at harranged hlatest ⊢
    rw [Floor.become_map] at harranged hlatest ⊢
    refine ⟨h.settings, h.choosy, h.blackened, harranged, hlatest, ?_⟩
    intro hst hd t ht
    -- a new picture does not move the tiles
    refine h.retained hst hd t ?_
    rwa [tiles_map] at ht
    · intro m
      split <;> rfl
    · intro m
      split <;> rfl
  · rw [hroom, hseats, Floor.become_seats] at harranged hlatest ⊢
    exact ⟨h.settings, h.choosy, h.blackened, harranged, hlatest, h.retained⟩
  · exact h.of_spoils hspoils harranged hlatest

/-- In the tile of a source, the ground shows what was accepted since the composite was made black, and
black if it is made black now. -/
theorem Retentive.luma_ground (h : Retentive s black accepts asked done f)
    (hs : black.size = s.size) (hf : black.format = .yuv420p) (hb : black.fill .black = black)
    (hd : f.room.settings.size.Divides f.room.rows) {t : SourceId × Rect}
    (ht : t ∈ f.room.tiles f.seated) {x y : Nat} (hc : t.2.Contains x y) :
    f.room.ground.lumaAt x y =
      (lastAccepted accepts (if f.room.stale then [] else sinceCleared done) t.1).elim (some 16)
        fun source => t.2.lumaSample source x y := by
  cases hst : f.room.stale with
  | true =>
      have hground : f.room.ground = black := (if_pos hst).trans h.blackened
      have hin : black.size.Contains x y := by
        rw [hs, ← h.settings]
        exact Rect.contains_of_encloses (h.arranged.tiles_fit ht) hc
      rw [hground, ← hb, Picture.lumaAt_fill hf hin, Yuv.ofRgb_black]
      rfl
  | false =>
      have hground : f.room.ground = f.room.composite := if_neg (by simp [hst])
      rw [hground]
      exact h.retained hst hd t ht x y hc

theorem Retentive.round {t : WallTick} (h : Retentive s black accepts t.asked done t.mixer.floor)
    (hk : t.mixer.floor.Known t.asked done) (hs : black.size = s.size)
    (hf : black.format = .yuv420p) (hb : black.fill .black = black) :
    Retentive s black accepts t.asked (done ++ [t])
      (t.mixer.floor.become t.yield.room t.yield.seats) := by
  obtain ⟨hformat, hsize, hfill⟩ := ground_of_blackened h.blackened hf
  have hsettings : t.mixer.floor.room.ground.size = t.mixer.floor.room.settings.size := by
    rw [hsize, hs, h.settings]
  have harranged : Arranged (t.mixer.floor.become t.yield.room t.yield.seats) :=
    arranged_kept.round t hk h.arranged
  have hmix : t.yield.room.composite = t.mixer.floor.room.ground.daub _ :=
    drawAll_eq_daub_judged h.choosy hformat hsettings t.mixer.floor.seated
  rw [show t.yield.seats = t.mixer.floor.seated.map Prod.snd from rfl,
    Floor.become_seats] at harranged ⊢
  refine ⟨h.settings, h.choosy, ?_, harranged, h.latest, ?_⟩
  · show t.yield.room.composite.fill .black = black
    rw [hmix, Picture.fill_daub, hfill]
  · intro _ hd u hu x y hc
    -- the tiles are those of the wall that goes into the round
    have hu : u ∈ t.mixer.floor.room.tiles t.mixer.floor.seated := hu
    obtain ⟨z, hz, hid, htile⟩ := mem_hung_of_mem_tiles hu
    have hluma := luma_mix h.arranged hd h.choosy hformat hsettings hz (htile ▸ hc) t.stamp
    rw [h.latest z.1 (mem_seated_of_mem_hung hz), hid, htile, h.luma_ground hs hf hb hd hu hc] at hluma
    rw [sinceCleared_append, lastAccepted_append]
    refine hluma.trans ?_
    cases (lastPut t.asked u.1).filter accepts <;> rfl

/-- Every action and every round keeps a wall retentive. -/
theorem retentive_kept (hs : black.size = s.size) (hf : black.format = .yuv420p)
    (hb : black.fill .black = black) :
    Kept (fun _ : Action View VideoRequest => True) (Retentive s black accepts) where
  enter := by
    intro asked done f _ admission hk h _ hw
    have harranged := h.arranged.enter hw
    have hlatest := h.latest.enter hk hw
    cases hw
    exact h.of_spoils ⟨rfl, rfl, rfl, rfl⟩ harranged hlatest
  exit _ h _ := h.of_spoils ⟨rfl, rfl, rfl, rfl⟩ (h.arranged.exit _) (h.latest.exit _)
  ask hk h _ := h.ask hk _
  round _ _ hk h := h.round hk hs hf hb

theorem retentive_create (hb : black.fill .black = black) {paint : Painter}
    (hp : paint.Choosy accepts) :
    Retentive s black accepts [] [] (Mixer.create ⟨s, 1, black, false, paint⟩ : VideoWall).floor :=
  ⟨rfl, hp, hb, arranged_create s black paint, fun _ hm => absurd hm List.not_mem_nil,
    fun _ _ _ ht => absurd ht List.not_mem_nil⟩

/-- What an arranged wall retains, its layout shows. -/
theorem Retains.layout {drawn : SourceId → Option Picture} (h : f.room.Retains f.seated drawn)
    (hd : f.room.settings.size.Divides f.room.rows) (ha : Arranged f)
    (hs : f.room.composite.size = f.room.settings.size) :
    (f.room.layout f.seated).Retains drawn f.room.composite where
  shown := by
    intro id tile source htile hdrawn x y hc
    have ht := mem_tiles_of_tile? htile
    have hluma := h hd _ ht x y hc
    obtain ⟨c, hcolour, hsample⟩ := Rect.lumaSample_of_contains hc source
    rw [hdrawn, Option.elim_some, hsample] at hluma
    rw [hs]
    exact ⟨Rect.contains_of_encloses (ha.tiles_fit ht) hc, c, hcolour, hluma⟩
  blank := by
    intro id tile htile hdrawn x y hc
    have ht := mem_tiles_of_tile? htile
    have hluma := h hd _ ht x y hc
    rw [hdrawn, Option.elim_none] at hluma
    rw [hs]
    exact ⟨Rect.contains_of_encloses (ha.tiles_fit ht) hc, hluma⟩

end Wall

namespace VideoWall

/-- **A rejected picture leaves its tile as it was and nothing else.** A wall with accepted settings
and a painter that scales some sources and refuses the others can be made. In every round of every
run, every source is shown a picture of the size that was set, in three planes: a pixel in the tile
of a source has the luma of the pixel, at the same share of the way, of the picture that was accepted
last since the composite was made black, and the luma of black if there is none, as long as the
products that the tiles begin with have 32 bits. Whatever is refused, every source is offered its
payload, only sinks are reported, and only the round and the sinks that did not take theirs are
counted. -/
theorem run_retains {s : VideoSettings} (h : s.Accepted) {accepts : Picture → Bool}
    {paint : Painter} (hp : paint.Choosy accepts) :
    ∃ v : VideoWall, VideoWall.create s paint = .ok v ∧
      ∀ as : List (Action View VideoRequest), Mixer.Logs (v.run as).2 (v.history as) ∧
        ∀ before t after, v.history as = before ++ t :: after →
          t.log.offers.map Offer.source = t.sources ∧
          t.log.events = t.log.offers.filterMap Offer.event? ∧
          t.after.tally = { t.mixer.tally with
            rounds := t.mixer.tally.rounds + 1
            sinkFaults := t.mixer.tally.sinkFaults + t.log.events.length } ∧
          ∀ o ∈ t.log.offers, o.payload.picture.size = s.size ∧
            o.payload.picture.format = .yuv420p ∧
            (s.size.Divides (VideoWall.layout t.mixer).rows → (VideoWall.layout t.mixer).Retains
              (Wall.lastAccepted accepts (Wall.sinceCleared (before ++ [t]))) o.payload.picture) := by
  obtain ⟨black, hblack, hsize, hformat, hfill⟩ := filled_black h
  refine ⟨_, create_of_accepted h hblack _, ?_⟩
  intro as
  refine ⟨Mixer.log_run _ as, ?_⟩
  intro before t after hs
  have hkept : Kept (fun _ => True) (Wall.Retentive s black accepts) :=
    Wall.retentive_kept hsize hformat hfill
  obtain ⟨hk, hretentive⟩ := hkept.history (Wall.retentive_create hfill hp) (fun _ _ => trivial) hs
  -- the wall after the round has the tiles that it had before
  have hround := hkept.round t hk hretentive
  rw [show t.yield.seats = t.mixer.floor.seated.map Prod.snd from rfl, Floor.become_seats] at hround
  have hblack : t.yield.room.composite.fill .black = black := hround.blackened
  have hpicture : t.yield.room.composite.size = s.size := by
    rw [← hsize, ← hblack, Picture.size_fill]
  have hsettings := congrArg VideoSettings.size hround.settings
  refine ⟨(t.mixer.offers_round t.timeline).1, rfl, rfl, ?_⟩
  intro o ho
  obtain ⟨_, hview⟩ := Mixer.offer_of_payloads (Wall.payloads_yield t) ho
  rw [hview]
  refine ⟨hpicture, ?_, fun hd => ?_⟩
  · show t.yield.room.composite.format = .yuv420p
    rw [← hformat, ← hblack, Picture.format_fill]
  · exact (hround.retained rfl).layout (hsettings ▸ hd) hround.arranged
      (hpicture.trans hsettings.symm)

/-- A picture of one white pixel in packed bytes. -/
def whiteDot : Picture where
  size := ⟨1, 1⟩
  raster := .rgb32 ⟨4, #[255, 255, 255, 0]⟩
  nonempty := (greyDot 255).nonempty
  fits := by simp [Raster.Fits, Plane.Holds, PixelFormat.packedPlane, PlaneShape.span]

/-- The painter that refuses pictures in packed bytes. -/
def planarOnly : Painter :=
  .selective (fun p => p.format = .yuv420p) (.unsupported .rgb32 .yuv420p)

/-- A source shows a grey picture and then one that is refused. -/
def greyThenRefused : List (Action View VideoRequest) :=
  [.join .discard, .ask (.put .first (greyDot 50)), .advance (.ofMillis 40),
    .ask (.put .first whiteDot), .advance (.ofMillis 40)]

theorem run_retains_greyThenRefused :
    ∃ v : VideoWall, VideoWall.create ⟨⟨2, 2⟩, 25, 4⟩ planarOnly = .ok v ∧
      ∃ before t, v.history greyThenRefused = before ++ [t] ∧
        lastPut t.asked .first = some whiteDot ∧ t.log.events = [] ∧
        t.log.offers.map Offer.source = [.first] ∧
        ∀ o ∈ t.log.offers, o.payload.picture.lumaAt 1 1 = some 50 := by
  have ha : VideoSettings.Accepted ⟨⟨2, 2⟩, 25, 4⟩ := by decide
  have hp : planarOnly.Choosy fun p => p.format = .yuv420p := Painter.choosy_selective _ _
  obtain ⟨v, hv, hrun⟩ := run_retains ha hp
  obtain ⟨first, second, t, hist⟩ :
      ∃ first second t, v.history greyThenRefused = [first, second, t] := by
    refine List.length_eq_three.mp ?_
    cases hv
    decide +kernel
  have hany : (v.history greyThenRefused)[2]?.any (fun t => decide (t.sources = [.first] ∧
      Size.Divides ⟨2, 2⟩ (VideoWall.layout t.mixer).rows ∧
      (VideoWall.layout t.mixer).tile? .first = some ⟨0, 0, 2, 2⟩ ∧ t.log.events = [] ∧
      lastPut t.asked .first = some whiteDot)) = true := by
    cases hv
    decide +kernel
  have hlast : Wall.lastAccepted (fun p => p.format = .yuv420p)
      (Wall.sinceCleared (v.history greyThenRefused)) .first = some (greyDot 50) := by
    cases hv
    decide +kernel
  rw [hist] at hany hlast
  obtain ⟨hsources, hdivides, htile, hevents, hput⟩ := of_decide_eq_true hany
  obtain ⟨hoffered, _, _, hretains⟩ := (hrun greyThenRefused).2 [first, second] t [] hist
  refine ⟨v, hv, [first, second], t, hist, hput, hevents, hoffered.trans hsources, ?_⟩
  intro o ho
  obtain ⟨_, _, hshows⟩ := hretains o ho
  obtain ⟨_, c, hcolour, hluma⟩ := (hshows hdivides).shown htile hlast
    (show Rect.Contains _ 1 1 by decide)
  have hdot : (greyDot 50).colourAt 0 0 = some ⟨50, 128, 128⟩ := by decide +kernel
  rw [hluma, Option.some.inj (hcolour.symm.trans hdot)]

end VideoWall

end ConferenceMix
