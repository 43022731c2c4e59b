import ConferenceMix.Proofs.Session.Abreast
import ConferenceMix.Proofs.VideoWall.Reforms
import ConferenceMix.Proofs.VideoWall.Tiles

/-! # The stage does not touch the grid

At most one source has the stage, and the layout names it. Requests for the stage are not reforms of
the grid, so that they can be left out of what is asked of a wall: as long as the wall stops at the
same time with them and without them (`VideoWall.StopsAlike`), the grid and all reports of it are the
same, and so are the tiles whenever nobody has the stage. It does so unless a sink stops it because of
what it is shown (`VideoWall.stopsAlike_of_impartial`); such a sink can let the stage be told from the
grid (`VideoWall.stage_seen_by_sink`).

`VideoWall.stage_apart` says so of walls with accepted settings, after all moves. -/

namespace ConferenceMix

/-! ### Who has the stage -/

namespace Wall

variable {seated : List (SourceId × Screen)}

theorem focus?_eq_none_iff : focus? seated = none ↔ ∀ m ∈ seated, m.2.focused = false := by
  simp [focus?]

/-- The source on stage is the only one that has it. -/
theorem eq_of_focused (h : seated.Pairwise fun a b => ¬ (a.2.focused = true ∧ b.2.focused = true))
    {a b : SourceId × Screen} (ha : a ∈ seated) (hb : b ∈ seated) (hfa : a.2.focused = true)
    (hfb : b.2.focused = true) : a = b := by
  have : Std.Symm fun a b : SourceId × Screen => ¬ (a.2.focused = true ∧ b.2.focused = true) :=
    ⟨fun _ _ hab hba => hab hba.symm⟩
  by_contra hne
  exact h.forall ha hb hne ⟨hfa, hfb⟩

theorem focus?_eq_some_iff
    (h : seated.Pairwise fun a b => ¬ (a.2.focused = true ∧ b.2.focused = true)) {id : SourceId} :
    focus? seated = some id ↔ ∃ screen, (id, screen) ∈ seated ∧ screen.focused = true := by
  constructor
  · intro hf
    obtain ⟨m, hm, rfl⟩ := Option.map_eq_some_iff.mp hf
    exact ⟨m.2, List.mem_of_find?_eq_some hm, by simpa using List.find?_some hm⟩
  · rintro ⟨screen, hm, hf⟩
    cases hfound : seated.find? fun m => m.2.focused with
    | none =>
        have hnone := List.find?_eq_none.mp hfound _ hm
        exact absurd hf hnone
    | some m =>
        have hone := eq_of_focused h (List.mem_of_find?_eq_some hfound) hm
          (by simpa using List.find?_some hfound) hf
        rw [focus?, hfound, hone]
        rfl

/-- A request to give the stage to a source that is not there changes nothing. -/
theorem stage_of_not_mem (w : Wall) {id : SourceId} (h : id ∉ seated.map Prod.fst) :
    w.stage seated (some id) =
      ⟨w, seated.map Prod.snd, .error (.misuse (.unregisteredFocus id)), 0, []⟩ := by
  have hall : (seated.all fun m => m.1 ≠ id) = true := by
    rw [List.all_eq_true]
    intro m hm
    simp only [decide_eq_true_eq]
    rintro rfl
    exact h (List.mem_map_of_mem hm)
  have hkept : (some id).filter (fun i => seated.all fun m => m.1 ≠ i) = some id := by
    rw [Option.filter_some, if_pos hall]
  rw [stage, hkept]

end Wall

/-! ### Requests for the stage -/

namespace VideoWall

/-- The action is a request for the stage. -/
def setsStage : Action View VideoRequest → Bool
  | .ask (.stage _) => true
  | .ask (.focus _ _) => true
  | _ => false

/-- Moves without the requests for the stage. -/
def unstaged (vs : List (Move View VideoRequest)) : List (Move View VideoRequest) :=
  vs.filter (Move.stays fun a => !setsStage a)

/-- With and without the requests for the stage, the wall stops at the same time. -/
def StopsAlike (v : VideoWall) (vs : List (Move View VideoRequest)) : Prop :=
  ∀ us, us <+: vs → (v.follow us).1.running = (v.follow (unstaged us)).1.running

/-- A source that is not there cannot be given the stage. -/
theorem act_stage_of_not_mem {v : VideoWall} {id : SourceId} (h : id ∉ v.roster.ids) :
    v.act (.ask (.stage (some id))) = ⟨v, .refused (.misuse (.unregisteredFocus id)), []⟩ := by
  rw [← v.roster.map_fst_seated] at h
  have hserve : Mixing.serve v.room v.clock v.roster.seated (.stage (some id)) = _ :=
    v.room.stage_of_not_mem h
  rw [Mixer.act, Mixer.ask, hserve, v.roster.map_snd_seated, v.roster.reseat_seats]
  rfl

/-- Nor can it take the stage or leave it. -/
theorem act_focus_of_not_mem {v : VideoWall} {id : SourceId} (h : id ∉ v.roster.ids) (on : Bool) :
    v.act (.ask (.focus id on)) = ⟨v, .answer (), []⟩ := by
  rw [← v.roster.map_fst_seated] at h
  have hserve : Mixing.serve v.room v.clock v.roster.seated (.focus id on) =
      ⟨v.room, v.roster.seated.map Prod.snd, .ok (), 0, []⟩ := by
    cases on with
    | true =>
        show { v.room.stage v.roster.seated (some id) with answer := .ok () } = _
        rw [v.room.stage_of_not_mem h]
    | false =>
        have hf : ¬ Wall.focus? v.roster.seated = some id := by
          intro hf
          obtain ⟨m, hm, rfl⟩ := Option.map_eq_some_iff.mp hf
          exact h (List.mem_map_of_mem (List.mem_of_find?_eq_some hm))
        exact if_neg hf
  rw [Mixer.act, Mixer.ask, hserve, v.roster.map_snd_seated, v.roster.reseat_seats]
  rfl

/-! ### The grid without them -/

theorem reforms_concat (v : VideoWall) (vs : List (Move View VideoRequest))
    (a : Action View VideoRequest) : reforms (v.deedsOf (vs ++ [.act a])) =
      reforms (v.deedsOf vs) ++ (reform? ⟨(v.follow vs).1, a⟩).toList := by
  rw [Mixer.deedsOf_append, reforms_append, reforms_act]
  exact congrArg _ (List.append_nil _)

/-- A request for the stage is not a reform. -/
theorem reform?_of_setsStage {v : VideoWall} {a : Action View VideoRequest}
    (ha : setsStage a = true) : reform? ⟨v, a⟩ = none := by
  cases a with
  | ask r => cases r <;> first | rfl | cases ha
  | _ => cases ha

/-- Whether an action is a reform depends on whether the wall runs and on nothing else. -/
theorem reform?_congr {v v' : VideoWall} (h : v.running = v'.running)
    (a : Action View VideoRequest) : reform? ⟨v, a⟩ = reform? ⟨v', a⟩ := by
  cases a with
  | join sink => exact congrArg (fun r => if r then some Reform.enter else none) h
  | ask r => cases r <;> rfl
  | _ => rfl

/-- The same reforms are asked for without the requests for the stage. -/
theorem reforms_unstaged {v : VideoWall} {vs : List (Move View VideoRequest)}
    (h : v.StopsAlike vs) : reforms (v.deedsOf (unstaged vs)) = reforms (v.deedsOf vs) := by
  induction vs using List.reverseRecOn with
  | nil => rfl
  | append_singleton vs w ih =>
      have hvs := ih fun us hus => h us (hus.trans (List.prefix_append ..))
      rw [unstaged, List.filter_append]
      cases w with
      | look =>
          show reforms (v.deedsOf (unstaged vs ++ [.look])) = _
          rw [Mixer.deedsOf_append, Mixer.deedsOf_append]
          show reforms (v.deedsOf (unstaged vs) ++ []) = reforms (v.deedsOf vs ++ [])
          rw [List.append_nil, List.append_nil, hvs]
      | act a =>
          cases ha : setsStage a with
          | true =>
              rw [List.filter_cons_of_neg (by simp [Move.stays, ha]), List.filter_nil,
                List.append_nil, reforms_concat, reform?_of_setsStage ha]
              exact hvs.trans (List.append_nil _).symm
          | false =>
              have hr := h vs (List.prefix_append ..)
              rw [List.filter_cons_of_pos (by simp [Move.stays, ha]), List.filter_nil,
                reforms_concat, reforms_concat, reform?_congr hr]
              exact congrArg (· ++ _) hvs

/-- A wall stops at the same time without the requests for the stage, unless a sink stops it because of
what it is shown. -/
theorem stopsAlike_of_impartial (room : Wall) {vs : List (Move View VideoRequest)}
    (h : ∀ sink, .act (.join sink) ∈ vs → sink.Impartial) :
    StopsAlike (Mixer.create room) vs := by
  intro us hus
  have habreast : (Mixer.create room : VideoWall).Abreast (Mixer.create room) :=
    ⟨⟨rfl, .nil⟩, rfl, rfl, rfl, rfl⟩
  have hask : ∀ a, (!setsStage a) = false → ∃ r, a = .ask r := by
    intro a ha
    cases a with
    | ask r => exact ⟨r, rfl⟩
    | _ => cases ha
  exact (habreast.follow_filter (fun _ _ => ⟨_, rfl⟩) hask fun sink hm =>
    h sink (hus.subset hm)).running

/-! ### What the layout shows of the grid -/

/-- Who is in a cell can be told from the cells of the sources. -/
theorem occupant_eq (seated : List (SourceId × Screen)) (cell : Nat) :
    Wall.occupant seated cell = (((seated.map fun m => (m.1, m.2.cell)).reverse.find?
      fun x => x.2 = cell).map Prod.fst) := by
  rw [Wall.occupant, ← List.map_reverse, List.find?_map, Option.map_map]
  rfl

/-- Walls with the same grid have layouts with the same rows and cells. -/
theorem layout_of_grid_eq {v v' : VideoWall} (h : v.grid = v'.grid) :
    v.layout.rows = v'.layout.rows ∧ v.layout.cells = v'.layout.cells := by
  have hrows : v.room.rows = v'.room.rows := congrArg Grid.rows h
  have hoccupant : Wall.occupant v.roster.seated = Wall.occupant v'.roster.seated := by
    funext cell
    rw [occupant_eq, occupant_eq]
    exact congrArg (fun g : Grid => (g.cells.reverse.find? fun x => x.2 = cell).map Prod.fst) h
  refine ⟨hrows, ?_⟩
  show (List.range (v.room.rows * v.room.rows)).map _ = (List.range _).map _
  rw [hrows, hoccupant]

/-- When nobody has the stage, the tiles can be told from the grid. -/
theorem tiles_eq_of_focus_none {v : VideoWall} (hf : v.layout.focus = none) :
    v.layout.tiles =
      v.grid.cells.map fun x => (x.1, v.room.settings.size.gridTile v.grid.rows x.2) := by
  have hf : Wall.focus? v.roster.seated = none := hf
  show v.room.tiles v.roster.seated = (v.roster.seated.map _).map _
  rw [Wall.tiles, hf, List.map_map]
  rfl

/-- Nobody has the stage as long as it is not asked for. -/
theorem unfocused_kept : Kept (fun a : Action View VideoRequest => setsStage a = false)
    fun _ (_ : List (Tick Wall Screen View VideoRequest)) (f : Floor Wall Screen) =>
      ∀ m ∈ f.seated, m.2.focused = false where
  enter _ h _ hw := by
    cases hw
    intro m hm
    rcases List.mem_append.mp hm with hold | hnew
    · exact h m hold
    · rw [List.mem_singleton.mp hnew]
  exit _ h _ := fun m hm => h m (List.eraseP_subset hm)
  ask {_ _ f _ r} _ h ha := by
    cases r with
    | put id p =>
        show ∀ m ∈ (f.become _ (f.seated.map _)).seated, _
        rw [Floor.become_map]
        intro m hm
        obtain ⟨x, hx, rfl⟩ := List.mem_map.mp hm
        dsimp only
        split <;> exact h x hx
    | relayout =>
        show ∀ m ∈ (f.become _ (f.seated.mapIdx _)).seated, _
        rw [Floor.become_mapIdx]
        intro m hm
        obtain ⟨i, hi, rfl⟩ := List.mem_mapIdx.mp hm
        exact h f.seated[i] (List.getElem_mem hi)
    | stage id => cases ha
    | focus id on => cases ha
  round t _ _ h := by
    show ∀ m ∈ (t.mixer.floor.become _ (t.mixer.floor.seated.map Prod.snd)).seated, _
    rw [Floor.become_seats]
    exact h

theorem focus_unstaged (room : Wall) (vs : List (Move View VideoRequest)) :
    (layout ((Mixer.create room : VideoWall).follow (unstaged vs)).1).focus = none := by
  have hallowed : ∀ a, .act a ∈ unstaged vs → setsStage a = false := by
    intro a hm
    simpa [Move.stays] using (List.mem_filter.mp hm).2
  obtain ⟨_, _, _, hunfocused⟩ := unfocused_kept.upheld.follow (d := []) (l := .empty)
    ⟨[], [], Floor.known_create room, List.forall_mem_nil _⟩ hallowed
  exact Wall.focus?_eq_none_iff.mpr hunfocused

/-! ### Apart from the grid -/

/-- What the stage has to do with the rest of a wall.

At most one source has the stage; the layout names it, and it is registered. As long as the wall stops
at the same time with and without the requests for the stage, it has the same rows, cells and
sources with and without them, and the same is reported of these. When nobody has the stage, the
tiles are the same as well. A sink must look at what it is shown for the wall not to stop at the same
time. Nothing comes of requests for a source that is not there. -/
structure StagesApart (v : VideoWall) : Prop where
  alone : ∀ vs, ∀ a ∈ (v.follow vs).1.roster.seated, ∀ b ∈ (v.follow vs).1.roster.seated,
    a.2.focused = true → b.2.focused = true → a = b
  named : ∀ vs id, (layout (v.follow vs).1).focus = some id ↔
    ∃ screen, (id, screen) ∈ (v.follow vs).1.roster.seated ∧ screen.focused = true
  registered : ∀ vs id, (layout (v.follow vs).1).focus = some id → id ∈ (v.follow vs).1.roster.ids
  grid : ∀ vs, v.StopsAlike vs → grid (v.follow (unstaged vs)).1 = grid (v.follow vs).1 ∧
    (layout (v.follow (unstaged vs)).1).rows = (layout (v.follow vs).1).rows ∧
    (layout (v.follow (unstaged vs)).1).cells = (layout (v.follow vs).1).cells ∧
    (v.follow (unstaged vs)).1.roster.ids = (v.follow vs).1.roster.ids
  reports : ∀ vs, v.StopsAlike vs → (v.follow (unstaged vs)).2.events.filter (!·.isSinkFault) =
    (v.follow vs).2.events.filter (!·.isSinkFault)
  tiles : ∀ vs, v.StopsAlike vs → (layout (v.follow vs).1).focus = none →
    (layout (v.follow (unstaged vs)).1).tiles = (layout (v.follow vs).1).tiles
  stops : ∀ vs, (∀ sink, .act (.join sink) ∈ vs → sink.Impartial) → v.StopsAlike vs
  refused : ∀ vs id, id ∉ (v.follow vs).1.roster.ids →
    (v.follow vs).1.act (.ask (.stage (some id))) =
      ⟨(v.follow vs).1, .refused (.misuse (.unregisteredFocus id)), []⟩
  ignored : ∀ vs id on, id ∉ (v.follow vs).1.roster.ids →
    (v.follow vs).1.act (.ask (.focus id on)) = ⟨(v.follow vs).1, .answer (), []⟩

theorem grid_unstaged {v : VideoWall} {vs : List (Move View VideoRequest)} (h : v.StopsAlike vs) :
    grid (v.follow (unstaged vs)).1 = grid (v.follow vs).1 := by
  rw [grid_follow, grid_follow, reforms_unstaged h]

/-- **The stage does not touch the grid.** A wall with accepted settings can be made, and moves carry
out all its runs, with and without the requests for the stage. At all times one source at most has
the stage, and the grid is the same as if it had never been asked for. -/
theorem stage_apart {s : VideoSettings} (h : s.Accepted) (paint : Painter) :
    ∃ v : VideoWall, VideoWall.create s paint = .ok v ∧
      (∀ as : List (Action View VideoRequest), ∃ n, v.follow (Move.steps n as) = v.run as ∧
        v.follow (unstaged (Move.steps n as)) = v.run (as.filter (!setsStage ·))) ∧
      v.StagesApart := by
  obtain ⟨black, hcreate, hpos⟩ := exists_create h paint
  let room : Wall := ⟨s, 1, black, false, paint⟩
  let v : VideoWall := Mixer.create room
  have hstage : ∀ vs, (v.follow vs).1.roster.seated.Pairwise
      fun a b => ¬ (a.2.focused = true ∧ b.2.focused = true) := fun vs =>
    (arranged_follow s black paint vs).2.stage
  have hsettings : ∀ vs, (v.follow vs).1.room.settings = s := by
    intro vs
    have hreach := Mixer.reachable_follow (.start : v.Reachable v) vs
    obtain ⟨_, _, _, hs⟩ := (Wall.settings_kept s).reachable rfl hreach
    exact hs
  refine ⟨v, hcreate, Mixer.exists_follow_steps_eq_run hpos (Mixer.settle_create room) _, ?_⟩
  exact
    { alone := fun vs _ ha _ hb => Wall.eq_of_focused (hstage vs) ha hb
      named := fun vs _ => Wall.focus?_eq_some_iff (hstage vs)
      registered := by
        intro vs id hf
        obtain ⟨screen, hm, _⟩ := (Wall.focus?_eq_some_iff (hstage vs)).mp hf
        rw [← (v.follow vs).1.roster.map_fst_seated]
        exact List.mem_map_of_mem hm
      grid := by
        intro vs hstops
        have hgrid := grid_unstaged hstops
        refine ⟨hgrid, (layout_of_grid_eq hgrid).1, (layout_of_grid_eq hgrid).2, ?_⟩
        rw [← ids_grid, ← ids_grid, hgrid]
      reports := by
        intro vs hstops
        rw [reports_follow, reports_follow, reforms_unstaged hstops]
      tiles := by
        intro vs hstops hf
        rw [tiles_eq_of_focus_none hf, tiles_eq_of_focus_none (focus_unstaged room vs),
          grid_unstaged hstops, hsettings, hsettings]
      stops := fun _ => stopsAlike_of_impartial room
      refused := fun _ _ => act_stage_of_not_mem
      ignored := fun _ _ on hid => act_focus_of_not_mem hid on }

/-- The first of two sources is given the stage and leaves, another comes, and the stage is asked for
the one that left. -/
def leavesStage : List (Action View VideoRequest) :=
  [.join .discard, .join .discard, .ask (.stage (some .first)), .advance (.ofMillis 40), .leave .first,
    .join .discard, .ask (.stage (some .first))]

theorem stage_apart_leavesStage :
    ∃ v : VideoWall, VideoWall.create ⟨⟨2, 2⟩, 25, 4⟩ .scaling = .ok v ∧
      (layout (v.run (leavesStage.take 4)).1).focus = some .first ∧
      (layout (v.run (leavesStage.filter (!setsStage ·))).1).tiles =
        (layout (v.run leavesStage).1).tiles := by
  have ha : VideoSettings.Accepted ⟨⟨2, 2⟩, 25, 4⟩ := by decide
  obtain ⟨v, hv, hmoves, hstage⟩ := stage_apart ha .scaling
  obtain ⟨n, hn, hunstaged⟩ := hmoves leavesStage
  have himpartial : ∀ sink, .act (.join sink) ∈ Move.steps n leavesStage → sink.Impartial := by
    intro sink hm
    have hsink : sink = .discard := by
      simpa [leavesStage] using Move.act_mem_steps.mp hm
    rw [hsink]
    exact fun _ _ _ => rfl
  have hnobody : (layout (v.run leavesStage).1).focus = none := by
    cases hv
    decide +kernel
  have htiles := hstage.tiles (Move.steps n leavesStage) (hstage.stops _ himpartial)
  rw [hn, hunstaged] at htiles
  refine ⟨v, hv, ?_, htiles hnobody⟩
  cases hv
  decide +kernel

/-- Stops the wall when the pixel `(2, 3)` has a luma of 50. -/
def watcher : Sink View :=
  .ofRule "watcher" fun _ v => ⟨none, decide ((v.picture.colourAt 2 3).map Yuv.y = some 50)⟩

/-- The first of two sources is given the stage and shows a grey dot, and a third one comes. -/
def watched : List (Action View VideoRequest) :=
  [.join watcher, .join .discard, .ask (.stage (some .first)), .ask (.put .first (greyDot 50)),
    .advance (.ofMillis 40), .join .discard]

/-- On stage the dot reaches a place that its tile in the grid does not have, and the sink that looks
there stops the wall, so that the third source is turned away. Without the request for the stage it is
let in. -/
theorem stage_seen_by_sink :
    ∃ v : VideoWall, VideoWall.create ⟨⟨4, 4⟩, 25, 4⟩ .scaling = .ok v ∧
      (v.run watched).1.roster.ids.length = 2 ∧ (v.run watched).1.running = false ∧
      (v.run (watched.filter (!setsStage ·))).1.roster.ids.length = 3 ∧
      (v.run (watched.filter (!setsStage ·))).1.running = true := by
  refine ⟨_, rfl, ?_⟩
  decide +kernel

end VideoWall

end ConferenceMix
