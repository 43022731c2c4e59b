import ConferenceMix.Proofs.Session.Moves
import ConferenceMix.Proofs.Session.Refusals
import ConferenceMix.Proofs.VideoWall.Grid
import Mathlib.Data.Fintype.EquivFin
import Mathlib.Data.Nat.Find
import Mathlib.Order.Bounds.Basic

/-! # What is done to the grid of a wall

The `Grid` of a wall consists of its rows and of the cells of its sources. It is reformed in three
ways: a source enters, a source goes, or the grid is made compact. `Grid.reform` says what becomes
of the grid, and `Grid.report` what observers are told.

Of all that happens to a wall, only reforms touch the grid, and all that is reported besides are
payloads that were not taken. After all moves, grid and reports are therefore those of the reforms
among them (`VideoWall.grid_follow`, `VideoWall.reports_follow`). -/

namespace ConferenceMix

/-! ### Vacant cells -/

theorem exists_vacancy (taken : List Nat) : ∃ cell, cell ∉ taken := by
  obtain ⟨cell, hc⟩ := Infinite.exists_notMem_finset taken.toFinset
  exact ⟨cell, fun hm => hc (List.mem_toFinset.mpr hm)⟩

/-- The least number that is not among those taken. -/
def vacancy (taken : List Nat) : Nat := Nat.find (exists_vacancy taken)

theorem isLeast_vacancy (taken : List Nat) : IsLeast {cell | cell ∉ taken} (vacancy taken) :=
  ⟨Nat.find_spec (exists_vacancy taken), fun _ hc => Nat.find_min' (exists_vacancy taken) hc⟩

theorem Wall.LowestFree.eq_vacancy {rows cell : Nat} {screens : List Screen}
    (h : LowestFree rows screens cell) : cell = vacancy (screens.map Screen.cell) := by
  suffices hleast : IsLeast {c | c ∉ screens.map Screen.cell} cell from
    hleast.unique (isLeast_vacancy _)
  refine ⟨fun hm => ?_, fun c hc => ?_⟩
  · obtain ⟨s, hs, he⟩ := List.mem_map.mp hm
    exact h.free s hs he
  · refine Nat.le_of_not_lt fun hlt => hc ?_
    obtain ⟨s, hs, he⟩ := h.lowest c hlt
    exact List.mem_map.mpr ⟨s, hs, he⟩

/-! ### Reforms -/

/-- The rows of a wall, the cell of every source in the order of registration, and the number of the
next source. -/
structure Grid where
  rows : Nat
  cells : List (SourceId × Nat)
  upcoming : SourceId

/-- What is done to a grid. -/
inductive Reform where
  /-- A source enters, and the grid grows if need be. -/
  | enter
  /-- A source goes, and the grid keeps its size. -/
  | exit (id : SourceId)
  /-- The grid is made compact. -/
  | compact
deriving DecidableEq, Repr

namespace Grid

variable {g : Grid}

/-- The sources in the order of registration. -/
def ids (g : Grid) : List SourceId := g.cells.map Prod.fst

/-- The number of sources. -/
def size (g : Grid) : Nat := g.cells.length

/-- What becomes of a grid. -/
def reform (g : Grid) : Reform → Grid
  | .enter =>
      { rows := max (gridSide (g.size + 1)) g.rows
        cells := g.cells ++ [(g.upcoming, vacancy (g.cells.map Prod.snd))]
        upcoming := g.upcoming.next }
  | .exit id => { g with cells := g.cells.eraseP fun x => x.1 = id }
  | .compact => { g with rows := gridSide g.size, cells := g.ids.zipIdx }

/-- The report of a new size, if there is one. -/
def resized (g g' : Grid) : List Event :=
  if g'.rows = g.rows then [] else [.layoutChanged g'.rows g'.size]

/-- What is reported of a reform. -/
def report (g : Grid) : Reform → List Event
  | .enter => .sourceAdded g.upcoming :: g.resized (g.reform .enter)
  | .exit id => if id ∈ g.ids then [.sourceRemoved id] else []
  | .compact => g.resized (g.reform .compact)

/-- What becomes of a grid in one reform after another. -/
def reformed (g : Grid) (rs : List Reform) : Grid := rs.foldl reform g

/-- What is reported of one reform after another. -/
def reports (g : Grid) : List Reform → List Event
  | [] => []
  | r :: rs => g.report r ++ (g.reform r).reports rs

theorem size_reform_enter (g : Grid) : (g.reform .enter).size = g.size + 1 := by
  simp [reform, size]

theorem size_reform_compact (g : Grid) : (g.reform .compact).size = g.size := by
  simp [reform, size, ids]

theorem ids_reform_enter (g : Grid) : (g.reform .enter).ids = g.ids ++ [g.upcoming] := by
  simp [reform, ids]

theorem ids_reform_exit (g : Grid) (id : SourceId) :
    (g.reform (.exit id)).ids = g.ids.erase id := by
  have h : ∀ cells : List (SourceId × Nat),
      (cells.eraseP fun x => x.1 = id).map Prod.fst = (cells.map Prod.fst).erase id := by
    intro cells
    rw [List.erase_eq_eraseP, List.eraseP_map]
    congr
    funext x
    rw [Function.comp, beq_eq_decide]
    exact decide_eq_decide.mpr eq_comm
  exact h g.cells

theorem ids_reform_compact (g : Grid) : (g.reform .compact).ids = g.ids := by
  simp [reform, ids]

/-- A report of a reform is not about a sink. -/
theorem filter_report (g : Grid) (r : Reform) :
    (g.report r).filter (!·.isSinkFault) = g.report r := by
  refine List.filter_eq_self.mpr fun e he => ?_
  have hresized : ∀ {g' : Grid}, e ∈ g.resized g' → (!e.isSinkFault) = true := by
    intro g' hm
    unfold resized at hm
    split at hm
    · cases hm
    · rw [List.mem_singleton.mp hm]
      rfl
  cases r with
  | enter =>
      rcases List.mem_cons.mp he with rfl | hm
      · rfl
      · exact hresized hm
  | exit id =>
      by_cases hid : id ∈ g.ids
      · rw [report, if_pos hid] at he
        rw [List.mem_singleton.mp he]
        rfl
      · rw [report, if_neg hid] at he
        cases he
  | compact => exact hresized he

end Grid

/-! ### The grid of a wall -/

/-- An action asked of a wall. -/
abbrev VideoDeed := Deed Wall Screen View VideoRequest

/-- The grid of a floor. -/
def Wall.gridOf (f : Floor Wall Screen) : Grid :=
  ⟨f.room.rows, f.seated.map fun m => (m.1, m.2.cell), f.upcoming⟩

/-- Seats that keep their cells keep the grid as it is. -/
theorem Wall.gridOf_become_map {f : Floor Wall Screen} {room : Wall}
    (hrows : room.rows = f.room.rows) {g : SourceId × Screen → Screen}
    (hcell : ∀ m, (g m).cell = m.2.cell) : gridOf (f.become room (f.seated.map g)) = gridOf f := by
  rw [Floor.become_map]
  simp only [gridOf, List.map_map, Function.comp_def, hcell, hrows]

/-- A request that does not make the grid compact leaves it alone. -/
theorem Wall.gridOf_become_serve (f : Floor Wall Screen) {r : VideoRequest} (hr : r ≠ .relayout) :
    gridOf (f.become (f.room.serve f.seated r).room (f.room.serve f.seated r).seats) =
      gridOf f := by
  have hrows : (f.room.serve f.seated r).room.rows = f.room.rows := by
    rcases f.room.serve_kinds f.seated r with ⟨_, _, _, hroom, _⟩ | ⟨_, hroom, _⟩ |
      ⟨_, hroom, _⟩ | ⟨he, _⟩
    · rw [hroom]
    · rw [hroom]
    · rw [hroom]
    · exact absurd he hr
  rcases f.room.serve_kinds f.seated r with ⟨id, p, _, _, hseats⟩ | ⟨_, _, hseats⟩ |
    ⟨_, _, holder, hseats⟩ | ⟨he, _⟩
  · rw [hseats]
    refine gridOf_become_map hrows fun m => ?_
    split <;> rfl
  · rw [hseats]
    exact gridOf_become_map hrows fun _ => rfl
  · rw [hseats]
    exact gridOf_become_map hrows fun _ => rfl
  · exact absurd he hr

theorem Wall.gridOf_become_relayout (f : Floor Wall Screen) :
    gridOf (f.become (f.room.serve f.seated .relayout).room
      (f.room.serve f.seated .relayout).seats) = (gridOf f).reform .compact := by
  have hsize : (gridOf f).size = f.seated.length := List.length_map ..
  have hids : (gridOf f).ids = f.ids := List.map_map
  have hcells : (f.become (f.room.serve f.seated .relayout).room
      (f.room.serve f.seated .relayout).seats).seated.map (fun m => (m.1, m.2.cell)) =
        f.ids.zipIdx := by
    apply List.ext_getElem <;> simp [Floor.become, Floor.ids, serve]
  rw [Grid.reform, hsize, hids, ← hcells]
  rfl

namespace VideoWall

/-- The grid of a wall. -/
def grid (v : VideoWall) : Grid := Wall.gridOf v.floor

/-- What an action does to the grid, if it does anything. -/
def reform? (d : VideoDeed) : Option Reform :=
  match d.action with
  | .join _ => if d.mixer.running then some .enter else none
  | .leave id => some (.exit id)
  | .ask .relayout => some .compact
  | _ => none

/-- What is done to the grid in one action after another. -/
def reforms (ds : List VideoDeed) : List Reform := ds.filterMap reform?

theorem ids_grid (v : VideoWall) : v.grid.ids = v.roster.ids := by
  rw [← v.ids_floor]
  exact List.map_map

theorem size_grid (v : VideoWall) : v.grid.size = v.roster.size := by
  simp [grid, Wall.gridOf, Grid.size, Mixer.floor, Roster.seated, Roster.size]

/-- A newcomer reforms the grid, and a new size is reported. -/
theorem reform_enter {v : VideoWall} {admission : Admission Wall Screen}
    (hw : v.room.welcome v.roster.seats = .ok admission) :
    Wall.gridOf (v.floor.enter admission) = v.grid.reform .enter ∧
      .sourceAdded v.roster.upcoming :: admission.events = v.grid.report .enter := by
  have hsize : v.roster.seats.length = v.grid.size := by
    rw [size_grid]
    exact List.length_map ..
  have htaken : v.roster.seats.map Screen.cell = v.grid.cells.map Prod.snd := by
    rw [← v.roster.map_snd_seated]
    simp [grid, Wall.gridOf, Mixer.floor]
  have hcell := (Wall.lowestFree_welcome hw).eq_vacancy
  have hrows : admission.room.rows = max (gridSide (v.grid.size + 1)) v.grid.rows := by
    cases hw
    rw [← hsize]
    rfl
  have hevents : admission.events = v.grid.resized (v.grid.reform .enter) := by
    rw [Grid.resized, Grid.size_reform_enter, ← hsize]
    cases hw
    rw [Grid.reform, ← hsize]
    rfl
  refine ⟨?_, by rw [hevents]; rfl⟩
  rw [htaken] at hcell
  rw [Grid.reform, ← hrows, ← hcell, Wall.gridOf]
  exact congrArg (Grid.mk _ · _) List.map_append

/-- A source that is not there cannot go. -/
theorem reform_exit_of_not_mem {v : VideoWall} {id : SourceId} (h : id ∉ v.roster.ids) :
    v.grid.reform (.exit id) = v.grid ∧ v.grid.report (.exit id) = [] := by
  have hid : id ∉ v.grid.ids := by
    rw [ids_grid]
    exact h
  have hcells : (v.grid.cells.eraseP fun x => x.1 = id) = v.grid.cells := by
    refine List.eraseP_of_forall_not fun x hx he => hid ?_
    rw [← of_decide_eq_true he]
    exact List.mem_map_of_mem hx
  exact ⟨congrArg (Grid.mk _ · _) hcells, if_neg hid⟩

/-- A source that is there goes, and is reported to have gone. -/
theorem reform_exit_of_mem {v : VideoWall} {id : SourceId} (h : id ∈ v.roster.ids) :
    Wall.gridOf (v.floor.exit id) = v.grid.reform (.exit id) ∧
      v.grid.report (.exit id) = [.sourceRemoved id] := by
  have hid : id ∈ v.grid.ids := by
    rw [ids_grid]
    exact h
  refine ⟨?_, if_pos hid⟩
  show Wall.gridOf _ = Grid.mk _ (List.eraseP _ (v.roster.seated.map _)) _
  rw [List.eraseP_map]
  rfl

/-- A compact grid is reported if it has a new size. -/
theorem events_relayout (v : VideoWall) :
    (v.room.serve v.roster.seated .relayout).events = v.grid.report .compact := by
  have hsize : v.roster.seated.length = v.grid.size := (List.length_map ..).symm
  rw [Grid.report, Grid.resized, Grid.size_reform_compact, ← hsize]
  rw [Grid.reform, ← hsize]
  rfl

/-- What an action does to the grid of a wall and all that it reports: nothing at all, or a reform
and its report. -/
theorem reform_cases (v : VideoWall) (a : Action View VideoRequest) :
    (reform? ⟨v, a⟩ = none ∧ grid (v.act a).mixer = v.grid ∧ (v.act a).events = []) ∨
      ∃ r, reform? ⟨v, a⟩ = some r ∧ grid (v.act a).mixer = v.grid.reform r ∧
        (v.act a).events = v.grid.report r := by
  cases a with
  | join sink =>
      rcases v.join_eq_cases (β := Unit) sink with ⟨_, he, hrefused⟩ | ⟨admission, hw, hr, he⟩
      · have hr : v.running = false := by
          rw [← Bool.not_eq_true]
          exact fun hr => hrefused hr _ rfl
        refine .inl ⟨?_, congrArg (fun e => grid e.mixer) he, congrArg Effect.events he⟩
        simp [reform?, hr]
      · obtain ⟨hgrid, hreport⟩ := reform_enter hw
        refine .inr ⟨.enter, ?_, (congrArg (fun e => grid e.mixer) he).trans (Eq.trans ?_ hgrid),
          (congrArg Effect.events he).trans hreport⟩
        · simp [reform?, hr]
        · rw [grid, Mixer.floor, Roster.seated_enrol]
          rfl
  | leave id =>
      rcases v.leave_eq_cases (β := Unit) id with ⟨hn, he⟩ | ⟨hm, he⟩
      · obtain ⟨hgrid, hreport⟩ := reform_exit_of_not_mem hn
        exact .inr ⟨.exit id, rfl, (congrArg (fun e => grid e.mixer) he).trans hgrid.symm,
          (congrArg Effect.events he).trans hreport.symm⟩
      · obtain ⟨hgrid, hreport⟩ := reform_exit_of_mem hm
        refine .inr ⟨.exit id, rfl, (congrArg (fun e => grid e.mixer) he).trans (Eq.trans ?_ hgrid),
          (congrArg Effect.events he).trans hreport.symm⟩
        rw [grid, Mixer.floor, Roster.seated_strike]
        rfl
  | ask r =>
      have hfloor : (v.act (.ask r)).mixer.floor = v.floor.become
          (v.room.serve v.roster.seated r).room (v.room.serve v.roster.seated r).seats := by
        rcases v.floor_act_cases (.ask r) with ⟨hn, _⟩ | ⟨_, _, ha, _⟩ | ⟨_, ha, _⟩ | ⟨_, ha, he⟩
        · exact absurd rfl (hn r)
        · cases ha
        · cases ha
        · cases ha
          exact he
      by_cases hr : r = .relayout
      · subst hr
        exact .inr ⟨.compact, rfl, (congrArg Wall.gridOf hfloor).trans
          (Wall.gridOf_become_relayout v.floor), v.events_relayout⟩
      · refine .inl ⟨?_, (congrArg Wall.gridOf hfloor).trans (Wall.gridOf_become_serve v.floor hr),
          v.room.events_serve v.roster.seated hr⟩
        cases r with
        | relayout => exact absurd rfl hr
        | _ => rfl
  | receive id =>
      refine .inl ⟨rfl, congrArg Wall.gridOf ?_, rfl⟩
      simp only [Mixer.act, Mixer.receive, Mixer.floor, Roster.seated_modifySink]
      rfl
  | hangUp id =>
      refine .inl ⟨rfl, congrArg Wall.gridOf ?_, rfl⟩
      simp only [Mixer.act, Mixer.hangUp, Mixer.floor, Roster.seated_modifySink]
      rfl
  | advance t => exact .inl ⟨rfl, rfl, rfl⟩
  | stop => exact .inl ⟨rfl, rfl, rfl⟩

/-- A look at the clock leaves the grid alone and reports only payloads that were not taken. -/
theorem grid_poll (v : VideoWall) :
    grid v.poll.1 = v.grid ∧ v.poll.2.events.filter (!·.isSinkFault) = [] := by
  rcases v.poll_cases with ⟨timeline, he⟩ | ⟨t, _, _, _, he⟩
  · rw [he]
    exact ⟨rfl, rfl⟩
  · let v' : VideoWall := { v with timeline := some t }
    rw [he]
    refine ⟨?_, filter_not_isSinkFault (v'.round t).2.offers⟩
    have hfloor := v'.floor_round t
    refine (congrArg Wall.gridOf hfloor).trans ?_
    exact Wall.gridOf_become_map (f := v'.floor) rfl fun _ => rfl

/-! ### Grids and reports after all moves -/

theorem reforms_append (ds ds' : List VideoDeed) :
    reforms (ds ++ ds') = reforms ds ++ reforms ds' := List.filterMap_append

theorem reforms_act (v : VideoWall) (a : Action View VideoRequest)
    (vs : List (Move View VideoRequest)) : reforms (v.deedsOf (.act a :: vs)) =
      (reform? ⟨v, a⟩).toList ++ reforms ((v.act a).mixer.deedsOf vs) := by
  show List.filterMap reform? (⟨v, a⟩ :: (v.act a).mixer.deedsOf vs) = _
  rw [List.filterMap_cons]
  cases reform? ⟨v, a⟩ <;> rfl

/-- After all moves, the grid has been reformed as was asked. -/
theorem grid_follow (v : VideoWall) (vs : List (Move View VideoRequest)) :
    grid (v.follow vs).1 = v.grid.reformed (reforms (v.deedsOf vs)) := by
  induction vs generalizing v with
  | nil => rfl
  | cons w vs ih =>
      cases w with
      | act a =>
          refine (ih (v.act a).mixer).trans ?_
          rw [reforms_act]
          rcases v.reform_cases a with ⟨hr, hgrid, _⟩ | ⟨r, hr, hgrid, _⟩
          · rw [hr, hgrid]
            rfl
          · rw [hr, hgrid]
            rfl
      | look =>
          refine (ih v.poll.1).trans ?_
          rw [v.grid_poll.1]
          rfl

/-- In all moves, the reforms are reported, and besides them only payloads that were not taken. -/
theorem reports_follow (v : VideoWall) (vs : List (Move View VideoRequest)) :
    (v.follow vs).2.events.filter (!·.isSinkFault) = v.grid.reports (reforms (v.deedsOf vs)) := by
  induction vs generalizing v with
  | nil => rfl
  | cons w vs ih =>
      rw [Mixer.follow_cons, Log.events_append, List.filter_append]
      cases w with
      | act a =>
          rw [show ((v.move (.act a)).1.follow vs).2.events.filter _ = _ from ih (v.act a).mixer]
          show (v.act a).events.filter _ ++ _ = _
          rw [reforms_act]
          rcases v.reform_cases a with ⟨hr, hgrid, hevents⟩ | ⟨r, hr, hgrid, hevents⟩
          · rw [hr, hgrid, hevents]
            rfl
          · rw [hr, hgrid, hevents, Grid.filter_report]
            rfl
      | look =>
          rw [show ((v.move .look).1.follow vs).2.events.filter _ = _ from ih v.poll.1]
          show v.poll.2.events.filter _ ++ _ = _
          rw [v.grid_poll.1, v.grid_poll.2]
          rfl

/-- A new wall stays arranged in all moves, and no source is on its list twice. -/
theorem arranged_follow (s : VideoSettings) (black : Picture) (paint : Painter)
    (vs : List (Move View VideoRequest)) :
    let v : VideoWall := Mixer.create ⟨s, 1, black, false, paint⟩
    (v.follow vs).1.roster.ids.Nodup ∧ Wall.Arranged (v.follow vs).1.floor := by
  intro v
  obtain ⟨_, _, hk, harranged⟩ := Wall.arranged_kept.reachable
    (Wall.arranged_create s black paint) (Mixer.reachable_follow .start vs)
  rw [← Mixer.ids_floor]
  exact ⟨hk.numbered.nodup, harranged⟩

end VideoWall

end ConferenceMix
