import ConferenceMix.Proofs.VideoWall.Redraw
import Mathlib.Data.List.Perm.Subperm
import Mathlib.Data.List.Nodup

/-! # Every source has a cell of its own

The grid of a wall grows when a source arrives, keeps the cells of those who stay when another
leaves, and shrinks when it is made compact. All of this keeps it `Wall.Arranged`: there is room for
all sources, each has a cell of its own, and at most one has the stage.

`VideoWall.reachable_arranged` says so for all walls that can be reached by actions and looks at the
clock, and what follows: a newcomer always finds a free cell, and the layout lists every source
once. -/

namespace ConferenceMix

namespace Wall

/-! ### Free cells -/

/-- The cells of the sources, in the order of registration. -/
def cellsOf (seated : List (SourceId × Screen)) : List Nat := seated.map fun m => m.2.cell

/-- A cell of a grid that no screen has, though all cells before it are taken. -/
structure LowestFree (rows : Nat) (screens : List Screen) (cell : Nat) : Prop where
  inGrid : cell < rows * rows
  free : ∀ s ∈ screens, s.cell ≠ cell
  lowest : ∀ c, c < cell → ∃ s ∈ screens, s.cell = c

/-- A grid with more cells than screens has a free cell. -/
theorem lowestFree_freeCell {rows : Nat} {screens : List Screen}
    (h : screens.length < rows * rows) : LowestFree rows screens (freeCell rows screens) := by
  unfold freeCell
  cases hf : (List.range (rows * rows)).find? fun c => screens.all fun s => s.cell ≠ c with
  | none =>
      -- all cells are taken, so that there are as many screens as cells
      have hsub : List.range (rows * rows) ⊆ screens.map Screen.cell := by
        intro c hc
        have ht := List.find?_range_eq_none.mp hf c (List.mem_range.mp hc)
        simpa using ht
      have hle := (List.subperm_of_subset List.nodup_range hsub).length_le
      rw [List.length_range, List.length_map] at hle
      exact absurd h (Nat.not_lt.mpr hle)
  | some c =>
      obtain ⟨hfree, hmem, hlow⟩ := List.find?_range_eq_some.mp hf
      exact ⟨List.mem_range.mp hmem, by simpa using hfree, by simpa using hlow⟩

/-! ### Arranged walls -/

/-- The grid has room for all sources, each has a cell of its own in it, and at most one has the
stage. -/
structure Arranged (f : Floor Wall Screen) : Prop where
  rows_pos : 1 ≤ f.room.rows
  room : f.seated.length ≤ f.room.rows * f.room.rows
  inGrid : ∀ m ∈ f.seated, m.2.cell < f.room.rows * f.room.rows
  apart : (cellsOf f.seated).Nodup
  stage : f.seated.Pairwise fun a b => ¬ (a.2.focused = true ∧ b.2.focused = true)

variable {f : Floor Wall Screen}

/-- The grid that a newcomer enters has more cells than there are screens. -/
theorem length_lt_welcome {w : Wall} {screens : List Screen} {a : Admission Wall Screen}
    (hw : w.welcome screens = .ok a) : screens.length < a.room.rows * a.room.rows := by
  cases hw
  have hside := Nat.le_max_left (gridSide (screens.length + 1)) w.rows
  exact Nat.le_trans (le_gridSide_mul_self _) (Nat.mul_le_mul hside hside)

theorem lowestFree_welcome {w : Wall} {screens : List Screen} {a : Admission Wall Screen}
    (hw : w.welcome screens = .ok a) : LowestFree a.room.rows screens a.seat.cell := by
  have hlt := length_lt_welcome hw
  cases hw
  exact lowestFree_freeCell hlt

theorem Arranged.enter (h : Arranged f) {a : Admission Wall Screen}
    (hw : f.room.welcome (f.seated.map Prod.snd) = .ok a) : Arranged (f.enter a) := by
  have hlt := length_lt_welcome hw
  obtain ⟨hcell, hfree, _⟩ := lowestFree_welcome hw
  rw [List.length_map] at hlt
  have hrows : f.room.rows ≤ a.room.rows := by
    cases hw
    exact Nat.le_max_right ..
  have hfocus : a.seat.focused = false := by
    cases hw
    rfl
  refine ⟨Nat.le_trans h.rows_pos hrows, ?_, ?_, ?_, ?_⟩
  · show (f.seated ++ [(f.upcoming, a.seat)]).length ≤ a.room.rows * a.room.rows
    rw [List.length_append]
    exact hlt
  · intro m hm
    rcases List.mem_append.mp hm with hold | hnew
    · exact Nat.lt_of_lt_of_le (h.inGrid m hold) (Nat.mul_le_mul hrows hrows)
    · rw [List.mem_singleton.mp hnew]
      exact hcell
  · show (cellsOf (f.seated ++ [(f.upcoming, a.seat)])).Nodup
    rw [cellsOf, List.map_append, List.nodup_append]
    refine ⟨h.apart, List.nodup_singleton _, ?_⟩
    rintro _ hold _ hnew
    obtain ⟨m, hm, rfl⟩ := List.mem_map.mp hold
    rw [List.mem_singleton.mp hnew]
    exact hfree m.2 (List.mem_map_of_mem hm)
  · refine List.pairwise_append.mpr ⟨h.stage, List.pairwise_singleton _ _, ?_⟩
    rintro _ _ _ hnew ⟨_, hb⟩
    rw [List.mem_singleton.mp hnew, hfocus] at hb
    cases hb

theorem Arranged.exit (h : Arranged f) (id : SourceId) : Arranged (f.exit id) := by
  have hsub : (f.exit id).seated.Sublist f.seated := List.eraseP_sublist
  exact ⟨h.rows_pos, Nat.le_trans hsub.length_le h.room, fun m hm => h.inGrid m (hsub.subset hm),
    h.apart.sublist (hsub.map _), h.stage.sublist hsub⟩

/-- Seats that keep their cells, when at most one of them has the stage. -/
theorem Arranged.become_map (h : Arranged f) {room : Wall} (hrows : room.rows = f.room.rows)
    {g : SourceId × Screen → Screen} (hcell : ∀ m, (g m).cell = m.2.cell)
    (hstage : f.seated.Pairwise fun a b => ¬ ((g a).focused = true ∧ (g b).focused = true)) :
    Arranged (f.become room (f.seated.map g)) := by
  rw [Floor.become_map]
  refine ⟨?_, ?_, ?_, ?_, ?_⟩
  · rw [hrows]
    exact h.rows_pos
  · rw [hrows, List.length_map]
    exact h.room
  · intro m hm
    obtain ⟨x, hx, rfl⟩ := List.mem_map.mp hm
    rw [hrows]
    exact (hcell x).symm ▸ h.inGrid x hx
  · have hc : cellsOf (f.seated.map fun x => (x.1, g x)) = cellsOf f.seated := by
      simp only [cellsOf, List.map_map, Function.comp_def, hcell]
    show (cellsOf (f.seated.map fun x => (x.1, g x))).Nodup
    rw [hc]
    exact h.apart
  · exact List.pairwise_map.mpr hstage

/-- A grid that is made compact gives the sources the first cells in order. -/
theorem Arranged.become_compact (h : Arranged f) {room : Wall}
    (hrows : room.rows = gridSide f.seated.length) :
    Arranged (f.become room (f.seated.mapIdx fun i m => { m.2 with cell := i })) := by
  have hroom : f.seated.length ≤ room.rows * room.rows := by
    rw [hrows]
    exact le_gridSide_mul_self _
  rw [Floor.become_mapIdx]
  refine ⟨?_, ?_, ?_, ?_, ?_⟩
  · rw [hrows]
    exact one_le_gridSide _
  · rw [List.length_mapIdx]
    exact hroom
  · intro m hm
    obtain ⟨i, hi, rfl⟩ := List.mem_mapIdx.mp hm
    exact Nat.lt_of_lt_of_le hi hroom
  · have hcells : cellsOf (f.seated.mapIdx fun i m => (m.1, { m.2 with cell := i })) =
        List.range f.seated.length := by
      apply List.ext_getElem <;> simp [cellsOf]
    show (cellsOf (f.seated.mapIdx fun i m => (m.1, { m.2 with cell := i }))).Nodup
    rw [hcells]
    exact List.nodup_range
  · refine List.pairwise_iff_getElem.mpr ?_
    intro i j hi hj hij
    simp only [List.getElem_mapIdx]
    exact List.pairwise_iff_getElem.mp h.stage i j _ _ hij

theorem Arranged.ask (h : Arranged f) (hn : f.ids.Nodup) (r : VideoRequest) :
    Arranged (f.become (f.room.serve f.seated r).room (f.room.serve f.seated r).seats) := by
  rcases f.room.serve_kinds f.seated r with ⟨id, p, _, hroom, hseats⟩ | ⟨_, hroom, hseats⟩ |
    ⟨_, hroom, id, hseats⟩ | ⟨_, hroom, hseats⟩
  · rw [hseats]
    have hfocused : ∀ m : SourceId × Screen, (if m.1 = id then { m.2 with latest := some p }
        else m.2 : Screen).focused = m.2.focused := by
      intro m
      split <;> rfl
    refine h.become_map (congrArg rows hroom) ?_ (by simpa only [hfocused] using h.stage)
    intro m
    split <;> rfl
  · rw [hseats]
    exact h.become_map (congrArg rows hroom) (fun _ => rfl) h.stage
  · have hrows : (f.room.serve f.seated r).room.rows = f.room.rows := by rw [hroom]
    rw [hseats]
    refine h.become_map hrows (fun _ => rfl) ?_
    -- only the source of that number has the stage
    refine (List.pairwise_map.mp hn).imp ?_
    rintro a b hab ⟨ha, hb⟩
    rw [decide_eq_true_eq] at ha hb
    exact hab (Option.some.inj (ha.trans hb.symm))
  · rw [hseats]
    exact h.become_compact (congrArg rows hroom)

/-- Every action and every round keeps a wall arranged. -/
theorem arranged_kept : Kept (fun _ : Action View VideoRequest => True)
    fun _ (_ : List (Tick Wall Screen View VideoRequest)) f => Arranged f where
  enter _ h _ hw := h.enter hw
  exit _ h _ := h.exit _
  ask hk h _ := h.ask hk.numbered.nodup _
  round t _ _ h := by
    have hrows : t.yield.room.rows = t.mixer.floor.room.rows := rfl
    exact h.become_map hrows (fun _ => rfl) h.stage

theorem arranged_create (s : VideoSettings) (black : Picture) (paint : Painter) :
    Arranged (Mixer.create ⟨s, 1, black, false, paint⟩ : VideoWall).floor :=
  ⟨Nat.le_refl 1, Nat.zero_le _, fun _ hm => absurd hm List.not_mem_nil, List.nodup_nil,
    List.Pairwise.nil⟩

/-! ### The layout of an arranged wall -/

/-- The source in a cell is the one that has it. -/
theorem occupant_eq_some_iff {seated : List (SourceId × Screen)} (h : (cellsOf seated).Nodup)
    {cell : Nat} {id : SourceId} :
    occupant seated cell = some id ↔ ∃ m ∈ seated, m.1 = id ∧ m.2.cell = cell := by
  unfold occupant
  constructor
  · intro ho
    obtain ⟨m, hf, rfl⟩ := Option.map_eq_some_iff.mp ho
    exact ⟨m, List.mem_reverse.mp (List.mem_of_find?_eq_some hf), rfl, by
      simpa using List.find?_some hf⟩
  · rintro ⟨m, hm, rfl, rfl⟩
    cases hf : seated.reverse.find? fun x => x.2.cell = m.2.cell with
    | none =>
        have hne := List.find?_eq_none.mp hf m (List.mem_reverse.mpr hm)
        simp at hne
    | some x =>
        have hx : x = m := List.inj_on_of_nodup_map h
          (List.mem_reverse.mp (List.mem_of_find?_eq_some hf)) hm (by
            simpa using List.find?_some hf)
        rw [hx]
        rfl

theorem isSome_occupant_iff {seated : List (SourceId × Screen)} (h : (cellsOf seated).Nodup)
    {cell : Nat} : (occupant seated cell).isSome ↔ cell ∈ cellsOf seated := by
  rw [Option.isSome_iff_exists, cellsOf, List.mem_map]
  constructor
  · rintro ⟨id, ho⟩
    obtain ⟨m, hm, _, hc⟩ := (occupant_eq_some_iff h).mp ho
    exact ⟨m, hm, hc⟩
  · rintro ⟨m, hm, hc⟩
    exact ⟨m.1, (occupant_eq_some_iff h).mpr ⟨m, hm, rfl, hc⟩⟩

end Wall

/-- A layout has a place for every cell of its grid and shows each of the given sources in one of
them, and no others. -/
structure Layout.Lists (l : Layout) (ids : List SourceId) : Prop where
  full : l.cells.length = l.rows * l.rows
  occupied : l.occupied = ids.length
  once : ∀ id ∈ ids, l.cells.count (some id) = 1

theorem Wall.Arranged.lists {f : Floor Wall Screen} (h : Arranged f) (hn : f.ids.Nodup) :
    (f.room.layout f.seated).Lists f.ids where
  full := by simp [layout]
  occupied := by
    -- the cells with a source are the cells of the sources
    have hperm : ((List.range (f.room.rows * f.room.rows)).filter fun c =>
        (occupant f.seated c).isSome).Perm (cellsOf f.seated) := by
      rw [List.perm_ext_iff_of_nodup (List.nodup_range.filter _) h.apart]
      intro c
      rw [List.mem_filter, List.mem_range, isSome_occupant_iff h.apart]
      refine and_iff_right_of_imp fun hc => ?_
      obtain ⟨m, hm, rfl⟩ := List.mem_map.mp hc
      exact h.inGrid m hm
    have hlength := hperm.length_eq
    rw [cellsOf, List.length_map, ← List.countP_eq_length_filter] at hlength
    simp only [Layout.occupied, layout, List.countP_map, Floor.ids, List.length_map]
    exact hlength
  once := by
    intro id hid
    obtain ⟨m, hm, rfl⟩ := List.mem_map.mp hid
    have hiff : ∀ c, occupant f.seated c = some m.1 ↔ c = m.2.cell := by
      intro c
      rw [occupant_eq_some_iff h.apart]
      constructor
      · rintro ⟨x, hx, he, rfl⟩
        rw [List.inj_on_of_nodup_map hn hx hm he]
      · rintro rfl
        exact ⟨m, hm, rfl, rfl⟩
    calc ((List.range (f.room.rows * f.room.rows)).map (occupant f.seated)).count (some m.1)
        = (List.range (f.room.rows * f.room.rows)).countP fun c =>
            occupant f.seated c == some m.1 := by
          rw [List.count_eq_countP, List.countP_map]
          rfl
      _ = (List.range (f.room.rows * f.room.rows)).count m.2.cell := by
          rw [List.count_eq_countP]
          exact List.countP_congr fun c _ => by simp [hiff]
      _ = 1 := List.count_eq_one_of_mem List.nodup_range (List.mem_range.mpr (h.inGrid m hm))

namespace VideoWall

/-- **Every source has a cell of its own.** A wall with accepted settings can be made. In all walls
that can be reached from it by actions and looks at the clock, in particular after every run, the
grid has room for all sources and each has a cell of its own in it; the layout lists each of them
once; and a newcomer gets the lowest of the cells that are free. -/
theorem reachable_arranged {s : VideoSettings} (h : s.Accepted) (paint : Painter) :
    ∃ v : VideoWall, VideoWall.create s paint = .ok v ∧
      (∀ as : List (Action View VideoRequest), v.Reachable (v.run as).1) ∧
      ∀ m : VideoWall, v.Reachable m →
        Wall.Arranged m.floor ∧ (VideoWall.layout m).Lists m.roster.ids ∧
        ∃ a : Admission Wall Screen, m.room.welcome m.roster.seats = .ok a ∧
          Wall.LowestFree a.room.rows m.roster.seats a.seat.cell := by
  obtain ⟨black, hblack, _⟩ := filled_black h
  let room : Wall := ⟨s, 1, black, false, paint⟩
  have hpos : 0 < Mixing.interval room := VideoSettings.interval_pos h
  refine ⟨Mixer.create room, create_of_accepted h hblack paint, Mixer.reachable_run hpos, ?_⟩
  intro m hm
  obtain ⟨_, _, hk, harranged⟩ := Wall.arranged_kept.reachable
    (Wall.arranged_create s black paint) hm
  refine ⟨harranged, ?_, _, rfl, Wall.lowestFree_welcome rfl⟩
  rw [← m.ids_floor]
  exact harranged.lists hk.numbered.nodup

theorem reachable_arranged_hole :
    ∃ v : VideoWall, VideoWall.create ⟨⟨2, 2⟩, 25, 4⟩ .scaling = .ok v ∧
      (VideoWall.layout (v.run [.join .discard, .join .discard, .leave .first]).1).Lists
        [.next .first] := by
  have ha : VideoSettings.Accepted ⟨⟨2, 2⟩, 25, 4⟩ := by decide
  obtain ⟨v, hv, hrun, harranged⟩ := reachable_arranged ha .scaling
  have hids : (v.run [.join .discard, .join .discard, .leave .first]).1.roster.ids =
      [.next .first] := by
    cases hv
    decide +kernel
  refine ⟨v, hv, ?_⟩
  rw [← hids]
  exact (harranged _ (hrun _)).2.1

end VideoWall

end ConferenceMix
