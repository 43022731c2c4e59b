import ConferenceMix.Proofs.VideoWall.Reforms
import ConferenceMix.Proofs.VideoWall.Rows
import Mathlib.Order.Bounds.Image

/-! # The grid is determined by who came and went

A grid grows when it has no room for a newcomer, and does not shrink until it is made compact. Its rows
are therefore those of the smallest grid for the most sources that there have been since then, the
`Peak` (`VideoWall.peak_follow`). A newcomer gets the least vacant cell, and a source keeps its cell
as long as it stays and the grid is not made compact (`Grid.mem_cells_reform`).

`VideoWall.grid_history` says so of walls with accepted settings, after all moves. -/

namespace ConferenceMix

namespace Grid

variable {g : Grid}

theorem size_reform_exit_le (g : Grid) (id : SourceId) : (g.reform (.exit id)).size ≤ g.size :=
  List.eraseP_sublist.length_le

/-- A grid with room for all its sources has afterwards just enough rows more, unless it is made
compact. -/
theorem rows_reform (hroom : gridSide g.size ≤ g.rows) {r : Reform} (hr : r ≠ .compact) :
    (g.reform r).rows = max (gridSide (g.reform r).size) g.rows := by
  cases r with
  | enter =>
      rw [size_reform_enter]
      rfl
  | exit id =>
      have hle := gridSide_mono (g.size_reform_exit_le id)
      exact (Nat.max_eq_right (Nat.le_trans hle hroom)).symm
  | compact => exact absurd rfl hr

/-- A source that stays keeps its cell, unless the grid is made compact. -/
theorem mem_cells_reform (hn : g.ids.Nodup) {r : Reform} (hr : r ≠ .compact) {id : SourceId}
    {cell : Nat} (hc : (id, cell) ∈ g.cells) (hid : id ∈ (g.reform r).ids) :
    (id, cell) ∈ (g.reform r).cells := by
  cases r with
  | enter => exact List.mem_append_left _ hc
  | exit i =>
      have hne : ¬ id = i := by
        rintro rfl
        rw [ids_reform_exit] at hid
        exact hn.not_mem_erase hid
      exact (List.mem_eraseP_of_neg (by simpa using hne)).mpr hc
  | compact => exact absurd rfl hr

end Grid

namespace VideoWall

/-! ### Moves -/

/-- Only a request for it makes the grid compact. -/
theorem reform?_ne_compact {v : VideoWall} {a : Action View VideoRequest}
    (ha : a ≠ .ask .relayout) {r : Reform} (hr : reform? ⟨v, a⟩ = some r) : r ≠ .compact := by
  rintro rfl
  cases a with
  | join sink =>
      have hr : (if v.running then some Reform.enter else none) = some .compact := hr
      split at hr <;> cases hr
  | ask request =>
      cases request with
      | relayout => exact ha rfl
      | _ => cases hr
  | _ => cases hr

/-- A move that does not make the grid compact leaves it alone, or reforms it in another way. -/
theorem grid_move_cases (v : VideoWall) {w : Move View VideoRequest}
    (hw : w ≠ .act (.ask .relayout)) :
    grid (v.move w).1 = v.grid ∨ ∃ r, r ≠ .compact ∧ grid (v.move w).1 = v.grid.reform r := by
  cases w with
  | act a =>
      rcases v.reform_cases a with ⟨_, hgrid, _⟩ | ⟨r, hr, hgrid, _⟩
      · exact .inl hgrid
      · exact .inr ⟨r, reform?_ne_compact (fun he => hw (congrArg Move.act he)) hr, hgrid⟩
  | look => exact .inl v.grid_poll.1

theorem grid_move_relayout (v : VideoWall) :
    grid (v.move (.act (.ask .relayout))).1 = v.grid.reform .compact := by
  rcases v.reform_cases (.ask .relayout) with ⟨hr, _⟩ | ⟨r, hr, hgrid, _⟩
  · cases hr
  · cases hr
    exact hgrid

theorem rows_move {v : VideoWall} (hroom : gridSide v.grid.size ≤ v.grid.rows)
    {w : Move View VideoRequest} (hw : w ≠ .act (.ask .relayout)) :
    (grid (v.move w).1).rows = max (gridSide (grid (v.move w).1).size) v.grid.rows := by
  rcases v.grid_move_cases hw with hgrid | ⟨r, hr, hgrid⟩
  · rw [hgrid]
    exact (Nat.max_eq_right hroom).symm
  · rw [hgrid]
    exact Grid.rows_reform hroom hr

/-! ### The peak -/

/-- The numbers of sources right after some moves and after each of the moves since. -/
def sizes (v : VideoWall) (before since : List (Move View VideoRequest)) : Set Nat :=
  {k | ∃ us, us <+: since ∧ k = (v.follow (before ++ us)).1.roster.size}

/-- The most sources that there have been since the grid was last made compact, or else since the
beginning: right then, and after each of the moves since. -/
def Peak (v : VideoWall) (vs : List (Move View VideoRequest)) (n : Nat) : Prop :=
  ∃ before since, vs = before ++ since ∧
    (before = [] ∨ ∃ earlier, before = earlier ++ [.act (.ask .relayout)]) ∧
    .act (.ask .relayout) ∉ since ∧ IsGreatest (v.sizes before since) n

/-- Behind the last `r` of a list nothing is left of a part without it. -/
theorem eq_nil_of_last {τ : Type} {r : τ} {before after : List τ}
    (hlast : before ++ after = [] ∨ ∃ earlier, before ++ after = earlier ++ [r])
    (hr : r ∉ after) : after = [] := by
  rcases List.eq_nil_or_concat' after with rfl | ⟨rest, w, rfl⟩
  · rfl
  · rcases hlast with he | ⟨earlier, he⟩
    · simp at he
    · rw [← List.append_assoc] at he
      obtain ⟨_, hw⟩ := List.append_inj' he rfl
      have hlast : r ∈ rest ++ [w] := by
        rw [hw]
        exact List.mem_append_right rest (List.mem_singleton_self r)
      exact absurd hlast hr

theorem Peak.unique {v : VideoWall} {vs : List (Move View VideoRequest)} {n k : Nat}
    (hn : v.Peak vs n) (hk : v.Peak vs k) : n = k := by
  obtain ⟨before, since, rfl, hlast, hsince, hgreatest⟩ := hn
  obtain ⟨before', since', he, hlast', hsince', hgreatest'⟩ := hk
  suffices h : before = before' ∧ since = since' by
    rw [← h.1, ← h.2] at hgreatest'
    exact hgreatest.unique hgreatest'
  -- what one division has more before than the other would come after the last such request
  rcases List.append_eq_append_iff.mp he with ⟨more, rfl, rfl⟩ | ⟨more, rfl, rfl⟩
  · rw [eq_nil_of_last hlast' fun hm => hsince (List.mem_append_left _ hm), List.append_nil]
    exact ⟨rfl, rfl⟩
  · rw [eq_nil_of_last hlast fun hm => hsince' (List.mem_append_left _ hm), List.append_nil]
    exact ⟨rfl, rfl⟩

theorem sizes_nil (v : VideoWall) (before : List (Move View VideoRequest)) :
    v.sizes before [] = {(v.follow before).1.roster.size} := by
  ext k
  constructor
  · rintro ⟨us, hus, rfl⟩
    rw [List.prefix_nil.mp hus, List.append_nil]
    rfl
  · rintro rfl
    exact ⟨[], List.prefix_rfl, by rw [List.append_nil]⟩

theorem sizes_concat (v : VideoWall) (before since : List (Move View VideoRequest))
    (w : Move View VideoRequest) : v.sizes before (since ++ [w]) =
      insert (v.follow (before ++ since ++ [w])).1.roster.size (v.sizes before since) := by
  ext k
  constructor
  · rintro ⟨us, hus, rfl⟩
    rcases List.prefix_concat_iff.mp hus with rfl | hold
    · exact .inl (by rw [List.append_assoc])
    · exact .inr ⟨us, hold, rfl⟩
  · rintro (rfl | ⟨us, hus, rfl⟩)
    · exact ⟨since ++ [w], List.prefix_rfl, by rw [List.append_assoc]⟩
    · exact ⟨us, hus.trans (List.prefix_append ..), rfl⟩

/-- The rows of a wall are those of the smallest grid for its peak. -/
theorem peak_follow {v : VideoWall} (hrows : v.grid.rows = gridSide v.grid.size)
    (vs : List (Move View VideoRequest)) :
    ∃ n, v.Peak vs n ∧ (grid (v.follow vs).1).rows = gridSide n := by
  have hlone : ∀ before, IsGreatest (v.sizes before []) (v.follow before).1.roster.size := by
    intro before
    rw [sizes_nil]
    exact isGreatest_singleton
  induction vs using List.reverseRecOn with
  | nil =>
      refine ⟨_, ⟨[], [], rfl, .inl rfl, List.not_mem_nil, hlone []⟩, ?_⟩
      rw [← size_grid]
      exact hrows
  | append_singleton vs w ih =>
      by_cases hw : w = .act (.ask .relayout)
      · subst hw
        refine ⟨_, ⟨vs ++ [.act (.ask .relayout)], [], (List.append_nil _).symm, .inr ⟨vs, rfl⟩,
          List.not_mem_nil, hlone _⟩, ?_⟩
        rw [← size_grid, Mixer.follow_concat, grid_move_relayout, Grid.size_reform_compact]
        rfl
      · obtain ⟨n, ⟨before, since, rfl, hlast, hsince, hgreatest⟩, hn⟩ := ih
        refine ⟨max (v.follow (before ++ since ++ [w])).1.roster.size n,
          ⟨before, since ++ [w], List.append_assoc .., hlast, ?_, ?_⟩, ?_⟩
        · rw [List.mem_append, List.mem_singleton]
          exact fun h => h.elim hsince fun he => hw he.symm
        · rw [sizes_concat]
          exact hgreatest.insert _
        · -- all sources that are there have been counted, so that there is room for them
          have hcounted : (v.follow (before ++ since)).1.roster.size ≤ n :=
            hgreatest.2 ⟨since, List.prefix_rfl, rfl⟩
          have hroom : gridSide (grid (v.follow (before ++ since)).1).size ≤
              (grid (v.follow (before ++ since)).1).rows := by
            rw [size_grid, hn]
            exact gridSide_mono hcounted
          rw [gridSide_mono.map_max, ← hn, Mixer.follow_concat, rows_move hroom hw, size_grid]

/-! ### The cells of sources -/

/-- A source that is let in gets the least vacant cell. -/
theorem cells_act_join {v : VideoWall} (hr : v.running = true) (sink : Sink View) :
    (grid (v.act (.join sink)).mixer).cells =
      v.grid.cells ++ [(v.roster.upcoming, vacancy (v.grid.cells.map Prod.snd))] := by
  rcases v.reform_cases (.join sink) with ⟨hn, _⟩ | ⟨r, hs, hgrid, _⟩
  · simp [reform?, hr] at hn
  · have he : r = .enter := by
      simpa [reform?, hr, eq_comm] using hs
    rw [hgrid, he]
    rfl

/-- The layout shows every source in its cell. -/
theorem mem_cells_iff_layout {v : VideoWall} (h : Wall.Arranged v.floor) (id : SourceId)
    (cell : Nat) : (id, cell) ∈ v.grid.cells ↔ v.layout.cells[cell]? = some (some id) := by
  have hmem : (id, cell) ∈ v.grid.cells ↔ ∃ m ∈ v.floor.seated, m.1 = id ∧ m.2.cell = cell := by
    rw [grid, Wall.gridOf, List.mem_map]
    simp only [Prod.mk.injEq]
  have hlayout : v.layout.cells[cell]? =
      ((List.range (v.floor.room.rows * v.floor.room.rows))[cell]?).map
        (Wall.occupant v.floor.seated) := List.getElem?_map
  rw [hmem, hlayout]
  by_cases hc : cell < v.floor.room.rows * v.floor.room.rows
  · rw [List.getElem?_range hc, Option.map_some, Option.some_inj, Wall.occupant_eq_some_iff h.apart]
  · rw [List.getElem?_eq_none (by rw [List.length_range]; exact Nat.le_of_not_lt hc)]
    refine iff_of_false ?_ (Option.some_ne_none _).symm
    rintro ⟨m, hm, _, rfl⟩
    exact hc (h.inGrid m hm)

/-- What is known of the grid of a wall from what has been asked of it.

The rows are those of the smallest grid for the most sources that there have been since the grid was
last made compact, or else since the beginning. A source that is registered gets the least vacant
cell, behind the others. A source that stays keeps its cell through all that happens, unless the grid
is made compact, which gives the sources the cells from number 0 on, in the order of registration.
The layout shows just these rows and cells. -/
structure KeepsGrid (v : VideoWall) : Prop where
  rows : ∀ vs, (∃ n, v.Peak vs n) ∧
    ∀ n, v.Peak vs n → (layout (v.follow vs).1).rows = gridSide n
  shown : ∀ vs id cell, (id, cell) ∈ (grid (v.follow vs).1).cells ↔
    (layout (v.follow vs).1).cells[cell]? = some (some id)
  newcomer : ∀ vs sink, (v.follow vs).1.running = true →
    ∃ cell, IsLeast {c | c ∉ (grid (v.follow vs).1).cells.map Prod.snd} cell ∧
      (grid (v.follow (vs ++ [.act (.join sink)])).1).cells =
        (grid (v.follow vs).1).cells ++ [((v.follow vs).1.roster.upcoming, cell)]
  keeps : ∀ vs w, w ≠ .act (.ask .relayout) → ∀ id cell,
    (id, cell) ∈ (grid (v.follow vs).1).cells → id ∈ (v.follow (vs ++ [w])).1.roster.ids →
      (id, cell) ∈ (grid (v.follow (vs ++ [w])).1).cells
  compacts : ∀ vs, (grid (v.follow (vs ++ [.act (.ask .relayout)])).1).cells =
    (v.follow vs).1.roster.ids.zipIdx

/-- **The grid is determined by who came and went.** A wall with accepted settings can be made, and
moves carry out all its runs. After all moves, the rows of its grid and the cells of its sources are
known from the arrivals, the departures and the requests to make the grid compact. -/
theorem grid_history {s : VideoSettings} (h : s.Accepted) (paint : Painter) :
    ∃ v : VideoWall, VideoWall.create s paint = .ok v ∧
      (∀ as : List (Action View VideoRequest), ∃ vs, v.follow vs = v.run as) ∧ v.KeepsGrid := by
  obtain ⟨black, hcreate, hpos⟩ := exists_create h paint
  let v : VideoWall := Mixer.create ⟨s, 1, black, false, paint⟩
  have harranged := arranged_follow s black paint
  refine ⟨v, hcreate, Mixer.exists_follow_eq_run hpos (Mixer.settle_create _), ?_⟩
  exact
    { rows := by
        intro vs
        obtain ⟨n, hpeak, hrows⟩ := peak_follow (v := v) gridSide_zero.symm vs
        refine ⟨⟨n, hpeak⟩, fun k hk => ?_⟩
        rw [hk.unique hpeak]
        exact hrows
      shown := fun vs => mem_cells_iff_layout (harranged vs).2
      newcomer := fun vs sink hr => ⟨_, isLeast_vacancy _, by
        rw [Mixer.follow_concat]
        exact cells_act_join hr sink⟩
      keeps := by
        intro vs w hw id cell hc hid
        rw [Mixer.follow_concat] at hid ⊢
        rcases grid_move_cases (v.follow vs).1 hw with hgrid | ⟨r, hr, hgrid⟩
        · rw [hgrid]
          exact hc
        · have hn : (grid (v.follow vs).1).ids.Nodup := by
            rw [ids_grid]
            exact (harranged vs).1
          rw [← ids_grid, hgrid] at hid
          rw [hgrid]
          exact Grid.mem_cells_reform hn hr hc hid
      compacts := by
        intro vs
        rw [Mixer.follow_concat, grid_move_relayout, ← ids_grid]
        rfl }

/-- Two sources come, the first leaves, and another comes. -/
def comesForAnother : List (Move View VideoRequest) :=
  [.act (.join .discard), .act (.join .discard), .look, .act (.leave .first), .act (.join .discard)]

theorem grid_history_comesForAnother :
    ∃ v : VideoWall, VideoWall.create ⟨⟨2, 2⟩, 25, 4⟩ .scaling = .ok v ∧
      (grid (v.follow comesForAnother).1).cells = [(.next .first, 1), (⟨3⟩, 0)] ∧
      (grid (v.follow (comesForAnother ++ [.act (.ask .relayout)])).1).cells =
        [(.next .first, 0), (⟨3⟩, 1)] ∧
      ∀ n, v.Peak comesForAnother n → (layout (v.follow comesForAnother).1).rows = gridSide n := by
  have ha : VideoSettings.Accepted ⟨⟨2, 2⟩, 25, 4⟩ := by decide
  obtain ⟨v, hv, _, hgrid⟩ := grid_history ha .scaling
  have hids : (v.follow comesForAnother).1.roster.ids = [.next .first, ⟨3⟩] := by
    cases hv
    decide +kernel
  refine ⟨v, hv, ?_, (hgrid.compacts comesForAnother).trans ?_, (hgrid.rows comesForAnother).2⟩
  · cases hv
    decide +kernel
  · rw [hids]
    rfl

end VideoWall

end ConferenceMix
