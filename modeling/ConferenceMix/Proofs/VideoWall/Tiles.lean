import ConferenceMix.Proofs.VideoWall.Grid
import Mathlib.Data.List.Pairwise

/-! # Tiles lie within the picture and apart from each other

The shares of a grid do not overlap, whatever is lost in dividing, as long as the products they begin
with have 32 bits, and neither do the stage and the tiles beside it. On an arranged wall it follows
that all tiles fit into the picture (`Wall.Arranged.tiles_fit`) and that no pixel lies in two of them
(`Wall.Arranged.tiles_apart`).

`VideoWall.reachable_tiled` says so for all walls that can be reached by actions and looks at the
clock: their layouts give every source one tile in the picture, apart from all others. -/

namespace ConferenceMix

/-! ### Rectangles -/

namespace Rect

/-- No pixel lies in both rectangles. -/
def Apart (a b : Rect) : Prop := ∀ x y, a.Contains x y → ¬ b.Contains x y

theorem Apart.symm {a b : Rect} (h : a.Apart b) : b.Apart a := fun x y hb ha => h x y ha hb

end Rect

namespace Size

variable {s : Size}

/-! ### Tiles of the grid -/

/-- A share ends before any later one begins. -/
theorem share_le {i j a n : Nat} (h : i < j) : i * a / n + a / n ≤ j * a / n := by
  have hsucc : i * a + a ≤ j * a := by
    rw [← Nat.succ_mul]
    exact Nat.mul_le_mul_right a h
  exact Nat.le_trans Nat.div_add_div_le_add_div (Nat.div_le_div_right hsucc)

/-- Different shares have nothing in common. -/
theorem share_disjoint {i j a n x : Nat} (h : i ≠ j) (hi : i * a / n ≤ x)
    (hi' : x - i * a / n < a / n) (hj : j * a / n ≤ x) : ¬ x - j * a / n < a / n := by
  rcases Nat.lt_or_gt_of_ne h with hlt | hlt
  · have := share_le (a := a) (n := n) hlt
    omega
  · have := share_le (a := a) (n := n) hlt
    omega

/-- The tile of a cell of the grid begins with the products as they are. -/
theorem gridTile_eq {rows cell : Nat} (hd : s.Divides rows) (h : cell < rows * rows) :
    s.gridTile rows cell =
      ⟨cell % rows * s.width / rows, cell / rows * s.height / rows, s.width / rows,
        s.height / rows⟩ := by
  have hr : 0 < rows := by
    rcases Nat.eq_zero_or_pos rows with rfl | hr
    · cases h
    · exact hr
  have hcut : ∀ i a, i < rows → rows * a < halfWordCount → halfWord (i * a) = i * a :=
    fun i a hi ha => halfWord_of_lt (Nat.lt_of_le_of_lt (Nat.mul_le_mul_right a (Nat.le_of_lt hi)) ha)
  rw [gridTile, Nat.max_eq_left hr, hcut _ _ (Nat.mod_lt cell hr) hd.1,
    hcut _ _ (Nat.div_lt_of_lt_mul h) hd.2]

theorem gridTile_apart {rows i j : Nat} (hd : s.Divides rows) (hi : i < rows * rows)
    (hj : j < rows * rows) (h : i ≠ j) : (s.gridTile rows i).Apart (s.gridTile rows j) := by
  rw [gridTile_eq hd hi, gridTile_eq hd hj]
  intro x y hi hj
  obtain ⟨hix, hiy, hiw, hih⟩ := hi
  obtain ⟨hjx, hjy, hjw, hjh⟩ := hj
  dsimp only at hix hiy hiw hih hjx hjy hjw hjh
  by_cases hcol : i % rows = j % rows
  · -- cells of one column lie in different rows
    have hrow : i / rows ≠ j / rows := by
      intro hrow
      apply h
      rw [← Nat.div_add_mod i rows, ← Nat.div_add_mod j rows, hcol, hrow]
    exact share_disjoint hrow hiy hih hjy hjh
  · exact share_disjoint hcol hix hiw hjx hjw

/-! ### Tiles of the stage -/

theorem mainTile_apart {n : Nat} (h : 1 < n) (slot : Nat) :
    (s.mainTile n).Apart (s.sideTile n slot) := by
  intro x y hm hs
  rw [mainTile, if_neg (Nat.not_le.mpr h)] at hm
  have hlt : x - 0 < halfWord (s.width * 3) / 4 := hm.2.2.1
  have hle : halfWord (s.width * 3) / 4 ≤ x := hs.1
  omega

theorem sideTile_apart {n i j : Nat} (h : i < j) :
    (s.sideTile n i).Apart (s.sideTile n j) := by
  intro x y hi hj
  obtain ⟨_, hiy, _, hih⟩ := hi
  obtain ⟨_, hjy, _, _⟩ := hj
  simp only [sideTile] at hiy hih hjy
  have hle := Nat.mul_le_mul_right (s.height / (max n 2 - 1)) h
  rw [Nat.succ_mul] at hle
  omega

end Size

namespace Wall

/-- No source has the stage. -/
def unfocused (m : SourceId × Screen) : Bool := !m.2.focused

/-- The tiles of a wall with a stage are the stage itself, if the source that has it is among the
given ones, and tiles beside it. -/
theorem mem_stageTiles {size : Size} {n slot : Nat} {l : List (SourceId × Screen)}
    {t : SourceId × Rect} (ht : t ∈ stageTiles size n slot l) :
    ((∃ m ∈ l, m.2.focused = true) ∧ t.2 = size.mainTile n) ∨
      ∃ k, slot ≤ k ∧ k < slot + l.countP unfocused ∧ t.2 = size.sideTile n k := by
  induction l generalizing slot with
  | nil => cases ht
  | cons m ms ih =>
      unfold stageTiles at ht
      by_cases hf : m.2.focused = true
      · rw [if_pos hf] at ht
        have hcount : (m :: ms).countP unfocused = ms.countP unfocused :=
          List.countP_cons_of_neg (by simp [unfocused, hf])
        rcases List.mem_cons.mp ht with rfl | hm
        · exact .inl ⟨⟨m, List.mem_cons_self .., hf⟩, rfl⟩
        · rw [hcount]
          rcases ih hm with ⟨⟨x, hx, hxf⟩, he⟩ | hside
          · exact .inl ⟨⟨x, List.mem_cons_of_mem _ hx, hxf⟩, he⟩
          · exact .inr hside
      · rw [if_neg hf] at ht
        have hcount : (m :: ms).countP unfocused = ms.countP unfocused + 1 :=
          List.countP_cons_of_pos (by simp [unfocused, hf])
        rw [hcount]
        rcases List.mem_cons.mp ht with rfl | hm
        · exact .inr ⟨slot, Nat.le_refl _, by omega, rfl⟩
        · rcases ih hm with ⟨⟨x, hx, hxf⟩, he⟩ | ⟨k, hlo, hhi, he⟩
          · exact .inl ⟨⟨x, List.mem_cons_of_mem _ hx, hxf⟩, he⟩
          · exact .inr ⟨k, by omega, by omega, he⟩

/-- With at most one source on stage, no two tiles overlap. -/
theorem stageTiles_apart {size : Size} {n slot : Nat} {l : List (SourceId × Screen)}
    (hn : l.length ≤ n)
    (h : l.Pairwise fun a b => ¬ (a.2.focused = true ∧ b.2.focused = true)) :
    (stageTiles size n slot l).Pairwise fun a b => a.2.Apart b.2 := by
  induction l generalizing slot with
  | nil => exact List.Pairwise.nil
  | cons m ms ih =>
      obtain ⟨hm, hms⟩ := List.pairwise_cons.mp h
      have htwo : ∀ x ∈ ms, 1 < n := by
        intro x hx
        have := List.length_pos_of_mem hx
        rw [List.length_cons] at hn
        omega
      unfold stageTiles
      split
      · rename_i hf
        refine List.pairwise_cons.mpr ⟨fun t ht => ?_, ih (Nat.le_of_succ_le hn) hms⟩
        rcases mem_stageTiles ht with ⟨⟨x, hx, hxf⟩, _⟩ | ⟨k, _, hk, he⟩
        · exact absurd ⟨hf, hxf⟩ (hm x hx)
        · rw [he]
          obtain ⟨x, hx, _⟩ := List.countP_pos_iff.mp (show 0 < ms.countP unfocused by omega)
          exact Size.mainTile_apart (htwo x hx) k
      · refine List.pairwise_cons.mpr ⟨fun t ht => ?_, ih (Nat.le_of_succ_le hn) hms⟩
        rcases mem_stageTiles ht with ⟨⟨x, hx, _⟩, he⟩ | ⟨k, hk, _, he⟩
        · rw [he]
          exact (Size.mainTile_apart (htwo x hx) slot).symm
        · rw [he]
          exact Size.sideTile_apart hk

/-! ### Tiles of an arranged wall -/

variable {f : Floor Wall Screen}

/-- No pixel lies in two tiles. -/
theorem Arranged.tiles_apart (h : Arranged f) (hd : f.room.settings.size.Divides f.room.rows) :
    (f.room.tiles f.seated).Pairwise fun a b => a.2.Apart b.2 := by
  unfold tiles
  split
  · exact stageTiles_apart (Nat.le_refl _) h.stage
  · refine List.pairwise_map.mpr ((List.pairwise_map.mp h.apart).imp_of_mem ?_)
    exact fun ha hb => Size.gridTile_apart hd (h.inGrid _ ha) (h.inGrid _ hb)

/-- No tile leaves the picture. -/
theorem Arranged.tiles_fit (h : Arranged f) {t : SourceId × Rect}
    (ht : t ∈ f.room.tiles f.seated) : f.room.settings.size.Encloses t.2 := by
  unfold tiles at ht
  split at ht
  · rename_i hfocus
    rcases mem_stageTiles ht with ⟨_, he⟩ | ⟨k, _, hk, he⟩
    · rw [he]
      exact Size.mainTile_fits _ _
    · rw [he]
      refine Size.sideTile_fits _ ?_
      -- the source on stage is not among those beside it
      obtain ⟨m, hm, hf⟩ : ∃ m ∈ f.seated, m.2.focused = true := by
        rw [focus?, Option.isSome_map] at hfocus
        simpa using hfocus
      have hne : f.seated.countP unfocused ≠ f.seated.length := fun he => by
        have hu := List.countP_eq_length.mp he m hm
        simp [unfocused, hf] at hu
      have hle : f.seated.countP unfocused ≤ f.seated.length := List.countP_le_length
      omega
  · obtain ⟨m, hm, rfl⟩ := List.mem_map.mp ht
    exact Size.gridTile_fits _ (h.inGrid m hm)

/-- No action and no round touches the settings of a wall. -/
theorem settings_kept (s : VideoSettings) : Kept (fun _ : Action View VideoRequest => True)
    fun _ (_ : List (Tick Wall Screen View VideoRequest)) f => f.room.settings = s where
  enter _ h _ hw := by
    cases hw
    exact h
  exit _ h _ := h
  ask := by
    intro _ _ f _ r _ h _
    refine Eq.trans ?_ h
    show (f.room.serve f.seated r).room.settings = f.room.settings
    rcases f.room.serve_kinds f.seated r with ⟨_, _, _, hroom, _⟩ | ⟨_, hroom, _⟩ |
      ⟨_, hroom, _⟩ | ⟨_, hroom, _⟩ <;> rw [hroom]
  round _ _ _ h := h

end Wall

/-- A layout gives each of the given sources one tile, in their order. All tiles lie within a
picture of the given size, and no pixel lies in the tiles of two sources if the products that the tiles
begin with have 32 bits. -/
structure Layout.Tiles (l : Layout) (size : Size) (ids : List SourceId) : Prop where
  sources : l.tiles.map Prod.fst = ids
  once : ids.Nodup
  within : ∀ t ∈ l.tiles, size.Encloses t.2
  apart : size.Divides l.rows → ∀ t ∈ l.tiles, ∀ u ∈ l.tiles, t.1 ≠ u.1 → t.2.Apart u.2

theorem Wall.Arranged.layout_tiles {f : Floor Wall Screen} (h : Arranged f) (hn : f.ids.Nodup) :
    (f.room.layout f.seated).Tiles f.room.settings.size f.ids where
  sources := f.room.map_fst_tiles f.seated
  once := hn
  within _ ht := h.tiles_fit ht
  apart hd t ht u hu hne := by
    have : Std.Symm fun a b : SourceId × Rect => a.2.Apart b.2 := ⟨fun _ _ => .symm⟩
    exact (h.tiles_apart hd).forall ht hu fun he => hne (congrArg Prod.fst he)

namespace VideoWall

/-- **Tiles never overlap and never leave the picture.** A wall with accepted settings can be made.
In all walls that can be reached from it by actions and looks at the clock, in particular after every
run, the layout has one tile for every source, in the order of registration; every tile lies within
the picture, and no pixel lies in the tiles of two sources if the products that the tiles begin with
have 32 bits. -/
theorem reachable_tiled {s : VideoSettings} (h : s.Accepted) (paint : Painter) :
    ∃ v : VideoWall, VideoWall.create s paint = .ok v ∧
      (∀ as : List (Action View VideoRequest), v.Reachable (v.run as).1) ∧
      ∀ m : VideoWall, v.Reachable m → (VideoWall.layout m).Tiles s.size m.roster.ids := by
  obtain ⟨black, hblack, _⟩ := filled_black h
  let room : Wall := ⟨s, 1, black, false, paint⟩
  have hpos : 0 < Mixing.interval room := VideoSettings.interval_pos h
  refine ⟨Mixer.create room, create_of_accepted h hblack paint, Mixer.reachable_run hpos, ?_⟩
  intro m hm
  obtain ⟨_, _, hk, harranged⟩ := Wall.arranged_kept.reachable
    (Wall.arranged_create s black paint) hm
  obtain ⟨_, _, _, hsettings⟩ := (Wall.settings_kept s).reachable rfl hm
  rw [← m.ids_floor, ← hsettings]
  exact harranged.layout_tiles hk.numbered.nodup

theorem reachable_tiled_stage :
    ∃ v : VideoWall, VideoWall.create ⟨⟨5, 5⟩, 25, 4⟩ .scaling = .ok v ∧
      (VideoWall.layout (v.run [.join .discard, .join .discard, .join .discard,
        .ask (.focus (.next .first) true)]).1).Tiles ⟨5, 5⟩
          [.first, .next .first, .next (.next .first)] := by
  have ha : VideoSettings.Accepted ⟨⟨5, 5⟩, 25, 4⟩ := by decide
  obtain ⟨v, hv, hrun, htiled⟩ := reachable_tiled ha .scaling
  have hids : (v.run [.join .discard, .join .discard, .join .discard,
      .ask (.focus (.next .first) true)]).1.roster.ids =
        [.first, .next .first, .next (.next .first)] := by
    cases hv
    decide +kernel
  refine ⟨v, hv, ?_⟩
  rw [← hids]
  exact htiled _ (hrun _)

end VideoWall

end ConferenceMix
