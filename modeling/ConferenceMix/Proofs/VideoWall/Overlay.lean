import ConferenceMix.Proofs.Picture.Brush
import ConferenceMix.VideoWall.Basic

/-! # Drawing all tiles of a wall

Tiles are a matter of cells and of the stage (`Wall.tiles_map`). Drawing the latest pictures into
all of them is one daub with the `overlay` of their brushes (`Wall.drawAll_eq_daub`), and a new
picture reaches all the places of the one before (`Wall.overlay_within_put`). -/

namespace ConferenceMix

namespace Wall

variable {w : Wall} {seated : List (SourceId × Screen)}

/-! ### Tiles -/

theorem map_fst_tiles (w : Wall) (seated : List (SourceId × Screen)) :
    (w.tiles seated).map Prod.fst = seated.map Prod.fst := by
  have hs : ∀ (size : Size) (n slot : Nat) (l : List (SourceId × Screen)),
      (stageTiles size n slot l).map Prod.fst = l.map Prod.fst := by
    intro size n slot l
    induction l generalizing slot with
    | nil => rfl
    | cons m ms ih =>
        unfold stageTiles
        split <;> simp [ih]
  unfold tiles
  split
  · exact hs ..
  · simp

/-- Tiles are a matter of cells and of the stage; nothing else about a screen counts. -/
theorem tiles_map {g : SourceId × Screen → Screen} (hc : ∀ m, (g m).cell = m.2.cell)
    (hf : ∀ m, (g m).focused = m.2.focused) (w : Wall) (seated : List (SourceId × Screen)) :
    w.tiles (seated.map fun m => (m.1, g m)) = w.tiles seated := by
  have hstage : ∀ (size : Size) (n slot : Nat) (l : List (SourceId × Screen)),
      stageTiles size n slot (l.map fun m => (m.1, g m)) = stageTiles size n slot l := by
    intro size n slot l
    induction l generalizing slot with
    | nil => rfl
    | cons m ms ih => simp only [List.map_cons, stageTiles, hf, ih]
  have hfocus : focus? (seated.map fun m => (m.1, g m)) = focus? seated := by
    simp only [focus?, List.find?_map, Option.map_map, Function.comp_def, hf]
  unfold tiles
  rw [hfocus, hstage, List.length_map, List.map_map]
  simp only [Function.comp_def, hc]

/-! ### Drawing all tiles -/

/-- The brush that draws the latest picture of a source, if it has one, into a tile. -/
def tileBrush (s : Size) (tile : Screen × Rect) : Brush :=
  match tile.1.latest with
  | none => .clear
  | some source => tile.2.brush s source

/-- The screens of the sources with their tiles. -/
def framed (w : Wall) (seated : List (SourceId × Screen)) : List (Screen × Rect) :=
  (seated.map Prod.snd).zip ((w.tiles seated).map Prod.snd)

/-- The brushes of all tiles over each other, in the order of registration. -/
def overlay (w : Wall) (seated : List (SourceId × Screen)) : Brush :=
  (w.framed seated).foldl (fun b tile => (tileBrush w.settings.size tile).atop b) .clear

/-- The picture that the tiles of the next round are drawn on. -/
def ground (w : Wall) : Picture := if w.stale then w.composite.fill .black else w.composite

/-- A round draws the latest pictures on the ground. -/
theorem composite_mix (w : Wall) (stamp : Nanos) (seated : List (SourceId × Screen)) :
    (w.mix stamp seated).room.composite = (w.framed seated).foldl (drawTile w.painter) w.ground :=
  rfl

/-- The ground is as large as the black picture, in planes of the same kind, and as good to start
from. -/
theorem ground_of_blackened {black : Picture} (hb : w.composite.fill .black = black)
    (hf : black.format = .yuv420p) :
    w.ground.format = .yuv420p ∧ w.ground.size = black.size ∧ w.ground.fill .black = black := by
  have hformat : w.composite.format = .yuv420p := by
    rw [← hf, ← hb, Picture.format_fill]
  have hsize : w.composite.size = black.size := by rw [← hb, Picture.size_fill]
  unfold ground
  split
  · rw [Picture.fill_fill _ _ hformat, hb]
    exact ⟨hf, rfl, rfl⟩
  · exact ⟨hformat, hsize, hb⟩

theorem drawTile_eq_daub {target : Picture} (h : target.format = .yuv420p) (tile : Screen × Rect) :
    drawTile .scaling target tile = target.daub (tileBrush target.size tile) := by
  unfold drawTile tileBrush
  cases tile.1.latest with
  | none => exact target.daub_clear.symm
  | some source => exact Painter.attempt_scaling h tile.2

/-- Drawing all tiles is one daub. -/
theorem drawAll_eq_daub (hp : w.painter = .scaling) {target : Picture}
    (hf : target.format = .yuv420p) (hs : target.size = w.settings.size)
    (seated : List (SourceId × Screen)) :
    w.drawAll seated target = target.daub (w.overlay seated) := by
  have h : ∀ (tiles : List (Screen × Rect)) (p : Picture), p.format = .yuv420p →
      p.size = w.settings.size → tiles.foldl (drawTile w.painter) p =
        tiles.foldl (fun q tile => q.daub (tileBrush w.settings.size tile)) p := by
    intro tiles
    induction tiles with
    | nil => exact fun _ _ _ => rfl
    | cons tile tiles ih =>
        intro p hpf hps
        rw [List.foldl_cons, List.foldl_cons, hp, drawTile_eq_daub hpf, hps, ← hp]
        exact ih _ (by rw [Picture.format_daub, hpf]) (by rw [Picture.size_daub, hps])
  exact (h _ target hf hs).trans (Picture.foldl_daub _ target _)

/-- The screens with their tiles after a change that keeps the cells and the stage. -/
theorem framed_map {g : SourceId × Screen → Screen} (hc : ∀ m, (g m).cell = m.2.cell)
    (hf : ∀ m, (g m).focused = m.2.focused) (w : Wall) (seated : List (SourceId × Screen)) :
    w.framed (seated.map fun m => (m.1, g m)) =
      (seated.map g).zip ((w.tiles seated).map Prod.snd) := by
  rw [framed, tiles_map hc hf, List.map_map]
  rfl

/-- If every new screen reaches all the places of the old one, so do all of them together. -/
theorem overlay_within {g : SourceId × Screen → Screen} (hc : ∀ m, (g m).cell = m.2.cell)
    (hf : ∀ m, (g m).focused = m.2.focused) (w : Wall)
    (hbrush : ∀ m r, (tileBrush w.settings.size (m.2, r)).Within
      (tileBrush w.settings.size (g m, r))) (seated : List (SourceId × Screen)) :
    (w.overlay seated).Within (w.overlay (seated.map fun m => (m.1, g m))) := by
  have hfold : ∀ (ms : List (SourceId × Screen)) (rs : List Rect) (b b' : Brush), b.Within b' →
      (((ms.map Prod.snd).zip rs).foldl (fun b tile => (tileBrush w.settings.size tile).atop b)
        b).Within (((ms.map g).zip rs).foldl
          (fun b tile => (tileBrush w.settings.size tile).atop b) b') := by
    intro ms rs
    induction ms generalizing rs with
    | nil => exact fun _ _ h => h
    | cons m ms ih =>
        intro b b' h
        cases rs with
        | nil => exact h
        | cons r rs => exact ih rs _ _ ((hbrush m r).atop h)
  unfold overlay
  rw [framed_map hc hf]
  exact hfold seated _ _ _ (.refl _)

/-- A new picture of a source reaches all the places of the one before. -/
theorem overlay_within_put (w : Wall) (seated : List (SourceId × Screen)) (id : SourceId)
    (p : Picture) :
    (w.overlay seated).Within (w.overlay (seated.map fun m =>
      (m.1, if m.1 = id then { m.2 with latest := some p } else m.2))) := by
  refine overlay_within ?_ ?_ w ?_ seated
  · intro m
    split <;> rfl
  · intro m
    split <;> rfl
  · intro m r
    unfold tileBrush
    by_cases hm : m.1 = id
    · cases hl : m.2.latest with
      | none => exact Brush.clear_within _
      | some q =>
          simp only [hm, if_true]
          exact r.brush_within w.settings.size q p
    · simp only [hm, if_false]
      exact .refl _

end Wall

end ConferenceMix
