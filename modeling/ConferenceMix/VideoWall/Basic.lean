import ConferenceMix.Picture.Frame
import ConferenceMix.Session.Worker
import ConferenceMix.VideoWall.Settings
import ConferenceMix.VideoWall.Tiling

/-! # Video walls

A `VideoWall` is a mixer of pictures. It keeps the latest picture of every source and composes all
of them into one, which every source is shown. In the grid each source has a cell, which it keeps
while others come and go; the grid grows when it is full and is made compact on request. When one
source has the stage, it is shown large and the others beside it.

The composite is drawn over from round to round and made black first when it is stale, that is, when
tiles may have changed since it was last drawn. `Wall.redrawn` is the composite drawn from
scratch. -/

namespace ConferenceMix

/-- What a video wall keeps for a source. -/
structure Screen where
  /-- The latest picture of the source. -/
  latest : Option Picture
  /-- The cell of the source in the grid. -/
  cell : Nat
  /-- The source has the stage. -/
  focused : Bool
deriving DecidableEq, Repr

/-- What a source is shown: the composite picture of one round. -/
structure View where
  picture : Picture
  timestamp : Nanos
  /-- The timestamp on a clock of 90 kHz with 32 bits. -/
  mediaTime : Nat
  recipient : SourceId
deriving DecidableEq, Repr

/-- The time of a span on a clock of 90 kHz with 32 bits, in whole milliseconds. -/
def mediaTime (t : Nanos) : Nat := t.millis * 90 % Nat.pow 2 32

/-- Where the sources are shown. -/
structure Layout where
  rows : Nat
  /-- The source in each cell of the grid, row by row. -/
  cells : List (Option SourceId)
  /-- The source on stage. -/
  focus : Option SourceId
  /-- The tile of each source, in the order of registration. -/
  tiles : List (SourceId × Rect)
deriving DecidableEq, Repr

namespace Layout

/-- The number of cells with a source. -/
def occupied (l : Layout) : Nat := l.cells.countP Option.isSome

/-- The tile of a source. -/
def tile? (l : Layout) (id : SourceId) : Option Rect :=
  (l.tiles.find? fun t => t.1 = id).map Prod.snd

end Layout

/-- What a video wall keeps for the room. -/
structure Wall where
  settings : VideoSettings
  rows : Nat
  composite : Picture
  /-- The composite has to be made black before it is drawn over. -/
  stale : Bool
  painter : Painter

/-- What can be asked of a video wall. -/
inductive VideoRequest where
  /-- Replaces the latest picture of a source. -/
  | put (id : SourceId) (picture : Picture)
  /-- Gives the stage to a source, or to none. -/
  | stage (id : Option SourceId)
  /-- Gives the stage to a source, or takes it away if that source has it. -/
  | focus (id : SourceId) (on : Bool)
  /-- Makes the grid compact. -/
  | relayout
deriving DecidableEq, Repr

namespace Wall

/-! ### Tiles -/

/-- The source on stage. -/
def focus? (seated : List (SourceId × Screen)) : Option SourceId :=
  (seated.find? fun m => m.2.focused).map Prod.fst

/-- The tiles of a wall with a source on stage; `slot` sources before these are beside the stage. -/
def stageTiles (size : Size) (n : Nat) : Nat → List (SourceId × Screen) → List (SourceId × Rect)
  | _, [] => []
  | slot, m :: ms =>
      if m.2.focused then (m.1, size.mainTile n) :: stageTiles size n slot ms
      else (m.1, size.sideTile n slot) :: stageTiles size n (slot + 1) ms

/-- The tile of every source, in the order of registration. -/
def tiles (w : Wall) (seated : List (SourceId × Screen)) : List (SourceId × Rect) :=
  if (focus? seated).isSome then stageTiles w.settings.size seated.length 0 seated
  else seated.map fun m => (m.1, w.settings.size.gridTile w.rows m.2.cell)

/-- The last source in the given cell. -/
def occupant (seated : List (SourceId × Screen)) (cell : Nat) : Option SourceId :=
  (seated.reverse.find? fun m => m.2.cell = cell).map Prod.fst

/-- Where the sources are shown. -/
def layout (w : Wall) (seated : List (SourceId × Screen)) : Layout :=
  { rows := w.rows
    cells := (List.range (w.rows * w.rows)).map (occupant seated)
    focus := focus? seated
    tiles := w.tiles seated }

/-- The lowest cell of a grid that no source has, or the number of cells if all are taken. -/
def freeCell (rows : Nat) (screens : List Screen) : Nat :=
  ((List.range (rows * rows)).find? fun c => screens.all fun s => s.cell ≠ c).getD (rows * rows)

/-! ### Coming, going and requests -/

/-- Takes in a newcomer: it gets the lowest free cell of a grid that is grown if need be. -/
def welcome (w : Wall) (screens : List Screen) : Except Misuse (Admission Wall Screen) :=
  let n := screens.length + 1
  let rows := max (gridSide n) w.rows
  .ok
    { room := { w with rows, stale := true }
      seat := ⟨none, freeCell rows screens, false⟩
      events := if rows = w.rows then [] else [.layoutChanged rows n] }

/-- The wall after a source has left. -/
def depart (w : Wall) : Wall := { w with stale := true }

/-- Gives the stage to a source, or to none. -/
def stage (w : Wall) (seated : List (SourceId × Screen)) (id : Option SourceId) :
    Service Wall Screen Unit :=
  match id.filter fun i => seated.all fun m => m.1 ≠ i with
  | some i => ⟨w, seated.map Prod.snd, .error (.misuse (.unregisteredFocus i)), 0, []⟩
  | none =>
      ⟨{ w with stale := true }, seated.map fun m => { m.2 with focused := decide (some m.1 = id) },
        .ok (), 0, []⟩

/-- Carries out a request. -/
def serve (w : Wall) (seated : List (SourceId × Screen)) : VideoRequest → Service Wall Screen Unit
  | .put id picture =>
      ⟨w, seated.map fun m => if m.1 = id then { m.2 with latest := some picture } else m.2, .ok (),
        0, []⟩
  | .stage id => w.stage seated id
  | .focus id on =>
      if on then { w.stage seated (some id) with answer := .ok () }
      else if focus? seated = some id then w.stage seated none
      else ⟨w, seated.map Prod.snd, .ok (), 0, []⟩
  | .relayout =>
      let rows := gridSide seated.length
      ⟨{ w with rows, stale := true }, seated.mapIdx fun i m => { m.2 with cell := i }, .ok (), 0,
        if rows = w.rows then [] else [.layoutChanged rows seated.length]⟩

/-! ### Composing -/

/-- Draws the latest picture of a source, if it has one, into a tile. -/
def drawTile (paint : Painter) (target : Picture) (tile : Screen × Rect) : Picture :=
  match tile.1.latest with
  | none => target
  | some source => paint.attempt source target tile.2

/-- Draws the latest picture of every source into its tile, in the order of registration. -/
def drawAll (w : Wall) (seated : List (SourceId × Screen)) (target : Picture) : Picture :=
  ((seated.map Prod.snd).zip ((w.tiles seated).map Prod.snd)).foldl (drawTile w.painter) target

/-- The composite drawn from scratch. -/
def redrawn (w : Wall) (seated : List (SourceId × Screen)) : Picture :=
  w.drawAll seated (w.composite.fill .black)

/-- What a source is shown in the round with the given timestamp. -/
def view (picture : Picture) (stamp : Nanos) (id : SourceId) : View :=
  ⟨picture, stamp, ConferenceMix.mediaTime stamp, id⟩

/-- One round: the composite is drawn over and shown to every source. -/
def mix (w : Wall) (stamp : Nanos) (seated : List (SourceId × Screen)) : Yield Wall Screen View :=
  let base := if w.stale then w.composite.fill .black else w.composite
  let composite := w.drawAll seated base
  { room := { w with composite, stale := false }
    seats := seated.map Prod.snd
    payloads := seated.map fun m => view composite stamp m.1
    underruns := 0
    events := [] }

/-- A round on a stale wall leaves the composite drawn from scratch. -/
theorem composite_mix_of_stale {w : Wall} (h : w.stale = true) (stamp : Nanos)
    (seated : List (SourceId × Screen)) : (w.mix stamp seated).room.composite = w.redrawn seated := by
  simp [mix, redrawn, h]

theorem length_payloads_mix (w : Wall) (stamp : Nanos) (seated : List (SourceId × Screen)) :
    (w.mix stamp seated).payloads.length = seated.length := by
  simp [mix]

theorem length_tiles (w : Wall) (seated : List (SourceId × Screen)) :
    (w.tiles seated).length = seated.length := by
  have hs : ∀ (size : Size) (n slot : Nat) (l : List (SourceId × Screen)),
      (stageTiles size n slot l).length = l.length := by
    intro size n slot l
    induction l generalizing slot with
    | nil => rfl
    | cons m ms ih =>
        unfold stageTiles
        split <;> simp [ih]
  unfold tiles
  split
  · exact hs ..
  · simp

instance : Mixing Wall Screen View VideoRequest Unit where
  interval w := w.settings.interval
  welcome := welcome
  depart := depart
  mix := mix
  serve w _ := w.serve

/-- Nothing breaks off in composing. -/
instance : Breakable Wall Screen VideoRequest where
  wreck? _ _ := none
  spoil? _ _ _ _ _ := none

end Wall

/-- A mixer of pictures. -/
abbrev VideoWall := Mixer Wall Screen View

namespace VideoWall

/-- A running wall without sources, black all over, if the settings can be used. -/
def create (s : VideoSettings) (painter : Painter) : Except Misuse VideoWall :=
  match s.misuse? with
  | some cause => .error cause
  | none =>
      (Picture.filled .yuv420p s.size .black).map fun composite =>
        Mixer.create ⟨s, 1, composite, false, painter⟩

/-- Makes a wall once the planes of its composite are made. With more bytes than can be kept, making
them breaks off. -/
def launch (s : VideoSettings) (painter : Painter) : Option (Except Misuse VideoWall) :=
  match s.misuse? with
  | some cause => some (.error cause)
  | none => (Frame.filled? .yuv420p s.size .black).map fun _ => create s painter

/-- Where the sources are shown. -/
def layout (v : VideoWall) : Layout := v.room.layout v.roster.seated

/-- A short description of the wall. -/
def describe (v : VideoWall) : String :=
  "VideoMixer \x7b config: " ++ v.room.settings.describe ++ ", running: " ++ toString v.running ++
    ", .. \x7d"

/-- A short description of a source. -/
def describeSource (id : SourceId) : String :=
  "VideoSource \x7b id: SourceId(" ++ toString id.number ++ ") \x7d"

end VideoWall

end ConferenceMix
