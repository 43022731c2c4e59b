import ConferenceMix.Picture.Scaling
import ConferenceMix.Word

/-! # Frames

A `Frame` is a size with planes as they are kept in memory, and nothing is known of the lengths of the
planes. The bytes that planes need are counted with 64 bits (`PlaneShape.need`), so planes that are far
too short can pass for long enough. Single bytes are found by an index of 64 bits, which may lie beyond
the end of a plane, and planes are made of as many bytes as are asked for, which may be too many. A call
that comes to such an index or such a plane breaks off: a result of `none` says so.

`Picture.frame` is the frame of a picture. -/

namespace ConferenceMix

/-- The most bytes that can be kept in one place. -/
def longestArray : Nat := 9223372036854775807

namespace PlaneShape

/-- The bytes up to the end of the last row as they are counted when a plane is examined. -/
def need (s : PlaneShape) (stride : Nat) : Nat := word (s.span stride)

end PlaneShape

namespace Plane

/-- What is found to keep plane number `i` from holding the given shape. -/
def refusal? (p : Plane) (i : Nat) (s : PlaneShape) : Option Misuse :=
  if p.stride < s.rowBytes then some (.narrowStride i p.stride s.rowBytes)
  else if p.bytes.size < s.need p.stride then some (.shortPlane i p.bytes.size (s.need p.stride))
  else none

/-- Makes a plane of zero bytes without padding. -/
def alloc? (s : PlaneShape) : Option Plane :=
  if word s.area ≤ longestArray then some ⟨s.rowBytes, Array.replicate (word s.area) 0⟩ else none

/-- The byte in column `x` of row `y`. -/
def get? (p : Plane) (x y : Nat) : Option UInt8 := p.bytes[word (y * p.stride + x)]?

/-- Replaces the byte in column `x` of row `y`. -/
def set? (p : Plane) (x y : Nat) (b : UInt8) : Option Plane :=
  let i := word (y * p.stride + x)
  if i < p.bytes.size then some { p with bytes := p.bytes.setIfInBounds i b } else none

/-- The four bytes of the pixel `(x, y)`. -/
def pixel? (p : Plane) (x y : Nat) : Option Rgb := do
  let i := word (y * p.stride + 4 * x)
  let b ← p.bytes[i]?
  let g ← p.bytes[i + 1]?
  let r ← p.bytes[i + 2]?
  let _ ← p.bytes[i + 3]?
  return ⟨r, g, b⟩

/-- Replaces the bytes at the given places one after another by those that `f` gives. -/
def draw? (f : Nat → Nat → Option UInt8) (places : List (Nat × Nat)) (p : Plane) : Option Plane :=
  places.foldlM (fun q place => (f place.1 place.2).bind (q.set? place.1 place.2)) p

end Plane

/-- The components of a colour. -/
inductive Channel where
  | luma
  | blue
  | red
deriving DecidableEq, Repr

/-- One component of a colour. -/
def Channel.of : Channel → Yuv → UInt8
  | luma => Yuv.y
  | blue => Yuv.u
  | red => Yuv.v

/-- A size and planes of any length. -/
structure Frame where
  size : Size
  raster : Raster
deriving DecidableEq, Repr

/-- The frame of a picture. -/
def Picture.frame (p : Picture) : Frame := ⟨p.size, p.raster⟩

namespace Frame

/-- How the pixels are stored. -/
def format (f : Frame) : PixelFormat := f.raster.format

/-! ### Making frames -/

/-- The frame in the given planes. The size is examined first, then the number of planes, then each
plane in order. -/
def ofPlanes (format : PixelFormat) (size : Size) (planes : List Plane) : Except Misuse Frame :=
  if size.Empty then .error (.noPixels size)
  else
    match format, planes with
    | .yuv420p, [luma, blue, red] =>
        match luma.refusal? 0 (PixelFormat.fullPlane size),
          blue.refusal? 1 (PixelFormat.halfPlane size),
          red.refusal? 2 (PixelFormat.halfPlane size) with
        | some m, _, _ => .error m
        | none, some m, _ => .error m
        | none, none, some m => .error m
        | none, none, none => .ok ⟨size, .yuv420p luma blue red⟩
    | .rgb32, [pixels] =>
        match pixels.refusal? 0 (PixelFormat.packedPlane size) with
        | some m => .error m
        | none => .ok ⟨size, .rgb32 pixels⟩
    | format, planes => .error (.planeCount format planes.length)

/-- The frame of zero bytes, without padding. -/
def blank? (format : PixelFormat) (size : Size) : Option (Except Misuse Frame) :=
  if size.Empty then some (.error (.noPixels size))
  else
    match format with
    | .yuv420p => do
        let luma ← Plane.alloc? (PixelFormat.fullPlane size)
        let blue ← Plane.alloc? (PixelFormat.halfPlane size)
        let red ← Plane.alloc? (PixelFormat.halfPlane size)
        return .ok ⟨size, .yuv420p luma blue red⟩
    | .rgb32 => do
        let pixels ← Plane.alloc? (PixelFormat.packedPlane size)
        return .ok ⟨size, .rgb32 pixels⟩

/-- A short description: format, size and the distance between rows in every plane. -/
def describe (f : Frame) : String :=
  let format := match f.format with
    | .yuv420p => "Yuv420p"
    | .rgb32 => "Rgb32"
  "VideoFrame \x7b format: " ++ format ++ ", size: FrameSize \x7b width: " ++
    toString f.size.width ++ ", height: " ++ toString f.size.height ++ " \x7d, strides: [" ++
    ", ".intercalate (f.raster.planes.map fun q => toString q.stride) ++ "], .. \x7d"

/-- Gives the whole frame one colour. -/
def fill (f : Frame) (c : Rgb) : Frame := { f with raster := f.raster.fill c }

/-- The frame of one colour, without padding. -/
def filled? (format : PixelFormat) (size : Size) (c : Rgb) : Option (Except Misuse Frame) :=
  (blank? format size).map fun made => made.map (·.fill c)

/-! ### Reading and drawing -/

/-- One component of the colour of the pixel `(x, y)`. -/
def sample? (f : Frame) (c : Channel) (x y : Nat) : Option UInt8 :=
  match f.raster with
  | .yuv420p luma blue red =>
      match c with
      | .luma => luma.get? x y
      | .blue => blue.get? (x / 2) (y / 2)
      | .red => red.get? (x / 2) (y / 2)
  | .rgb32 pixels => (pixels.pixel? x y).map fun p => c.of (Yuv.ofRgb p)

/-- The colour of the pixel `(x, y)`, which only pixels inside the frame have. -/
def colourAt? (f : Frame) (x y : Nat) : Option (Option Yuv) :=
  if f.size.Contains x y then do
    let l ← f.sample? .luma x y
    let u ← f.sample? .blue x y
    let v ← f.sample? .red x y
    return some ⟨l, u, v⟩
  else some none

end Frame

namespace Rect

/-- The places of a rectangle, row by row. -/
def places (r : Rect) : List (Nat × Nat) :=
  (List.range' r.y r.height).flatMap fun y => (List.range' r.x r.width).map fun x => (x, y)

/-- One component of the pixel of the source that stands at offset `(dx, dy)` in the rectangle. -/
def byte? (r : Rect) (source : Frame) (c : Channel) (dx dy : Nat) : Option UInt8 :=
  source.sample? c (scaleIndex source.size.width r.width dx)
    (scaleIndex source.size.height r.height dy)

/-- The luma for the pixel `(x, y)` of the rectangle. -/
def lumaByte? (r : Rect) (source : Frame) (x y : Nat) : Option UInt8 :=
  r.byte? source .luma (x - r.x) (y - r.y)

/-- The chroma for the block `(x, y)`. -/
def chromaByte? (r : Rect) (source : Frame) (c : Channel) (x y : Nat) : Option UInt8 :=
  r.byte? source c (min (2 * x - r.x) (r.width - 1)) (min (2 * y - r.y) (r.height - 1))

/-- Draws the source into a rectangle of three planes, byte by byte: first the luma of all pixels and
then the chroma of all blocks. -/
def render? (r : Rect) (source : Frame) (luma blue red : Plane) : Option Raster := do
  let luma ← luma.draw? (r.lumaByte? source) r.places
  let blue ← blue.draw? (r.chromaByte? source .blue) r.blocks.places
  let red ← red.draw? (r.chromaByte? source .red) r.blocks.places
  return .yuv420p luma blue red

end Rect

namespace Frame

/-- Scales the source to the rectangle, clipped to the target, by nearest pixels. The target has to be
in three planes. -/
def scale? (source target : Frame) (rect : Rect) : Option (Except PaintFault Frame) :=
  match target.raster with
  | .rgb32 _ => some (.error (.unsupported source.format .rgb32))
  | .yuv420p luma blue red =>
      let r := rect.clip target.size
      if r.Empty then some (.ok target)
      else (r.render? source luma blue red).map fun raster => .ok { target with raster }

end Frame

end ConferenceMix
