import ConferenceMix.Picture.Geometry
import ConferenceMix.Word

/-! # Pixel formats

A picture stores its pixels in one plane or three. `PixelFormat.shapes` lists the extent of each
plane: three planes with the two chroma planes at half the width and height, rounded up, or one
plane with four bytes a pixel. Numbers of bytes are told as they are (`PlaneShape.area`,
`PlaneShape.span`); the module on frames says where only 64 bits of them count. -/

namespace ConferenceMix

/-- How the pixels of a picture are stored. -/
inductive PixelFormat where
  /-- A luma plane and two chroma planes at half resolution. -/
  | yuv420p
  /-- One plane of blue, green, red and an unused byte per pixel. -/
  | rgb32
deriving DecidableEq, Repr

/-- The extent of a plane: the bytes that a row needs, and the number of rows. -/
structure PlaneShape where
  rowBytes : Nat
  rows : Nat
deriving DecidableEq, Repr

namespace PlaneShape

/-- The bytes of a plane without padding. -/
def area (s : PlaneShape) : Nat := s.rowBytes * s.rows

/-- The bytes up to the end of the last row when rows start `stride` bytes apart. -/
def span (s : PlaneShape) (stride : Nat) : Nat := stride * (s.rows - 1) + s.rowBytes

end PlaneShape

namespace PixelFormat

/-- The name of a format in messages. -/
def name : PixelFormat → String
  | yuv420p => "YUV420P"
  | rgb32 => "RGB32"

/-- The extent of a plane with one byte per pixel. -/
def fullPlane (s : Size) : PlaneShape := ⟨s.width, s.height⟩

/-- The extent of a plane with one byte for each block of two by two pixels, begun or complete. -/
def halfPlane (s : Size) : PlaneShape := ⟨(s.width + 1) / 2, (s.height + 1) / 2⟩

/-- The extent of a plane with four bytes per pixel. -/
def packedPlane (s : Size) : PlaneShape := ⟨s.width * 4, s.height⟩

/-- The extents of the planes of a picture of size `s`. -/
def shapes (f : PixelFormat) (s : Size) : List PlaneShape :=
  match f with
  | yuv420p => [fullPlane s, halfPlane s, halfPlane s]
  | rgb32 => [packedPlane s]

/-- The number of planes. -/
def planeCount : PixelFormat → Nat
  | yuv420p => 3
  | rgb32 => 1

theorem length_shapes (f : PixelFormat) (s : Size) : (f.shapes s).length = f.planeCount := by
  cases f <;> rfl

/-- The bytes of a picture without padding, counted with 64 bits. -/
def bufferSize (f : PixelFormat) (s : Size) : Nat :=
  word ((f.shapes s).foldr (fun p n => p.area + n) 0)

end PixelFormat

end ConferenceMix
