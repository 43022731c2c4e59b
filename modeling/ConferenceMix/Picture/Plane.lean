import ConferenceMix.Fault

/-! # Planes of bytes

A `Plane` is a block of bytes cut into rows that start `stride` bytes apart. `Plane.Holds` says that
a plane is large enough for a given shape, and `Plane.misuse?` names what is wrong when it is not
(`misuse?_eq_none_iff`). Painting a plane changes single bytes and nothing else (`byteAt_paint`). -/

namespace ConferenceMix

/-- Bytes in rows that start `stride` bytes apart. -/
structure Plane where
  stride : Nat
  bytes : Array UInt8
deriving DecidableEq, Repr

namespace Plane

/-- The byte in column `x` of row `y`, when the plane reaches that far. -/
def byteAt (p : Plane) (x y : Nat) : Option UInt8 := p.bytes[y * p.stride + x]?

/-- Rows of the given shape do not overlap and end within the plane. -/
def Holds (p : Plane) (s : PlaneShape) : Prop :=
  s.rowBytes ≤ p.stride ∧ s.span p.stride ≤ p.bytes.size

instance (p : Plane) (s : PlaneShape) : Decidable (p.Holds s) :=
  inferInstanceAs (Decidable (_ ∧ _))

/-- What keeps plane number `i` from holding the given shape. -/
def misuse? (p : Plane) (i : Nat) (s : PlaneShape) : Option Misuse :=
  if p.stride < s.rowBytes then some (.narrowStride i p.stride s.rowBytes)
  else if p.bytes.size < s.span p.stride then some (.shortPlane i p.bytes.size (s.span p.stride))
  else none

theorem misuse?_eq_none_iff (p : Plane) (i : Nat) (s : PlaneShape) :
    p.misuse? i s = none ↔ p.Holds s := by
  unfold misuse? Holds
  split
  · simp; omega
  · split
    · simp; omega
    · simp; omega

/-- A byte of the shape lies in the plane. -/
theorem index_lt {p : Plane} {s : PlaneShape} (h : p.Holds s) {x y : Nat} (hx : x < s.rowBytes)
    (hy : y < s.rows) : y * p.stride + x < p.bytes.size := by
  have hm : y * p.stride ≤ p.stride * (s.rows - 1) := by
    rw [Nat.mul_comm]
    exact Nat.mul_le_mul_left _ (by omega)
  have hs := h.2
  unfold PlaneShape.span at hs
  omega

theorem isSome_byteAt {p : Plane} {s : PlaneShape} (h : p.Holds s) {x y : Nat}
    (hx : x < s.rowBytes) (hy : y < s.rows) : (p.byteAt x y).isSome := by
  simp [byteAt, index_lt h hx hy]

/-! ### Making planes -/

/-- The plane of the given shape, without padding, whose byte in column `x` of row `y` is
`f x y`. -/
def tabulate (s : PlaneShape) (f : Nat → Nat → UInt8) : Plane :=
  ⟨s.rowBytes, Array.ofFn (n := s.area) fun i => f (i % s.rowBytes) (i / s.rowBytes)⟩

theorem holds_tabulate {s : PlaneShape} (h : 0 < s.rows) (f : Nat → Nat → UInt8) :
    (tabulate s f).Holds s := by
  obtain ⟨w, n⟩ := s
  cases n with
  | zero => simp at h
  | succ n => simp [Holds, tabulate, PlaneShape.span, PlaneShape.area, Nat.mul_succ]

/-- The plane of the given shape, without padding, with zero bytes. -/
def blank (s : PlaneShape) : Plane := tabulate s fun _ _ => 0

/-! ### Changing bytes -/

/-- Replaces the byte in column `x` of row `y` where `f x y` gives one. -/
def paint (p : Plane) (f : Nat → Nat → Option UInt8) : Plane :=
  { p with bytes := p.bytes.mapIdx fun i b => (f (i % p.stride) (i / p.stride)).getD b }

/-- Replaces every byte, padding included. -/
def flood (p : Plane) (b : UInt8) : Plane := { p with bytes := p.bytes.map fun _ => b }

/-- Replaces every complete group of four bytes by the given four; fewer than four at the end stay
as they are. -/
def floodFours (p : Plane) (b₀ b₁ b₂ b₃ : UInt8) : Plane :=
  { p with
    bytes := p.bytes.mapIdx fun i b =>
      if i / 4 * 4 + 4 ≤ p.bytes.size then
        match i % 4 with
        | 0 => b₀
        | 1 => b₁
        | 2 => b₂
        | _ => b₃
      else b }

/-- Replaces the bytes from index `start` on, if they all lie in the plane. -/
def write? (p : Plane) (start : Nat) (data : Array UInt8) : Option Plane :=
  if start + data.size ≤ p.bytes.size then
    some { p with
      bytes := p.bytes.mapIdx fun i b => (if start ≤ i then data[i - start]? else none).getD b }
  else none

@[simp] theorem stride_paint (p : Plane) (f : Nat → Nat → Option UInt8) :
    (p.paint f).stride = p.stride := rfl

@[simp] theorem size_paint (p : Plane) (f : Nat → Nat → Option UInt8) :
    (p.paint f).bytes.size = p.bytes.size := by simp [paint]

/-- Painting looks at the column and row of each byte, padding included. -/
theorem getElem?_paint (p : Plane) (f : Nat → Nat → Option UInt8) (i : Nat) :
    (p.paint f).bytes[i]? = p.bytes[i]?.map (f (i % p.stride) (i / p.stride)).getD := by
  simp [paint]

/-- The column and the row can be told from the index of a byte. -/
theorem index_eq_iff {stride x y i : Nat} (hx : x < stride) :
    y * stride + x = i ↔ i % stride = x ∧ i / stride = y := by
  constructor
  · rintro rfl
    rw [Nat.add_comm]
    exact ⟨by rw [Nat.add_mul_mod_self_right, Nat.mod_eq_of_lt hx],
      by rw [Nat.add_mul_div_right _ _ (by omega), Nat.div_eq_of_lt hx, Nat.zero_add]⟩
  · rintro ⟨rfl, rfl⟩
    exact Nat.div_add_mod' i stride

/-- Painting changes the bytes that are given, each in its own place. -/
theorem byteAt_paint (p : Plane) (f : Nat → Nat → Option UInt8) {x : Nat} (y : Nat)
    (hx : x < p.stride) : (p.paint f).byteAt x y = (p.byteAt x y).map (f x y).getD := by
  obtain ⟨hm, hd⟩ := (index_eq_iff (y := y) hx).mp rfl
  simp [byteAt, paint, hm, hd]

theorem holds_paint {p : Plane} {s : PlaneShape} (h : p.Holds s) (f : Nat → Nat → Option UInt8) :
    (p.paint f).Holds s := by
  simpa [Holds] using h

theorem holds_flood {p : Plane} {s : PlaneShape} (h : p.Holds s) (b : UInt8) :
    (p.flood b).Holds s := by
  simpa [Holds, flood] using h

theorem holds_floodFours {p : Plane} {s : PlaneShape} (h : p.Holds s) (b₀ b₁ b₂ b₃ : UInt8) :
    (p.floodFours b₀ b₁ b₂ b₃).Holds s := by
  simpa [Holds, floodFours] using h

theorem holds_write? {p q : Plane} {s : PlaneShape} (h : p.Holds s) {start : Nat}
    {data : Array UInt8} (hq : p.write? start data = some q) : q.Holds s := by
  unfold write? at hq
  split at hq
  · cases hq
    simpa [Holds] using h
  · cases hq

end Plane

end ConferenceMix
