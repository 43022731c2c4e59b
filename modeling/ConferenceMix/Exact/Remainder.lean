/-! # The exact remainder of two floating-point numbers

`remainder x y` is `x - n * y` for the integer `n` that truncates the exact quotient `x / y`
towards zero. It is exact, has the sign of `x` and is smaller than `y` in size. The magnitudes are
taken apart into a whole significand and a power of two (`Binary`), so the division is one of
natural numbers (`Binary.mod`). -/

namespace ConferenceMix.Exact

/-- The number `significand * 2 ^ exponent / 2 ^ 1075`. -/
structure Binary where
  significand : Nat
  exponent : Nat
deriving DecidableEq, Repr

namespace Binary

/-- The magnitude of a finite floating-point number. -/
def ofFloat (x : Float) : Binary :=
  let bits := x.toBits.toNat
  let exponent := bits / Nat.pow 2 52 % Nat.pow 2 11
  let fraction := bits % Nat.pow 2 52
  if exponent = 0 then ⟨fraction, 1⟩ else ⟨Nat.pow 2 52 + fraction, exponent⟩

/-- The floating-point number of this magnitude, when one exists. -/
def toFloat (b : Binary) : Float :=
  (Float.ofNat b.significand).scaleB ((b.exponent : Int) - 1075)

/-- The remainder of two magnitudes, over the smaller of their powers of two. -/
def mod (a b : Binary) : Binary :=
  if a.exponent ≤ b.exponent then
    ⟨a.significand % (b.significand * Nat.pow 2 (b.exponent - a.exponent)), a.exponent⟩
  else
    ⟨a.significand * Nat.pow 2 (a.exponent - b.exponent) % b.significand, b.exponent⟩

theorem mod_exponent (a b : Binary) : (a.mod b).exponent = min a.exponent b.exponent := by
  unfold mod
  split <;> simp <;> omega

end Binary

/-- The exact remainder of `x` by `y`, with the sign of `x`. It is no number when `x` is infinite,
when `y` is zero, or when either is no number; an infinite `y` leaves `x` as it is. -/
def remainder (x y : Float) : Float :=
  if x.isNaN || y.isNaN || x.isInf || y == 0 then 0.0 / 0.0
  else if y.isInf then x
  else
    let r := ((Binary.ofFloat x).mod (Binary.ofFloat y)).toFloat
    if Nat.pow 2 63 ≤ x.toBits.toNat then -r else r

end ConferenceMix.Exact
