/-! # Rounding quotients of natural numbers

Two roundings of an exact quotient `a / b`, both computed on natural numbers alone.

* `divToEven a b` is the nearest integer, and of two equally near ones the even one.
* `significand a b` is the nearest number with 53 significant binary digits, given as a numerator
  over the power of two `2 ^ scale a b`; ties again go to the even numerator.

`divToEven_mul_right` says that an exact quotient is returned as it is, and
`two_mul_divToEven_le` and `le_two_mul_divToEven` that the result is at most half a unit away. -/

namespace ConferenceMix.Exact

/-- The integer nearest to `a / b`; of two equally near ones the even one. -/
def divToEven (a b : Nat) : Nat :=
  let q := a / b
  let r := a % b
  if 2 * r < b then q
  else if b < 2 * r then q + 1
  else if q % 2 = 0 then q else q + 1

theorem divToEven_mul_right (q : Nat) {b : Nat} (h : 0 < b) : divToEven (q * b) b = q := by
  simp [divToEven, Nat.mul_mod_left, Nat.mul_div_cancel q h, h]

/-- The rounded quotient exceeds the exact one by at most one half. -/
theorem two_mul_divToEven_le (a : Nat) {b : Nat} (h : 0 < b) :
    2 * (divToEven a b * b) ≤ 2 * a + b := by
  have hd := Nat.div_add_mod a b
  have hc : a / b * b = b * (a / b) := Nat.mul_comm _ _
  unfold divToEven
  dsimp only
  split
  · omega
  · split
    · rw [Nat.add_mul]; omega
    · split
      · omega
      · rw [Nat.add_mul]; omega

/-- The rounded quotient falls short of the exact one by at most one half. -/
theorem le_two_mul_divToEven (a : Nat) {b : Nat} (h : 0 < b) :
    2 * a ≤ 2 * (divToEven a b * b) + b := by
  have hd := Nat.div_add_mod a b
  have hr := Nat.mod_lt a h
  have hc : a / b * b = b * (a / b) := Nat.mul_comm _ _
  unfold divToEven
  dsimp only
  split
  · omega
  · split
    · rw [Nat.add_mul]; omega
    · split
      · omega
      · rw [Nat.add_mul]; omega

/-- The number of binary places after the point that leaves `a / b` with 53 significant binary
digits, for quotients below `2 ^ 53`. -/
def scale (a b : Nat) : Nat :=
  let s := 52 + b.log2 - a.log2
  if a * Nat.pow 2 s < b * Nat.pow 2 52 then s + 1 else s

/-- The numerator over `2 ^ scale a b` of the number with 53 significant binary digits that is
nearest to `a / b`. -/
def significand (a b : Nat) : Nat := divToEven (a * Nat.pow 2 (scale a b)) b

/-- The integer nearest to `m * (a / b)` after `a / b` has been rounded to 53 significant binary
digits. -/
def mulQuotient (m a b : Nat) : Nat := divToEven (significand a b * m) (Nat.pow 2 (scale a b))

end ConferenceMix.Exact
