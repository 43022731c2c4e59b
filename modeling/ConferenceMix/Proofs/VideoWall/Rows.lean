import ConferenceMix.VideoWall.Tiling
import Mathlib.Algebra.Order.Group.Nat

/-! # The grid is the least fitting square

The rows of a grid are counted up from one until the square has room for all sources. While this
goes on, every smaller square is known to be too small (`Counting`), and where it ends, the square
is the least that fits (`LeastSquare`), of which there is only one.

`countRows?` counts in words, the rows in one of 32 bits and the cells in one of 64 bits, and stops
without a result when a number leaves its word. `countRowsFrom?_eq_some_iff` says what it finds from
any point of the count on, and `gridSide_least_fitting` that it finds the `gridSide` of all numbers
up to the square of the largest 32-bit number. -/

namespace ConferenceMix

/-! ### Least squares -/

/-- There is a row, and a square with one row less, if that leaves any, is too small for `n`. -/
structure Counting (n rows : Nat) : Prop where
  pos : 1 ≤ rows
  tight : rows = 1 ∨ (rows - 1) * (rows - 1) < n

/-- A square of so many rows has room for `n`, and no smaller one with a row has. -/
structure LeastSquare (n rows : Nat) : Prop extends Counting n rows where
  fits : n ≤ rows * rows

variable {n q r k : Nat}

theorem counting_one (n : Nat) : Counting n 1 := ⟨Nat.le_refl 1, .inl rfl⟩

theorem counting_succ (h : r * r < n) : Counting n (r + 1) := ⟨Nat.le_add_left 1 r, .inr h⟩

/-- The count does not go past a square that fits. -/
theorem Counting.le (h : Counting n r) (hk : 1 ≤ k) (hn : n ≤ k * k) : r ≤ k := by
  rcases h.tight with rfl | hlt
  · exact hk
  · have hsq : (r - 1) * (r - 1) < k * k := Nat.lt_of_lt_of_le hlt hn
    have := Nat.mul_self_lt_mul_self_iff.mp hsq
    omega

theorem LeastSquare.unique (hq : LeastSquare n q) (hr : LeastSquare n r) : q = r :=
  Nat.le_antisymm (hq.le hr.pos hr.fits) (hr.le hq.pos hq.fits)

theorem leastSquare_mul_self (h : 1 ≤ r) : LeastSquare (r * r) r := by
  refine ⟨⟨h, ?_⟩, Nat.le_refl _⟩
  by_cases hone : r = 1
  · exact .inl hone
  · exact .inr (Nat.mul_self_lt_mul_self (Nat.sub_lt h Nat.one_pos))

theorem leastSquare_gridSide (n : Nat) : LeastSquare n (gridSide n) := by
  have hpos := one_le_gridSide n
  refine ⟨⟨hpos, ?_⟩, le_gridSide_mul_self n⟩
  by_cases hone : gridSide n = 1
  · exact .inl hone
  · refine .inr (Nat.lt_of_not_le fun hfits => ?_)
    have hle : gridSide n ≤ gridSide n - 1 := gridSide_minimal (by omega) hfits
    omega

/-- A grid without sources has one row. -/
theorem gridSide_zero : gridSide 0 = 1 :=
  Nat.le_antisymm (gridSide_minimal (Nat.le_refl 1) (Nat.zero_le _)) (one_le_gridSide 0)

theorem gridSide_mono : Monotone gridSide := fun _ n h =>
  gridSide_minimal (one_le_gridSide n) (Nat.le_trans h (le_gridSide_mul_self n))

/-! ### Counting in words -/

/-- One row more, if the number fits in 32 bits. -/
def oneMore? (rows : UInt32) : Option UInt32 :=
  if rows.toNat + 1 < UInt32.size then some (rows + 1) else none

/-- The cells of a square of so many rows, if their number fits in 64 bits. -/
def square? (rows : UInt32) : Option UInt64 :=
  if rows.toNat * rows.toNat < UInt64.size then some (rows.toUInt64 * rows.toUInt64) else none

theorem toNat_oneMore? {rows next : UInt32} (h : oneMore? rows = some next) :
    next.toNat = rows.toNat + 1 := by
  unfold oneMore? at h
  split at h
  · rename_i hlt
    cases h
    rw [UInt32.toNat_add]
    exact Nat.mod_eq_of_lt hlt
  · cases h

/-- Where there is no row more, the square is the largest of all. -/
theorem mul_self_le_of_oneMore? {rows : UInt32} (h : oneMore? rows = none) (r : UInt32) :
    r.toNat * r.toNat ≤ rows.toNat * rows.toNat := by
  unfold oneMore? at h
  split at h
  · cases h
  · rename_i hlast
    have hr : r.toNat < UInt32.size := r.toNat_lt
    exact Nat.mul_self_le_mul_self (by omega)

theorem mul_self_le_limit (rows : UInt32) : rows.toNat * rows.toNat ≤ (2 ^ 32 - 1) ^ 2 := by
  rw [Nat.pow_two]
  exact Nat.mul_self_le_mul_self (Nat.le_sub_one_of_lt rows.toNat_lt)

/-- The number of cells never leaves its word. -/
theorem exists_square? (rows : UInt32) :
    ∃ cells, square? rows = some cells ∧ cells.toNat = rows.toNat * rows.toNat := by
  have hlt : rows.toNat * rows.toNat < UInt64.size :=
    Nat.lt_of_le_of_lt (mul_self_le_limit rows) (by decide)
  refine ⟨rows.toUInt64 * rows.toUInt64, if_pos hlt, ?_⟩
  rw [UInt64.toNat_mul, UInt32.toNat_toUInt64]
  exact Nat.mod_eq_of_lt hlt

theorem toNat_square? {rows : UInt32} {cells : UInt64} (h : square? rows = some cells) :
    cells.toNat = rows.toNat * rows.toNat := by
  obtain ⟨_, hsome, hcells⟩ := exists_square? rows
  cases h.symm.trans hsome
  exact hcells

/-- Counts up from `rows` until a square of so many rows has at least `n` cells. -/
def countRowsFrom? (n : UInt64) (rows : UInt32) : Option UInt32 :=
  match square? rows with
  | none => none
  | some cells =>
      if cells < n then
        match _h : oneMore? rows with
        | none => none
        | some next => countRowsFrom? n next
      else some rows
termination_by UInt32.size - rows.toNat
decreasing_by
  have := toNat_oneMore? _h
  have := rows.toNat_lt
  simp only [UInt32.size]
  omega

/-- The rows for `n` sources, counted up from one. -/
def countRows? (n : UInt64) : Option UInt32 := countRowsFrom? n 1

/-- From any point of the count on, the least square that fits is found, unless no 32-bit number has
one. -/
theorem countRowsFrom?_eq_some_iff {n : UInt64} {rows r : UInt32}
    (h : Counting n.toNat rows.toNat) :
    countRowsFrom? n rows = some r ↔ LeastSquare n.toNat r.toNat := by
  fun_induction countRowsFrom? n rows with
  | case1 rows hnone =>
      obtain ⟨_, hsome, _⟩ := exists_square? rows
      cases hnone.symm.trans hsome
  | case2 rows cells hcells hlt hlast =>
      -- the largest square of all is too small
      refine ⟨nofun, fun hr => absurd hr.fits (Nat.not_le.mpr ?_)⟩
      calc r.toNat * r.toNat
          ≤ rows.toNat * rows.toNat := mul_self_le_of_oneMore? hlast r
        _ = cells.toNat := (toNat_square? hcells).symm
        _ < n.toNat := hlt
  | case3 rows cells hcells hlt next hnext ih =>
      apply ih
      rw [toNat_oneMore? hnext]
      exact counting_succ (toNat_square? hcells ▸ hlt)
  | case4 rows cells hcells hfits =>
      have hrows : LeastSquare n.toNat rows.toNat :=
        ⟨h, toNat_square? hcells ▸ Nat.not_lt.mp hfits⟩
      constructor
      · intro he
        cases he
        exact hrows
      · intro hr
        rw [UInt32.toNat_inj.mp (hrows.unique hr)]

theorem countRows?_eq_some_iff {n : UInt64} {r : UInt32} :
    countRows? n = some r ↔ r.toNat = gridSide n.toNat := by
  rw [countRows?, countRowsFrom?_eq_some_iff (counting_one _)]
  constructor
  · intro h
    exact h.unique (leastSquare_gridSide _)
  · intro h
    exact h ▸ leastSquare_gridSide _

/-- **The grid is the least fitting square.** For every number of sources that is at most the square
of the largest 32-bit number, counting ends without leaving its words, and with the rows of the
grid; for all others it runs out of numbers. The grid has a row and room for the sources, and a
square with one row less, if that leaves any, would be too small. So it never shrinks as sources are
added, and a number that is a square fills its grid. -/
theorem gridSide_least_fitting :
    (∀ n : UInt64, n.toNat ≤ (2 ^ 32 - 1) ^ 2 →
      ∃ r : UInt32, countRows? n = some r ∧ r.toNat = gridSide n.toNat) ∧
    (∀ n : UInt64, (2 ^ 32 - 1) ^ 2 < n.toNat → countRows? n = none) ∧
    (∀ n, LeastSquare n (gridSide n)) ∧
    Monotone gridSide ∧
    ∀ r, 1 ≤ r → gridSide (r * r) = r := by
  refine ⟨fun n hn => ?_, fun n hn => ?_, leastSquare_gridSide, gridSide_mono, fun r hr => ?_⟩
  · have hle : gridSide n.toNat ≤ 2 ^ 32 - 1 :=
      gridSide_minimal (by decide) (Nat.pow_two _ ▸ hn)
    have hword : (UInt32.ofNat (gridSide n.toNat)).toNat = gridSide n.toNat :=
      UInt32.toNat_ofNat_of_lt' (Nat.lt_of_le_of_lt hle (by decide))
    exact ⟨_, countRows?_eq_some_iff.mpr hword, hword⟩
  · refine Option.eq_none_iff_forall_ne_some.mpr fun r hr => ?_
    have hfits := (leastSquare_gridSide n.toNat).fits
    rw [← countRows?_eq_some_iff.mp hr] at hfits
    exact absurd (Nat.le_trans hfits (mul_self_le_limit r)) (Nat.not_le.mpr hn)
  · exact (leastSquare_gridSide _).unique (leastSquare_mul_self hr)

/-- At the last number of sources all 32-bit numbers are counted through. -/
theorem gridSide_least_fitting_limit :
    (18446744065119617025 : UInt64).toNat ≤ (2 ^ 32 - 1) ^ 2 ∧
      countRows? 18446744065119617025 = some 4294967295 ∧
      countRows? 18446744065119617026 = none := by
  obtain ⟨hcount, hbeyond, _, _, hsquare⟩ := gridSide_least_fitting
  have hlast : (18446744065119617025 : UInt64).toNat ≤ (2 ^ 32 - 1) ^ 2 := by decide
  have hside : gridSide (18446744065119617025 : UInt64).toNat = 4294967295 :=
    hsquare 4294967295 (by decide)
  obtain ⟨r, hr, hrows⟩ := hcount _ hlast
  have hword : r = 4294967295 := UInt32.toNat_inj.mp (hrows.trans hside)
  exact ⟨hlast, hword ▸ hr, hbeyond _ (by decide)⟩

example : [0, 1, 2, 4, 5, 9, 10].map gridSide = [1, 1, 2, 2, 3, 3, 4] := by
  cbv

end ConferenceMix
