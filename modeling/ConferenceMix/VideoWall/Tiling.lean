import ConferenceMix.Picture.Geometry
import ConferenceMix.Word

/-! # Dividing a picture into tiles

A picture is divided in one of two ways. The *grid* has as many rows as columns, just enough for the
sources (`gridSide`), and the tile of a cell is an equal share of the picture. The *stage* gives one
source the left three quarters and stacks all others in the right quarter. The products that tiles
begin with have 32 bits, and `Size.Divides` says that those of a grid stay within them.

`le_gridSide_mul_self` and `gridSide_minimal` say that the grid is the smallest that fits, and
`gridTile_fits` and `sideTile_fits` that no tile leaves the picture. -/

namespace ConferenceMix

/-! ### The number of rows -/

/-- The first `k` from `rows` on with `n ≤ k * k`. -/
def gridSideFrom (n rows : Nat) : Nat :=
  if n ≤ rows * rows then rows else gridSideFrom n (rows + 1)
termination_by n - rows
decreasing_by
  have h : rows ≤ rows * rows := Nat.le_mul_self rows
  omega

/-- The rows of the smallest square grid with at least one cell and room for `n` sources. -/
def gridSide (n : Nat) : Nat := gridSideFrom n 1

theorem le_gridSideFrom (n rows : Nat) : rows ≤ gridSideFrom n rows := by
  fun_induction gridSideFrom n rows with
  | case1 => exact Nat.le_refl _
  | case2 rows h ih => omega

theorem le_gridSideFrom_mul_self (n rows : Nat) :
    n ≤ gridSideFrom n rows * gridSideFrom n rows := by
  fun_induction gridSideFrom n rows with
  | case1 rows h => exact h
  | case2 rows h ih => exact ih

theorem gridSideFrom_minimal {n rows k : Nat} (hk : rows ≤ k) (h : n ≤ k * k) :
    gridSideFrom n rows ≤ k := by
  fun_induction gridSideFrom n rows with
  | case1 => exact hk
  | case2 rows hn ih =>
      apply ih
      have hne : rows ≠ k := fun he => hn (he ▸ h)
      omega

theorem one_le_gridSide (n : Nat) : 1 ≤ gridSide n := le_gridSideFrom n 1

theorem le_gridSide_mul_self (n : Nat) : n ≤ gridSide n * gridSide n :=
  le_gridSideFrom_mul_self n 1

theorem gridSide_minimal {n k : Nat} (hk : 1 ≤ k) (h : n ≤ k * k) : gridSide n ≤ k :=
  gridSideFrom_minimal hk h

/-! ### Tiles -/

namespace Size

/-- The tile of a cell in a grid of `rows` rows; cells are numbered row by row. -/
def gridTile (s : Size) (rows cell : Nat) : Rect :=
  let rows := max rows 1
  ⟨halfWord (cell % rows * s.width) / rows, halfWord (cell / rows * s.height) / rows,
    s.width / rows, s.height / rows⟩

/-- The products that the tiles of a grid of `rows` rows begin with have 32 bits. -/
def Divides (s : Size) (rows : Nat) : Prop :=
  rows * s.width < halfWordCount ∧ rows * s.height < halfWordCount

instance (s : Size) (rows : Nat) : Decidable (s.Divides rows) :=
  inferInstanceAs (Decidable (_ ∧ _))

/-- The tile of the source on stage when `n` sources are present. A source alone has the whole
picture. -/
def mainTile (s : Size) (n : Nat) : Rect :=
  if n ≤ 1 then .whole s else ⟨0, 0, halfWord (s.width * 3) / 4, s.height⟩

/-- The tile of another source, which is number `slot` of those beside the stage, when `n` sources
are present. -/
def sideTile (s : Size) (n slot : Nat) : Rect :=
  let others := max n 2 - 1
  let x := halfWord (s.width * 3) / 4
  let height := s.height / others
  ⟨x, slot * height, s.width - x, height⟩

/-- A rectangle lies within a picture of this size. -/
def Encloses (s : Size) (r : Rect) : Prop := r.x + r.width ≤ s.width ∧ r.y + r.height ≤ s.height

instance (s : Size) (r : Rect) : Decidable (s.Encloses r) := inferInstanceAs (Decidable (_ ∧ _))

private theorem mul_div_add_div_le {i n a : Nat} (h : i < n) : i * a / n + a / n ≤ a := by
  rw [Nat.le_iff_lt_add_one, ← Nat.not_le]
  intro hc
  have h1 := Nat.div_mul_le_self (i * a) n
  have h2 := Nat.div_mul_le_self a n
  have h3 : (a + 1) * n ≤ (i * a / n + a / n) * n := Nat.mul_le_mul_right n hc
  have h4 : i * a + a ≤ a * n := by
    have := Nat.mul_le_mul_left a (show i + 1 ≤ n from h)
    rw [Nat.mul_succ, Nat.mul_comm a i] at this
    exact this
  rw [Nat.add_mul, Nat.add_mul] at h3
  omega

theorem gridTile_fits (s : Size) {rows cell : Nat} (h : cell < rows * rows) :
    s.Encloses (s.gridTile rows cell) := by
  have hr : 0 < rows := by
    rcases Nat.eq_zero_or_pos rows with h0 | h0
    · subst h0; omega
    · exact h0
  have hm : max rows 1 = rows := by omega
  -- a product that is cut off to 32 bits makes its tile begin earlier
  have hcut : ∀ i a, i < rows → halfWord (i * a) / rows + a / rows ≤ a := fun i a hi =>
    Nat.le_trans (Nat.add_le_add_right (Nat.div_le_div_right (halfWord_le _)) _)
      (mul_div_add_div_le hi)
  simp only [Encloses, gridTile, hm]
  exact ⟨hcut _ _ (Nat.mod_lt cell hr), hcut _ _ (Nat.div_lt_of_lt_mul h)⟩

theorem mainTile_fits (s : Size) (n : Nat) : s.Encloses (s.mainTile n) := by
  unfold mainTile
  split
  · simp [Encloses, Rect.whole]
  · have hcut := halfWord_le (s.width * 3)
    simp only [Encloses]
    omega

theorem sideTile_fits (s : Size) {n slot : Nat} (h : slot < n - 1) :
    s.Encloses (s.sideTile n slot) := by
  have hm : max n 2 - 1 = n - 1 := by omega
  have hd := Nat.div_mul_le_self s.height (n - 1)
  have hs : (slot + 1) * (s.height / (n - 1)) ≤ (n - 1) * (s.height / (n - 1)) :=
    Nat.mul_le_mul_right _ h
  rw [Nat.add_mul, Nat.one_mul] at hs
  rw [Nat.mul_comm] at hd
  have hcut := halfWord_le (s.width * 3)
  simp only [Encloses, sideTile, hm]
  omega

end Size

end ConferenceMix
