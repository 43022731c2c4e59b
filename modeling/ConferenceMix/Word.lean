/-! # Words of 64 and of 32 bits

Sizes, rates, counts and moments are natural numbers throughout; those that a caller gives have
16, 32 or 64 bits, and the bound on them is left to the caller. Where numbers that are given are
multiplied, or added to a product, the result can leave the 64 bits that there are for it, and only
the last 64 bits of it are kept: `word` says so. In the layout of pictures there are 32 bits for a
product, of which `halfWord` keeps the last. All other sums and differences of this library stay
far within their bits, being bounded by what is held in memory, and are computed as they stand. -/

namespace ConferenceMix

/-- The number of values that 64 bits have. -/
def wordCount : Nat := 18446744073709551616

/-- The last 64 bits of a number. -/
def word (n : Nat) : Nat := n % wordCount

/-- What fits into 64 bits is kept as it is. -/
theorem word_of_lt {n : Nat} (h : n < wordCount) : word n = n := Nat.mod_eq_of_lt h

@[simp] theorem word_zero : word 0 = 0 := rfl

/-- The number of values that 32 bits have. -/
def halfWordCount : Nat := 4294967296

/-- The last 32 bits of a number. -/
def halfWord (n : Nat) : Nat := n % halfWordCount

theorem halfWord_le (n : Nat) : halfWord n ≤ n := Nat.mod_le n halfWordCount

/-- What fits into 32 bits is kept as it is. -/
theorem halfWord_of_lt {n : Nat} (h : n < halfWordCount) : halfWord n = n := Nat.mod_eq_of_lt h

end ConferenceMix
