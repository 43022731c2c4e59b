import ConferenceMix.Pcm.Sample

/-! # Mixing all but one's own

`mixMinus` gives every input the sum of all *other* inputs, held within the range of a sample. It
adds all inputs up once (`totals`) and takes each input's own samples off again (`deduct`).
`othersSum` is the sum over the others, index by index, without the detour. -/

namespace ConferenceMix.Pcm

/-- The sample at index `k`, and zero past the end. -/
def sampleAt (input : List Int16) (k : Nat) : Int := (input[k]?.map Int16.toInt).getD 0

/-- The length of the longest input. -/
def longest (inputs : List (List Int16)) : Nat := (inputs.map List.length).foldl max 0

/-- Adds an input to running sums; sums beyond its end stay as they are. -/
def accumulate : List Int → List Int16 → List Int
  | t :: ts, s :: ss => (t + s.toInt) :: accumulate ts ss
  | ts, [] => ts
  | [], _ => []

/-- The sum of all inputs at every index. -/
def totals (inputs : List (List Int16)) : List Int :=
  inputs.foldl accumulate (List.replicate (longest inputs) 0)

/-- What is left of running sums when an input is taken off, held within the range of a sample. -/
def deduct : List Int → List Int16 → List Int16
  | t :: ts, s :: ss => saturate (t - s.toInt) :: deduct ts ss
  | t :: ts, [] => saturate t :: deduct ts []
  | [], _ => []

/-- For every input the sum of all the others. -/
def mixMinus (inputs : List (List Int16)) : List (List Int16) := inputs.map (deduct (totals inputs))

/-- The sum over the samples at index `k` of all inputs. -/
def sumAt : List (List Int16) → Nat → Int
  | [], _ => 0
  | s :: inputs, k => sampleAt s k + sumAt inputs k

/-- The sum over the samples at index `k` of all inputs but the one numbered `i`. -/
def othersSum (inputs : List (List Int16)) (i k : Nat) : Int := sumAt (inputs.eraseIdx i) k

/-! ### Lengths -/

theorem length_accumulate (ts : List Int) (ss : List Int16) :
    (accumulate ts ss).length = ts.length := by
  fun_induction accumulate ts ss with
  | case1 t ts s ss ih => simp [ih]
  | case2 => rfl
  | case3 => rfl

theorem length_foldl_accumulate (inputs : List (List Int16)) (ts : List Int) :
    (inputs.foldl accumulate ts).length = ts.length := by
  induction inputs generalizing ts with
  | nil => rfl
  | cons s inputs ih => rw [List.foldl_cons, ih, length_accumulate]

theorem length_totals (inputs : List (List Int16)) : (totals inputs).length = longest inputs := by
  rw [totals, length_foldl_accumulate, List.length_replicate]

theorem length_deduct (ts : List Int) (ss : List Int16) : (deduct ts ss).length = ts.length := by
  fun_induction deduct ts ss with
  | case1 t ts s ss ih => simp [ih]
  | case2 t ts ih => simp [ih]
  | case3 => rfl

theorem length_mixMinus (inputs : List (List Int16)) :
    (mixMinus inputs).length = inputs.length := by
  simp [mixMinus]

end ConferenceMix.Pcm
