import ConferenceMix.Proofs.Pcm.Sums

/-! # Headroom of the mix

Mixing adds all inputs up before it takes one off again, and holds the result within the range of a
sample only at the very end. With at most 65536 inputs there is headroom for this in 32 bits: every
running sum (`word32_running`) and every difference (`word32_totals_sub`) fits. So each output is
the sum of the other inputs, held within the range of a sample and exact otherwise
(`toInt_getElem?_deduct_totals`). `mixMinus_exact` puts this together for inputs of any lengths. -/

namespace ConferenceMix.Pcm

/-! ### Bounds on samples and sums -/

theorem sampleAt_bounds (input : List Int16) (k : Nat) :
    -32768 ≤ sampleAt input k ∧ sampleAt input k ≤ 32767 := by
  unfold sampleAt
  cases input[k]? with
  | none => decide
  | some s => exact ⟨s.le_toInt, Int.le_of_lt_add_one s.toInt_lt⟩

theorem sumAt_bounds (inputs : List (List Int16)) (k : Nat) :
    -32768 * (inputs.length : Int) ≤ sumAt inputs k ∧
      sumAt inputs k ≤ 32767 * (inputs.length : Int) := by
  induction inputs with
  | nil => simp [sumAt]
  | cons s inputs ih =>
      have hs := sampleAt_bounds s k
      rw [sumAt, List.length_cons]
      omega

/-- The number can be held in 32 bits with a sign. -/
def Word32 (v : Int) : Prop := -2147483648 ≤ v ∧ v ≤ 2147483647

instance (v : Int) : Decidable (Word32 v) := inferInstanceAs (Decidable (_ ∧ _))

/-- The sum of one sample each of at most 65536 inputs fits in 32 bits. -/
theorem word32_sumAt {inputs : List (List Int16)} (h : inputs.length ≤ 65536) (k : Nat) :
    Word32 (sumAt inputs k) := by
  have hb := sumAt_bounds inputs k
  unfold Word32
  omega

/-! ### Running sums -/

/-- The running sums after the first `j` inputs have been added up. -/
def running (inputs : List (List Int16)) (j : Nat) : List Int :=
  (inputs.take j).foldl accumulate (List.replicate (longest inputs) 0)

theorem running_length (inputs : List (List Int16)) :
    running inputs inputs.length = totals inputs := by
  rw [running, List.take_length, totals]

/-- The running sum at an index is the sum over the inputs so far. -/
theorem mem_running {inputs : List (List Int16)} {j : Nat} {t : Int} (ht : t ∈ running inputs j) :
    ∃ k, t = sumAt (inputs.take j) k := by
  obtain ⟨k, hk⟩ := List.mem_iff_getElem?.mp ht
  rw [running, getElem?_foldl_accumulate] at hk
  obtain ⟨z, hz, rfl⟩ := Option.map_eq_some_iff.mp hk
  have hzero : z = 0 := List.eq_of_mem_replicate (List.mem_of_getElem? hz)
  exact ⟨k, by rw [hzero, Int.zero_add]⟩

/-- No running sum leaves 32 bits. -/
theorem word32_running {inputs : List (List Int16)} (h : inputs.length ≤ 65536) {j : Nat} {t : Int}
    (ht : t ∈ running inputs j) : Word32 t := by
  obtain ⟨k, rfl⟩ := mem_running ht
  refine word32_sumAt ?_ k
  rw [List.length_take]
  exact Nat.le_trans (Nat.min_le_right _ _) h

/-! ### Taking one's own off -/

/-- What is left of the sum without one input is the sum over the others. -/
theorem sumAt_sub_sampleAt {inputs : List (List Int16)} {i : Nat} {own : List Int16}
    (h : inputs[i]? = some own) (k : Nat) :
    sumAt inputs k - sampleAt own k = othersSum inputs i k := by
  unfold othersSum
  induction inputs generalizing i with
  | nil => cases h
  | cons s inputs ih =>
      cases i with
      | zero =>
          cases h
          rw [sumAt, List.eraseIdx_cons_zero]
          omega
      | succ i =>
          have hrest := ih h
          rw [sumAt, List.eraseIdx_cons_succ, sumAt]
          omega

/-- No difference between a total and one's own sample leaves 32 bits. -/
theorem word32_totals_sub {inputs : List (List Int16)} (h : inputs.length ≤ 65536) {i : Nat}
    {own : List Int16} (hi : inputs[i]? = some own) {k : Nat} {t : Int}
    (ht : (totals inputs)[k]? = some t) : Word32 (t - sampleAt own k) := by
  have hk : k < longest inputs := by
    rw [← length_totals]
    exact (List.getElem?_eq_some_iff.mp ht).1
  rw [getElem?_totals hk, Option.some_inj] at ht
  rw [← ht, sumAt_sub_sampleAt hi]
  refine word32_sumAt ?_ k
  exact Nat.le_trans (List.length_eraseIdx_le inputs i) h

theorem toInt_saturate (v : Int) : (saturate v).toInt = max (-32768) (min v 32767) := by
  have hlo : -32768 ≤ max (-32768) (min v 32767) := Int.le_max_left _ _
  have hhi : max (-32768) (min v 32767) < 32768 := by omega
  exact Int16.toInt_ofInt_of_le hlo hhi

/-! ### The mix -/

/-- A maximum of numbers is one of them, or the value it starts from. -/
theorem foldl_max_eq_or_mem (ns : List Nat) (b : Nat) :
    ns.foldl max b = b ∨ ns.foldl max b ∈ ns := by
  induction ns generalizing b with
  | nil => exact .inl rfl
  | cons n ns ih =>
      rw [List.foldl_cons, List.mem_cons]
      rcases ih (max b n) with he | hm
      · omega
      · exact .inr (.inr hm)

/-- Some input is as long as the longest. -/
theorem exists_length_eq_longest {inputs : List (List Int16)} {s : List Int16} (hs : s ∈ inputs) :
    ∃ s' ∈ inputs, s'.length = longest inputs := by
  rcases foldl_max_eq_or_mem (inputs.map List.length) 0 with hzero | hmem
  · have hle := length_le_longest hs
    rw [longest, hzero] at hle
    exact ⟨s, hs, (Nat.le_zero.mp hle).trans hzero.symm⟩
  · exact List.mem_map.mp hmem

/-- The mix of an input holds, at each index, the sum of the other inputs within the range of a
sample. -/
theorem toInt_getElem?_deduct_totals {inputs : List (List Int16)} {i : Nat} {own : List Int16}
    (hi : inputs[i]? = some own) {k : Nat} (hk : k < longest inputs) :
    ((deduct (totals inputs) own)[k]?).map Int16.toInt =
      some (max (-32768) (min (othersSum inputs i k) 32767)) := by
  rw [getElem?_deduct_totals hk, Option.map_some, toInt_saturate, sumAt_sub_sampleAt hi]

/-- **Mixing is the exact sum of the others.** Each of at most 65536 inputs of any lengths gets an
output as long as the longest input, whose samples are the exact sums of the samples of all other
inputs, with zeros past their ends, held within the range of a sample. No running sum and no
difference from which an output is made leaves 32 bits. -/
theorem mixMinus_exact (inputs : List (List Int16)) (h : inputs.length ≤ 65536) :
    (mixMinus inputs).length = inputs.length ∧
    (∀ (i : Nat) (own : List Int16), inputs[i]? = some own →
      ∃ out, (mixMinus inputs)[i]? = some out ∧
      (∃ s ∈ inputs, s.length = out.length) ∧ (∀ s ∈ inputs, s.length ≤ out.length) ∧
      ∀ k < out.length, (out[k]?).map Int16.toInt =
        some (max (-32768) (min (othersSum inputs i k) 32767))) ∧
    running inputs inputs.length = totals inputs ∧
    (∀ j, ∀ t ∈ running inputs j, Word32 t) ∧
    ∀ (i : Nat) (own : List Int16) (k : Nat) (t : Int), inputs[i]? = some own →
      (totals inputs)[k]? = some t → Word32 (t - sampleAt own k) := by
  refine ⟨length_mixMinus inputs, fun i own hi => ?_, running_length inputs,
    fun j t ht => word32_running h ht, fun i own k t hi ht => word32_totals_sub h hi ht⟩
  have hlength : (deduct (totals inputs) own).length = longest inputs := by
    rw [length_deduct, length_totals]
  refine ⟨deduct (totals inputs) own, ?_, ?_, ?_, ?_⟩
  · rw [mixMinus, List.getElem?_map, hi]
    rfl
  · rw [hlength]
    exact exists_length_eq_longest (List.mem_of_getElem? hi)
  · intro s hs
    rw [hlength]
    exact length_le_longest hs
  · intro k hk
    exact toInt_getElem?_deduct_totals hi (hlength ▸ hk)

/-- Two loud inputs and a short one: what the short one hears is held at the top of the range, and
the loud ones hear each other and its single sample. -/
theorem mixMinus_exact_loudAndShort :
    [[30000, 30000], [30000, -20000], [(-5 : Int16)]].length ≤ 65536 ∧
    mixMinus [[30000, 30000], [30000, -20000], [-5]] =
      [[29995, -20000], [29995, 30000], [32767, 10000]] ∧
    (∃ out, (mixMinus [[30000, 30000], [30000, -20000], [-5]])[2]? = some out ∧
      (out[0]?).map Int16.toInt = some 32767) ∧
    ∀ t ∈ running [[30000, 30000], [30000, -20000], [-5]] 2, Word32 t := by
  obtain ⟨_, hout, _, hrunning, _⟩ :=
    mixMinus_exact [[30000, 30000], [30000, -20000], [-5]] (by decide)
  obtain ⟨out, hmix, ⟨_, _⟩, hlong, hsample⟩ := hout 2 [-5] rfl
  have hlength : 0 < out.length :=
    Nat.lt_of_lt_of_le (by decide) (hlong [30000, 30000] (by simp))
  refine ⟨by decide, by decide +kernel, ⟨out, hmix, ?_⟩, hrunning 2⟩
  rw [hsample 0 hlength]
  decide +kernel

end ConferenceMix.Pcm
