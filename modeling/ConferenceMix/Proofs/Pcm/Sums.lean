import ConferenceMix.Pcm.MixMinus

/-! # What mixing all but one's own adds up to

`totals` holds, at every index of the longest input, the sum over all inputs (`getElem?_totals`);
taking an input off again leaves that sum less the input's own samples
(`getElem?_deduct_totals`). With inputs that are listed by keys, what is left is the sum over the
other keys (`sum_others`). -/

namespace ConferenceMix.Pcm

/-! ### Samples -/

@[simp] theorem sampleAt_nil (k : Nat) : sampleAt [] k = 0 := rfl

@[simp] theorem sampleAt_cons_zero (s : Int16) (ss : List Int16) :
    sampleAt (s :: ss) 0 = s.toInt := rfl

@[simp] theorem sampleAt_cons_succ (s : Int16) (ss : List Int16) (k : Nat) :
    sampleAt (s :: ss) (k + 1) = sampleAt ss k := by
  simp [sampleAt]

/-- The samples of an input with silence behind them, `n` in all. -/
def padded (n : Nat) (input : List Int16) : List Int16 :=
  input ++ List.replicate (n - input.length) 0

theorem length_padded {n : Nat} {input : List Int16} (h : input.length ≤ n) :
    (padded n input).length = n := by
  rw [padded, List.length_append, List.length_replicate]
  omega

theorem decode_silence (n : Nat) : decode (List.replicate (n * 2) 0) = List.replicate n 0 := by
  induction n with
  | zero => rfl
  | succ n ih =>
      rw [Nat.add_mul, List.replicate_succ, List.replicate_succ, decode_cons_cons, ih,
        List.replicate_succ]
      rfl

/-- Bytes with silence behind them are samples with silence behind them. -/
theorem decode_padded {bytes : List UInt8} (h : bytes.length % 2 = 0) (n : Nat) :
    decode (bytes ++ List.replicate (n * 2 - bytes.length) 0) = padded n (decode bytes) := by
  have hz : n * 2 - bytes.length = (n - (decode bytes).length) * 2 := by
    rw [length_decode]
    omega
  rw [decode_append bytes _ h, hz, decode_silence]
  rfl

/-! ### Lengths -/

theorem foldl_max_le {ns : List Nat} {b n : Nat} (hb : b ≤ n) (h : ∀ k ∈ ns, k ≤ n) :
    ns.foldl max b ≤ n := by
  induction ns generalizing b with
  | nil => exact hb
  | cons k ns ih =>
      have hk := h k (List.mem_cons_self ..)
      exact ih (Nat.max_le.mpr ⟨hb, hk⟩) fun j hj => h j (List.mem_cons_of_mem k hj)

theorem le_foldl_max (ns : List Nat) (b : Nat) :
    b ≤ ns.foldl max b ∧ ∀ k ∈ ns, k ≤ ns.foldl max b := by
  induction ns generalizing b with
  | nil => simp
  | cons k ns ih =>
      obtain ⟨hb, hns⟩ := ih (max b k)
      refine ⟨Nat.le_trans (Nat.le_max_left b k) hb, ?_⟩
      intro j hj
      rcases List.mem_cons.mp hj with rfl | hm
      · exact Nat.le_trans (Nat.le_max_right b j) hb
      · exact hns j hm

theorem longest_le {inputs : List (List Int16)} {n : Nat} (h : ∀ s ∈ inputs, s.length ≤ n) :
    longest inputs ≤ n := by
  refine foldl_max_le (Nat.zero_le n) ?_
  intro k hk
  obtain ⟨s, hs, rfl⟩ := List.mem_map.mp hk
  exact h s hs

theorem length_le_longest {inputs : List (List Int16)} {s : List Int16} (h : s ∈ inputs) :
    s.length ≤ longest inputs :=
  (le_foldl_max (inputs.map List.length) 0).2 s.length (List.mem_map_of_mem h)

/-! ### Adding up and taking off -/

theorem getElem?_accumulate (ts : List Int) (ss : List Int16) (k : Nat) :
    (accumulate ts ss)[k]? = ts[k]?.map (· + sampleAt ss k) := by
  induction ts generalizing ss k with
  | nil => cases ss <;> rfl
  | cons t ts ih =>
      cases ss with
      | nil => simp [accumulate]
      | cons s ss =>
          cases k with
          | zero => rfl
          | succ k => simpa [accumulate] using ih ss k

theorem getElem?_foldl_accumulate (inputs : List (List Int16)) (ts : List Int) (k : Nat) :
    (inputs.foldl accumulate ts)[k]? = ts[k]?.map (· + sumAt inputs k) := by
  induction inputs generalizing ts with
  | nil => simp [sumAt]
  | cons s inputs ih =>
      rw [List.foldl_cons, ih, getElem?_accumulate, Option.map_map]
      congr
      funext t
      simp only [Function.comp, sumAt]
      omega

/-- At every index of the longest input stands the sum over all inputs. -/
theorem getElem?_totals {inputs : List (List Int16)} {k : Nat} (h : k < longest inputs) :
    (totals inputs)[k]? = some (sumAt inputs k) := by
  rw [totals, getElem?_foldl_accumulate, List.getElem?_replicate, if_pos h]
  simp

theorem getElem?_deduct (ts : List Int) (ss : List Int16) (k : Nat) :
    (deduct ts ss)[k]? = ts[k]?.map fun t => saturate (t - sampleAt ss k) := by
  induction ts generalizing ss k with
  | nil => simp [deduct]
  | cons t ts ih =>
      cases ss with
      | nil =>
          cases k with
          | zero => simp [deduct]
          | succ k => simpa [deduct] using ih [] k
      | cons s ss =>
          cases k with
          | zero => simp [deduct]
          | succ k => simpa [deduct] using ih ss k

/-- Taking an input off the sums leaves at every index the sum less its own sample. -/
theorem getElem?_deduct_totals {inputs : List (List Int16)} {k : Nat} (h : k < longest inputs)
    (own : List Int16) :
    (deduct (totals inputs) own)[k]? =
      some (saturate (sumAt inputs k - sampleAt own k)) := by
  rw [getElem?_deduct, getElem?_totals h]
  rfl

/-- The sum over all keys less the part of one is the sum over the others. -/
theorem sum_others {ι : Type} [DecidableEq ι] {keys : List ι} (hn : keys.Nodup) {i : ι}
    (hi : i ∈ keys) (part : ι → List Int16) (k : Nat) :
    sumAt (keys.map part) k - sampleAt (part i) k =
      sumAt ((keys.filter (· ≠ i)).map part) k := by
  induction keys with
  | nil => cases hi
  | cons j keys ih =>
      obtain ⟨hj, hkeys⟩ := List.nodup_cons.mp hn
      by_cases he : j = i
      · subst he
        have hf : (j :: keys).filter (· ≠ j) = keys := by
          rw [List.filter_cons_of_neg (by simp), List.filter_eq_self]
          intro l hl
          have hne : l ≠ j := fun he => hj (he ▸ hl)
          simpa using hne
        rw [hf, List.map_cons, sumAt]
        omega
      · have hm : i ∈ keys := (List.mem_cons.mp hi).resolve_left (Ne.symm he)
        have hs := ih hkeys hm
        rw [List.filter_cons_of_pos (by simpa using he)]
        simp only [List.map_cons, sumAt]
        omega

end ConferenceMix.Pcm
