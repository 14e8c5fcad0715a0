import PointMutation.Random.Draw
import Mathlib.Algebra.GroupWithZero.Nat

/-!
# Weighted choices

A weighted choice gives the index of a weight unless the weights are none, all zero, or sum up to
more than a word holds (`weighted_fails_iff`). It never chooses a weight of zero
(`weighted_positive`).
-/

namespace PointMutation

namespace RandomSource

/-- A word times a number has a high half below the number. -/
theorem mul_div_word_lt {w total : Nat} (size : Nat) (hw : w < size) (h : 0 < total) :
    w * total / size < total := by
  apply Nat.div_lt_of_lt_mul
  exact Nat.mul_lt_mul_of_pos_right hw h

theorem uniform_lt {total : Nat} (h : 0 < total) (fuel : Nat) (r : RandomSource) :
    (uniform total fuel r).1 < total := by
  induction fuel generalizing r with
  | zero => exact h
  | succ fuel ih =>
    have hword : r.word.1.toNat < UInt32.size := r.word.1.toNat_lt
    rw [uniform]
    generalize hdraw : r.word = drawn at hword
    obtain ⟨w, r'⟩ := drawn
    generalize UInt32.size = size at hword ⊢
    dsimp only at hword ⊢
    split
    · exact mul_div_word_lt size hword h
    · exact ih r'

theorem indexAbove_lt {n : Nat} {weights : List UInt32} (h : n < total weights) :
    indexAbove n weights < weights.length := by
  induction weights generalizing n with
  | nil => cases h
  | cons w ws ih =>
    rw [indexAbove, List.length_cons]
    split
    · exact Nat.succ_pos _
    · have htotal : total (w :: ws) = w.toNat + total ws := rfl
      have hrest : n - w.toNat < total ws := by omega
      exact Nat.succ_lt_succ (ih hrest)

theorem toNat_le_total {w : UInt32} {weights : List UInt32} (h : w ∈ weights) :
    w.toNat ≤ total weights := by
  induction weights with
  | nil => cases h
  | cons v ws ih =>
    have htotal : total (v :: ws) = v.toNat + total ws := rfl
    rcases List.mem_cons.mp h with rfl | h
    · omega
    · have hrest := ih h
      omega

theorem total_ne_zero {weights : List UInt32} (h : ∃ w ∈ weights, w ≠ 0) : total weights ≠ 0 := by
  obtain ⟨w, hw, hne⟩ := h
  have hle := toNat_le_total hw
  have hpositive : w.toNat ≠ 0 := fun hzero => hne (UInt32.toNat_inj.mp hzero)
  omega

/-- Weights that sum up to more than a word holds are no distribution. -/
theorem weighted_overflow {weights : List UInt32} (h : UInt32.size ≤ total weights)
    (r : RandomSource) :
    r.weighted weights =
      (.error (.configuration "invalid distribution: Overflow when summing weights"), r) := by
  have hne : weights ≠ [] := by
    rintro rfl
    simp [total] at h
  have hempty : weights.isEmpty = false := by simpa using hne
  rw [weighted, hempty, if_neg (by decide), if_pos h]
  rfl

theorem total_zero {weights : List UInt32} (h : ∀ w ∈ weights, w = 0) : total weights = 0 := by
  induction weights with
  | nil => rfl
  | cons w ws ih =>
    obtain ⟨rfl, hws⟩ := List.forall_mem_cons.mp h
    exact (Nat.zero_add _).trans (ih hws)

/-- Neither are weights that are all zero. -/
theorem weighted_zero {weights : List UInt32} (h : ∀ w ∈ weights, w = 0) (r : RandomSource) :
    ∃ fault, (r.weighted weights).1 = .error fault := by
  rw [weighted, total_zero h]
  split
  · exact ⟨_, rfl⟩
  · exact ⟨_, rfl⟩

/-- Other weights are, as long as one of them is not zero. -/
theorem weighted_ok {weights : List UInt32} (hw : ∃ w ∈ weights, w ≠ 0)
    (h : total weights < UInt32.size) (r : RandomSource) :
    ∃ i r', r.weighted weights = (.ok i, r') ∧ i < weights.length := by
  have hzero := total_ne_zero hw
  have hempty : weights.isEmpty = false := by
    obtain ⟨w, hw, -⟩ := hw
    simpa using List.ne_nil_of_mem hw
  have hlt := uniform_lt (Nat.pos_of_ne_zero hzero) 1000 r
  rw [weighted, hempty, if_neg (by decide), if_neg (Nat.not_le.mpr h), if_neg hzero]
  generalize uniform (total weights) 1000 r = drawn at hlt
  obtain ⟨n, r'⟩ := drawn
  exact ⟨_, _, rfl, indexAbove_lt hlt⟩

theorem total_eq_sum (weights : List UInt32) : total weights = (weights.map UInt32.toNat).sum := by
  induction weights with
  | nil => rfl
  | cons w ws ih =>
    rw [List.map_cons, List.sum_cons, ← ih]
    rfl

/-- There is no weighted choice just from weights that are none, all zero, or too many. -/
theorem weighted_fails_iff (weights : List UInt32) (r : RandomSource) :
    (∃ fault, (r.weighted weights).1 = .error fault) ↔
      weights = [] ∨ (∀ w ∈ weights, w = 0) ∨ 2 ^ 32 - 1 < (weights.map UInt32.toNat).sum := by
  rw [← total_eq_sum]
  by_cases hsize : UInt32.size ≤ total weights
  · rw [weighted_overflow hsize]
    exact iff_of_true ⟨_, rfl⟩ (.inr (.inr hsize))
  · have hlt : ¬ 2 ^ 32 - 1 < total weights := hsize
    by_cases hzero : ∀ w ∈ weights, w = 0
    · exact iff_of_true (weighted_zero hzero r) (.inr (.inl hzero))
    · have hpositive : ∃ w ∈ weights, w ≠ 0 := by simpa using hzero
      obtain ⟨i, r', hweighted, -⟩ := weighted_ok hpositive (Nat.not_le.mp hsize) r
      rw [hweighted]
      refine iff_of_false (fun ⟨_, h⟩ => nomatch h) ?_
      rintro (rfl | h | h)
      · exact hzero (by simp)
      · exact hzero h
      · exact hlt h

theorem indexAbove_positive {n : Nat} {weights : List UInt32} (h : n < total weights) :
    ∃ w, weights[indexAbove n weights]? = some w ∧ w ≠ 0 := by
  induction weights generalizing n with
  | nil => cases h
  | cons w ws ih =>
    rw [indexAbove]
    split
    · next hlt =>
      refine ⟨w, rfl, ?_⟩
      rintro rfl
      exact absurd hlt (Nat.not_lt_zero n)
    · have htotal : total (w :: ws) = w.toNat + total ws := rfl
      exact ih (n := n - w.toNat) (by omega)

/-- What is chosen has a weight other than zero. -/
theorem weighted_positive {weights : List UInt32} {r r' : RandomSource} {i : Nat}
    (h : r.weighted weights = (.ok i, r')) : ∃ w, weights[i]? = some w ∧ w ≠ 0 := by
  rw [weighted] at h
  split at h
  · cases h
  · split at h
    · cases h
    · split at h
      · cases h
      · next hzero =>
        have hlt := uniform_lt (Nat.pos_of_ne_zero hzero) 1000 r
        generalize uniform (total weights) 1000 r = drawn at hlt h
        obtain ⟨n, r''⟩ := drawn
        cases h
        exact indexAbove_positive hlt

end RandomSource

end PointMutation
