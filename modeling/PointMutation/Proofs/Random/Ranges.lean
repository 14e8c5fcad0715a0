import PointMutation.Proofs.Number.Order
import PointMutation.Proofs.Random.Weighted

/-!
# Draws within a range

Whatever is drawn lies in the range that it is drawn from (`RandomSource.draws_in_range`).

A number between zero and one has 53 binary digits behind the point, so it is not rounded and stays
below one (`RandomSource.unit_eq`). A coin that succeeds with some probability succeeds with every
greater one (`RandomSource.chance_of_le`), and it cannot fail from one up
(`RandomSource.chance_sure`).

A word is mapped to a range by the high half of a product, to which one is added if a second word
makes the low half flow over. The low half is small where the high half is the greatest number of
the range, so the sum stays in the range (`RandomSource.reduce_lt`). All numbers of 64 bits are a
range that no word counts, from which two words are drawn as they are (`RandomSource.intIn_full`).
-/

namespace PointMutation

namespace RandomSource

/-! ## Numbers between zero and one -/

theorem unitNumerator_lt (r : RandomSource) : r.unitNumerator.1 < Nat.pow 2 53 := by
  have hlow := r.word.1.toNat_lt
  have hhigh := r.word.2.word.1.toNat_lt
  simp only [unitNumerator, wide, UInt32.size, Nat.pow_eq]
  omega

/-- A number between zero and one is not rounded, and stays below one. -/
theorem unit_eq (r : RandomSource) :
    ∃ m e, r.unit.1 = .finite false m e ∧ Double.IsMantissa m e ∧ e ≤ -53 ∧
      Double.ratio false m e = r.unitNumerator.1 / 2 ^ 53 := by
  show ∃ m e, Double.round false r.unitNumerator.1 (Nat.pow 2 53) = _ ∧ _
  have hlt := r.unitNumerator_lt
  generalize r.unitNumerator.1 = n at hlt
  by_cases hzero : n = 0
  · rw [hzero]
    exact ⟨0, -1074, rfl, ⟨by decide, by decide, by decide, .inr rfl⟩, by decide,
      by simp [Double.ratio]⟩
  · obtain ⟨m, e, hm, hne, he, hratio⟩ := Double.exists_mantissa hzero hlt
    refine ⟨m, e, Double.round_of_near false hm hne (Nat.pow_pos (by decide)) ?_, hm, he,
      hratio.symm⟩
    rw [Nat.pow_eq, Nat.cast_pow, Nat.cast_ofNat, hratio]
    exact Double.near_self m e

/-- A coin compares a number between zero and one with its probability. -/
theorem chance_eq (p : Double) (r : RandomSource) :
    r.chance p = (Double.lt r.unit.1 p, r.unit.2) := by
  obtain ⟨m, e, hunit, -, -, hratio⟩ := r.unit_eq
  have hsame : Double.ratio false r.unitNumerator.1 (-53) = Double.ratio false m e := by
    rw [hratio, Double.ratio, if_neg (by decide), zpow_neg, div_eq_mul_inv]
    rfl
  have hlt : (r.chance p).1 = Double.lt (.finite false m e) p := Double.lt_of_ratio_eq hsame p
  rw [hunit, ← hlt]
  rfl

/-- A coin with a probability of at least one always succeeds. -/
theorem chance_sure {p : Double} (h : Double.le (.ofInt 1) p = true) (r : RandomSource) :
    (r.chance p).1 = true := by
  obtain ⟨m, e, hunit, -, -, hratio⟩ := r.unit_eq
  have hlt : (r.unitNumerator.1 : ℚ) < 2 ^ 53 := by exact_mod_cast r.unitNumerator_lt
  rw [chance_eq, hunit]
  refine Double.lt_of_lt_of_le ?_ h
  rw [show Double.ofInt 1 = .finite false (2 ^ 52) (-52) by rfl, Double.lt_finite_iff, hratio]
  calc (r.unitNumerator.1 : ℚ) / 2 ^ 53 < 1 := (div_lt_one (by norm_num)).mpr hlt
    _ = Double.ratio false (2 ^ 52) (-52) := by norm_num [Double.ratio]

/-- A coin without a probability above zero never does. -/
theorem chance_never {p : Double} (h : p = .nan ∨ Double.le p .zero = true) (r : RandomSource) :
    (r.chance p).1 = false := by
  rw [chance_eq]
  rcases h with rfl | h
  · exact Double.lt_nan _
  · obtain ⟨m, e, hunit, -, -, hratio⟩ := r.unit_eq
    rw [hunit, ← Bool.not_eq_true]
    intro hlt
    have hbelow := Double.lt_of_lt_of_le hlt h
    rw [Double.zero, Double.lt_finite_iff, hratio] at hbelow
    have hnonneg : (0 : ℚ) ≤ r.unitNumerator.1 / 2 ^ 53 := by positivity
    exact absurd hbelow (not_lt.mpr (by simpa [Double.ratio] using hnonneg))

theorem chance_of_le {p p' : Double} (h : Double.le p p' = true) {r : RandomSource}
    (hr : (r.chance p).1 = true) : (r.chance p').1 = true :=
  Double.lt_of_lt_of_le hr h

/-! ## Whole numbers -/

/-- One is added to the high half of a product only below the greatest number of the range. -/
theorem reduce_lt {size range word : Nat} (second : Nat) (hword : word < size)
    (hrange : 0 < range) : reduce size range word second < range := by
  have hhigh := mul_div_word_lt size hword hrange
  have hproduct := Nat.div_add_mod (word * range) size
  rw [reduce]
  split
  · next hcarry =>
    rw [Bool.and_eq_true, decide_eq_true_eq, decide_eq_true_eq] at hcarry
    obtain ⟨hlow, -⟩ := hcarry
    generalize word * range % size = low at hproduct hlow
    by_contra hlast
    obtain ⟨b, rfl⟩ := Nat.exists_eq_add_of_lt hrange
    obtain ⟨a, rfl⟩ := Nat.exists_eq_add_of_lt hword
    rw [show word * (0 + b + 1) / (word + a + 1) = b by omega, Nat.zero_add, Nat.add_mul,
      Nat.add_mul, Nat.mul_add] at hproduct
    omega
  · exact hhigh

theorem wide_lt (r : RandomSource) : r.wide.1 < UInt64.size := by
  have hlow := r.word.1.toNat_lt
  have hhigh := r.word.2.word.1.toNat_lt
  simp only [wide, UInt32.size, UInt64.size]
  omega

theorem belowWide_lt {range : Nat} (h : 0 < range) (r : RandomSource) :
    (r.belowWide range).1 < range := by
  have hwide := r.wide_lt
  rw [belowWide]
  generalize r.wide = drawn at hwide
  obtain ⟨w, r'⟩ := drawn
  generalize UInt64.size = size at hwide ⊢
  dsimp only at hwide ⊢
  split <;> exact reduce_lt _ hwide h

theorem below_lt {range : Nat} (h : 0 < range) (r : RandomSource) : (r.below range).1 < range := by
  have hword : r.word.1.toNat < UInt32.size := r.word.1.toNat_lt
  rw [below]
  generalize r.word = drawn at hword
  obtain ⟨w, r'⟩ := drawn
  generalize UInt32.size = size at hword ⊢
  dsimp only at hword ⊢
  split <;> exact reduce_lt _ hword h

/-- A number of a range lies in it, unless the range is all of 64 bits. -/
theorem intIn_mem {lo hi : Int} (h : lo ≤ hi) (hsize : (hi - lo + 1).toNat ≠ UInt64.size)
    (r : RandomSource) : lo ≤ (r.intIn lo hi).1 ∧ (r.intIn lo hi).1 ≤ hi := by
  have hrange : 0 < (hi - lo + 1).toNat := by omega
  have hlt := belowWide_lt hrange r
  -- The draw is named before the choice is unfolded: it is not to be evaluated.
  delta intIn
  generalize hcount : (hi - lo + 1).toNat = range at hsize hlt ⊢
  generalize hdraw : r.belowWide range = drawn at hlt
  obtain ⟨n, r'⟩ := drawn
  generalize UInt64.size = size at hsize ⊢
  rw [if_neg hsize, hdraw]
  dsimp only at hlt ⊢
  omega

/-- The one range that is all of 64 bits has every such number in it. -/
theorem intIn_full (r : RandomSource) :
    -2 ^ 63 ≤ (r.intIn (-2 ^ 63) (2 ^ 63 - 1)).1 ∧ (r.intIn (-2 ^ 63) (2 ^ 63 - 1)).1 < 2 ^ 63 := by
  have hcount : ((2 ^ 63 - 1 : Int) - -2 ^ 63 + 1).toNat = UInt64.size := by decide
  have hlow := Int.le_bmod (x := (r.wide.1 : Int)) (show 0 < UInt64.size by decide)
  have hhigh := Int.bmod_lt (x := (r.wide.1 : Int)) (show 0 < UInt64.size by decide)
  have hvalue : (r.intIn (-2 ^ 63) (2 ^ 63 - 1)).1 = (r.wide.1 : Int).bmod UInt64.size := by
    delta intIn
    rw [if_pos hcount]
  rw [hvalue]
  generalize (r.wide.1 : Int).bmod UInt64.size = i at hlow hhigh ⊢
  norm_num [UInt64.size] at hlow hhigh ⊢
  exact ⟨hlow, hhigh⟩

/-- A number of a range of numbers of 64 bits lies in it. -/
theorem intIn_mem_of_bounds {lo hi : Int} (hlo : -2 ^ 63 ≤ lo) (h : lo ≤ hi) (hhi : hi < 2 ^ 63)
    (r : RandomSource) : lo ≤ (r.intIn lo hi).1 ∧ (r.intIn lo hi).1 ≤ hi := by
  by_cases hsize : (hi - lo + 1).toNat = UInt64.size
  · have hcount : (hi - lo + 1).toNat = 2 ^ 64 := hsize
    obtain rfl : lo = -2 ^ 63 := by omega
    obtain rfl : hi = 2 ^ 63 - 1 := by omega
    exact ⟨r.intIn_full.1, Int.le_sub_one_of_lt r.intIn_full.2⟩
  · exact intIn_mem h hsize r

/-! ## Elements -/

theorem index_lt {length : Nat} (h : 0 < length) (r : RandomSource) :
    (r.index length).1 < length := by
  rw [index]
  split
  · exact below_lt h r
  · exact belowWide_lt h r

/-- An element of a list that is not empty. -/
theorem choose_mem {α : Type} {xs : List α} (h : xs ≠ []) (r : RandomSource) :
    ∃ x r', r.choose xs = (some x, r') ∧ x ∈ xs := by
  have hlt := index_lt (List.length_pos_of_ne_nil h) r
  have hempty : xs.isEmpty = false := by simpa using h
  rw [choose, hempty]
  generalize r.index xs.length = drawn at hlt
  obtain ⟨i, r'⟩ := drawn
  exact ⟨xs[i], r', by simp [List.getElem?_eq_getElem hlt], List.getElem_mem hlt⟩

/-- A character of an alphabet that is not empty. -/
theorem pick_mem {alphabet : List Char} (h : alphabet ≠ []) (r : RandomSource) :
    (r.pick alphabet).1 ∈ alphabet := by
  have hlt := index_lt (List.length_pos_of_ne_nil h) r
  show alphabet.getD (r.index alphabet.length).1 'a' ∈ alphabet
  rw [List.getD_eq_getElem?_getD, List.getElem?_eq_getElem hlt]
  exact List.getElem_mem hlt

/-! ## All draws -/

/-- Every draw lies in the range that it is from, whatever the source was used for before. -/
theorem draws_in_range (r : RandomSource) :
    (∃ n : Nat, n < 2 ^ 53 ∧
      ∃ m e, r.unit.1 = .finite false m e ∧ Double.ratio false m e = n / 2 ^ 53) ∧
    (∀ p, r.chance p = (Double.lt r.unit.1 p, r.unit.2)) ∧
    (∀ p, Double.le (.ofInt 1) p = true → (r.chance p).1 = true) ∧
    (∀ p, p = .nan ∨ Double.le p .zero = true → (r.chance p).1 = false) ∧
    (∀ lo hi : Int, -2 ^ 63 ≤ lo → lo ≤ hi → hi < 2 ^ 63 →
      lo ≤ (r.intIn lo hi).1 ∧ (r.intIn lo hi).1 ≤ hi) ∧
    (∀ (α : Type) (xs : List α), ((r.choose xs).1 = none ↔ xs = []) ∧
      ∀ x, (r.choose xs).1 = some x → x ∈ xs) ∧
    (∀ alphabet, alphabet ≠ [] → (r.pick alphabet).1 ∈ alphabet) ∧
    ∀ weights : List UInt32,
      (∀ i, (r.weighted weights).1 = .ok i → ∃ h : i < weights.length, weights[i] ≠ 0) ∧
      ((∃ fault, (r.weighted weights).1 = .error fault) ↔
        weights = [] ∨ (∀ w ∈ weights, w = 0) ∨ 2 ^ 32 - 1 < (weights.map UInt32.toNat).sum) := by
  refine ⟨?_, fun p => chance_eq p r, fun p h => chance_sure h r, fun p h => chance_never h r,
    fun lo hi hlo h hhi => intIn_mem_of_bounds hlo h hhi r, fun α xs => ?_,
    fun alphabet h => pick_mem h r, fun weights => ⟨fun i hi => ?_, ?_⟩⟩
  · obtain ⟨m, e, hunit, -, -, hratio⟩ := r.unit_eq
    exact ⟨_, r.unitNumerator_lt, m, e, hunit, hratio⟩
  · by_cases hxs : xs = []
    · subst hxs
      exact ⟨iff_of_true rfl rfl, fun x hx => by cases hx⟩
    · obtain ⟨x, r', hchoose, hx⟩ := r.choose_mem hxs
      rw [hchoose]
      exact ⟨iff_of_false (Option.some_ne_none x) hxs, fun y hy => Option.some.inj hy ▸ hx⟩
  · obtain ⟨w, hw, hne⟩ := weighted_positive (Prod.ext hi rfl : _ = (Except.ok i, _))
    obtain ⟨h, rfl⟩ := List.getElem?_eq_some_iff.mp hw
    exact ⟨h, hne⟩
  · exact weighted_fails_iff weights r

/-- The ends of what can be asked of a source: a probability of minus zero, all numbers of 64 bits,
and weights of which one is not zero. -/
theorem draws_in_range_seeded :
    let r := seeded 9
    (r.chance (.ofInt 1)).1 = true ∧ (r.chance (.finite true 0 (-1074))).1 = false ∧
      (-2 ^ 63 ≤ (r.intIn (-2 ^ 63) (2 ^ 63 - 1)).1 ∧
        (r.intIn (-2 ^ 63) (2 ^ 63 - 1)).1 ≤ 2 ^ 63 - 1) ∧
      (r.choose [2, 3]).1 = some 3 ∧ 3 ∈ [2, 3] ∧ (r.pick lowercase).1 ∈ lowercase ∧
      (r.weighted [0, 5, 0]).1 = .ok 1 ∧ (∃ h : 1 < 3, [(0 : UInt32), 5, 0][1] ≠ 0) ∧
      ∃ fault, (r.weighted [0, 0]).1 = .error fault := by
  obtain ⟨-, -, hsure, hnever, hint, hchoose, hpick, hweighted⟩ := draws_in_range (seeded 9)
  have hsome : ((seeded 9).choose [2, 3]).1 = some 3 := by decide +kernel
  have hok : ((seeded 9).weighted [0, 5, 0]).1 = .ok 1 := by decide +kernel
  exact ⟨hsure _ (by decide +kernel), hnever _ (.inr (by decide +kernel)),
    hint _ _ (by decide) (by decide) (by decide), hsome, (hchoose _ _).2 _ hsome,
    hpick _ (by decide), hok, (hweighted _).1 _ hok,
    (hweighted _).2.mpr (.inr (.inl (by simp)))⟩

end RandomSource

end PointMutation
