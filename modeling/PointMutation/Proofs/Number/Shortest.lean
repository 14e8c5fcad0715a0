import PointMutation.Proofs.Number.Rounding
import Mathlib.Data.Nat.Digits.Lemmas

/-!
# Shortest decimals

The decimal that a number is written as lies in the interval of the number
(`Double.near_shortest`), so whatever ratio its digits spell is rounded to the number.
-/

namespace PointMutation.Double

/-- The value of digits with an exponent. -/
def decimalValue (n : Nat) (k : Int) : ℚ := n * 10 ^ k

theorem ten_zpow_pos (k : Int) : (0 : ℚ) < 10 ^ k := by positivity

/-- A mantissa with its exponent is a ratio of whole numbers. -/
theorem ratio_eq (m : Nat) (e : Int) :
    ((m * Nat.pow 2 e.toNat : Nat) : ℚ) / (Nat.pow 2 (-e).toNat : Nat) = m * 2 ^ e := by
  rw [zpow_split 2 e]
  push_cast [Nat.pow_eq]
  ring

/-! ## Being in an interval -/

theorem interval_low (m : Nat) (hm : 1 ≤ m) (e : Int) :
    ((interval m e).low : ℚ) / (interval m e).den = (m - below m e) * 2 ^ e := by
  obtain ⟨b, hb, hle, hlow⟩ : ∃ b : Nat, (b : ℚ) = 4 * below m e ∧ b ≤ 2 ∧
      (interval m e).low = (4 * m - b) * 2 ^ e.toNat := by
    have hspecial : (m = Nat.pow 2 (digits - 1) && leastExponent < e) =
        decide (m = 2 ^ 52 ∧ -1074 < e) := by
      rw [Bool.decide_and]
      rfl
    refine ⟨_, ?_, ?_, rfl⟩
    · rw [hspecial, below]
      by_cases h : m = 2 ^ 52 ∧ -1074 < e
      · rw [if_pos h, if_pos (decide_eq_true h)]
        norm_num
      · rw [if_neg h, if_neg (by simpa using h)]
        norm_num
    · split <;> decide
  have hlow' : ((interval m e).low : ℚ) = 4 * (m - below m e) * 2 ^ e.toNat := by
    rw [hlow, Nat.cast_mul, Nat.cast_sub (by omega), hb]
    push_cast
    ring
  have hden : ((interval m e).den : ℚ) = 4 * 2 ^ (-e).toNat := by simp [interval, Nat.pow_eq]
  rw [hlow', hden, zpow_split 2 e]
  field_simp

theorem interval_high (m : Nat) (e : Int) :
    ((interval m e).high : ℚ) / (interval m e).den = (m + 1 / 2) * 2 ^ e := by
  have hhigh : ((interval m e).high : ℚ) = 4 * (m + 1 / 2) * 2 ^ e.toNat := by
    simp only [interval, Nat.pow_eq]
    push_cast
    ring
  have hden : ((interval m e).den : ℚ) = 4 * 2 ^ (-e).toNat := by simp [interval, Nat.pow_eq]
  rw [hhigh, hden, zpow_split 2 e]
  field_simp

theorem interval_den_pos (m : Nat) (e : Int) : 0 < (interval m e).den :=
  Nat.mul_pos (by decide) (Nat.pow_pos (by decide))

/-- The test of an interval, for ratios. -/
theorem holds_iff {i : Interval} (hden : 0 < i.den) (n : Nat) (k : Int) : i.holds n k = true ↔
    if i.closed then (i.low : ℚ) / i.den ≤ decimalValue n k ∧ decimalValue n k ≤ i.high / i.den
    else (i.low : ℚ) / i.den < decimalValue n k ∧ decimalValue n k < i.high / i.den := by
  have hden' : (0 : ℚ) < i.den := by exact_mod_cast hden
  have hscale : (0 : ℚ) < 10 ^ (-k).toNat := by positivity
  have hvalue : decimalValue n k = n * 10 ^ k.toNat / 10 ^ (-k).toNat := by
    rw [decimalValue, zpow_split 10 k, mul_div_assoc]
  rw [hvalue, Interval.holds]
  simp only [Nat.pow_eq]
  split
  · rw [Bool.and_eq_true, decide_eq_true_eq, decide_eq_true_eq, div_le_div_iff₀ hden' hscale,
      div_le_div_iff₀ hscale hden']
    exact_mod_cast Iff.rfl
  · rw [Bool.and_eq_true, decide_eq_true_eq, decide_eq_true_eq, div_lt_div_iff₀ hden' hscale,
      div_lt_div_iff₀ hscale hden']
    exact_mod_cast Iff.rfl

theorem near_of_holds {m n : Nat} {e k : Int} (hm : 1 ≤ m) (h : (interval m e).holds n k = true) :
    Near m e (decimalValue n k) := by
  rw [holds_iff (interval_den_pos m e), interval_low m hm, interval_high] at h
  by_cases heven : m % 2 = 0
  · rw [if_pos (by simpa [interval] using heven)] at h
    exact ⟨h.1, h.2, fun hodd => by omega⟩
  · rw [if_neg (by simpa [interval] using heven)] at h
    exact ⟨h.1.le, h.2.le, fun _ => h⟩

/-- What lies strictly between the ends is in the interval, whatever its mantissa is. -/
theorem holds_of_lt {m n : Nat} {e k : Int} (hm : 1 ≤ m)
    (hlow : (m - below m e) * 2 ^ e < decimalValue n k)
    (hhigh : decimalValue n k < (m + 1 / 2) * 2 ^ e) : (interval m e).holds n k = true := by
  rw [holds_iff (interval_den_pos m e), interval_low m hm, interval_high]
  split
  · exact ⟨hlow.le, hhigh.le⟩
  · exact ⟨hlow, hhigh⟩

/-! ## The search -/

/-- The digits of a ratio in front of the place `k`. -/
def digitsDown (num den : Nat) (k : Int) : Nat :=
  num * Nat.pow 10 (-k).toNat / (den * Nat.pow 10 k.toNat)

/-- If the decimal right above the ratio is in the interval for a number of digits that the search
comes to, it finds a decimal there. -/
theorem shortestFrom_holds {num den : Nat} {i : Interval} {first : Int} {fuel count c : Nat}
    (hc : count ≤ c) (hc' : c < count + fuel)
    (h : i.holds (digitsDown num den (first + 1 - c) + 1) (first + 1 - c) = true) :
    i.holds (shortestFrom num den i first fuel count).1
      (shortestFrom num den i first fuel count).2 = true := by
  induction fuel generalizing count with
  | zero => omega
  | succ fuel ih =>
    rw [shortestFrom]
    rw [digitsDown] at h
    split
    · next hlow hhigh =>
      split
      · exact hhigh
      · exact hlow
    · next hlow _ => exact hlow
    · next _ hhigh => exact hhigh
    · next _ hhigh =>
      have hne : count ≠ c := by
        rintro rfl
        rw [h] at hhigh
        cases hhigh
      exact ih (by omega) (by omega)

theorem lt_digitsDown_succ (num : Nat) {den : Nat} (hden : 0 < den) (k : Int) :
    (num : ℚ) / den < decimalValue (digitsDown num den k + 1) k ∧
      decimalValue (digitsDown num den k + 1) k ≤ num / den + 10 ^ k := by
  have hd : 0 < den * Nat.pow 10 k.toNat := Nat.mul_pos hden (Nat.pow_pos (by decide))
  have hd' : (0 : ℚ) < (den * Nat.pow 10 k.toNat : Nat) := by exact_mod_cast hd
  have hpow := ten_zpow_pos k
  have hratio : (num : ℚ) / den =
      (num * Nat.pow 10 (-k).toNat : Nat) / (den * Nat.pow 10 k.toNat : Nat) * 10 ^ k := by
    have hden' : (den : ℚ) ≠ 0 := by exact_mod_cast hden.ne'
    rw [zpow_split 10 k]
    push_cast [Nat.pow_eq]
    field_simp
  rw [hratio, decimalValue, ← add_one_mul, Nat.cast_add, Nat.cast_one]
  constructor
  · refine mul_lt_mul_of_pos_right ?_ hpow
    have hlt := Nat.lt_mul_div_succ (num * Nat.pow 10 (-k).toNat) hd
    rw [mul_comm (den * _)] at hlt
    rw [div_lt_iff₀ hd']
    exact_mod_cast hlt
  · refine mul_le_mul_of_nonneg_right (add_le_add_left ?_ 1) hpow.le
    rw [le_div_iff₀ hd']
    exact_mod_cast Nat.div_mul_le_self _ _

/-- The first digit of a ratio is not behind the place that is taken for it. -/
theorem leadingPlaces_le {den n num k : Nat} (h : den ≤ num * 10 ^ n) :
    ∃ j, leadingPlaces den n num k = k + j ∧ den ≤ num * 10 ^ j := by
  induction n generalizing num k with
  | zero => exact ⟨0, rfl, h⟩
  | succ n ih =>
    rw [leadingPlaces]
    split
    · next hle => exact ⟨0, rfl, by simpa using hle⟩
    · have hnext : den ≤ num * 10 * 10 ^ n := by
        rw [mul_assoc, ← pow_succ']
        exact h
      obtain ⟨j, hj, hle⟩ := ih (k := k + 1) hnext
      exact ⟨j + 1, by rw [hj]; omega, by rw [pow_succ', ← mul_assoc]; exact hle⟩

theorem pow_length_toDigits_le {n : Nat} (hn : n ≠ 0) :
    10 ^ ((Nat.toDigits 10 n).length - 1) ≤ n := by
  rcases Nat.eq_zero_or_pos ((Nat.toDigits 10 n).length - 1) with h | h
  · rw [h]
    exact Nat.pos_of_ne_zero hn
  · by_contra hlt
    have := (Nat.length_toDigits_le_iff (by decide) h).mpr (not_le.mp hlt)
    omega

theorem decimalExponent_le {num den : Nat} (hden : 0 < den) (h : den ≤ num * 10 ^ 400) :
    (10 : ℚ) ^ decimalExponent num den ≤ num / den := by
  have hden' : (0 : ℚ) < den := by exact_mod_cast hden
  rw [decimalExponent]
  split
  · next hle =>
    have hfirst := pow_length_toDigits_le (Nat.div_pos hle hden).ne'
    have hpos : 0 < (Nat.toDigits 10 (num / den)).length := Nat.length_toDigits_pos
    rw [show ((Nat.toDigits 10 (num / den)).length : Int) - 1 =
      ((Nat.toDigits 10 (num / den)).length - 1 : Nat) by omega, zpow_natCast, le_div_iff₀ hden']
    exact_mod_cast (Nat.mul_le_mul_right den hfirst).trans (Nat.div_mul_le_self num den)
  · obtain ⟨j, hj, hle⟩ := leadingPlaces_le (k := 0) h
    rw [hj, Nat.zero_add, zpow_neg, zpow_natCast, le_div_iff₀ hden', inv_mul_le_iff₀ (by positivity)]
    rw [mul_comm]
    exact_mod_cast hle

theorem two_pow_le_ten_pow {n k : Nat} (h : n ≤ 3 * k) : 2 ^ n ≤ 10 ^ k :=
  calc 2 ^ n ≤ 2 ^ (3 * k) := Nat.pow_le_pow_right (by decide) h
    _ = (2 ^ 3) ^ k := pow_mul 2 3 k
    _ ≤ 10 ^ k := Nat.pow_le_pow_left (by decide) k

/-- A ratio that is no smaller than a power of two is no smaller than a power of ten with a third of
the digits. -/
theorem le_mul_ten_pow {num den n k : Nat} (hden : 0 < den)
    (h : (2 : ℚ) ^ (-(n : Int)) ≤ num / den) (hk : n ≤ 3 * k) : den ≤ num * 10 ^ k := by
  have hden' : (0 : ℚ) < den := by exact_mod_cast hden
  rw [zpow_neg, zpow_natCast, le_div_iff₀ hden', inv_mul_le_iff₀ (by positivity)] at h
  have htwo : den ≤ 2 ^ n * num := by exact_mod_cast h
  rw [mul_comm]
  exact htwo.trans (Nat.mul_le_mul_right num (two_pow_le_ten_pow hk))

/-- The decimal that is written for a number lies in its interval. -/
theorem near_shortest {m : Nat} {e : Int} (hm : IsMantissa m e) (hne : m ≠ 0) :
    Near m e (decimalValue (shortest m e).1 (shortest m e).2) := by
  have hm1 : 1 ≤ m := Nat.one_le_iff_ne_zero.mpr hne
  refine near_of_holds hm1 (shortestFrom_holds (c := 18) (by decide) (by decide) ?_)
  have hden : 0 < Nat.pow 2 (-e).toNat := Nat.pow_pos (by decide)
  have hratio := ratio_eq m e
  generalize m * Nat.pow 2 e.toNat = num at hratio ⊢
  generalize Nat.pow 2 (-e).toNat = den at hden hratio ⊢
  have hpos := two_zpow_pos e
  have hm' : (m : ℚ) < 2 ^ 53 := by exact_mod_cast hm.lt
  -- Eighteen digits reach further down than the interval reaches up.
  have hfirst : (10 : ℚ) ^ decimalExponent num den ≤ num / den := by
    refine decimalExponent_le hden (le_mul_ten_pow (n := 1074) hden ?_ (by decide))
    rw [hratio]
    calc (2 : ℚ) ^ (-1074 : Int) ≤ 2 ^ e := zpow_le_zpow_right₀ (by norm_num) hm.least
      _ = 1 * 2 ^ e := (one_mul _).symm
      _ ≤ m * 2 ^ e := by
        gcongr
        exact_mod_cast hm1
  have hgap : (10 : ℚ) ^ (decimalExponent num den + 1 - (18 : Nat)) < 1 / 2 * 2 ^ e := by
    rw [show decimalExponent num den + 1 - ((18 : Nat) : Int) = decimalExponent num den - 17 by
      push_cast
      ring]
    rw [zpow_sub₀ (by norm_num), div_lt_iff₀ (by positivity)]
    calc (10 : ℚ) ^ decimalExponent num den ≤ m * 2 ^ e := hratio ▸ hfirst
      _ < 2 ^ 53 * 2 ^ e := by gcongr
      _ < 1 / 2 * 2 ^ e * 10 ^ 17 := by
        norm_num
        linarith
  obtain ⟨hlow, hhigh⟩ := lt_digitsDown_succ num hden
    (decimalExponent num den + 1 - (18 : Nat))
  rw [hratio] at hlow hhigh
  refine holds_of_lt hm1 ?_ ?_
  · have := below_pos m e
    nlinarith
  · calc _ ≤ (m : ℚ) * 2 ^ e + 10 ^ (decimalExponent num den + 1 - (18 : Nat)) := hhigh
      _ < m * 2 ^ e + 1 / 2 * 2 ^ e := by gcongr
      _ = (m + 1 / 2) * 2 ^ e := by ring

end PointMutation.Double
