import PointMutation.Number.Decimal
import Mathlib.Algebra.Order.Field.Power
import Mathlib.Data.Rat.Cast.Order
import Mathlib.Tactic.FieldSimp
import Mathlib.Tactic.Linarith
import Mathlib.Tactic.NormNum
import Mathlib.Tactic.Positivity
import Mathlib.Tactic.Ring

/-!
# Rounding to floating-point numbers

A floating-point number stands for an interval of ratios, at whose ends only an even mantissa lies
(`Double.Near`). Every ratio in the interval is rounded to the number (`Double.round_of_near`).
-/

namespace PointMutation.Double

/-- A mantissa with an exponent as floating-point numbers have them: the mantissa has all its digits
unless the exponent is the least one. -/
structure IsMantissa (m : Nat) (e : Int) : Prop where
  lt : m < 2 ^ 53
  least : -1074 ≤ e
  greatest : e ≤ 971
  digits : 2 ^ 52 ≤ m ∨ e = -1074

/-- A number that floating-point numbers can be: whatever rounding gives. -/
def IsCanonical : Double → Prop
  | finite _ m e => IsMantissa m e
  | _ => True

/-- How far the interval of a number reaches down, in units of the number. It is half as far below
the least mantissa that has all its digits, since the numbers are denser there. -/
def below (m : Nat) (e : Int) : ℚ := if m = 2 ^ 52 ∧ -1074 < e then 1 / 4 else 1 / 2

/-- The ratio lies in the interval of a number. -/
structure Near (m : Nat) (e : Int) (x : ℚ) : Prop where
  low : (m - below m e) * 2 ^ e ≤ x
  high : x ≤ (m + 1 / 2) * 2 ^ e
  odd : m % 2 = 1 → (m - below m e) * 2 ^ e < x ∧ x < (m + 1 / 2) * 2 ^ e

theorem below_le (m : Nat) (e : Int) : below m e ≤ 1 / 2 := by
  unfold below
  split <;> norm_num

theorem below_pos (m : Nat) (e : Int) : 0 < below m e := by
  unfold below
  split <;> norm_num

/-! ## Powers -/

theorem zpow_split (b : ℚ) (e : Int) : b ^ e = b ^ e.toNat / b ^ (-e).toNat := by
  obtain ⟨n, rfl | rfl⟩ := e.eq_nat_or_neg
  · simp
  · simp [zpow_neg]

theorem two_zpow_pos (e : Int) : (0 : ℚ) < 2 ^ e := by positivity

theorem lt_of_zpow_lt {a b : Int} (h : (2 : ℚ) ^ a < 2 ^ b) : a < b :=
  (zpow_lt_zpow_iff_right₀ (by norm_num)).mp h

theorem shifted_div (num den : Nat) (e : Int) :
    ((shifted num den e).1 : ℚ) / (shifted num den e).2 = num / den / 2 ^ e := by
  simp only [shifted, Nat.pow_eq, Nat.cast_mul, Nat.cast_pow, Nat.cast_ofNat]
  rw [zpow_split 2 e]
  field_simp

theorem shifted_pos {den : Nat} (hden : 0 < den) (num : Nat) (e : Int) :
    0 < (shifted num den e).2 := Nat.mul_pos hden (Nat.pow_pos (by decide))

/-! ## The nearest whole number -/

theorem roundDiv_eq {n d m : Nat} (hd : 0 < d) (hlow : 2 * (m * d) ≤ 2 * n + d)
    (hhigh : 2 * n ≤ 2 * (m * d) + d)
    (hodd : m % 2 = 1 → 2 * (m * d) < 2 * n + d ∧ 2 * n < 2 * (m * d) + d) :
    roundDiv n d = m := by
  have hdiv := Nat.div_add_mod n d
  have hmod := Nat.mod_lt n hd
  rw [roundDiv]
  generalize n / d = q at hdiv
  generalize n % d = r at hdiv hmod
  have hle : q ≤ m := by
    by_contra hlt
    have hmul : (m + 1) * d ≤ d * q := by
      rw [mul_comm d]
      exact Nat.mul_le_mul_right d (by omega)
    rw [Nat.add_mul] at hmul
    omega
  have hge : m ≤ q + 1 := by
    by_contra hlt
    have hmul : d * (q + 2) ≤ m * d := by
      rw [mul_comm m]
      exact Nat.mul_le_mul_left d (by omega)
    rw [Nat.mul_add] at hmul
    omega
  obtain rfl | rfl : m = q ∨ m = q + 1 := by omega
  · rw [mul_comm d] at hdiv
    rw [if_neg]
    simp only [Bool.or_eq_true, Bool.and_eq_true, decide_eq_true_eq, beq_iff_eq, not_or, not_and]
    refine ⟨by omega, fun hr hq => ?_⟩
    have := hodd hq
    omega
  · rw [Nat.add_mul] at hlow hhigh hodd
    rw [mul_comm d] at hdiv
    rw [if_pos]
    simp only [Bool.or_eq_true, Bool.and_eq_true, decide_eq_true_eq, beq_iff_eq]
    by_cases hq : (q + 1) % 2 = 1
    · have := hodd hq
      omega
    · omega

theorem le_roundDiv (n d : Nat) : n / d ≤ roundDiv n d := by
  rw [roundDiv]
  split <;> omega

theorem roundDiv_le (n d : Nat) : roundDiv n d ≤ n / d + 1 := by
  rw [roundDiv]
  split <;> omega

/-- The same for a ratio. -/
theorem roundDiv_eq_of_div {n d m : Nat} (hd : 0 < d) (hlow : (m : ℚ) - 1 / 2 ≤ n / d)
    (hhigh : (n : ℚ) / d ≤ m + 1 / 2)
    (hodd : m % 2 = 1 → (m : ℚ) - 1 / 2 < n / d ∧ (n : ℚ) / d < m + 1 / 2) :
    roundDiv n d = m := by
  have hd' : (0 : ℚ) < d := by exact_mod_cast hd
  refine roundDiv_eq hd ?_ ?_ fun h => ⟨?_, ?_⟩
  · rw [le_div_iff₀ hd'] at hlow
    exact_mod_cast (show (2 : ℚ) * (m * d) ≤ 2 * n + d by linarith)
  · rw [div_le_iff₀ hd'] at hhigh
    exact_mod_cast (show (2 : ℚ) * n ≤ 2 * (m * d) + d by linarith)
  · have hlow := (hodd h).1
    rw [lt_div_iff₀ hd'] at hlow
    exact_mod_cast (show (2 : ℚ) * (m * d) < 2 * n + d by linarith)
  · have hhigh := (hodd h).2
    rw [div_lt_iff₀ hd'] at hhigh
    exact_mod_cast (show (2 : ℚ) * n < 2 * (m * d) + d by linarith)

/-! ## The exponent of a ratio -/

/-- The exponent for which a mantissa below `2 ^ 53` fits is the least one possible. -/
structure IsExponentOf (x : ℚ) (e : Int) : Prop where
  least : -1074 ≤ e
  high : x < 2 ^ (53 + e)
  low : e = -1074 ∨ 2 ^ (52 + e) ≤ x

theorem fits_iff {num den : Nat} (hden : 0 < den) (e : Int) :
    (shifted num den e).1 / (shifted num den e).2 < Nat.pow 2 digits ↔
      (num : ℚ) / den < 2 ^ (53 + e) := by
  have hpos := shifted_pos hden num e
  rw [Nat.div_lt_iff_lt_mul hpos, zpow_add₀ (by norm_num), ← div_lt_iff₀ (two_zpow_pos e),
    ← shifted_div, div_lt_iff₀ (by exact_mod_cast hpos)]
  rw [show (2 : ℚ) ^ (53 : Int) = ((Nat.pow 2 digits : Nat) : ℚ) by norm_num [digits]]
  exact_mod_cast Iff.rfl

/-- The lengths of two numbers give the exponent of their ratio up to one. -/
theorem ratio_bounds {num den : Nat} (hnum : 0 < num) (hden : 0 < den) :
    (2 : ℚ) ^ ((num.log2 : Int) - den.log2 - 1) ≤ num / den ∧
      (num : ℚ) / den < 2 ^ ((num.log2 : Int) - den.log2 + 1) := by
  have hden' : (0 : ℚ) < den := by exact_mod_cast hden
  constructor
  · have hn : ((2 ^ num.log2 : Nat) : ℚ) ≤ num := by exact_mod_cast Nat.log2_self_le hnum.ne'
    have hd : (den : ℚ) ≤ (2 ^ (den.log2 + 1) : Nat) := by exact_mod_cast Nat.lt_log2_self.le
    rw [le_div_iff₀ hden']
    calc (2 : ℚ) ^ ((num.log2 : Int) - den.log2 - 1) * den
        ≤ 2 ^ ((num.log2 : Int) - den.log2 - 1) * (2 ^ (den.log2 + 1) : Nat) := by gcongr
      _ = 2 ^ ((num.log2 : Int) - den.log2 - 1 + (den.log2 + 1)) := by
          rw [zpow_add₀ (by norm_num)]
          norm_cast
      _ = ((2 ^ num.log2 : Nat) : ℚ) := by
          rw [show (num.log2 : Int) - den.log2 - 1 + (den.log2 + 1) = num.log2 by ring]
          norm_cast
      _ ≤ num := hn
  · have hn : (num : ℚ) < (2 ^ (num.log2 + 1) : Nat) := by exact_mod_cast Nat.lt_log2_self
    have hd : ((2 ^ den.log2 : Nat) : ℚ) ≤ den := by exact_mod_cast Nat.log2_self_le hden.ne'
    rw [div_lt_iff₀ hden']
    calc (num : ℚ) < (2 ^ (num.log2 + 1) : Nat) := hn
      _ = 2 ^ ((num.log2 : Int) - den.log2 + 1 + den.log2) := by
          rw [show (num.log2 : Int) - den.log2 + 1 + den.log2 = ((num.log2 + 1 : Nat) : Int) by
            push_cast
            ring]
          norm_cast
      _ = 2 ^ ((num.log2 : Int) - den.log2 + 1) * (2 ^ den.log2 : Nat) := by
          rw [zpow_add₀ (by norm_num)]
          norm_cast
      _ ≤ 2 ^ ((num.log2 : Int) - den.log2 + 1) * den := by gcongr

/-- An exponent for which the mantissa has all its digits, unless it is too small. -/
theorem isExponentOf_max {x : ℚ} {g : Int} (hhigh : x < 2 ^ (53 + g)) (hlow : 2 ^ (52 + g) ≤ x) :
    IsExponentOf x (max leastExponent g) := by
  rcases le_total g leastExponent with h | h
  · rw [max_eq_left h]
    refine ⟨le_rfl, hhigh.trans_le ?_, .inl rfl⟩
    exact zpow_le_zpow_right₀ (by norm_num) (by omega)
  · rw [max_eq_right h]
    exact ⟨h, hhigh, .inr hlow⟩

theorem isExponentOf_exponentOf {num den : Nat} (hnum : 0 < num) (hden : 0 < den) :
    IsExponentOf (num / den) (exponentOf num den) := by
  obtain ⟨hlow, hhigh⟩ := ratio_bounds hnum hden
  unfold exponentOf
  simp only [fits_iff hden, decide_eq_true_eq]
  set g : Int := (num.log2 : Int) - den.log2 - digits with hg
  have hg53 : g = (num.log2 : Int) - den.log2 - 53 := hg
  by_cases h : (num : ℚ) / den < 2 ^ (53 + g)
  · rw [if_pos h]
    refine isExponentOf_max h ?_
    rwa [show 52 + g = (num.log2 : Int) - den.log2 - 1 by omega]
  · have h' : (num : ℚ) / den < 2 ^ (53 + (g + 1)) := by
      rwa [show 53 + (g + 1) = (num.log2 : Int) - den.log2 + 1 by omega]
    rw [if_neg h, if_pos h']
    refine isExponentOf_max h' ?_
    rw [show 52 + (g + 1) = 53 + g by omega]
    exact not_lt.mp h

/-! ## Rounding -/

theorem two_zpow_add (n : Nat) (e : Int) : (2 : ℚ) ^ ((n : Int) + e) = 2 ^ n * 2 ^ e := by
  rw [zpow_add₀ (by norm_num), zpow_natCast]

theorem lt_pow_of_near {m : Nat} {e : Int} {x : ℚ} (hm : IsMantissa m e) (hx : Near m e x) :
    x < 2 ^ (53 + e) := by
  have hpos := two_zpow_pos e
  have hm' : (m : ℚ) + 1 ≤ 2 ^ 53 := by exact_mod_cast hm.lt
  have h53 : (2 : ℚ) ^ (53 + e) = 2 ^ 53 * 2 ^ e := two_zpow_add 53 e
  rw [h53]
  nlinarith [hx.high]

theorem pow_le_of_near {m : Nat} {e : Int} {x : ℚ} (hx : Near m e x) {k : Nat} (hk : 2 ^ k < m) :
    2 ^ ((k : Int) + e) ≤ x := by
  have hpos := two_zpow_pos e
  have hbelow := below_le m e
  have hm : (2 : ℚ) ^ k + 1 ≤ m := by exact_mod_cast hk
  rw [two_zpow_add]
  nlinarith [hx.low]

/-- The exponent of a ratio in the interval of a number is that of the number, except right below
the least mantissa that has all its digits. -/
theorem exponent_of_near {m : Nat} {e e' : Int} {x : ℚ} (hm : IsMantissa m e) (hx : Near m e x)
    (he : IsExponentOf x e') :
    e' = e ∨ (m = 2 ^ 52 ∧ -1074 < e ∧ e' = e - 1 ∧ x < 2 ^ 52 * 2 ^ e) := by
  have hle : e' ≤ e := by
    rcases he.low with h | h
    · exact h ▸ hm.least
    · have := lt_of_zpow_lt (h.trans_lt (lt_pow_of_near hm hx))
      omega
  rcases eq_or_lt_of_le hm.least with hleast | hleast
  · exact .inl (le_antisymm hle (hleast ▸ he.least))
  · have hdigits : 2 ^ 52 ≤ m := hm.digits.resolve_right hleast.ne'
    rcases hdigits.eq_or_lt with hm52 | hm52
    · have hge := lt_of_zpow_lt
        ((pow_le_of_near hx (k := 51) (hm52 ▸ by decide)).trans_lt he.high)
      rcases eq_or_ne e' e with heq | hne
      · exact .inl heq
      · have heq : e' = e - 1 := by omega
        have hlt := he.high
        rw [heq, show 53 + (e - 1) = (52 : Nat) + e by push_cast; ring, two_zpow_add] at hlt
        exact .inr ⟨hm52.symm, hleast, heq, hlt⟩
    · have hge := lt_of_zpow_lt ((pow_le_of_near hx (k := 52) hm52).trans_lt he.high)
      exact .inl (by omega)

/-- Measured with the exponent of the number, a ratio in its interval is nearest to its mantissa. -/
theorem roundDiv_of_near {num den m : Nat} {e : Int} (hden : 0 < den)
    (hx : Near m e (num / den)) :
    roundDiv (shifted num den e).1 (shifted num den e).2 = m := by
  have hpos := two_zpow_pos e
  have hbelow := below_le m e
  have hshifted := shifted_div num den e
  refine roundDiv_eq_of_div (shifted_pos hden num e) ?_ ?_ fun hodd => ⟨?_, ?_⟩
  · rw [hshifted, le_div_iff₀ hpos]
    nlinarith [hx.low]
  · rw [hshifted, div_le_iff₀ hpos]
    exact hx.high
  · rw [hshifted, lt_div_iff₀ hpos]
    nlinarith [(hx.odd hodd).1]
  · rw [hshifted, div_lt_iff₀ hpos]
    exact (hx.odd hodd).2

/-- Below the least mantissa that has all its digits the exponent is one less, and the nearest
mantissa has a digit more. -/
theorem roundDiv_of_near_below {num den : Nat} {e : Int} (hden : 0 < den) (hleast : -1074 < e)
    (hx : Near (2 ^ 52) e (num / den)) (hlt : (num : ℚ) / den < 2 ^ 52 * 2 ^ e) :
    roundDiv (shifted num den (e - 1)).1 (shifted num den (e - 1)).2 = 2 ^ 53 := by
  have hpos := two_zpow_pos (e - 1)
  have hshifted := shifted_div num den (e - 1)
  have hhalf : (2 : ℚ) ^ e = 2 * 2 ^ (e - 1) := by
    rw [show e = 1 + (e - 1) by ring, zpow_add₀ (by norm_num)]
    norm_num
  have hquarter : below (2 ^ 52) e = 1 / 4 := by rw [below, if_pos ⟨rfl, hleast⟩]
  refine roundDiv_eq_of_div (shifted_pos hden num (e - 1)) ?_ ?_
    fun hodd => absurd hodd (by norm_num)
  · have hlow := hx.low
    rw [hquarter, hhalf] at hlow
    rw [hshifted, le_div_iff₀ hpos]
    push_cast at hlow ⊢
    linarith
  · rw [hhalf] at hlt
    rw [hshifted, div_le_iff₀ hpos]
    push_cast
    linarith

/-- A ratio in the interval of a number is rounded to it. -/
theorem round_of_near (s : Bool) {num den m : Nat} {e : Int} (hm : IsMantissa m e) (hne : m ≠ 0)
    (hden : 0 < den) (hx : Near m e (num / den)) : round s num den = finite s m e := by
  have hm1 : (1 : ℚ) ≤ m := by exact_mod_cast Nat.one_le_iff_ne_zero.mpr hne
  have hnum : num ≠ 0 := by
    rintro rfl
    have hlow := hx.low
    rw [Nat.cast_zero, zero_div] at hlow
    nlinarith [two_zpow_pos e, below_le m e]
  have hexponent := isExponentOf_exponentOf (Nat.pos_of_ne_zero hnum) hden
  rw [round, if_neg (by simp [hnum, hden.ne'])]
  dsimp only
  rcases exponent_of_near hm hx hexponent with heq | ⟨rfl, hleast, heq, hlt⟩
  · rw [heq, roundDiv_of_near hden hx, if_pos (show m < Nat.pow 2 digits from hm.lt)]
    exact if_neg (not_lt.mpr hm.greatest)
  · rw [heq, roundDiv_of_near_below hden hleast hx hlt,
      if_neg (show ¬ 2 ^ 53 < Nat.pow 2 digits by decide), sub_add_cancel]
    exact if_neg (not_lt.mpr hm.greatest)

/-- A number lies in its own interval. -/
theorem near_self (m : Nat) (e : Int) : Near m e (m * 2 ^ e) := by
  have hpos := two_zpow_pos e
  have hbelow := below_pos m e
  refine ⟨?_, ?_, fun _ => ⟨?_, ?_⟩⟩ <;> nlinarith

/-- Every ratio of 53 binary digits behind the point is a number. -/
theorem exists_mantissa {n : Nat} (hn : n ≠ 0) (hlt : n < 2 ^ 53) :
    ∃ m e, IsMantissa m e ∧ m ≠ 0 ∧ e ≤ -53 ∧ (n : ℚ) / 2 ^ 53 = m * 2 ^ e := by
  have hlog : n.log2 < 53 := (Nat.log2_lt hn).mpr hlt
  have hlow := Nat.log2_self_le hn
  have hhigh : n < 2 ^ (n.log2 + 1) := Nat.lt_log2_self
  have hpow : (2 : Nat) ^ n.log2 * 2 ^ (52 - n.log2) = 2 ^ 52 := by
    rw [← Nat.pow_add]
    congr 1
    omega
  refine ⟨n * 2 ^ (52 - n.log2), n.log2 - 105, ⟨?_, by omega, by omega, .inl ?_⟩, ?_, by omega, ?_⟩
  · calc n * 2 ^ (52 - n.log2) < 2 ^ (n.log2 + 1) * 2 ^ (52 - n.log2) :=
          Nat.mul_lt_mul_of_pos_right hhigh (Nat.two_pow_pos _)
      _ = 2 ^ 53 := by rw [Nat.pow_succ, Nat.mul_right_comm, hpow, ← Nat.pow_succ]
  · rw [← hpow]
    exact Nat.mul_le_mul_right _ hlow
  · exact Nat.mul_ne_zero hn (Nat.two_pow_pos _).ne'
  · rw [show ((n.log2 : Int) - 105) = -((52 - n.log2 : Nat) : Int) + -((53 : Nat) : Int) by omega,
      zpow_add₀ (by norm_num), zpow_neg, zpow_neg, zpow_natCast, zpow_natCast]
    push_cast
    field_simp

/-- Whatever is rounded becomes a number that floating-point numbers can be. -/
theorem isCanonical_round (s : Bool) (num den : Nat) : (round s num den).IsCanonical := by
  rw [round]
  split
  · exact ⟨by decide, by decide, by decide, .inr rfl⟩
  · next h =>
    simp only [Bool.or_eq_true, decide_eq_true_eq, not_or] at h
    have hden := Nat.pos_of_ne_zero h.2
    have hexponent := isExponentOf_exponentOf (Nat.pos_of_ne_zero h.1) hden
    have hfits := (fits_iff hden (exponentOf num den)).mpr hexponent.high
    have hfull : exponentOf num den = -1074 ∨
        2 ^ 52 ≤ (shifted num den (exponentOf num den)).1 /
          (shifted num den (exponentOf num den)).2 := by
      refine hexponent.low.imp_right fun hlow => ?_
      have hpos := shifted_pos hden num (exponentOf num den)
      rw [Nat.le_div_iff_mul_le hpos]
      rw [zpow_add₀ (by norm_num), ← le_div_iff₀ (two_zpow_pos _), ← shifted_div,
        le_div_iff₀ (by exact_mod_cast hpos)] at hlow
      exact_mod_cast hlow
    dsimp only
    generalize shifted num den (exponentOf num den) = ratio at hfits hfull ⊢
    have hlow := le_roundDiv ratio.1 ratio.2
    have hhigh := roundDiv_le ratio.1 ratio.2
    have hleast := hexponent.least
    rw [show Nat.pow 2 digits = 2 ^ 53 from rfl] at hfits ⊢
    by_cases hlt : roundDiv ratio.1 ratio.2 < 2 ^ 53
    · rw [if_pos hlt]
      dsimp only
      split
      · trivial
      · next hgreatest =>
        exact ⟨hlt, hleast, not_lt.mp hgreatest, hfull.symm.imp_left fun h => h.trans hlow⟩
    · have heq : roundDiv ratio.1 ratio.2 = 2 ^ 53 := by omega
      rw [if_neg hlt, heq]
      dsimp only
      split
      · trivial
      · next hgreatest => exact ⟨by decide, by omega, not_lt.mp hgreatest, .inl (by decide)⟩

end PointMutation.Double
