import PointMutation.Proofs.Number.Rounding

/-!
# The order of floating-point numbers

Finite numbers are in the order of the ratios that they are (`Double.lt_finite_iff`), the infinities
are at both ends, and what is not a number is in no order. So a number below another one is also
below whatever that one does not exceed (`Double.lt_of_lt_of_le`).
-/

namespace PointMutation.Double

/-- The ratio that a finite number is. -/
def ratio (s : Bool) (m : Nat) (e : Int) : ℚ := (if s then -(m : ℚ) else m) * 2 ^ e

/-- A number in units of a power of two that is at most its own. -/
theorem scaled_eq (s : Bool) (m : Nat) {e u : Int} (h : u ≤ e) :
    (scaled s m e u : ℚ) * 2 ^ u = ratio s m e := by
  have hpow : (2 : ℚ) ^ e = 2 ^ (e - u).toNat * 2 ^ u := by
    rw [← two_zpow_add, Int.toNat_of_nonneg (by omega), Int.sub_add_cancel]
  rw [scaled, ratio, hpow]
  cases s <;> simp [Nat.pow_eq, mul_assoc]

/-- Finite numbers are in the order of their ratios. -/
theorem lt_finite_iff (s t : Bool) (m n : Nat) (e f : Int) :
    lt (finite s m e) (finite t n f) = true ↔ ratio s m e < ratio t n f := by
  rw [← scaled_eq s m (min_le_left e f), ← scaled_eq t n (min_le_right e f),
    mul_lt_mul_iff_left₀ (two_zpow_pos _), Int.cast_lt, lt, decide_eq_true_eq]

theorem le_finite_iff (s t : Bool) (m n : Nat) (e f : Int) :
    le (finite s m e) (finite t n f) = true ↔ ratio s m e ≤ ratio t n f := by
  rw [le_of_finite, Bool.not_eq_true', ← Bool.not_eq_true, lt_finite_iff, not_lt]

/-- Two ways to write the same ratio are below the same numbers. -/
theorem lt_of_ratio_eq {s t : Bool} {m n : Nat} {e f : Int} (h : ratio s m e = ratio t n f)
    (p : Double) : lt (finite s m e) p = lt (finite t n f) p := by
  cases p with
  | nan => rfl
  | infinite u => rfl
  | finite u k g => rw [Bool.eq_iff_iff, lt_finite_iff, lt_finite_iff, h]

/-- Less than one number, and so less than any that is at least that one. -/
theorem lt_of_lt_of_le {a b c : Double} (h : lt a b = true) (h' : le b c = true) :
    lt a c = true := by
  cases a with
  | nan => cases h
  | infinite s =>
    cases b with
    | nan => cases h
    | infinite t =>
      cases c with
      | nan => cases h'
      | infinite u => cases s <;> cases t <;> cases u <;> simp_all [lt, le]
      | finite u k g => cases s <;> cases t <;> simp_all [lt, le]
    | finite t n f =>
      cases c with
      | nan => cases h'
      | infinite u => cases s <;> cases u <;> simp_all [lt, le]
      | finite u k g => exact h
  | finite s m e =>
    cases b with
    | nan => cases h
    | infinite t =>
      cases c with
      | nan => cases h'
      | infinite u => cases t <;> cases u <;> simp_all [lt, le]
      | finite u k g => cases t <;> simp_all [lt, le]
    | finite t n f =>
      cases c with
      | nan => cases h'
      | infinite u => cases u <;> simp_all [lt, le]
      | finite u k g =>
        rw [lt_finite_iff] at h ⊢
        exact h.trans_le ((le_finite_iff t u n k f g).mp h')

end PointMutation.Double
