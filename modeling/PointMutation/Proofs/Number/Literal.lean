import PointMutation.Proofs.Number.Shortest
import PointMutation.Text.Basic

/-!
# Literals of floating-point numbers

The literal of a finite number has digits on both sides of a point, and no zeros in front that could
be left out. The decimal that it spells is read back as the number (`Double.literal_spells`).
-/

namespace PointMutation.Double

/-! ## Decimals with the same value -/

/-- Zeros at the end of digits may go into the exponent. -/
theorem decimalValue_trimZeros (fuel n : Nat) (k : Int) :
    decimalValue (trimZeros fuel n k).1 (trimZeros fuel n k).2 = decimalValue n k := by
  induction fuel generalizing n k with
  | zero => rfl
  | succ fuel ih =>
    rw [trimZeros]
    split
    · next h =>
      rw [Bool.and_eq_true, beq_iff_eq] at h
      have hn : n = n / 10 * 10 := by omega
      rw [ih, decimalValue, decimalValue, zpow_add₀ (by norm_num)]
      conv_rhs => rw [hn]
      push_cast
      ring
    · rfl

/-- The number of digits says how great a decimal is. -/
theorem decimalValue_bounds {n : Nat} (hn : n ≠ 0) (k : Int) :
    (10 : ℚ) ^ ((Nat.toDigits 10 n).length + k - 1) ≤ decimalValue n k ∧
      decimalValue n k < 10 ^ ((Nat.toDigits 10 n).length + k) := by
  have hpow := ten_zpow_pos k
  have hpos : 0 < (Nat.toDigits 10 n).length := Nat.length_toDigits_pos
  constructor
  · rw [show (Nat.toDigits 10 n).length + k - 1 =
      (((Nat.toDigits 10 n).length - 1 : Nat) : Int) + k by omega, zpow_add₀ (by norm_num),
      zpow_natCast, decimalValue]
    gcongr
    exact_mod_cast pow_length_toDigits_le hn
  · rw [zpow_add₀ (by norm_num), zpow_natCast, decimalValue]
    gcongr
    exact_mod_cast (Nat.length_toDigits_le_iff (by decide) hpos).mp le_rfl

theorem isCanonical_ofDecimal (s : Bool) (n : Nat) (k : Int) : (ofDecimal s n k).IsCanonical := by
  have hzero : IsCanonical (finite s 0 leastExponent) :=
    ⟨by decide, by decide, by decide, .inr rfl⟩
  rw [ofDecimal]
  split
  · exact hzero
  · dsimp only
    split
    · trivial
    · split
      · exact hzero
      · exact isCanonical_round s _ _

theorem two_zpow_le_ten_zpow {n k : Nat} (h : n ≤ 3 * k) : (2 : ℚ) ^ (n : Int) ≤ 10 ^ (k : Int) := by
  rw [zpow_natCast, zpow_natCast]
  exact_mod_cast two_pow_le_ten_pow h

theorem ten_zpow_neg_le {n k : Nat} (h : n ≤ 3 * k) :
    (10 : ℚ) ^ (-(k : Int)) ≤ 2 ^ (-(n : Int)) := by
  rw [zpow_neg, zpow_neg]
  exact inv_anti₀ (two_zpow_pos n) (two_zpow_le_ten_zpow h)

/-- No finite number is greater than `2 ^ 1024`. -/
theorem near_lt {m : Nat} {e : Int} {x : ℚ} (hm : IsMantissa m e) (h : Near m e x) :
    x < 2 ^ (1024 : Int) :=
  (lt_pow_of_near hm h).trans_le
    (zpow_le_zpow_right₀ (by norm_num) (by have := hm.greatest; omega))

/-- No finite number but zero is smaller than `2 ^ -1075`. -/
theorem le_near {m : Nat} {e : Int} {x : ℚ} (hm : IsMantissa m e) (hne : m ≠ 0) (h : Near m e x) :
    2 ^ (-1075 : Int) ≤ x := by
  have hm1 : (1 : ℚ) ≤ m := by exact_mod_cast Nat.one_le_iff_ne_zero.mpr hne
  have hbelow := below_le m e
  calc (2 : ℚ) ^ (-1075 : Int) = 2 ^ (-1 : Int) * 2 ^ (-1074 : Int) := by
        rw [← zpow_add₀ (by norm_num)]
        rfl
    _ ≤ (m - below m e) * 2 ^ e := by
        gcongr
        · linarith
        · norm_num
          linarith
        · norm_num
        · exact hm.least
    _ ≤ x := h.low

/-- Whatever decimal lies in the interval of a number is read as the number. -/
theorem ofDecimal_of_near (s : Bool) {m n : Nat} {e k : Int} (hm : IsMantissa m e) (hne : m ≠ 0)
    (hn : n ≠ 0) (h : Near m e (decimalValue n k)) : ofDecimal s n k = finite s m e := by
  obtain ⟨hlow, hhigh⟩ := decimalValue_bounds hn k
  rw [ofDecimal, if_neg hn]
  generalize ((Nat.toDigits 10 n).length : Int) + k = size at hlow hhigh ⊢
  -- No finite number is so great or so small that it is not worked out.
  have hgreat : ¬ 400 < size := fun hsize => by
    have hten : (10 : ℚ) ^ (400 : Int) ≤ 10 ^ (size - 1) :=
      zpow_le_zpow_right₀ (by norm_num) (by omega)
    have htwo := two_zpow_le_ten_zpow (n := 1024) (k := 400) (by decide)
    exact absurd (htwo.trans (hten.trans hlow)) (not_le.mpr (near_lt hm h))
  have hsmall : ¬ size < -400 := fun hsize => by
    have hten : (10 : ℚ) ^ size ≤ 10 ^ (-401 : Int) :=
      zpow_le_zpow_right₀ (by norm_num) (by omega)
    have htwo := ten_zpow_neg_le (n := 1075) (k := 401) (by decide)
    exact absurd (le_near hm hne h) (not_le.mpr (hhigh.trans_le (hten.trans htwo)))
  rw [if_neg hgreat, if_neg hsmall]
  refine round_of_near s hm hne (Nat.pow_pos (by decide)) ?_
  have hratio : ((n * Nat.pow 10 k.toNat : Nat) : ℚ) / (Nat.pow 10 (-k).toNat : Nat) =
      decimalValue n k := by
    rw [decimalValue, zpow_split 10 k]
    push_cast [Nat.pow_eq]
    ring
  rwa [hratio]

/-- The same for zero, which no other decimal stands for. -/
theorem ofDecimal_of_near_zero (s : Bool) {m n : Nat} {e k : Int} (hm : IsMantissa m e)
    (hzero : m = 0 ↔ n = 0) (h : Near m e (decimalValue n k)) : ofDecimal s n k = finite s m e := by
  by_cases hm0 : m = 0
  · have he : e = leastExponent := hm.digits.resolve_left (by omega)
    rw [ofDecimal, if_pos (hzero.mp hm0), hm0, he]
  · exact ofDecimal_of_near s hm hm0 (fun hn => hm0 (hzero.mpr hn)) h

/-! ## Digits with a point -/

/-- Digits in front of a point and behind it, without zeros that could be left out in front. -/
structure IsDecimal (whole part : Text) : Prop where
  front : ∀ d ∈ whole, d.isDigit = true
  behind : ∀ d ∈ part, d.isDigit = true
  front_ne : whole ≠ []
  behind_ne : part ≠ []
  noZero : ∀ r, whole = '0' :: r → r = []

/-- The number that digits spell. -/
def spelled (ds : Text) : Nat := Nat.ofDigitChars 10 ds 0

theorem spelled_append (ds fs : Text) : spelled (ds ++ fs) = 10 ^ fs.length * spelled ds + spelled fs := by
  rw [spelled, Nat.ofDigitChars_append, Nat.ofDigitChars_eq_ofDigitChars_zero]
  rfl

theorem isDigit_of_mem_toDigits {n : Nat} {d : Char} (h : d ∈ Nat.toDigits 10 n) :
    d.isDigit = true := Nat.isDigit_of_mem_toDigits (by decide) (by decide) h

theorem isDigit_of_mem_zeros {n : Nat} {d : Char} (h : d ∈ List.replicate n '0') :
    d.isDigit = true := by
  rw [List.eq_of_mem_replicate h]
  decide

/-- The digits of a number begin with a zero only if it is zero. -/
theorem head_toDigits {n : Nat} (hn : n ≠ 0) {r : Text} : Nat.toDigits 10 n ≠ '0' :: r := by
  induction n using Nat.strongRecOn generalizing r with
  | ind n ih =>
    rcases Nat.lt_or_ge n 10 with h | h
    · rw [Nat.toDigits_of_lt_base h]
      intro he
      have hdigit := Nat.toNat_digitChar_sub_48_of_lt_ten h
      rw [(List.cons.inj he).1] at hdigit
      exact hn hdigit.symm
    · rw [Nat.toDigits_of_base_le (by decide) h]
      intro he
      cases hd : Nat.toDigits 10 (n / 10) with
      | nil => exact Nat.toDigits_ne_nil hd
      | cons c cs =>
        rw [hd, List.cons_append] at he
        exact ih (n / 10) (by omega) (by omega) (r := cs) (by rw [hd, (List.cons.inj he).1])

theorem contains_point {ds : Text} (h : ∀ d ∈ ds, d.isDigit = true) : ds.contains '.' = false := by
  simp only [List.contains_eq_mem, decide_eq_false_iff_not]
  exact fun hmem => absurd (h '.' hmem) (by decide)

/-- The digits of a whole number with some zeros behind them. -/
def raised (n p : Nat) : Text := Nat.toDigits 10 n ++ List.replicate p '0'

theorem isDigit_of_mem_raised {n p : Nat} {d : Char} (h : d ∈ raised n p) : d.isDigit = true :=
  (List.mem_append.mp h).elim isDigit_of_mem_toDigits isDigit_of_mem_zeros

theorem isDecimal_raised {n : Nat} (hn : n ≠ 0) (p : Nat) : IsDecimal (raised n p) ['0'] := by
  refine ⟨fun d => isDigit_of_mem_raised, List.forall_mem_singleton.mpr rfl, by simp [raised],
    by simp, fun r hr => ?_⟩
  cases hd : Nat.toDigits 10 n with
  | nil => exact absurd hd Nat.toDigits_ne_nil
  | cons c cs =>
    rw [raised, hd, List.cons_append] at hr
    exact absurd ((List.cons.inj hr).1 ▸ hd) (head_toDigits hn)

theorem decimalValue_raised (n p : Nat) :
    decimalValue (spelled (raised n p ++ ['0'])) (-1) = decimalValue n p := by
  have hspelled : spelled (raised n p ++ ['0']) = 10 * (10 ^ p * n) := by
    rw [raised, spelled_append, spelled_append]
    simp [spelled, Nat.ofDigitChars_cons]
  rw [hspelled, decimalValue, decimalValue, zpow_natCast]
  push_cast
  norm_num
  ring

/-- The digits of a number with zeros in front of them, as far as more than `p` digits take. -/
def padded (n p : Nat) : Text :=
  List.replicate (p + 1 - (Nat.toDigits 10 n).length) '0' ++ Nat.toDigits 10 n

theorem length_padded (n p : Nat) :
    (padded n p).length = max (p + 1) (Nat.toDigits 10 n).length := by
  rw [padded, List.length_append, List.length_replicate]
  omega

theorem spelled_padded (n p : Nat) : spelled (padded n p) = n := by
  rw [padded, spelled_append]
  simp [spelled]

theorem isDecimal_padded {n : Nat} (hn : n ≠ 0) {p : Nat} (hp : p ≠ 0) :
    IsDecimal ((padded n p).take ((padded n p).length - p))
      ((padded n p).drop ((padded n p).length - p)) := by
  have hdigits : ∀ d ∈ padded n p, d.isDigit = true := fun d hd =>
    (List.mem_append.mp hd).elim isDigit_of_mem_zeros isDigit_of_mem_toDigits
  have hlength := length_padded n p
  refine ⟨fun d hd => hdigits d (List.mem_of_mem_take hd),
    fun d hd => hdigits d (List.mem_of_mem_drop hd), ?_, ?_, fun r hr => ?_⟩
  · exact List.ne_nil_of_length_pos (by rw [List.length_take]; omega)
  · exact List.ne_nil_of_length_pos (by rw [List.length_drop]; omega)
  · -- Zeros were put in front only as far as a single digit in front of the point needs them.
    rcases Nat.lt_or_ge p (Nat.toDigits 10 n).length with h | h
    · have hnone : padded n p = Nat.toDigits 10 n := by
        rw [padded, show p + 1 - (Nat.toDigits 10 n).length = 0 by omega, List.replicate_zero,
          List.nil_append]
      obtain ⟨t, ht⟩ := List.take_prefix ((padded n p).length - p) (padded n p)
      rw [hr, List.cons_append] at ht
      exact absurd (hnone.symm.trans ht.symm) (head_toDigits hn)
    · have hone := congrArg List.length hr
      rw [List.length_take, List.length_cons] at hone
      exact List.eq_nil_of_length_eq_zero (by omega)

/-- The positional form of a decimal, with a point in any case. -/
theorem positional_spells {n : Nat} (hn : n ≠ 0) (k : Int) : ∃ whole part, IsDecimal whole part ∧
    (if (positional n k).contains '.' then positional n k else positional n k ++ ['.', '0']) =
      whole ++ '.' :: part ∧
    decimalValue (spelled (whole ++ part)) (-(part.length : Int)) = decimalValue n k := by
  rw [positional]
  dsimp only
  split
  · next hk =>
    obtain ⟨p, rfl⟩ := Int.eq_ofNat_of_zero_le hk
    have hpoint : (Nat.toDigits 10 n ++ List.replicate p '0').contains '.' = false :=
      contains_point fun d => isDigit_of_mem_raised
    rw [Int.toNat_natCast, hpoint, if_neg Bool.false_ne_true]
    exact ⟨_, ['0'], isDecimal_raised hn p, rfl, decimalValue_raised n p⟩
  · next hk =>
    obtain ⟨p, hp, rfl⟩ : ∃ p : Nat, p ≠ 0 ∧ k = -(p : Int) := ⟨(-k).toNat, by omega, by omega⟩
    have hlength := length_padded n p
    have hpart : ((padded n p).drop ((padded n p).length - p)).length = p := by
      rw [List.length_drop]
      omega
    rw [Int.neg_neg, Int.toNat_natCast, if_pos (by simp)]
    refine ⟨_, _, isDecimal_padded hn hp, rfl, ?_⟩
    rw [List.take_append_drop, spelled_padded, hpart]

theorem trimZeros_ne (fuel : Nat) {n : Nat} (hn : n ≠ 0) (k : Int) : (trimZeros fuel n k).1 ≠ 0 := by
  induction fuel generalizing n k with
  | zero => exact hn
  | succ fuel ih =>
    rw [trimZeros]
    split
    · next h =>
      rw [Bool.and_eq_true, beq_iff_eq] at h
      exact ih (by omega) (k + 1)
    · exact hn

theorem ne_of_near {m n : Nat} {e k : Int} (hm : m ≠ 0) (h : Near m e (decimalValue n k)) :
    n ≠ 0 := by
  rintro rfl
  have hm1 : (1 : ℚ) ≤ m := by exact_mod_cast Nat.one_le_iff_ne_zero.mpr hm
  have hlow := h.low
  rw [decimalValue, Nat.cast_zero, zero_mul] at hlow
  nlinarith [below_le m e, two_zpow_pos e]

/-- The sign of a literal. -/
def signText (s : Bool) : Text := if s then ['-'] else []

/-- What stands in the literal of a number lies in the interval of the number. -/
theorem literal_near (s : Bool) {m : Nat} {e : Int} (hm : IsMantissa m e) :
    ∃ whole part, IsDecimal whole part ∧
      (finite s m e).literal = signText s ++ (whole ++ '.' :: part) ∧
      (m = 0 ↔ spelled (whole ++ part) = 0) ∧
      Near m e (decimalValue (spelled (whole ++ part)) (-(part.length : Int))) := by
  have hsign : ∀ body : Text,
      (if (if s then '-' :: body else body).contains '.' then if s then '-' :: body else body
        else (if s then '-' :: body else body) ++ ['.', '0']) =
      signText s ++ if body.contains '.' then body else body ++ ['.', '0'] := by
    intro body
    cases s
    · rfl
    · have hpoint : ('-' :: body).contains '.' = body.contains '.' := by simp
      simp only [if_true, hpoint, signText]
      split <;> rfl
  rw [literal]
  simp only [text]
  by_cases hzero : m = 0
  · subst hzero
    refine ⟨['0'], ['0'], ⟨List.forall_mem_singleton.mpr rfl, List.forall_mem_singleton.mpr rfl,
      by simp, by simp, fun r hr => ?_⟩, ?_, ⟨fun _ => rfl, fun _ => rfl⟩, ?_⟩
    · exact (List.cons.inj hr).2.symm
    · rw [if_pos rfl, hsign]
      rfl
    · have hself := near_self 0 e
      rw [Nat.cast_zero, zero_mul] at hself
      rwa [show spelled (['0'] ++ ['0']) = 0 from rfl, decimalValue, Nat.cast_zero, zero_mul]
  · have hnear := near_shortest hm hzero
    have hne := ne_of_near hzero hnear
    rw [← decimalValue_trimZeros 25] at hnear
    have htrimmed := trimZeros_ne 25 hne (shortest m e).2
    rw [if_neg hzero, hsign]
    generalize trimZeros 25 (shortest m e).1 (shortest m e).2 = decimal at hnear htrimmed
    obtain ⟨n, k⟩ := decimal
    obtain ⟨whole, part, hdecimal, htext, hvalue⟩ := positional_spells htrimmed k
    rw [← hvalue] at hnear
    refine ⟨whole, part, hdecimal, by rw [← htext], ?_, hnear⟩
    exact ⟨fun h => absurd h hzero, fun h => absurd h (ne_of_near hzero hnear)⟩

/-- What stands in the literal of a number is read back as the number. -/
theorem literal_spells (s : Bool) {m : Nat} {e : Int} (hm : IsMantissa m e) :
    ∃ whole part, IsDecimal whole part ∧
      (finite s m e).literal = signText s ++ (whole ++ '.' :: part) ∧
      ofDecimal s (spelled (whole ++ part)) (-(part.length : Int)) = finite s m e := by
  obtain ⟨whole, part, hdecimal, htext, hzero, hnear⟩ := literal_near s hm
  exact ⟨whole, part, hdecimal, htext, ofDecimal_of_near_zero s hm hzero hnear⟩

end PointMutation.Double
