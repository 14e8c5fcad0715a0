import PointMutation.Toml.Document
import PointMutation.Proofs.Number.Literal
import Mathlib.Data.List.TakeWhile

/-!
# Words that are read back

A whole number, a number with a point and a truth value are written as one word each. Behind it
stands something that belongs to no word, and then the word is read as what was written
(`readScalar_integer`, `readScalar_float`, `readScalar_boolean`).
-/

namespace PointMutation.Toml

/-! ## Digits -/

theorem isDigit_eq (c : Char) : isDigit c = c.isDigit := rfl

theorem isWordChar_of_isDigit {c : Char} (h : c.isDigit = true) : isWordChar c = true := by
  have hupper : c.toNat < 0x80 := by
    simp only [Char.isDigit, Bool.and_eq_true, decide_eq_true_eq, ge_iff_le, UInt32.le_iff_toNat_le]
      at h
    exact lt_of_le_of_lt h.2 (by decide)
  simp [isWordChar, Char.isAlphanum, h, hupper]

theorem bareDigits_eq {ds : Text} (hds : ∀ d ∈ ds, d.isDigit = true) (hne : ds ≠ []) :
    bareDigits isDigit ds = some ds := by
  induction ds with
  | nil => exact absurd rfl hne
  | cons d ds ih =>
    have hd : isDigit d = true := hds d List.mem_cons_self
    have hrest : ∀ c ∈ ds, c.isDigit = true := fun c hc => hds c (List.mem_cons_of_mem _ hc)
    cases ds with
    | nil => rw [bareDigits, if_pos hd]
    | cons c r =>
      have hc : c ≠ '_' := fun h => absurd (hrest c List.mem_cons_self) (by rw [h]; decide)
      rw [bareDigits, if_pos hd, ih hrest (List.cons_ne_nil _ _), Option.map_some]
      · exact List.cons_ne_nil _ _
      · exact fun _ h => hc (List.cons.inj h).1

theorem numberFrom_eq {ds : Text} (hds : ∀ d ∈ ds, d.isDigit = true) (n : Nat) :
    numberFrom 10 n ds = Nat.ofDigitChars 10 ds n := by
  induction ds generalizing n with
  | nil => rfl
  | cons d ds ih =>
    rw [numberFrom, isDigit_eq, if_pos (hds d List.mem_cons_self), Nat.ofDigitChars_cons]
    exact ih (fun c hc => hds c (List.mem_cons_of_mem _ hc)) _

theorem wholeDigits_eq {ds : Text} (hds : ∀ d ∈ ds, d.isDigit = true) (hne : ds ≠ [])
    (hzero : ∀ r, ds = '0' :: r → r = []) : wholeDigits ds = some ds := by
  unfold wholeDigits
  split
  · next h => exact absurd (hzero _ rfl) (List.cons_ne_nil _ _)
  · exact bareDigits_eq hds hne

theorem signed_eq {ds : Text} (hds : ∀ c r, ds = c :: r → c.isDigit = true) (s : Bool) :
    signed (Double.signText s ++ ds) = (s, ds) := by
  cases s
  · rw [Double.signText, if_neg Bool.false_ne_true, List.nil_append]
    unfold signed
    split
    · exact absurd (hds _ _ rfl) (by decide)
    · exact absurd (hds _ _ rfl) (by decide)
    · rfl
  · rfl

/-! ## No moments -/

/-- A date has a dash behind its first character, a time has a colon. -/
theorem date?_eq_none {t : Text} (h : '-' ∉ t.tail) : date? t = none := by
  unfold date?
  split
  · simp at h
  · rfl

theorem time?_eq_none {t : Text} (h : ':' ∉ t) : time? t = none := by
  unfold time?
  split
  · simp at h
  · rfl

theorem moment?_eq_none {t : Text} (hdash : '-' ∉ t.tail) (hcolon : ':' ∉ t) :
    moment? t = none := by
  rw [moment?, date?_eq_none hdash, time?_eq_none hcolon]

/-! ## Words -/

/-- What is taken ends where a character stands that does not belong to it. -/
theorem takeWhile_append_stop {p : Char → Bool} {w r : Text} (hw : ∀ c ∈ w, p c = true)
    (hr : ∀ c s, r = c :: s → p c = false) : (w ++ r).takeWhile p = w := by
  rw [List.takeWhile_append_of_pos hw]
  cases r with
  | nil => simp
  | cons c s => rw [List.takeWhile_cons_of_neg (by simp [hr c s rfl]), List.append_nil]

theorem dropWhile_append_stop {p : Char → Bool} {w r : Text} (hw : ∀ c ∈ w, p c = true)
    (hr : ∀ c s, r = c :: s → p c = false) : (w ++ r).dropWhile p = r := by
  rw [List.dropWhile_append_of_pos hw]
  cases r with
  | nil => rfl
  | cons c s => rw [List.dropWhile_cons_of_neg (by simp [hr c s rfl])]

/-- A word is read up to its end. -/
theorem readScalar_word {w r : Text} (hw : ∀ c ∈ w, isWordChar c = true)
    (hr : ∀ c s, r = c :: s → isWordChar c = false) (hdash : '-' ∉ w.tail) :
    readScalar (w ++ r) = (scalar? w).map (·, r) := by
  rw [readScalar, takeWhile_append_stop hw hr, dropWhile_append_stop hw hr, date?_eq_none hdash]

theorem scalar?_of_number {t : Text} {v : Value} (htrue : t ≠ "true".toList)
    (hfalse : t ≠ "false".toList) (hdash : '-' ∉ t.tail) (hcolon : ':' ∉ t)
    (h : (float? t).or (integer? t) = some v) : scalar? t = some v := by
  rw [scalar?, if_neg htrue, if_neg hfalse, moment?_eq_none hdash hcolon, Option.none_or,
    ← Option.or_assoc, h, Option.some_or]

/-! ## Whole numbers -/

theorem toList_toString (n : Nat) : (toString (n : Int)).toList = Nat.toDigits 10 n := by
  simp [toString, Int.repr, Nat.repr]

theorem float?_digits {ds : Text} (hds : ∀ d ∈ ds, d.isDigit = true) : float? ds = none := by
  have hhead : ∀ c r, ds = c :: r → c.isDigit = true := fun c r h =>
    hds c (h ▸ List.mem_cons_self)
  have hsigned := signed_eq hhead false
  have hin : ∀ d ∈ ds, (isDigit d || d == '_') = true := fun d hd => by
    rw [isDigit_eq, hds d hd, Bool.true_or]
  rw [Double.signText, if_neg Bool.false_ne_true, List.nil_append] at hsigned
  rw [float?, hsigned]
  simp only [List.takeWhile_eq_self_iff.mpr hin, List.dropWhile_eq_nil_iff.mpr hin]
  cases wholeDigits ds <;> rfl

theorem integer?_toDigits {n : Nat} (hn : n < 2 ^ 63) :
    integer? (Nat.toDigits 10 n) = some (.integer n) := by
  have hds : ∀ d ∈ Nat.toDigits 10 n, d.isDigit = true := fun d => Double.isDigit_of_mem_toDigits
  have hhead : ∀ c r, Nat.toDigits 10 n = c :: r → c.isDigit = true := fun c r h =>
    hds c (h ▸ List.mem_cons_self)
  have hzero : ∀ r, Nat.toDigits 10 n = '0' :: r → r = [] := fun r h => by
    rcases eq_or_ne n 0 with rfl | hne
    · exact (List.cons.inj h).2.symm
    · exact absurd h (Double.head_toDigits hne)
  have hsigned := signed_eq hhead false
  rw [Double.signText, if_neg Bool.false_ne_true, List.nil_append] at hsigned
  have hno : ∀ c, c.isDigit = false → ∀ r, Nat.toDigits 10 n ≠ '0' :: c :: r := fun c hc r h =>
    absurd (hds c (h ▸ by simp)) (by simp [hc])
  unfold integer?
  split
  · next h => exact absurd h (hno 'x' (by decide) _)
  · next h => exact absurd h (hno 'o' (by decide) _)
  · next h => exact absurd h (hno 'b' (by decide) _)
  · rw [hsigned]
    dsimp only
    rw [wholeDigits_eq hds Nat.toDigits_ne_nil hzero, Option.bind_some, numberFrom_eq hds,
      Nat.ofDigitChars_ten_toDigits, if_neg Bool.false_ne_true, fitting, if_pos]
    rw [Bool.and_eq_true, decide_eq_true_eq, decide_eq_true_eq]
    omega

/-- A whole number is read back. -/
theorem readScalar_integer {n : Nat} (hn : n < 2 ^ 63) {r : Text}
    (hr : ∀ c s, r = c :: s → isWordChar c = false) :
    readScalar (writeValue (.integer n) ++ r) = some (.integer n, r) := by
  have hds : ∀ d ∈ Nat.toDigits 10 n, d.isDigit = true := fun d => Double.isDigit_of_mem_toDigits
  have hno : ∀ c, c.isDigit = false → c ∉ Nat.toDigits 10 n := fun c hc h =>
    absurd (hds c h) (by simp [hc])
  have hdash : '-' ∉ (Nat.toDigits 10 n).tail := fun h => hno '-' (by decide) (List.mem_of_mem_tail h)
  rw [writeValue, toList_toString,
    readScalar_word (fun d hd => isWordChar_of_isDigit (hds d hd)) hr hdash,
    scalar?_of_number (v := .integer n) ?_ ?_ hdash (hno ':' (by decide)), Option.map_some]
  · rw [float?_digits hds, Option.none_or, integer?_toDigits hn]
  · exact fun h => hno 't' (by decide) (h ▸ by decide)
  · exact fun h => hno 'f' (by decide) (h ▸ by decide)

/-! ## Numbers with a point -/

theorem float?_decimal {s : Bool} {whole part : Text} (h : Double.IsDecimal whole part) :
    float? (Double.signText s ++ (whole ++ '.' :: part)) = decimal s whole part 0 := by
  have hin : ∀ {ds : Text}, (∀ d ∈ ds, d.isDigit = true) →
      ∀ d ∈ ds, (isDigit d || d == '_') = true := fun hds d hd => by
    rw [isDigit_eq, hds d hd, Bool.true_or]
  have hsigned : signed (Double.signText s ++ (whole ++ '.' :: part)) = (s, whole ++ '.' :: part) :=
    signed_eq (fun c r hc => by
      cases hw : whole with
      | nil => exact absurd hw h.front_ne
      | cons d ds =>
        rw [hw, List.cons_append] at hc
        exact (List.cons.inj hc).1 ▸ h.front d (hw ▸ List.mem_cons_self)) s
  rw [float?, hsigned]
  simp only [List.takeWhile_append_of_pos (hin h.front), List.dropWhile_append_of_pos (hin h.front)]
  rw [List.takeWhile_cons_of_neg (by decide), List.dropWhile_cons_of_neg (by decide),
    List.append_nil, wholeDigits_eq h.front h.front_ne h.noZero]
  simp only [List.takeWhile_eq_self_iff.mpr (hin h.behind),
    List.dropWhile_eq_nil_iff.mpr (hin h.behind), bareDigits_eq h.behind h.behind_ne]

/-- A finite number with all its digits is read back. -/
theorem readScalar_float (s : Bool) {m : Nat} {e : Int} (hm : Double.IsMantissa m e) {r : Text}
    (hr : ∀ c s, r = c :: s → isWordChar c = false) :
    readScalar (writeValue (.float (.finite s m e)) ++ r) = some (.float (.finite s m e), r) := by
  obtain ⟨whole, part, hdecimal, htext, hvalue⟩ := Double.literal_spells s hm
  have hbody : ∀ c ∈ whole ++ '.' :: part, c.isDigit = true ∨ c = '.' := fun c hc => by
    rcases List.mem_append.mp hc with hc | hc
    · exact .inl (hdecimal.front c hc)
    · exact (List.mem_cons.mp hc).elim .inr fun hc => .inl (hdecimal.behind c hc)
  have hno : ∀ c, c.isDigit = false → c ≠ '.' → c ∉ whole ++ '.' :: part := fun c hc hne h =>
    (hbody c h).elim (fun h => absurd h (by simp [hc])) hne
  have hpoint : '.' ∈ Double.signText s ++ (whole ++ '.' :: part) := by simp
  have hdash : '-' ∉ (Double.signText s ++ (whole ++ '.' :: part)).tail := by
    cases s
    · exact fun h => hno '-' (by decide) (by decide) (List.mem_of_mem_tail h)
    · exact hno '-' (by decide) (by decide)
  have hcolon : ':' ∉ Double.signText s ++ (whole ++ '.' :: part) := fun h =>
    (List.mem_append.mp h).elim (by cases s <;> decide) (hno ':' (by decide) (by decide))
  have hwords : ∀ c ∈ Double.signText s ++ (whole ++ '.' :: part), isWordChar c = true := by
    intro c hc
    rcases List.mem_append.mp hc with hc | hc
    · cases s
      · exact absurd hc List.not_mem_nil
      · rw [List.mem_singleton.mp hc]
        decide
    · exact (hbody c hc).elim isWordChar_of_isDigit fun h => h ▸ by decide
  rw [writeValue, show writeFloat (.finite s m e) = _ from htext, readScalar_word hwords hr hdash,
    scalar?_of_number (v := .float (.finite s m e)) ?_ ?_ hdash hcolon, Option.map_some]
  · have hall : ∀ d ∈ whole ++ part, d.isDigit = true := fun d hd =>
      (List.mem_append.mp hd).elim (hdecimal.front d) (hdecimal.behind d)
    rw [float?_decimal hdecimal, decimal, numberFrom_eq hall, zero_sub]
    rw [Double.spelled] at hvalue
    rw [hvalue, if_neg (fun h => Double.noConfusion h), Option.some_or]
  · exact fun h => absurd (h ▸ hpoint) (by decide)
  · exact fun h => absurd (h ▸ hpoint) (by decide)

/-! ## Truth values -/

/-- A truth value is read back. -/
theorem readScalar_boolean (b : Bool) {r : Text}
    (hr : ∀ c s, r = c :: s → isWordChar c = false) :
    readScalar (writeValue (.boolean b) ++ r) = some (.boolean b, r) := by
  have hword : ∀ c ∈ (if b then "true" else "false").toList, isWordChar c = true :=
    Text.forall_of_all (by cases b <;> rfl)
  rw [writeValue, readScalar_word hword hr (by cases b <;> decide)]
  cases b <;> rfl

end PointMutation.Toml
