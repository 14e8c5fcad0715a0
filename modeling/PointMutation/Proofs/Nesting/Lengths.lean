import PointMutation.Syntax.Compound

/-!
# Lengths of tokens

No token is longer than the text that it is read from, whatever measures it.
-/

namespace PointMutation

namespace Text

theorem length_takeWhile_le (p : Char → Bool) (t : Text) : (t.takeWhile p).length ≤ t.length :=
  (List.takeWhile_sublist p).length_le

theorem word_length_le (t : Text) : (word t).length ≤ t.length := by
  cases t with
  | nil => simp [word]
  | cons c r =>
    have := length_takeWhile_le isWordPart r
    rw [word]
    split
    · simp only [List.length_cons]
      omega
    · simp

theorem length_le_of_startsWith {t p : Text} (h : startsWith t p = true) :
    p.length ≤ t.length := by
  obtain ⟨r, rfl⟩ := (startsWith_iff t p).mp h
  simp

end Text

namespace Syntax

/-- A measure never gives more than there is. -/
def Fits (measure : Text → Option Nat) : Prop := ∀ t n, measure t = some n → n ≤ t.length

/-! ## Words and marks -/

/-- The longest of some marks stands at the front. -/
theorem startsWith_of_longestMark {ms : List Text} {t m : Text}
    (h : longestMark? ms t = some m) : Text.startsWith t m = true := by
  have hfold : ∀ best : Option Text, (∀ b ∈ best, Text.startsWith t b = true) →
      ∀ m ∈ ms.foldl (fun best m =>
        if Text.startsWith t m && best.all (fun b => b.length < m.length) then some m else best)
        best, Text.startsWith t m = true := by
    clear h
    induction ms with
    | nil => exact fun _ hbest => hbest
    | cons d ms ih =>
      intro best hbest
      refine ih _ ?_
      dsimp only
      split
      · rename_i hd
        rintro _ ⟨⟩
        exact (Bool.and_eq_true_iff.mp hd).1
      · exact hbest
  exact hfold none (by simp) m h

/-! ## Numerals -/

theorem digitsLength_le (t : Text) (grouped : Bool) : digitsLength t grouped ≤ t.length := by
  induction t generalizing grouped with
  | nil => simp [digitsLength]
  | cons c r ih =>
    have h₁ := ih true
    have h₂ := ih false
    rw [digitsLength, List.length_cons]
    split
    · omega
    · split
      · omega
      · omega

theorem basedLength_le (isDigit : Char → Bool) (t : Text) : basedLength isDigit t ≤ t.length := by
  fun_induction basedLength isDigit t with
  | case1 => simp
  | case2 c r hc ih =>
    simp only [List.length_cons]
    omega
  | case3 => simp
  | case4 c r _ hc ih =>
    simp only [List.length_cons]
    omega
  | case5 => simp

theorem suffixLength_le (cs : List Char) (t : Text) : suffixLength cs t ≤ t.length := by
  cases t with
  | nil => simp [suffixLength]
  | cons c r =>
    rw [suffixLength, List.length_cons]
    split
    · omega
    · omega

/-- What is measured behind a part that fits makes a longer part that fits. -/
theorem add_suffixLength_le {t : Text} {n : Nat} (cs : List Char) (h : n ≤ t.length) :
    n + suffixLength cs (t.drop n) ≤ t.length := by
  have := suffixLength_le cs (t.drop n)
  rw [List.length_drop] at this
  omega

theorem decimalLength_le (t : Text) : decimalLength t ≤ t.length := by
  have h := digitsLength_le t false
  simp only [decimalLength]
  split
  · omega
  · exact add_suffixLength_le _ h

theorem integerLength_le (t : Text) : integerLength t ≤ t.length := by
  unfold integerLength
  split
  · rename_i c r
    split
    · rename_i isDigit _
      have h := basedLength_le isDigit r
      have h' := add_suffixLength_le ['l', 'L'] h
      dsimp only
      split
      · exact decimalLength_le _
      · simp only [List.length_cons]
        omega
    · exact decimalLength_le _
  · exact decimalLength_le _

theorem exponentLength_le (t : Text) : exponentLength t ≤ t.length := by
  cases t with
  | nil => simp [exponentLength]
  | cons c r =>
    have hsign := suffixLength_le ['+', '-'] r
    have h := digitsLength_le (r.drop (suffixLength ['+', '-'] r)) false
    rw [List.length_drop] at h
    simp only [exponentLength, List.length_cons]
    split
    · split
      · omega
      · omega
    · omega

theorem ite_le {c : Prop} [Decidable c] {a b n : Nat} (ha : a ≤ n) (hb : b ≤ n) :
    (if c then a else b) ≤ n := by
  split
  · exact ha
  · exact hb

theorem floatLength_le (t : Text) : floatLength t ≤ t.length := by
  have hpoint := add_suffixLength_le ['.'] (digitsLength_le t false)
  rw [floatLength]
  generalize digitsLength t false = whole at hpoint ⊢
  generalize suffixLength ['.'] (t.drop whole) = point at hpoint ⊢
  have hrest := digitsLength_le (t.drop (whole + point)) false
  rw [List.length_drop] at hrest
  have hfraction : (if point = 0 then 0 else digitsLength (t.drop (whole + point)) false) ≤
      t.length - (whole + point) := ite_le (Nat.zero_le _) hrest
  generalize (if point = 0 then 0 else digitsLength (t.drop (whole + point)) false) = fraction
    at hfraction ⊢
  have hexponent := exponentLength_le (t.drop (whole + point + fraction))
  rw [List.length_drop] at hexponent
  exact ite_le (Nat.zero_le _) (add_suffixLength_le _ (by omega))

/-! ## Layout and quotations -/

theorem opening_length_le {t : Text} {q : Quote} {n : Nat} (h : opening t = some (q, n)) :
    n ≤ t.length := by
  have hsplit : t = t.takeWhile isQuoteLetter ++ t.dropWhile isQuoteLetter :=
    List.takeWhile_append_dropWhile.symm
  have hlength := congrArg List.length hsplit
  rw [List.length_append] at hlength
  simp only [opening] at h
  split at h
  case h_6 => cases h
  all_goals
    rename_i heq
    rw [heq] at hlength
    simp only [List.length_cons] at hlength
    cases h
    omega

theorem extra_length_le {t : Text} {k : Kind} {n : Nat} (h : extra? t = some (k, n)) :
    n ≤ t.length := by
  unfold extra? at h
  split at h
  · rename_i r
    have := Text.length_takeWhile_le (fun c => c != '\n' && c != '\x00') r
    cases h
    simp only [List.length_cons]
    omega
  · cases h
    simp
  · cases h
    simp
  · cases h
    simp
  · cases h

theorem blanks_length_le {comments : Bool} {t : Text} {among : Among} {b b' : Blanks}
    (h : blanks comments t among b = some b') : b'.rest.length ≤ t.length := by
  induction t generalizing among b with
  | nil =>
    rw [blanks] at h
    cases h
    simp
  | cons c r ih =>
    have hr : ∀ {among : Among} {b : Blanks}, blanks comments r among b = some b' →
        b'.rest.length ≤ (c :: r).length := fun h => Nat.le_trans (ih h) (by simp)
    cases among with
    | space =>
      rw [blanks] at h
      repeat' split at h
      all_goals
        first
        | exact hr h
        | cases h <;> simp
    | comment =>
      rw [blanks] at h
      split at h
      · exact hr h
      · exact hr h
    | backslash =>
      rw [blanks] at h
      repeat' split at h
      all_goals
        first
        | exact hr h
        | cases h
    | backslashReturn =>
      rw [blanks] at h
      split at h
      · exact hr h
      · cases h

theorem conversionLength_fits : Fits conversionLength? := by
  intro t n h
  unfold conversionLength? at h
  split at h
  · split at h
    · cases h
      simp
    · cases h
  · cases h

end Syntax

end PointMutation
