import Mathlib.Data.List.TakeWhile
import PointMutation.Proofs.Nesting.Lengths
import PointMutation.Proofs.Rewriting.Clear
import PointMutation.Syntax.Quoted

/-!
# Tokens without white space

An ordinary token is a stretch of at least one character, none of which is white space, whatever
measures it. Comments and quotations have white space inside, but no cut of a line meets them halfway
either.
-/

namespace PointMutation

namespace Text

/-! ## Characters that are no white space -/

theorem isWhite_of_ascii {c : Char} (h : 33 ≤ c.toNat) (h' : c.toNat < 0x80) :
    isWhite c = false := by
  simp only [isWhite, Bool.or_eq_false_iff, Bool.and_eq_false_iff, decide_eq_false_iff_not,
    beq_eq_false_iff_ne]
  omega

theorem isWhite_of_isDigit {c : Char} (h : c.isDigit = true) : isWhite c = false := by
  have hrange : 48 ≤ c.toNat ∧ c.toNat ≤ 57 := by
    simpa [Char.isDigit, UInt32.le_iff_toNat_le] using h
  exact isWhite_of_ascii (by omega) (by omega)

theorem isWhite_of_isAlpha {c : Char} (h : c.isAlpha = true) : isWhite c = false := by
  have hrange : 65 ≤ c.toNat ∧ c.toNat ≤ 90 ∨ 97 ≤ c.toNat ∧ c.toNat ≤ 122 := by
    delta Char.isAlpha Char.isUpper Char.isLower at h
    simpa [UInt32.le_iff_toNat_le] using h
  exact isWhite_of_ascii (by omega) (by omega)

/-- The white space beyond ASCII. -/
def farWhite : List Nat :=
  [0x85, 0xa0, 0x1680, 0x2028, 0x2029, 0x202f, 0x205f, 0x3000] ++ (List.range 11).map (· + 0x2000)

theorem mem_farWhite {c : Char} (h : isWhite c = true) (h' : 0x80 ≤ c.toNat) :
    c.toNat ∈ farWhite := by
  simp only [isWhite, Bool.or_eq_true, Bool.and_eq_true, decide_eq_true_eq, beq_iff_eq] at h
  simp only [farWhite, List.mem_append, List.mem_cons, List.not_mem_nil, or_false, List.mem_map,
    List.mem_range]
  by_cases hspace : 0x2000 ≤ c.toNat ∧ c.toNat ≤ 0x200a
  · exact .inr ⟨c.toNat - 0x2000, by omega, by omega⟩
  · omega

/-- No identifier has white space. -/
theorem farWhite_not_inRanges :
    ∀ n ∈ farWhite, (inRanges n startRanges || inRanges n continueRanges) = false := by
  decide +kernel

theorem isWhite_of_isWordPart {c : Char} (h : isWordPart c = true) : isWhite c = false := by
  rw [isWordPart] at h
  split at h
  · next hlow =>
    rw [Bool.or_eq_true, Char.isAlphanum, Bool.or_eq_true, beq_iff_eq] at h
    rcases h with (h | h) | rfl
    · exact isWhite_of_isAlpha h
    · exact isWhite_of_isDigit h
    · rfl
  · next hhigh =>
    cases hwhite : isWhite c with
    | false => rfl
    | true =>
      rw [farWhite_not_inRanges _ (mem_farWhite hwhite (by omega))] at h
      cases h

/-! ## Stretches without white space -/

/-- The first `n` characters of a text are there, and none of them is white space. -/
structure Solid (t : Text) (n : Nat) : Prop where
  le : n ≤ t.length
  ink : ∀ c ∈ t.take n, isWhite c = false

theorem solid_zero (t : Text) : Solid t 0 := ⟨Nat.zero_le _, by simp⟩

theorem Solid.add {t : Text} {m n : Nat} (h : Solid t m) (h' : Solid (t.drop m) n) :
    Solid t (m + n) := by
  have hle := h'.le
  rw [List.length_drop] at hle
  have := h.le
  refine ⟨by omega, fun c hc => ?_⟩
  rw [List.take_add, List.mem_append] at hc
  exact hc.elim (h.ink c) (h'.ink c)

theorem Solid.cons {c : Char} {t : Text} {n : Nat} (hc : isWhite c = false) (h : Solid t n) :
    Solid (c :: t) (n + 1) := by
  refine ⟨Nat.succ_le_succ h.le, fun d hd => ?_⟩
  rw [List.take_succ_cons, List.mem_cons] at hd
  rcases hd with rfl | hd
  · exact hc
  · exact h.ink d hd

theorem solid_takeWhile {p : Char → Bool} (hp : ∀ c, p c = true → isWhite c = false) (t : Text) :
    Solid t (t.takeWhile p).length := by
  refine ⟨length_takeWhile_le p t, fun c hc => hp c ?_⟩
  have htake : t.take (t.takeWhile p).length = t.takeWhile p :=
    (List.prefix_iff_eq_take.mp (List.takeWhile_prefix p)).symm
  rw [htake] at hc
  exact List.mem_takeWhile_imp hc

theorem solid_word (t : Text) : Solid t (word t).length := by
  cases t with
  | nil => exact solid_zero []
  | cons c r =>
    rw [word]
    split
    · next hc =>
      exact .cons (isWhite_of_isWordPart (isWordPart_of_isWordStart hc))
        (solid_takeWhile (fun _ => isWhite_of_isWordPart) r)
    · exact solid_zero _

theorem solid_of_startsWith {t m : Text} (hm : ∀ c ∈ m, isWhite c = false)
    (h : startsWith t m = true) : Solid t m.length := by
  obtain ⟨r, rfl⟩ := (startsWith_iff t m).mp h
  exact ⟨by simp, by simpa using hm⟩

theorem Solid.getElem? {t : Text} {p n i : Nat} (h : Solid (t.drop p) n) (hi : i < n) :
    ∃ x, t[p + i]? = some x ∧ isWhite x = false := by
  have hle := h.le
  have hget : (t.drop p)[i]? = some (t.drop p)[i] := List.getElem?_eq_getElem (by omega)
  refine ⟨(t.drop p)[i], ?_, h.ink _ ?_⟩
  · rw [← hget, List.getElem?_drop]
  · exact List.mem_of_getElem? ((List.getElem?_take_of_lt hi).trans hget)

/-- A stretch without white space is not met halfway by a cut. -/
theorem Solid.clear {t : Text} {p n : Nat} (h : Solid (t.drop p) n) (hn : 0 < n) :
    Clear t p (p + n) := by
  have hle := h.le
  rw [List.length_drop] at hle
  obtain ⟨x, hx, hwhite⟩ := h.getElem? (i := n - 1) (by omega)
  have htidy := tidy_succ hx hwhite
  rw [show p + (n - 1) + 1 = p + n by omega] at htidy
  exact ⟨by omega, by omega, h.getElem? hn, htidy⟩

end Text

namespace Syntax

open Text (Solid isWhite solid_zero)

/-- What is measured is at least one character and has no white space. -/
def Inks (measure : Text → Option Nat) : Prop :=
  ∀ t n, measure t = some n → 0 < n ∧ Solid t n

theorem Inks.fits {measure : Text → Option Nat} (h : Inks measure) : Fits measure :=
  fun t n hn => (h t n hn).2.le

/-! ## Words and marks -/

theorem length_word_pos {t : Text} (h : Text.word t ≠ []) : 0 < (Text.word t).length :=
  List.length_pos_iff.mpr h

theorem wordLength_inks {w : String} (hw : w.toList ≠ []) : Inks (wordLength? w) := by
  intro t n h
  simp only [wordLength?] at h
  split at h
  · next heq =>
    cases h
    rw [← beq_iff_eq.mp heq] at hw ⊢
    exact ⟨length_word_pos hw, Text.solid_word t⟩
  · cases h

theorem nameLength_inks : Inks nameLength? := by
  intro t n h
  simp only [nameLength?] at h
  split at h
  · cases h
  · next hname =>
    cases h
    refine ⟨length_word_pos ?_, Text.solid_word t⟩
    rintro hnil
    simp [hnil] at hname

theorem operandNameLength_inks : Inks operandNameLength? := by
  intro t n h
  simp only [operandNameLength?] at h
  split at h
  · cases h
  · next hname =>
    cases h
    refine ⟨length_word_pos ?_, Text.solid_word t⟩
    rintro hnil
    simp [hnil] at hname

theorem genericNameLength_inks : Inks genericNameLength? := by
  intro t n h
  simp only [genericNameLength?] at h
  split at h
  · cases h
  · exact nameLength_inks t n h

theorem unambiguousNameLength_inks : Inks unambiguousNameLength? := by
  intro t n h
  simp only [unambiguousNameLength?] at h
  split at h
  · cases h
  · exact nameLength_inks t n h

theorem captureLength_inks : Inks captureLength? := by
  intro t n h
  simp only [captureLength?] at h
  split at h
  · cases h
  · exact nameLength_inks t n h

/-- A mark is at least one character and has no white space. -/
def IsMark (m : Text) : Prop := m ≠ [] ∧ m.all (fun c => !isWhite c) = true

instance (m : Text) : Decidable (IsMark m) := inferInstanceAs (Decidable (_ ∧ _))

theorem IsMark.solid {t m : Text} (hm : IsMark m) (h : Text.startsWith t m = true) :
    0 < m.length ∧ Solid t m.length :=
  ⟨List.length_pos_iff.mpr hm.1, Text.solid_of_startsWith (by simpa using hm.2) h⟩

theorem markLength_inks {m : String} (hm : IsMark m.toList) : Inks (markLength? m) := by
  intro t n h
  simp only [markLength?] at h
  split at h
  · next hs =>
    cases h
    exact hm.solid hs
  · cases h

theorem equalsLength_inks : Inks equalsLength? := by
  intro t n h
  unfold equalsLength? at h
  split at h
  · cases h
  · cases h
    exact ⟨Nat.one_pos, .cons rfl (solid_zero _)⟩
  · cases h

theorem mem_of_longestMark {ms : List Text} {t m : Text} (h : longestMark? ms t = some m) :
    m ∈ ms := by
  have hbest : ∀ b ∈ longestMark? ms t, b ∈ ms := by
    rw [longestMark?]
    refine List.foldlRecOn (motive := fun best : Option Text => ∀ b ∈ best, b ∈ ms) ms _
      (by simp) ?_
    intro best hbest d hd
    split
    · rintro _ ⟨⟩
      exact hd
    · exact hbest
  exact hbest m h

theorem isMark_operationMarks : ∀ m ∈ operationMarks, IsMark m := by decide

theorem isMark_comparisonMarks : ∀ m ∈ comparisonMarks, IsMark m := by decide

/-- The longest of some marks at the front of a text. -/
theorem solid_of_longestMark {ms : List Text} {t m : Text} (hms : ∀ m ∈ ms, IsMark m)
    (h : longestMark? ms t = some m) : 0 < m.length ∧ Solid t m.length :=
  (hms m (mem_of_longestMark h)).solid (startsWith_of_longestMark h)

theorem augmentedLength_inks : Inks augmentedLength? := by
  intro t n h
  obtain ⟨m, hm, rfl⟩ := Option.map_eq_some_iff.mp h
  exact solid_of_longestMark
    (fun m hm => isMark_operationMarks m (List.mem_append_left _ hm)) hm

theorem binaryLength_inks : Inks binaryLength? := by
  intro t n h
  unfold binaryLength? at h
  obtain ⟨p, hp, rfl⟩ := Option.map_eq_some_iff.mp h
  unfold binary? at hp
  split at hp
  · next m hm =>
    have heq : p.1 = m := by simpa using List.find?_some hp
    rw [heq]
    exact solid_of_longestMark isMark_operationMarks hm
  · cases hp

theorem comparisonLength_inks : Inks comparisonLength? := by
  intro t n h
  unfold comparisonLength? at h
  split at h
  · next m hm =>
    split at h
    · cases h
      refine solid_of_longestMark (fun m hm => ?_) hm
      exact (List.mem_append.mp hm).elim (isMark_comparisonMarks m) (isMark_operationMarks m)
    · cases h
  · cases h

/-! ## Numerals -/

theorem solid_digits (t : Text) (grouped : Bool) : Solid t (digitsLength t grouped) := by
  induction t generalizing grouped with
  | nil => exact solid_zero []
  | cons c r ih =>
    rw [digitsLength]
    split
    · next hc => exact .cons (Text.isWhite_of_isDigit hc) (ih true)
    · split
      · next hc =>
        obtain rfl : c = '_' := of_decide_eq_true (Bool.and_eq_true_iff.mp hc).1
        exact .cons rfl (ih false)
      · exact solid_zero _

theorem solid_based {isDigit : Char → Bool} (h : ∀ c, isDigit c = true → isWhite c = false)
    (t : Text) : Solid t (basedLength isDigit t) := by
  fun_induction basedLength isDigit t with
  | case1 => exact solid_zero []
  | case2 c r hc ih => exact .cons rfl (.cons (h c hc) ih)
  | case3 => exact solid_zero _
  | case4 c r _ hc ih => exact .cons (h c hc) ih
  | case5 => exact solid_zero _

theorem solid_suffix (cs : List Char) (h : ∀ c ∈ cs, isWhite c = false) (t : Text) :
    Solid t (suffixLength cs t) := by
  cases t with
  | nil => exact solid_zero []
  | cons c r =>
    rw [suffixLength]
    split
    · next hc => exact .cons (h c (by simpa using hc)) (solid_zero r)
    · exact solid_zero _

/-- A digit in some range of ASCII characters. -/
theorem isWhite_of_between {a b c : Char} (ha : 33 ≤ a.toNat) (hb : b.toNat < 0x80) (hac : a ≤ c)
    (hcb : c ≤ b) : isWhite c = false :=
  Text.isWhite_of_ascii (ha.trans hac) (Nat.lt_of_le_of_lt hcb hb)

theorem isWhite_of_letter {a b c : Char} (ha : isWhite a = false) (hb : isWhite b = false)
    (h : (decide (c = a) || decide (c = b)) = true) : isWhite c = false := by
  rcases Bool.or_eq_true_iff.mp h with h | h
  · rwa [of_decide_eq_true h]
  · rwa [of_decide_eq_true h]

theorem baseDigits_ink {c : Char} {isDigit : Char → Bool} (h : baseDigits? c = some isDigit) :
    isWhite c = false ∧ ∀ d, isDigit d = true → isWhite d = false := by
  unfold baseDigits? at h
  split at h
  · next hc =>
    cases h
    refine ⟨isWhite_of_letter (by decide) (by decide) hc, fun d hd => ?_⟩
    simp only [Bool.or_eq_true, Bool.and_eq_true, decide_eq_true_eq] at hd
    rcases hd with (hd | hd) | hd
    · exact Text.isWhite_of_isDigit hd
    · exact isWhite_of_between (by decide) (by decide) hd.1 hd.2
    · exact isWhite_of_between (by decide) (by decide) hd.1 hd.2
  · split at h
    · next hc =>
      cases h
      refine ⟨isWhite_of_letter (by decide) (by decide) hc, fun d hd => ?_⟩
      simp only [Bool.and_eq_true, decide_eq_true_eq] at hd
      exact isWhite_of_between (by decide) (by decide) hd.1 hd.2
    · split at h
      · next hc =>
        cases h
        refine ⟨isWhite_of_letter (by decide) (by decide) hc, fun d hd => ?_⟩
        simp only [Bool.or_eq_true, beq_iff_eq] at hd
        rcases hd with rfl | rfl <;> rfl
      · cases h

theorem solid_decimal (t : Text) : Solid t (decimalLength t) := by
  simp only [decimalLength]
  split
  · exact solid_zero t
  · exact (solid_digits t false).add (solid_suffix _ (Text.forall_of_all (by decide)) _)

theorem solid_integer (t : Text) : Solid t (integerLength t) := by
  unfold integerLength
  split
  · next c r =>
    split
    · next isDigit hbase =>
      obtain ⟨hc, hdigits⟩ := baseDigits_ink hbase
      dsimp only
      split
      · exact solid_decimal _
      · have h := (solid_based hdigits r).add
          (solid_suffix ['l', 'L'] (Text.forall_of_all (by decide)) _)
        have hall := Solid.cons (c := '0') rfl (h.cons hc)
        rwa [show basedLength isDigit r + suffixLength ['l', 'L'] (r.drop (basedLength isDigit r)) +
            1 + 1 = basedLength isDigit r + 2 +
              suffixLength ['l', 'L'] (r.drop (basedLength isDigit r)) by omega] at hall
    · exact solid_decimal _
  · exact solid_decimal _

theorem solid_exponent (t : Text) : Solid t (exponentLength t) := by
  cases t with
  | nil => exact solid_zero []
  | cons c r =>
    rw [exponentLength]
    split
    · next hc =>
      have hletter : isWhite c = false := isWhite_of_letter (by decide) (by decide) hc
      dsimp only
      split
      · exact solid_zero _
      · have h := (solid_suffix ['+', '-'] (Text.forall_of_all (by decide)) r).add
          (solid_digits (r.drop (suffixLength ['+', '-'] r)) false)
        rw [Nat.add_comm] at h
        exact h.cons hletter
    · exact solid_zero _

theorem solid_float (t : Text) : Solid t (floatLength t) := by
  have hpoint := (solid_digits t false).add (solid_suffix ['.'] (Text.forall_of_all (by decide)) _)
  rw [floatLength]
  generalize digitsLength t false = whole at hpoint ⊢
  generalize suffixLength ['.'] (t.drop whole) = point at hpoint ⊢
  have hfraction : Solid (t.drop (whole + point))
      (if point = 0 then 0 else digitsLength (t.drop (whole + point)) false) := by
    split
    · exact solid_zero _
    · exact solid_digits _ false
  generalize (if point = 0 then 0 else digitsLength (t.drop (whole + point)) false) = fraction
    at hfraction ⊢
  have hdigits := (hpoint.add hfraction).add (solid_exponent _)
  have hall := hdigits.add (solid_suffix ['j', 'J'] (Text.forall_of_all (by decide)) _)
  split
  · exact solid_zero t
  · exact hall

theorem numeralLength_inks : Inks numeralLength? := by
  intro t n h
  unfold numeralLength? at h
  obtain ⟨p, hp, rfl⟩ := Option.map_eq_some_iff.mp h
  simp only [numeral?] at hp
  split at hp
  · next hlt =>
    cases hp
    exact ⟨Nat.zero_lt_of_lt hlt, solid_float t⟩
  · split at hp
    · cases hp
    · next hne =>
      cases hp
      exact ⟨Nat.pos_of_ne_zero hne, solid_integer t⟩

theorem conversionLength_inks : Inks conversionLength? := by
  intro t n h
  unfold conversionLength? at h
  split at h
  · split at h
    · next hc =>
      cases h
      obtain ⟨ha, hz⟩ := Bool.and_eq_true_iff.mp hc
      have hletter := isWhite_of_between (by decide) (by decide) (of_decide_eq_true ha)
        (of_decide_eq_true hz)
      exact ⟨Nat.two_pos, .cons rfl (.cons hletter (solid_zero _))⟩
    · cases h
  · cases h

/-! ## Comments and joints -/

/-- The next characters of a text. -/
theorem getElem?_of_drop {t u : Text} {p : Nat} (h : t.drop p = u) (i : Nat) :
    t[p + i]? = u[i]? := by
  rw [← h, List.getElem?_drop]

theorem extra_clear {t : Text} {p n : Nat} {k : Kind} (h : extra? (t.drop p) = some (k, n)) :
    Text.Clear t p (p + n) := by
  have hle := extra_length_le h
  rw [List.length_drop] at hle
  unfold extra? at h
  split at h
  · next r hr =>
    have hfirst : t[p]? = some '#' := getElem?_of_drop hr 0
    have hsolid : ∀ i, i < (r.takeWhile fun c => c != '\n' && c != '\x00').length →
        r[i]? ≠ some '\n' := by
      intro i hi hbreak
      have hget := (List.takeWhile_prefix fun c => c != '\n' && c != '\x00').getElem hi
      have hmem := List.mem_takeWhile_imp (List.getElem_mem hi)
      rw [hget] at hmem
      obtain ⟨hlt, hat⟩ := List.getElem?_eq_some_iff.mp hbreak
      simp [hat] at hmem
    cases h
    refine ⟨by omega, by omega, ⟨_, hfirst, rfl⟩, ?_⟩
    refine Text.tidy_of_inked (by omega) (by omega) hfirst rfl fun j hj hlt => ?_
    obtain ⟨i, rfl⟩ := Nat.exists_eq_add_of_le hj
    rw [getElem?_of_drop hr]
    cases i with
    | zero => simp
    | succ i => exact hsolid i (by omega)
  · next r hr =>
    cases h
    refine ⟨by omega, by omega, ⟨_, getElem?_of_drop hr 0, rfl⟩, ?_⟩
    exact Text.tidy_of_break (getElem?_of_drop hr 1)
  · next r hr =>
    cases h
    refine ⟨by omega, by omega, ⟨_, getElem?_of_drop hr 0, rfl⟩, ?_⟩
    exact Text.tidy_of_break (getElem?_of_drop hr 2)
  · next r hr =>
    cases h
    refine ⟨by omega, by omega, ⟨_, getElem?_of_drop hr 0, rfl⟩, ?_⟩
    exact Text.tidy_succ (getElem?_of_drop hr 1) rfl
  · cases h

/-! ## Quotations -/

theorem isWhite_of_isQuoteLetter {c : Char} (h : isQuoteLetter c = true) : isWhite c = false := by
  have hmem : c ∈ ['f', 'F', 't', 'T', 'r', 'R', 'b', 'B', 'u', 'U'] := by
    simpa [isQuoteLetter] using h
  have hall : ∀ d ∈ ['f', 'F', 't', 'T', 'r', 'R', 'b', 'B', 'u', 'U'], isWhite d = false :=
    Text.forall_of_all (by decide)
  exact hall c hmem

/-- A quotation begins with a letter or its mark. -/
theorem opening_ink {t : Text} {q : Quote} {n : Nat} (h : opening t = some (q, n)) :
    0 < n ∧ (∃ x, t[0]? = some x ∧ isWhite x = false) ∧ isWhite q.mark = false := by
  have hsplit : t = t.takeWhile isQuoteLetter ++ t.dropWhile isQuoteLetter :=
    List.takeWhile_append_dropWhile.symm
  have hfirst : ∀ {c : Char} {r : Text}, isWhite c = false → t.dropWhile isQuoteLetter = c :: r →
      ∃ x, t[0]? = some x ∧ isWhite x = false := by
    intro c r hc hr
    rw [hr] at hsplit
    cases hletters : t.takeWhile isQuoteLetter with
    | nil =>
      rw [hletters] at hsplit
      exact ⟨c, by rw [hsplit]; rfl, hc⟩
    | cons d ds =>
      have hd : isQuoteLetter d = true :=
        List.mem_takeWhile_imp (l := t) (hletters ▸ List.mem_cons_self)
      rw [hletters] at hsplit
      exact ⟨d, by rw [hsplit]; rfl, isWhite_of_isQuoteLetter hd⟩
  simp only [opening] at h
  split at h
  case h_6 => cases h
  all_goals
    next hr =>
      cases h
      exact ⟨by omega, hfirst rfl hr, rfl⟩

/-- A quotation that is closed behind `n` characters is closed by its mark. -/
def Content.Closes (q : Quote) (t : Text) (n : Nat) : Content → Prop
  | .closing m => n < m ∧ t[m - n - 1]? = some q.mark
  | _ => True

theorem Content.Closes.ite {q : Quote} {t : Text} {n : Nat} {b : Prop} [Decidable b]
    {x y : Content} (hx : b → x.Closes q t n) (hy : ¬b → y.Closes q t n) :
    (if b then x else y).Closes q t n := by
  split
  · exact hx ‹_›
  · exact hy ‹_›

theorem Content.Closes.cons {q : Quote} {t : Text} {n : Nat} {x : Content} (c : Char)
    (h : x.Closes q t (n + 1)) : x.Closes q (c :: t) n := by
  cases x with
  | closing m =>
    obtain ⟨hlt, hmark⟩ := h
    refine ⟨by omega, ?_⟩
    rwa [show m - n - 1 = m - (n + 1) - 1 + 1 by omega, List.getElem?_cons_succ]
  | plain => trivial
  | other => trivial
  | unfinished => trivial

theorem content_closes (q : Quote) (t : Text) (taken : Taken) (n : Nat) (some? : Bool) :
    (content q t taken n some?).Closes q t n := by
  induction t generalizing taken n some? with
  | nil => trivial
  | cons c r ih =>
    have hr : ∀ taken some?, (content q r taken (n + 1) some?).Closes q (c :: r) n :=
      fun taken some? => (ih taken (n + 1) some?).cons c
    have hplain : ∀ m, (Content.plain m).Closes q (c :: r) n := fun _ => True.intro
    rw [content.eq_def]
    repeat' refine .ite (fun _ => ?_) (fun _ => ?_)
    all_goals
      first
      | exact hr _ _
      | exact True.intro
      | skip
    · next hmark _ _ =>
      refine ⟨Nat.lt_succ_self n, ?_⟩
      rw [hmark, Nat.add_sub_cancel_left]
      rfl
    -- a mark of a tripled quotation, which may end it
    cases r with
    | nil => exact hplain _
    | cons d r =>
      cases r with
      | nil => exact .ite (fun _ => hplain _) (fun _ => hplain _)
      | cons e r =>
        refine .ite (fun hmarks => .ite (fun _ => hplain _) (fun _ => ⟨by omega, ?_⟩)) fun _ =>
          .ite (fun _ => hplain _) (fun _ => hplain _)
        have he : e = q.mark := (by simpa using hmarks : d = q.mark ∧ e = q.mark).2
        rw [he, show n + 3 - n - 1 = 2 by omega]
        rfl

/-! ## Blanks -/

theorem blanks_suffix {comments : Bool} {t : Text} {among : Among} {b b' : Blanks}
    (h : blanks comments t among b = some b') : b'.rest <:+ t := by
  induction t generalizing among b with
  | nil =>
    rw [blanks] at h
    cases h
    exact List.suffix_refl []
  | cons c r ih =>
    have hr : ∀ {among : Among} {b : Blanks}, blanks comments r among b = some b' →
        b'.rest <:+ c :: r := fun h => (ih h).trans (List.suffix_cons c r)
    cases among with
    | space =>
      rw [blanks] at h
      repeat' split at h
      all_goals
        first
        | exact hr h
        | cases h <;> exact List.suffix_refl _
    | comment =>
      rw [blanks] at h
      split at h
      · exact hr h
      · exact hr h
    | backslash =>
      rw [blanks] at h
      repeat' split at h
      all_goals
        first
        | exact hr h
        | cases h
    | backslashReturn =>
      rw [blanks] at h
      split at h
      · exact hr h
      · cases h

end Syntax

end PointMutation
