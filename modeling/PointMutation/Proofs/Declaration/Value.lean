import PointMutation.Number.Decimal
import PointMutation.Proofs.Declaration.Operand

/-!
# Reading a value

The values that declarations have are numerals and quotations of letters and digits. At the end of
the text each of them is read as one operand (`IsValue.expression`).
-/

namespace PointMutation.Syntax

open Text (word)

/-- The text of a value. -/
inductive IsValue : Text → Prop
  | whole {ds : Text} (hne : ds ≠ []) (h : ∀ d ∈ ds, d.isDigit = true) : IsValue ds
  | decimal {ds fs : Text} (hne : ds ≠ []) (h : ∀ d ∈ ds, d.isDigit = true)
      (h' : ∀ d ∈ fs, d.isDigit = true) : IsValue (ds ++ '.' :: fs)
  | quoted {cs : Text} (hne : cs ≠ []) (h : ∀ c ∈ cs, c ∈ RandomSource.alphanumeric) :
      IsValue ('"' :: cs ++ ['"'])

/-! ## Numerals -/

theorem isDigit_iff (c : Char) : c.isDigit = true ↔ 48 ≤ c.toNat ∧ c.toNat ≤ 57 := by
  simp only [Char.isDigit, Bool.and_eq_true, decide_eq_true_eq, ge_iff_le, UInt32.le_iff_toNat_le]
  exact Iff.rfl

theorem ne_of_isDigit {c d : Char} (h : c.isDigit = true) (hd : d.isDigit = false) : c ≠ d := by
  rintro rfl
  rw [h] at hd
  cases hd

theorem digitsLength_append {ds : Text} (h : ∀ d ∈ ds, d.isDigit = true) (t : Text) (b : Bool) :
    digitsLength (ds ++ t) b = ds.length + digitsLength t (b || !ds.isEmpty) := by
  induction ds generalizing b with
  | nil => simp
  | cons d ds ih =>
    rw [List.cons_append, digitsLength, if_pos (h d (by simp)),
      ih (fun d hd => h d (List.mem_cons_of_mem _ hd))]
    simp only [List.isEmpty_cons, Bool.not_false, Bool.or_true, Bool.true_or, List.length_cons]
    omega

/-- A zero in front does not make a number of another base. -/
theorem integerLength_eq {t : Text} (h : ∀ c ∈ t, baseDigits? c = none) :
    integerLength t = decimalLength t := by
  unfold integerLength
  split
  · rename_i c r
    rw [h c (by simp)]
  · rfl

theorem baseDigits_of_isDigit {c : Char} (h : c.isDigit = true) : baseDigits? c = none := by
  have hne : ∀ d : Char, d.isDigit = false → c ≠ d := fun d hd => ne_of_isDigit h hd
  simp [baseDigits?, hne 'x' (by decide), hne 'X' (by decide), hne 'o' (by decide),
    hne 'O' (by decide), hne 'b' (by decide), hne 'B' (by decide)]

theorem numeral_whole {ds : Text} (hne : ds ≠ []) (h : ∀ d ∈ ds, d.isDigit = true) :
    numeral? ds = some (.integer, ds.length) := by
  have hlength : ds.length ≠ 0 := by simpa using hne
  have hdigits : digitsLength ds false = ds.length := by
    have happend := digitsLength_append h [] false
    simpa [digitsLength] using happend
  have hinteger : integerLength ds = ds.length := by
    rw [integerLength_eq fun c hc => baseDigits_of_isDigit (h c hc)]
    simp [decimalLength, hdigits, suffixLength, hne]
  have hfloat : floatLength ds = 0 := by
    simp [floatLength, hdigits, suffixLength, exponentLength]
  simp [numeral?, hinteger, hfloat, hne]

theorem numeral_decimal {ds fs : Text} (hne : ds ≠ []) (h : ∀ d ∈ ds, d.isDigit = true)
    (h' : ∀ d ∈ fs, d.isDigit = true) :
    numeral? (ds ++ '.' :: fs) = some (.float, (ds ++ '.' :: fs).length) := by
  have hwhole : digitsLength (ds ++ '.' :: fs) false = ds.length := by
    rw [digitsLength_append h]
    simp [digitsLength]
  have hfraction : digitsLength fs false = fs.length := by
    have happend := digitsLength_append h' [] false
    simpa [digitsLength] using happend
  have hplain : ∀ c ∈ ds ++ '.' :: fs, baseDigits? c = none := by
    intro c hc
    rcases List.mem_append.mp hc with hc | hc
    · exact baseDigits_of_isDigit (h c hc)
    rcases List.mem_cons.mp hc with rfl | hc
    · rfl
    · exact baseDigits_of_isDigit (h' c hc)
  have hbehind : (ds ++ '.' :: fs).drop (ds.length + 1) = fs := by
    rw [← List.drop_drop, List.drop_left]
    rfl
  have hend : (ds ++ '.' :: fs).drop (ds.length + 1 + fs.length) = [] :=
    List.drop_of_length_le (by simp only [List.length_append, List.length_cons]; omega)
  have hinteger : integerLength (ds ++ '.' :: fs) = ds.length := by
    rw [integerLength_eq hplain]
    simp [decimalLength, hwhole, suffixLength, hne]
  have hfloat : floatLength (ds ++ '.' :: fs) = (ds ++ '.' :: fs).length := by
    simp [floatLength, hwhole, suffixLength, hbehind, hfraction, hend, exponentLength, hne]
    omega
  simp [numeral?, hinteger, hfloat]

theorem isInk_of_isDigit {d : Char} (h : d.isDigit = true) : isInk d = true := by
  have hbounds := (isDigit_iff d).mp h
  have hhash := ne_of_isDigit h (d := '#') (by decide)
  have hslash := ne_of_isDigit h (d := '\\') (by decide)
  simp [isInk, isSeparator, hhash, hslash]
  omega

/-- A numeral that is the rest of the text. -/
theorem atom_numeral {w : Text} {k : Kind} (hw : numeral? w = some (k, w.length)) {d : Char}
    {s : Text} (hds : w = d :: s) (hd : d.isDigit = true) (r : Rules) (follow : Follow) (n : Nat) :
    atom r .operand follow (.facing n w) =
      some (leaf k w n, .facing (n + w.length) []) := by
  have hink := isInk_of_isDigit hd
  have hopening : opening w = none := by
    have hletter : isQuoteLetter d = false := by
      simp only [isQuoteLetter, List.contains_eq_mem, decide_eq_false_iff_not]
      intro hmem
      have hletters : ∀ c ∈ ['f', 'F', 't', 'T', 'r', 'R', 'b', 'B', 'u', 'U'],
          c.isDigit = false := Text.forall_of_all (by decide)
      exact ne_of_isDigit hd (hletters d hmem) rfl
    subst hds
    have hmarks : d ≠ '`' ∧ d ≠ '\'' ∧ d ≠ '"' :=
      ⟨ne_of_isDigit hd (by decide), ne_of_isDigit hd (by decide), ne_of_isDigit hd (by decide)⟩
    simp [opening, hletter, hmarks]
  have hlook : look .operand (.facing n w) = some (([], .text), .facing n w) := by
    rw [hds, look_ink hink, ← hds, found_of_opening hopening]
  have hplain : found .plain (w ++ []) = .text := found_of_plain rfl _
  have hmeasure : numeralLength? (w ++ []) = some w.length := by
    simp [numeralLength?, hw]
  have htoken := token_facing gap_nil (by rw [List.append_nil, hds]) hink hplain hmeasure n
  rw [List.nil_append, List.length_nil, Nat.add_zero, List.append_nil] at htoken
  rw [atom, bind_of_some hlook]
  dsimp only
  rw [get_bind, Cursor.facing_rest]
  have hne : ∀ c : Char, c.isDigit = false → ∀ u, w ≠ c :: u := by
    rintro c hc u rfl
    exact ne_of_isDigit hd hc (List.cons.inj hds).1.symm
  split
  · exact absurd rfl (hne '(' (by decide) _)
  · exact absurd rfl (hne '[' (by decide) _)
  · exact absurd rfl (hne '\x7b' (by decide) _)
  · exact absurd rfl (hne '.' (by decide) _)
  · rw [hw]
    dsimp only
    rw [bind_of_some htoken]
    rfl

/-! ## Quotations -/

/-- The opening of a quotation of letters and digits. -/
def plainQuote : Quote := ⟨'"', false, false, false, false⟩

theorem opening_quoted {cs : Text} (hne : cs ≠ [])
    (h : ∀ c ∈ cs, c ∈ RandomSource.alphanumeric) :
    opening ('"' :: cs ++ ['"']) = some (plainQuote, 1) := by
  obtain ⟨c, cs, rfl⟩ := List.exists_cons_of_ne_nil hne
  have hmark : ∀ c ∈ RandomSource.alphanumeric, c ≠ '"' := Text.forall_of_all (by decide)
  have hc := hmark c (h c (by simp))
  have hletter : isQuoteLetter '"' = false := by decide
  simp [opening, hletter, hc, plainQuote]

/-- Letters and digits are content for what they are. -/
theorem content_letters {cs : Text} (h : ∀ c ∈ cs, c ∈ RandomSource.alphanumeric) (n : Nat)
    (some? : Bool) :
    content plainQuote (cs ++ ['"']) .asIs n some? =
      if some? || !cs.isEmpty then .plain (n + cs.length) else .closing (n + 1) := by
  induction cs generalizing n some? with
  | nil => cases some? <;> rfl
  | cons c cs ih =>
    have hplain : ∀ c ∈ RandomSource.alphanumeric, c ≠ '"' ∧ c ≠ '\\' ∧ c ≠ '\n' ∧ c ≠ '\x00' :=
      Text.forall_of_all (by decide)
    obtain ⟨hmark, hslash, hbreak, hzero⟩ := hplain c (h c (by simp))
    have hrest := ih (fun c hc => h c (List.mem_cons_of_mem _ hc)) (n + 1) true
    rw [List.cons_append, content.eq_def]
    simp [plainQuote, hmark, hslash, hbreak, hzero] at hrest ⊢
    rw [hrest]
    simp only [Content.plain.injEq]
    omega

/-- The inside of a quotation that is the rest of the text. -/
theorem inside_letters {cs : Text} (hne : cs ≠ [])
    (h : ∀ c ∈ cs, c ∈ RandomSource.alphanumeric) (r : Rules) (n k : Nat) :
    inside r plainQuote (k + 2) (.facing n (cs ++ ['"'])) =
      some ((), .facing (n + cs.length + 1) []) := by
  have hcontent : content plainQuote (cs ++ ['"']) .asIs 0 false = .plain cs.length := by
    simp [content_letters h, hne]
  have hend : content plainQuote ['"'] .asIs 0 false = .closing 1 := rfl
  have hadvance : (Cursor.facing n (cs ++ ['"'])).advance cs.length =
      .facing (n + cs.length) ['"'] := Cursor.advance_facing n cs ['"']
  rw [inside, get_bind, if_neg (by simp [plainQuote]), if_neg (by simp [plainQuote]),
    Cursor.facing_rest, hcontent]
  dsimp only
  rw [set_bind, hadvance, inside, get_bind, if_neg (by simp [plainQuote]),
    if_neg (by simp [plainQuote]), Cursor.facing_rest, hend]
  rfl

/-- A quotation that is the rest of the text. -/
theorem atom_quoted {cs : Text} (hne : cs ≠ [])
    (h : ∀ c ∈ cs, c ∈ RandomSource.alphanumeric) (r : Rules) (follow : Follow) (n : Nat) :
    atom r .operand follow (.facing n ('"' :: cs ++ ['"'])) =
      some (leaf .string ('"' :: cs ++ ['"']) n, .facing (n + ('"' :: cs ++ ['"']).length) []) := by
  have hfound : found .operand ('"' :: cs ++ ['"']) = .quote plainQuote 1 := by
    simp only [found, Expect.operand, if_true, opening_quoted hne h]
  have hlook : look .operand (.facing n ('"' :: cs ++ ['"'])) =
      some (([], .quote plainQuote 1), .facing n ('"' :: cs ++ ['"'])) := by
    rw [List.cons_append, look_ink (by decide), ← List.cons_append, hfound]
  have hopened : { (Cursor.facing n ('"' :: cs ++ ['"'])).advance 1 with
      formatting := plainQuote.format } = .facing (n + 1) (cs ++ ['"']) := by
    simp [Cursor.facing, Cursor.advance, plainQuote]
    omega
  have hleft : (Cursor.facing n ('"' :: cs ++ ['"'])).left + 1 = cs.length + 1 + 2 := by
    simp [Cursor.left, Cursor.facing]
  have hplace : n + 1 + cs.length + 1 = n + ('"' :: cs ++ ['"']).length := by
    simp only [List.length_append, List.length_cons, List.length_nil]
    omega
  have hquotation : quotation r .operand (.facing n ('"' :: cs ++ ['"'])) =
      some (leaf .string ('"' :: cs ++ ['"']) n,
        .facing (n + ('"' :: cs ++ ['"']).length) []) := by
    rw [quotation, bind_of_some hlook]
    dsimp only
    rw [get_bind, set_bind, hopened, hleft, bind_of_some (inside_letters hne h r _ _), hplace]
    rfl
  have hmore : ∀ m, quotation r follow.orOperand (.facing m []) = none := by
    intro m
    rw [quotation, bind_of_some (look_end _ m)]
    cases follow.orOperand.newline <;> rfl
  have hquotations : quotations r .operand follow (.facing n ('"' :: cs ++ ['"'])) =
      some (leaf .string ('"' :: cs ++ ['"']) n,
        .facing (n + ('"' :: cs ++ ['"']).length) []) := by
    rw [quotations, bind_of_some hquotation, bind_of_some (many_of_none (bind_of_none (hmore _) _)),
      if_pos rfl]
    rfl
  rw [atom, bind_of_some hlook]
  dsimp only
  rw [bind_of_some hquotations]
  rfl

/-! ## Values as expressions -/

/-- The kind of the operand that a value is. -/
def literalKind (w : Text) : Kind := ((numeral? w).map (·.1)).getD .string

theorem literalKind_whole {ds : Text} (hne : ds ≠ []) (h : ∀ d ∈ ds, d.isDigit = true) :
    literalKind ds = .integer := by
  rw [literalKind, numeral_whole hne h]
  rfl

theorem literalKind_decimal {ds fs : Text} (hne : ds ≠ []) (h : ∀ d ∈ ds, d.isDigit = true)
    (h' : ∀ d ∈ fs, d.isDigit = true) : literalKind (ds ++ '.' :: fs) = .float := by
  rw [literalKind, numeral_decimal hne h h']
  rfl

theorem literalKind_quoted (t : Text) : literalKind ('"' :: t) = .string := by
  rw [literalKind, numeral_eq_none (by decide) (by decide)]
  rfl

namespace IsValue

variable {w : Text}

theorem atom (hw : IsValue w) (r : Rules) (follow : Follow) (n : Nat) :
    Syntax.atom r .operand follow (.facing n w) =
      some (leaf (literalKind w) w n, .facing (n + w.length) []) := by
  cases hw with
  | whole hne h =>
    obtain ⟨d, s, rfl⟩ := List.exists_cons_of_ne_nil hne
    rw [literalKind_whole hne h]
    exact atom_numeral (numeral_whole hne h) rfl (h d (by simp)) r follow n
  | @decimal ds fs hne h h' =>
    obtain ⟨d, s, rfl⟩ := List.exists_cons_of_ne_nil hne
    rw [literalKind_decimal hne h h']
    exact atom_numeral (numeral_decimal hne h h') rfl (h d (by simp)) r follow n
  | quoted hne h =>
    rw [List.cons_append, literalKind_quoted]
    exact atom_quoted hne h r follow n

theorem leads (hw : IsValue w) : ∃ d s, w = d :: s ∧ Leads d s ∧ word w = [] := by
  have hdigit : ∀ d s, d.isDigit = true → Leads d s ∧ word (d :: s) = [] := by
    intro d s hd
    have hstart : Text.isWordStart d = false := by
      have hbounds := (isDigit_iff d).mp hd
      have hlow : d.toNat < 0x80 := by omega
      have hunderscore := ne_of_isDigit hd (d := '_') (by decide)
      have hval : d.val.toNat ≤ 57 := hbounds.2
      have halpha : d.isAlpha = false := by
        delta Char.isAlpha Char.isUpper Char.isLower
        simp [UInt32.le_iff_toNat_le]
        omega
      simp [Text.isWordStart, hlow, hunderscore, halpha]
    have hword : word (d :: s) = [] := by
      simp [word, hstart]
    refine ⟨⟨isInk_of_isDigit hd, ?_, ?_⟩, hword⟩
    · have hsigns : ∀ c ∈ ['*', '-', '+', '~'], c.isDigit = false :=
        Text.forall_of_all (by decide)
      intro hmem
      exact ne_of_isDigit hd (hsigns d hmem) rfl
    · intro v hv
      have hwords : ∀ v ∈ ["await", "not", "lambda", "yield"], ([] : Text) ≠ v.toList := by decide
      rw [hword]
      exact hwords v hv
  cases hw with
  | whole hne h =>
    obtain ⟨d, s, rfl⟩ := List.exists_cons_of_ne_nil hne
    exact ⟨d, s, rfl, hdigit d s (h d (by simp))⟩
  | @decimal ds fs hne h h' =>
    obtain ⟨d, s, rfl⟩ := List.exists_cons_of_ne_nil hne
    exact ⟨d, _, rfl, hdigit d _ (h d (by simp))⟩
  | @quoted cs hne h =>
    refine ⟨'"', cs ++ ['"'], rfl, ⟨by decide, by decide, ?_⟩, rfl⟩
    intro v hv
    have hwords : ∀ v ∈ ["await", "not", "lambda", "yield"], ([] : Text) ≠ v.toList := by decide
    exact hwords v hv

/-- A value as an expression. -/
theorem expression (hw : IsValue w) {g : Text} (hg : Gap g) (r : Rules) (floor : Floor)
    (follow : Follow) (n : Nat) :
    Syntax.expression r floor .operand follow (.facing n (g ++ w)) =
      some (leaf (literalKind w) w (n + g.length), .facing (n + g.length + w.length) []) := by
  have hatom := hw.atom r follow (n + g.length)
  generalize literalKind w = k at hatom ⊢
  obtain ⟨d, s, hds, hleads, hword⟩ := hw.leads
  have hnamed : named r follow (.facing (n + g.length) w) = none := by
    have hmeasure : operandNameLength? (d :: s) = none := by
      simp [operandNameLength?, ← hds, hword]
    rw [hds]
    exact bind_of_none (bind_of_none
      (token_facing_none gap_nil hleads.ink hmeasure .plain (n + g.length)) _) _
  rw [hds] at hatom hnamed
  have hexpression := expression_of_atom hg hleads hatom hnamed .nil floor
  rwa [← hds] at hexpression

end IsValue

end PointMutation.Syntax
