import PointMutation.Declaration
import PointMutation.Proofs.Declaration.Row

/-!
# Reading an operand

An expression that is a single operand ends where nothing follows that goes on with it: at the end
of the text, at a colon or at an equals sign in front of a space (`Stops`). There none of the
readers that look for more finds anything, so that the operand is all there is
(`expression_of_atom`).
-/

namespace PointMutation.Syntax

open Text (word startsWith)

/-! ## Where an expression ends -/

/-- The end of the text, or a mark that ends an expression. -/
inductive Quiet : Text → Prop
  | nil : Quiet []
  | colon (r : Text) : Quiet (':' :: ' ' :: r)
  | equals (r : Text) : Quiet ('=' :: ' ' :: r)

/-- What follows an operand that is a whole expression. -/
inductive Stops : Text → Prop
  | nil : Stops []
  | colon {g : Text} (hg : Gap g) (r : Text) : Stops (g ++ ':' :: ' ' :: r)
  | equals {g : Text} (hg : Gap g) (r : Text) : Stops (g ++ '=' :: ' ' :: r)

/-- A measure that finds nothing where an expression ends. -/
def Ignores (measure : Text → Option Nat) : Prop := ∀ t, Quiet t → measure t = none

theorem Quiet.word_eq {t : Text} (h : Quiet t) : word t = [] := by
  cases h <;> rfl

theorem Quiet.binary {t : Text} (h : Quiet t) : binary? t = none := by
  cases h <;> rfl

theorem ignores_word {w : String} (hw : w ≠ "") : Ignores (wordLength? w) := by
  intro t ht
  simpa [wordLength?, ht.word_eq] using hw

theorem ignores_operandName : Ignores operandNameLength? := by
  intro t ht
  simp [operandNameLength?, ht.word_eq]

theorem ignores_genericName : Ignores genericNameLength? := by
  intro t ht
  have hprint : ([] : Text) ≠ "print".toList := by decide
  have hexec : ([] : Text) ≠ "exec".toList := by decide
  have hmatch : ([] : Text) ≠ "match".toList := by decide
  simp [genericNameLength?, nameLength?, ht.word_eq]

theorem ignores_augmented : Ignores augmentedLength? := by
  intro t ht
  cases ht <;> rfl

theorem ignores_comparison : Ignores comparisonLength? := by
  intro t ht
  cases ht <;> rfl

theorem ignores_comma : Ignores (markLength? ",") := by
  intro t ht
  cases ht <;> rfl

theorem ignores_walrus : Ignores (markLength? ":=") := by
  intro t ht
  cases ht <;> rfl

namespace Stops

variable {t : Text}

theorem peek (h : Stops t) (e : Expect) (n : Nat) :
    ∃ u, Quiet u ∧ Syntax.peek e (.facing n t) = some (u, .facing n t) := by
  cases h with
  | nil => exact ⟨[], .nil, peek_end e n⟩
  | colon hg r => exact ⟨_, .colon r, peek_facing hg (by decide) (found_of_opening rfl) n⟩
  | equals hg r => exact ⟨_, .equals r, peek_facing hg (by decide) (found_of_opening rfl) n⟩

theorem token (h : Stops t) {measure : Text → Option Nat} (hm : Ignores measure) (e : Expect)
    (n : Nat) : Syntax.token e measure (.facing n t) = none := by
  cases h with
  | nil => exact token_end (hm _ .nil) e n
  | colon hg r => exact token_facing_none hg (by decide) (hm _ (.colon r)) e n
  | equals hg r => exact token_facing_none hg (by decide) (hm _ (.equals r)) e n

theorem look (h : Stops t) (e : Expect) (n : Nat) :
    ∃ l m u, Syntax.look e (.facing n t) = some (([], l), .facing m u) ∧ Quiet u ∧
      (l = .text ∨ l = .newline) := by
  cases h with
  | nil => exact ⟨_, n, [], look_end e n, .nil, by cases e.newline <;> simp⟩
  | colon hg r =>
    exact ⟨_, _, _, look_facing hg (by decide) e n _, .colon r, .inl (found_of_opening rfl)⟩
  | equals hg r =>
    exact ⟨_, _, _, look_facing hg (by decide) e n _, .equals r, .inl (found_of_opening rfl)⟩

/-- Whatever the reader finds, it stays where it is. -/
theorem atOperand (h : Stops t) (follow : Follow) (n : Nat) :
    ∃ b, Syntax.atOperand follow (.facing n t) = some (b, .facing n t) := by
  obtain ⟨l, m, u, hlook, -⟩ := h.look follow.orOperand n
  rw [Syntax.atOperand, get_bind, bind_of_some hlook]
  dsimp only
  rw [get_bind, set_bind]
  cases l <;> exact ⟨_, rfl⟩

theorem trailers (h : Stops t) (r : Rules) (follow : Follow) (n : Nat) :
    Syntax.trailers r follow (.facing n t) = some ([], .facing n t) := by
  obtain ⟨u, hu, hpeek⟩ := h.peek follow.expect n
  apply many_of_none
  apply bind_of_none
  rw [trailer, bind_of_some hpeek]
  cases hu <;> rfl

theorem operate (h : Stops t) (r : Rules) (level : Nat) (follow : Follow) (f : Fragment)
    (n : Nat) : Syntax.operate r level follow f (.facing n t) = none := by
  obtain ⟨u, hu, hpeek⟩ := h.peek follow.expect n
  rw [Syntax.operate, bind_of_some hpeek, hu.binary]
  rfl

theorem comparisonOperator (h : Stops t) (follow : Follow) (n : Nat) :
    Syntax.comparisonOperator follow (.facing n t) = none := by
  obtain ⟨u, hu, hpeek⟩ := h.peek follow.expect n
  rw [Syntax.comparisonOperator, bind_of_some hpeek, ignores_comparison u hu, hu.word_eq]
  rfl

theorem combine (h : Stops t) (r : Rules) (floor : Floor) (follow : Follow) (f : Fragment)
    (n : Nat) : Syntax.combine r floor follow f (.facing n t) = none := by
  obtain ⟨u, hu, hpeek⟩ := h.peek follow.expect n
  have hword : peekWord follow.expect (.facing n t) = some ([], .facing n t) := by
    rw [peekWord, bind_of_some hpeek, hu.word_eq]
    rfl
  rw [Syntax.combine, bind_of_some hword]
  rfl

theorem commaSeparated (h : Stops t) (comma item : Expect) (p : Expect → Parser Fragment)
    (trailing : Bool) (f : Fragment) (n : Nat) :
    Syntax.commaSeparated comma item p trailing f (.facing n t) = some (f, .facing n t) := by
  have hcomma : mark comma "," (.facing n t) = none := h.token ignores_comma comma n
  rw [Syntax.commaSeparated, bind_of_some (many_of_none (bind_of_none hcomma _))]
  cases trailing with
  | false => rfl
  | true => exact orNothing_of_none hcomma

end Stops

/-! ## No expression -/

namespace Quiet

variable {t : Text}

theorem stops (h : Quiet t) : Stops t := by
  cases h with
  | nil => exact .nil
  | colon r => exact .colon gap_nil r
  | equals r => exact .equals gap_nil r

theorem atom (h : Quiet t) (r : Rules) (e : Expect) (follow : Follow) (n : Nat) :
    Syntax.atom r e follow (.facing n t) = none := by
  obtain ⟨l, m, u, hlook, hu, hl⟩ := h.stops.look e n
  have hname : operandName .plain (.facing m u) = none :=
    bind_of_none (hu.stops.token ignores_operandName .plain m) _
  rw [Syntax.atom, bind_of_some hlook]
  rcases hl with rfl | rfl
  · dsimp only
    rw [get_bind, Cursor.facing_rest]
    cases hu <;> exact bind_of_none hname _
  · rfl

theorem operand (h : Quiet t) (r : Rules) (e : Expect) (follow : Follow) (n : Nat) :
    Syntax.operand r e follow (.facing n t) = none := by
  obtain ⟨u, hu, hpeek⟩ := h.stops.peek e n
  rw [Syntax.operand, bind_of_some hpeek]
  cases hu <;> exact bind_of_none (h.atom r e follow n) _

theorem comparison (h : Quiet t) (r : Rules) (follow : Follow) (n : Nat) :
    Syntax.comparison r follow (.facing n t) = none := by
  obtain ⟨l, m, u, hlook, hu, hl⟩ := h.stops.look .operand n
  have hawaited : awaited r follow (.facing m u) = none :=
    bind_of_none (hu.stops.token (ignores_word (by decide)) .plain m) _
  have hhead : (awaited r follow <|> Syntax.operand r .operand follow) (.facing m u) = none := by
    rw [orElse_of_none hawaited, hu.operand]
  apply bind_of_none
  rw [operation, bind_of_some hlook]
  rcases hl with rfl | rfl
  · dsimp only
    rw [get_bind, Cursor.facing_rest]
    cases hu <;> exact bind_of_none hhead _
  · rfl

end Quiet

/-- No expression begins where one ends. -/
theorem Stops.expression {t : Text} (h : Stops t) (r : Rules) (floor : Floor) (e : Expect)
    (follow : Follow) (n : Nat) : Syntax.expression r floor e follow (.facing n t) = none := by
  obtain ⟨l, m, u, hlook, hu, hl⟩ := h.look e n
  have hnamed : named r follow (.facing m u) = none :=
    bind_of_none (bind_of_none (hu.stops.token ignores_operandName .plain m) _) _
  have hhead : (named r follow <|> comparison r follow) (.facing m u) = none := by
    rw [orElse_of_none hnamed, hu.comparison]
  rw [Syntax.expression, bind_of_some hlook]
  rcases hl with rfl | rfl
  · dsimp only
    rw [get_bind, Cursor.facing_rest, hu.word_eq]
    exact bind_of_none hhead _
  · rfl

/-! ## From an operand to an expression -/

/-- One operand of some kind that is read where it stands. -/
def leaf (k : Kind) (w : Text) (n : Nat) : Fragment :=
  ⟨[], [.node k none n (n + w.length) []], n, n + w.length⟩

section

variable {r : Rules} {follow : Follow} {n m : Nat} {d : Char} {s t : Text} {f : Fragment}

/-- What begins like a name or a numeral, if it does not begin a quotation. -/
structure Leads (d : Char) (s : Text) : Prop where
  ink : isInk d = true
  sign : d ∉ ['*', '-', '+', '~']
  word : ∀ w ∈ ["await", "not", "lambda", "yield"], Text.word (d :: s) ≠ w.toList

theorem Leads.keyword {w : String} (hd : Leads d s)
    (hw : w ∈ ["await", "not", "lambda", "yield"]) {g : Text} (hg : Gap g) (e : Expect) :
    Syntax.keyword e w (.facing n (g ++ d :: s)) = none :=
  keyword_facing_none hg hd.ink (hd.word w hw) e n

/-- An operand without anything behind it. -/
theorem operand_of_atom (hd : Leads d s)
    (h : atom r .operand follow (.facing n (d :: s)) = some (f, .facing m t)) (ht : Stops t) :
    operand r .operand follow (.facing n (d :: s)) = some (f, .facing m t) := by
  have hstar : d ≠ '*' := by
    rintro rfl
    exact hd.sign (by simp)
  have hpeek : ∃ u, peek .operand (.facing n (d :: s)) = some (u, .facing n (d :: s)) ∧
      u.head? ≠ some '*' := by
    rw [peek, get_bind, bind_of_some (look_ink hd.ink .operand n s)]
    refine ⟨_, rfl, ?_⟩
    by_cases hf : found .operand (d :: s) = .text
    · simpa [hf] using hstar
    · simp [hf]
  obtain ⟨u, hpeek, hu⟩ := hpeek
  rw [operand, bind_of_some hpeek]
  split
  · exact absurd rfl hu
  · rw [bind_of_some h, bind_of_some (ht.trailers r follow m)]
    rfl

/-- An operand without operators. -/
theorem operation_of_atom (hd : Leads d s)
    (h : atom r .operand follow (.facing n (d :: s)) = some (f, .facing m t)) (ht : Stops t)
    (level : Nat) :
    operation r level .operand follow (.facing n (d :: s)) = some (f, .facing m t) := by
  have hoperand := operand_of_atom hd h ht
  have hmany := many_of_none (ht.operate r level follow f m)
  have hsign : ∀ c ∈ ['*', '-', '+', '~'], d ≠ c := by
    rintro c hc rfl
    exact hd.sign hc
  have hawaited : awaited r follow (.facing n (d :: s)) = none :=
    bind_of_none (hd.keyword (by simp) gap_nil .plain) _
  rw [operation, bind_of_some (look_ink hd.ink .operand n s)]
  rcases found_cases .operand (d :: s) with hf | ⟨q, k, hf⟩
  · simp only [hf]
    rw [get_bind, Cursor.facing_rest]
    generalize hl : d :: s = l at hawaited hoperand ⊢
    split
    · exact absurd (List.cons.inj hl).1 (hsign '-' (by simp))
    · exact absurd (List.cons.inj hl).1 (hsign '+' (by simp))
    · exact absurd (List.cons.inj hl).1 (hsign '~' (by simp))
    · have hhead : (awaited r follow <|> operand r .operand follow) (.facing n l) =
          some (f, .facing m t) := by
        rw [orElse_of_none hawaited, hoperand]
      rw [bind_of_some hhead, bind_of_some hmany]
      rfl
  · simp only [hf]
    rw [bind_of_some hoperand, bind_of_some hmany]
    rfl

/-- An operand that is compared with nothing. -/
theorem comparison_of_atom (hd : Leads d s)
    (h : atom r .operand follow (.facing n (d :: s)) = some (f, .facing m t)) (ht : Stops t) :
    comparison r follow (.facing n (d :: s)) = some (f, .facing m t) := by
  let step : Fragment → Parser Fragment := fun f => do
    let o ← comparisonOperator follow
    pure (f ++ o ++ (← operation r 0 .operand follow))
  have hmany : many step f (.facing m t) = some (f, .facing m t) :=
    many_of_none (bind_of_none (ht.comparisonOperator follow m) _)
  rw [comparison, bind_of_some (operation_of_atom hd h ht 0), bind_of_some hmany, if_pos rfl]
  rfl

/-- A single operand as an expression. -/
theorem expression_of_atom {g : Text} (hg : Gap g) (hd : Leads d s)
    (h : atom r .operand follow (.facing (n + g.length) (d :: s)) = some (f, .facing m t))
    (hnamed : named r follow (.facing (n + g.length) (d :: s)) = none) (ht : Stops t)
    (floor : Floor) :
    expression r floor .operand follow (.facing n (g ++ d :: s)) = some (f, .facing m t) := by
  have hcomparison := comparison_of_atom hd h ht
  have hmany := many_of_none (ht.combine r floor follow f m)
  have hhead : (named r follow <|> comparison r follow) (.facing (n + g.length) (d :: s)) =
      some (f, .facing m t) := by
    rw [orElse_of_none hnamed, hcomparison]
  rw [expression, bind_of_some (look_facing hg hd.ink .operand n s)]
  rcases found_cases .operand (d :: s) with hf | ⟨q, k, hf⟩
  · simp only [hf]
    rw [get_bind, Cursor.facing_rest, if_neg (hd.word "not" (by simp)),
      if_neg (hd.word "lambda" (by simp)), bind_of_some hhead, bind_of_some hmany]
    rfl
  · simp only [hf]
    rw [bind_of_some hcomparison, bind_of_some hmany]
    rfl

end

/-! ## Names -/

theorem numeral_eq_none {c : Char} (h : c.isDigit = false) (hpoint : c ≠ '.')
    (r : Text) : numeral? (c :: r) = none := by
  have hdigits : digitsLength (c :: r) false = 0 := by
    simp [digitsLength, h]
  have hinteger : integerLength (c :: r) = 0 := by
    unfold integerLength
    split
    · rename_i heq
      obtain ⟨rfl, -⟩ := List.cons.inj heq
      exact absurd h (by decide)
    · simp [decimalLength, hdigits]
  have hfloat : floatLength (c :: r) = 0 := by
    simp [floatLength, hdigits, suffixLength, hpoint]
  simp [numeral?, hinteger, hfloat]

/-- A lowercase letter with letters and digits behind it that the language has not reserved. -/
structure IsName (w : Text) : Prop where
  letters : ∃ c cs, w = c :: cs ∧ c ∈ RandomSource.lowercase ∧ ∀ d ∈ cs, d ∈ RandomSource.alphanumeric
  free : w ∉ Declaration.reservedNames

theorem Stops.head {t : Text} (h : Stops t) :
    t = [] ∨ ∃ d r, t = d :: r ∧ (d = ' ' ∨ d = ':' ∨ d = '=') := by
  have hgap : ∀ {g : Text}, Gap g → ∀ {c : Char} (r : Text), (c = ':' ∨ c = '=') →
      ∃ d r', g ++ c :: r = d :: r' ∧ (d = ' ' ∨ d = ':' ∨ d = '=') := by
    intro g hg c r hc
    cases g with
    | nil => exact ⟨c, r, rfl, .inr hc⟩
    | cons b g => exact ⟨b, g ++ c :: r, rfl, .inl (hg b (by simp))⟩
  cases h with
  | nil => exact .inl rfl
  | colon hg r => exact .inr (hgap hg _ (.inl rfl))
  | equals hg r => exact .inr (hgap hg _ (.inr rfl))

theorem Stops.takeWhile {t : Text} (h : Stops t) {p : Char → Bool} (hspace : p ' ' = false)
    (hcolon : p ':' = false) (hequals : p '=' = false) : t.takeWhile p = [] := by
  rcases h.head with rfl | ⟨d, r, rfl, rfl | rfl | rfl⟩ <;> simp [*]

namespace IsName

variable {w t : Text}

theorem isWordPart_of_mem : ∀ d ∈ RandomSource.alphanumeric, Text.isWordPart d = true :=
  Text.forall_of_all (by decide)

theorem word_append (hw : IsName w) (ht : Stops t) : word (w ++ t) = w := by
  obtain ⟨⟨c, cs, rfl, hc, hcs⟩, -⟩ := hw
  have hstart : ∀ c ∈ RandomSource.lowercase, Text.isWordStart c = true :=
    Text.forall_of_all (by decide)
  rw [List.cons_append, word, if_pos (hstart c hc),
    List.takeWhile_append_of_pos fun d hd => isWordPart_of_mem d (hcs d hd),
    ht.takeWhile (by decide) (by decide) (by decide), List.append_nil]

/-- No name is a reserved word. -/
theorem isReserved_eq (hw : IsName w) : isReserved w = false := by
  have hreserved : ∀ v ∈ reservedWords, v ∈ Declaration.reservedNames ∨
      (v.head?.all fun c => !RandomSource.lowercase.contains c) = true := by decide
  obtain ⟨⟨c, cs, rfl, hc, -⟩, hfree⟩ := hw
  cases hr : isReserved (c :: cs) with
  | false => rfl
  | true =>
    have hmem : c :: cs ∈ reservedWords := by simpa [isReserved] using hr
    rcases hreserved _ hmem with h | h
    · exact absurd h hfree
    · simp [hc] at h

theorem ne_nil (hw : IsName w) : w ≠ [] := by
  obtain ⟨⟨c, cs, rfl, -⟩, -⟩ := hw
  simp

/-- A name does not begin a quotation, even if its letters may stand in front of one. -/
theorem opening_append (hw : IsName w) (ht : Stops t) : opening (w ++ t) = none := by
  have hmark : ∀ c ∈ RandomSource.alphanumeric, c ≠ '"' ∧ c ≠ '\'' ∧ c ≠ '`' :=
    Text.forall_of_all (by decide)
  have hlower : ∀ c ∈ RandomSource.lowercase, c ∈ RandomSource.alphanumeric :=
    Text.forall_of_all (by decide)
  have hchars : ∀ c ∈ w, c ∈ RandomSource.alphanumeric := by
    obtain ⟨⟨c, cs, rfl, hc, hcs⟩, -⟩ := hw
    simpa [hlower c hc] using hcs
  have hdrop : (w ++ t).dropWhile isQuoteLetter = [] ∨
      ∃ d r, (w ++ t).dropWhile isQuoteLetter = d :: r ∧ d ≠ '"' ∧ d ≠ '\'' ∧ d ≠ '`' := by
    clear hw
    induction w with
    | nil =>
      rcases ht.head with rfl | ⟨d, r, rfl, rfl | rfl | rfl⟩
      · simp
      · exact .inr ⟨' ', r, rfl, by decide⟩
      · exact .inr ⟨':', r, rfl, by decide⟩
      · exact .inr ⟨'=', r, rfl, by decide⟩
    | cons c w ih =>
      rw [List.cons_append, List.dropWhile_cons]
      split
      · exact ih fun c hc => hchars c (List.mem_cons_of_mem _ hc)
      · exact .inr ⟨c, w ++ t, rfl, hmark c (hchars c (by simp))⟩
  unfold opening
  rcases hdrop with h | ⟨d, r, h, h₁, h₂, h₃⟩
  · simp [h]
  · simp [h, h₁, h₂, h₃]

theorem leads (hw : IsName w) (ht : Stops t) {d : Char} {s : Text} (h : w ++ t = d :: s) :
    Leads d s := by
  have hword := hw.word_append ht
  obtain ⟨⟨c, cs, rfl, hc, -⟩, hfree⟩ := hw
  obtain ⟨rfl, hs⟩ := List.cons.inj h
  have hink : ∀ c ∈ RandomSource.lowercase, isInk c = true ∧ c ∉ ['*', '-', '+', '~'] :=
    Text.forall_of_all (by decide)
  refine ⟨(hink c hc).1, (hink c hc).2, ?_⟩
  intro v hv heq
  rw [← h, hword] at heq
  have hreserved : ∀ v ∈ ["await", "not", "lambda", "yield"],
      v.toList ∈ Declaration.reservedNames := by decide
  exact hfree (heq ▸ hreserved v hv)

theorem numeral_append (hw : IsName w) (t : Text) : numeral? (w ++ t) = none := by
  have hdigit : ∀ c ∈ RandomSource.lowercase, c.isDigit = false ∧ c ≠ '.' :=
    Text.forall_of_all (by decide)
  obtain ⟨⟨c, cs, rfl, hc, -⟩, -⟩ := hw
  obtain ⟨h, hpoint⟩ := hdigit c hc
  exact numeral_eq_none h hpoint _

theorem operandNameLength_append (hw : IsName w) (ht : Stops t) :
    operandNameLength? (w ++ t) = some w.length := by
  simp [operandNameLength?, hw.word_append ht, hw.isReserved_eq, hw.ne_nil]

theorem head_mem (hw : IsName w) {c : Char} {r : Text} (h : w ++ t = c :: r) :
    c ∈ RandomSource.lowercase := by
  obtain ⟨⟨d, cs, rfl, hd, -⟩, -⟩ := hw
  obtain ⟨rfl, -⟩ := List.cons.inj h
  exact hd

/-- Words that are no names. -/
theorem ne_word (hw : IsName w) : ∀ v ∈ ["True", "False", "None", "await"], w ≠ v.toList := by
  rintro v hv rfl
  have hreserved : ∀ v ∈ ["True", "False", "None", "await"], isReserved v.toList = true := by decide
  exact absurd (hreserved v hv) (by simp [hw.isReserved_eq])

theorem operandName_append (hw : IsName w) (ht : Stops t) (n : Nat) :
    operandName .plain (.facing n (w ++ t)) = some (leaf .identifier w n, .facing (n + w.length) t) := by
  obtain ⟨d, s, hds⟩ := List.exists_cons_of_ne_nil (List.append_ne_nil_of_left_ne_nil hw.ne_nil t)
  have hplain : found .plain (w ++ t) = .text := found_of_plain rfl _
  have htoken := token_facing gap_nil hds (hw.leads ht hds).ink hplain
    (hw.operandNameLength_append ht) n
  rw [List.nil_append, List.length_nil, Nat.add_zero] at htoken
  rw [operandName, bind_of_some htoken]
  rfl

/-- A name as an operand. -/
theorem atom (hw : IsName w) (ht : Stops t) (r : Rules) (follow : Follow) (n : Nat) :
    Syntax.atom r .operand follow (.facing n (w ++ t)) =
      some (leaf .identifier w n, .facing (n + w.length) t) := by
  obtain ⟨d, s, hds⟩ := List.exists_cons_of_ne_nil (List.append_ne_nil_of_left_ne_nil hw.ne_nil t)
  have hleads := hw.leads ht hds
  have hfound : found .operand (w ++ t) = .text := found_of_opening (hw.opening_append ht)
  have hlook : look .operand (.facing n (w ++ t)) = some (([], .text), .facing n (w ++ t)) := by
    rw [hds, look_ink hleads.ink, ← hds, hfound]
  have hname := hw.operandName_append ht n
  have hmarks : ∀ c ∈ ['(', '[', '\x7b', '.'], ∀ r, w ++ t ≠ c :: r := by
    have hmark : ∀ c ∈ ['(', '[', '\x7b', '.'], c ∉ RandomSource.lowercase :=
      Text.forall_of_all (by decide)
    intro c hc r heq
    exact hmark c hc (hw.head_mem heq)
  obtain ⟨b, hat⟩ := ht.atOperand follow (n + w.length)
  have hawait : (decide (w = "await".toList) && b) = false := by
    rw [decide_eq_false (hw.ne_word "await" (by simp)), Bool.false_and]
  rw [Syntax.atom, bind_of_some hlook]
  dsimp only
  rw [get_bind, Cursor.facing_rest]
  have hnumeral := hw.numeral_append t
  have hword := hw.word_append ht
  generalize w ++ t = l at hname hnumeral hword hmarks ⊢
  split
  · exact absurd rfl (hmarks '(' (by simp) _)
  · exact absurd rfl (hmarks '[' (by simp) _)
  · exact absurd rfl (hmarks '\x7b' (by simp) _)
  · exact absurd rfl (hmarks '.' (by simp) _)
  · rw [hnumeral]
    dsimp only
    rw [hword, if_neg (hw.ne_word "True" (by simp)), if_neg (hw.ne_word "False" (by simp)),
      if_neg (hw.ne_word "None" (by simp)), bind_of_some hname, bind_of_some hat, hawait]
    rfl

/-- A name as an expression. -/
theorem expression (hw : IsName w) (ht : Stops t) {g : Text} (hg : Gap g) (r : Rules)
    (floor : Floor) (follow : Follow) (n : Nat) :
    Syntax.expression r floor .operand follow (.facing n (g ++ (w ++ t))) =
      some (leaf .identifier w (n + g.length), .facing (n + g.length + w.length) t) := by
  obtain ⟨d, s, hds⟩ := List.exists_cons_of_ne_nil (List.append_ne_nil_of_left_ne_nil hw.ne_nil t)
  have hatom := hw.atom ht r follow (n + g.length)
  have hnamed : named r follow (.facing (n + g.length) (w ++ t)) = none := by
    rw [named, bind_of_some (hw.operandName_append ht _)]
    exact bind_of_none (ht.token ignores_walrus follow.expect _) _
  rw [hds] at hatom hnamed ⊢
  exact expression_of_atom hg (hw.leads ht hds) hatom hnamed ht floor

end IsName

end PointMutation.Syntax
