import PointMutation.Proofs.Declaration.Value

/-!
# Reading a declaration

A name, perhaps an annotation, an equals sign and a value: the text of a declaration is one simple
statement by itself, which reaches from its first character to its last one
(`readTree_declaration`). It is an assignment to the name (`Assigned`).
-/

namespace PointMutation.Syntax

open Text (word)

/-- What stands behind the name of a declaration. -/
inductive Declared : Text → Prop
  | plain {v : Text} (hv : IsValue v) : Declared (' ' :: '=' :: ' ' :: v)
  | annotated {k v : Text} (hk : IsName k) (hmatch : k ≠ "match".toList) (hv : IsValue v) :
      Declared (':' :: ' ' :: (k ++ ' ' :: '=' :: ' ' :: v))

theorem Declared.stops {t : Text} (h : Declared t) : Stops t := by
  cases h with
  | plain hv => exact .equals gap_space _
  | annotated hk hmatch hv => exact .colon gap_nil _

/-- The name of an assignment that begins at some place. -/
def nameNode (w : Text) (m : Nat) : Tree := .node .identifier (some .left) m (m + w.length) []

/-- The type of an assignment. -/
def typeNode (k : Text) (m : Nat) : Tree :=
  .node .typeHint (some .annotated) m (m + k.length) [.node .identifier none m (m + k.length) []]

/-- The value of an assignment. -/
def valueNode (v : Text) (m : Nat) : Tree :=
  .node (literalKind v) (some .right) m (m + v.length) []

/-- The parts of an assignment to a name at some place, with what stands behind the name. -/
inductive Assigned (w : Text) (m : Nat) : Text → List Tree → Prop
  | plain {v : Text} (hv : IsValue v) :
      Assigned w m (' ' :: '=' :: ' ' :: v) [nameNode w m, valueNode v (m + w.length + 3)]
  | annotated {k v : Text} (hk : IsName k) (hmatch : k ≠ "match".toList) (hv : IsValue v) :
      Assigned w m (':' :: ' ' :: (k ++ ' ' :: '=' :: ' ' :: v))
        [nameNode w m, typeNode k (m + w.length + 2),
          valueNode v (m + w.length + 2 + k.length + 3)]

theorem Assigned.declared {w t : Text} {m : Nat} {ts : List Tree} (h : Assigned w m t ts) :
    Declared t := by
  cases h with
  | plain hv => exact .plain hv
  | annotated hk hmatch hv => exact .annotated hk hmatch hv

/-! ## Parts of an assignment -/

/-- A name as a target. -/
theorem IsName.target {w t : Text} (hw : IsName w) (ht : Stops t) (r : Rules) (first : Bool)
    (follow : Follow) (n : Nat) :
    Syntax.target r first .operand follow (.facing n (w ++ t)) =
      some (leaf .identifier w n, .facing (n + w.length) t) := by
  obtain ⟨d, s, hds⟩ := List.exists_cons_of_ne_nil (List.append_ne_nil_of_left_ne_nil hw.ne_nil t)
  have hleads := hw.leads ht hds
  have hatom := hw.atom ht r follow n
  have hmarks : ∀ c ∈ ['*', '(', '['], ∀ u, w ++ t ≠ c :: u := by
    have hmark : ∀ c ∈ ['*', '(', '['], c ∉ RandomSource.lowercase :=
      Text.forall_of_all (by decide)
    intro c hc u heq
    exact hmark c hc (hw.head_mem heq)
  have hpeek : peek .operand (.facing n (w ++ t)) = some (w ++ t, .facing n (w ++ t)) := by
    have hfound : found .operand (d :: s) = .text :=
      found_of_opening (hds ▸ hw.opening_append ht)
    rw [hds]
    exact peek_facing gap_nil hleads.ink hfound n
  have hoperand : operand r .operand follow (.facing n (w ++ t)) =
      some (leaf .identifier w n, .facing (n + w.length) t) := by
    rw [hds] at hatom ⊢
    exact operand_of_atom hleads hatom ht
  have hplain : plainTarget r .operand follow (.facing n (w ++ t)) =
      some (leaf .identifier w n, .facing (n + w.length) t) := by
    rw [plainTarget, bind_of_some hoperand]
    rfl
  rw [Syntax.target, bind_of_some hpeek]
  generalize w ++ t = l at hmarks hplain ⊢
  split
  · exact absurd rfl (hmarks '*' (by simp) _)
  · exact absurd rfl (hmarks '(' (by simp) _)
  · exact absurd rfl (hmarks '[' (by simp) _)
  · exact hplain

/-- A single target in front of something that is no comma. -/
theorem IsName.targetList {w t : Text} (hw : IsName w) (ht : Stops t) (n m : Nat) (first : Bool)
    (follow : Follow) :
    Syntax.targetList (rules (n + 1)) first .operand follow (.facing m (w ++ t)) =
      some (leaf .identifier w m, .facing (m + w.length) t) := by
  have htarget : (rules (n + 1)).target first .operand follow (.facing m (w ++ t)) =
      some (leaf .identifier w m, .facing (m + w.length) t) :=
    hw.target ht (rules n) first follow m
  have hcomma : mark follow.expect "," (.facing (m + w.length) t) = none :=
    ht.token ignores_comma follow.expect _
  rw [Syntax.targetList, bind_of_some htarget, orElse_of_none (bind_of_none hcomma _)]
  rfl

/-- A value behind an equals sign. -/
theorem IsValue.rightSide {v : Text} (hv : IsValue v) (n m : Nat) :
    (rules (n + 2)).rightSide (.facing m (' ' :: v)) =
      some (leaf (literalKind v) v (m + 1), .facing (m + 1 + v.length) []) := by
  have hexpression := hv.expression gap_space (rules n) .conditional .line m
  generalize literalKind v = k at hexpression ⊢
  obtain ⟨d, s, hds, hleads, -⟩ := hv.leads
  have hexpression : (rules (n + 1)).expression .conditional .operand .line
      (.facing m (' ' :: v)) = some (leaf k v (m + 1), .facing (m + 1 + v.length) []) := hexpression
  have hyield : yielding (rules (n + 1)) .operand .line (.facing m (' ' :: v)) = none := by
    rw [hds]
    exact bind_of_none (hleads.keyword (by simp) gap_space .operand) _
  have hlist : expressionList (rules (n + 1)) .operand .line (.facing m (' ' :: v)) =
      some (leaf k v (m + 1), .facing (m + 1 + v.length) []) := by
    rw [expressionList, bind_of_some hexpression,
      bind_of_some (Stops.nil.commaSeparated _ _ _ true _ _), if_pos rfl]
    rfl
  have hassignment : ∀ p, atAssignment (.facing p []) = some (false, .facing p []) := by
    intro p
    rw [atAssignment, bind_of_some (peek_end _ p)]
    rfl
  show Syntax.rightSide (rules (n + 1)) _ = _
  rw [Syntax.rightSide, orElse_of_none hyield, get_bind, bind_of_some hlist,
    bind_of_some (hassignment _)]
  rfl

/-- An equals sign behind a space. -/
theorem equals_facing (n : Nat) (t : Text) :
    equals lineEnd (.facing n (' ' :: '=' :: ' ' :: t)) =
      some (⟨[], [], n + 1, n + 2⟩, .facing (n + 2) (' ' :: t)) := by
  have hfound : found lineEnd (['='] ++ ' ' :: t) = .text := found_of_plain rfl _
  have hmeasure : equalsLength? (['='] ++ ' ' :: t) = some ['='].length := rfl
  exact token_facing gap_space rfl (by decide) hfound hmeasure n

theorem IsName.genericNameLength {k t : Text} (hk : IsName k) (hmatch : k ≠ "match".toList)
    (ht : Stops t) : genericNameLength? (k ++ t) = some k.length := by
  have hreserved : "print".toList ∈ Declaration.reservedNames ∧
      "exec".toList ∈ Declaration.reservedNames := by decide
  have hprint : k ≠ "print".toList := fun h => hk.free (h ▸ hreserved.1)
  have hexec : k ≠ "exec".toList := fun h => hk.free (h ▸ hreserved.2)
  have hnone : ¬(k = "print".toList || k = "exec".toList || k = "match".toList) = true := by
    simp only [hprint, hexec, hmatch]
    decide
  rw [genericNameLength?, hk.word_append ht, if_neg hnone, nameLength?, hk.word_append ht]
  simp [hk.ne_nil, hk.isReserved_eq]

/-- An annotation that is a name. -/
theorem IsName.typeHint {k t : Text} (hk : IsName k) (hmatch : k ≠ "match".toList) (n m : Nat) :
    (rules (n + 2)).typeHint true .operand .line
        (.facing m (' ' :: (k ++ ' ' :: '=' :: ' ' :: t))) =
      some ((leaf .identifier k (m + 1)).node .typeHint,
        .facing (m + 1 + k.length) (' ' :: '=' :: ' ' :: t)) := by
  have ht : Stops (' ' :: '=' :: ' ' :: t) := .equals gap_space t
  have hcolon : ∀ p, mark Follow.line.expect ":" (.facing p (' ' :: '=' :: ' ' :: t)) = none :=
    fun p => token_facing_none gap_space (by decide) rfl _ p
  generalize ' ' :: '=' :: ' ' :: t = u at ht hcolon ⊢
  obtain ⟨d, s, hds⟩ := List.exists_cons_of_ne_nil (List.append_ne_nil_of_left_ne_nil hk.ne_nil u)
  have hleads := hk.leads ht hds
  have hfound : found .operand (k ++ u) = .text := found_of_opening (hk.opening_append ht)
  have hexpression : (rules (n + 1)).expression .conditional .operand .line
      (.facing m ([' '] ++ (k ++ u))) =
      some (leaf .identifier k (m + 1), .facing (m + 1 + k.length) u) :=
    hk.expression ht gap_space (rules n) .conditional .line m
  have hpeek : peek .operand (.facing m ([' '] ++ (k ++ u))) =
      some (k ++ u, .facing m ([' '] ++ (k ++ u))) := by
    rw [hds] at hfound ⊢
    exact peek_facing gap_space hleads.ink hfound m
  have hgeneric : isGeneric .operand .line (.facing m ([' '] ++ (k ++ u))) =
      some (false, .facing m ([' '] ++ (k ++ u))) := by
    obtain ⟨q, hq, hpeek⟩ := ht.peek Follow.line.expect (m + 1 + k.length)
    have htoken := token_facing gap_space hds hleads.ink hfound (hk.genericNameLength hmatch ht) m
    rw [isGeneric, get_bind]
    refine (bind_of_some (x := false) (d := .facing (m + 1 + k.length) u) (orElse_of_some ?_) _).trans
      rfl
    rw [bind_of_some htoken, List.length_singleton, bind_of_some hpeek]
    cases hq <;> rfl
  have hbase : baseType (rules (n + 1)) .operand .line (.facing m ([' '] ++ (k ++ u))) =
      some ((leaf .identifier k (m + 1)).node .typeHint, .facing (m + 1 + k.length) u) := by
    have hmarks : ∀ v, k ++ u ≠ '*' :: v := by
      intro v heq
      exact absurd (hk.head_mem heq) (by decide)
    rw [baseType, bind_assoc, bind_of_some hgeneric, if_neg (by decide), bind_assoc,
      bind_of_some hpeek]
    generalize k ++ u = l at hmarks hexpression ⊢
    split
    · exact absurd rfl (hmarks _)
    · exact absurd rfl (hmarks _)
    · rw [bind_of_some hexpression]
      rfl
  have htail : ∀ f, isProperType f = false →
      typeTail (rules (n + 1)) .line (f, f) (.facing (m + 1 + k.length) u) = none := by
    intro f hf
    rw [typeTail, hf]
    rfl
  show Syntax.typeHint (rules (n + 1)) true .operand .line (.facing m ([' '] ++ (k ++ u))) = _
  rw [Syntax.typeHint, bind_of_some hbase, bind_of_some (many_of_none (htail _ rfl))]
  dsimp only
  rw [if_pos rfl, orElse_of_none (bind_of_none (hcolon _) _)]
  rfl

/-! ## The assignment -/

/-- A declaration is an assignment. -/
theorem Assigned.assignmentTo {w t : Text} {m : Nat} {ts : List Tree} (h : Assigned w m t ts)
    (hw : IsName w) (n : Nat) :
    Syntax.assignmentTo (rules (n + 2)) .operand (.facing m (w ++ t)) =
      some ((⟨[], ts, m, m + w.length + t.length⟩ : Fragment).node .assignment,
        .facing (m + w.length + t.length) []) := by
  have hleft := hw.targetList h.declared.stops (n + 1) m true .line
  have haugmented : augmented lineEnd (.facing (m + w.length) t) = none :=
    h.declared.stops.token ignores_augmented lineEnd _
  cases h with
  | @plain v hv =>
    have hright := hv.rightSide n (m + w.length + 2)
    have hlength : m + w.length + (' ' :: '=' :: ' ' :: v).length =
        m + w.length + 2 + 1 + v.length := by
      simp only [List.length_cons]
      omega
    rw [Syntax.assignmentTo, bind_of_some hleft, orElse_of_none (bind_of_none haugmented _), hlength]
    apply orElse_of_some
    rw [bind_of_some (equals_facing _ _), bind_of_some hright]
    rfl
  | @annotated k v hk hmatch hv =>
    have htypeHint := hk.typeHint (t := v) hmatch n (m + w.length + 1)
    have hright := hv.rightSide n (m + w.length + 1 + 1 + k.length + 2)
    have hlength : m + w.length + (':' :: ' ' :: (k ++ ' ' :: '=' :: ' ' :: v)).length =
        m + w.length + 1 + 1 + k.length + 2 + 1 + v.length := by
      simp only [List.length_cons, List.length_append]
      omega
    have hequals : equals lineEnd
        (.facing (m + w.length) (':' :: ' ' :: (k ++ ' ' :: '=' :: ' ' :: v))) = none :=
      token_facing_none gap_nil (by decide) rfl _ _
    have hcolon : mark lineEnd ":"
        (.facing (m + w.length) ([':'] ++ ' ' :: (k ++ ' ' :: '=' :: ' ' :: v))) =
        some (⟨[], [], m + w.length, m + w.length + 1⟩,
          .facing (m + w.length + 1) (' ' :: (k ++ ' ' :: '=' :: ' ' :: v))) := by
      have hfound : found lineEnd ([':'] ++ ' ' :: (k ++ ' ' :: '=' :: ' ' :: v)) = .text :=
        found_of_plain rfl _
      exact token_facing gap_nil rfl (by decide) hfound rfl _
    rw [Syntax.assignmentTo, bind_of_some hleft, orElse_of_none (bind_of_none haugmented _),
      orElse_of_none (bind_of_none hequals _), hlength]
    rw [List.singleton_append] at hcolon
    rw [bind_of_some hcolon, bind_of_some htypeHint]
    refine bind_of_some (orElse_of_some ?_) _
    rw [bind_of_some (equals_facing _ _), bind_of_some hright]
    rfl

namespace Declared

variable {w t : Text}

theorem atAssignment (ht : Declared t) (m : Nat) :
    Syntax.atAssignment (.facing m t) = some (true, .facing m t) := by
  cases ht with
  | @plain v hv =>
    have hpeek : peek lineEnd (.facing m (' ' :: '=' :: ' ' :: v)) =
        some ('=' :: ' ' :: v, .facing m (' ' :: '=' :: ' ' :: v)) :=
      peek_facing gap_space (by decide) (found_of_plain rfl _) m
    rw [Syntax.atAssignment, bind_of_some hpeek]
    rfl
  | @annotated k v hk hmatch hv =>
    have hpeek : peek lineEnd (.facing m (':' :: ' ' :: (k ++ ' ' :: '=' :: ' ' :: v))) =
        some (':' :: ' ' :: (k ++ ' ' :: '=' :: ' ' :: v),
          .facing m (':' :: ' ' :: (k ++ ' ' :: '=' :: ' ' :: v))) :=
      peek_facing gap_nil (by decide) (found_of_plain rfl _) m
    rw [Syntax.atAssignment, bind_of_some hpeek]
    rfl

end Declared

/-- An assignment as a statement between two places. -/
def statementNode (n m : Nat) (ts : List Tree) : Tree :=
  .node .expressionStatement none n m [.node .assignment none n m ts]

/-- A statement that is the rest of a text. -/
def whole (n m : Nat) (ts : List Tree) : Fragment := ⟨[], [statementNode n m ts], n, m⟩

/-- An assignment is read instead of the expression that it begins with. -/
theorem Assigned.expressionStatement {w t : Text} {m : Nat} {ts : List Tree}
    (h : Assigned w m t ts) (hw : IsName w) (n : Nat) :
    Syntax.expressionStatement (rules (n + 2)) (.facing m (w ++ t)) =
      some (whole m (m + w.length + t.length) ts, .facing (m + w.length + t.length) []) := by
  have ht := h.declared
  have hassignment := h.assignmentTo hw n
  obtain ⟨d, s, hds⟩ := List.exists_cons_of_ne_nil (List.append_ne_nil_of_left_ne_nil hw.ne_nil t)
  have hyield : yielding (rules (n + 2)) .operand .line (.facing m (w ++ t)) = none := by
    rw [hds]
    exact bind_of_none ((hw.leads ht.stops hds).keyword (by simp) gap_nil .operand) _
  have hfirst : (rules (n + 2)).expression .conditional .operand .line (.facing m (w ++ t)) =
      some (leaf .identifier w m, .facing (m + w.length) t) :=
    hw.expression ht.stops gap_nil (rules (n + 1)) .conditional .line m
  rw [Syntax.expressionStatement]
  refine (bind_of_some (x := (⟨[], ts, m, m + w.length + t.length⟩ : Fragment).node .assignment)
    (d := .facing (m + w.length + t.length) []) ?_ _).trans rfl
  rw [orElse_of_none hyield, get_bind, bind_of_some hfirst,
    bind_of_some (ht.stops.commaSeparated _ _ _ true _ _), get_bind,
    bind_of_some (ht.atAssignment _), if_pos rfl, set_bind]
  exact hassignment

namespace Declared

variable {w t : Text}

/-- A declaration of a variable `type` is no alias. -/
theorem typeAliasStatement (hw : IsName w) (ht : Declared t) (n m : Nat) :
    Syntax.typeAliasStatement (rules (n + 1)) (.facing m (w ++ t)) = none := by
  have hstops := ht.stops
  have hhint : ∀ p, (rules (n + 1)).typeHint true lineEndOrOperand .other (.facing p t) = none := by
    intro p
    obtain ⟨q, hq, hpeek⟩ := hstops.peek lineEndOrOperand p
    have hgeneric : isGeneric lineEndOrOperand .other (.facing p t) = some (false, .facing p t) := by
      rw [isGeneric, get_bind]
      refine (bind_of_some (x := false) (d := .facing p t) ?_ _).trans rfl
      exact orElse_of_none (bind_of_none (hstops.token ignores_genericName _ p) _)
    have hexpression : (rules n).expression .conditional lineEndOrOperand .other (.facing p t) =
        none := by
      cases n with
      | zero => rfl
      | succ n => exact hstops.expression (rules n) .conditional lineEndOrOperand .other p
    show Syntax.typeHint (rules n) true lineEndOrOperand .other (.facing p t) = none
    apply bind_of_none
    rw [baseType, bind_assoc, bind_of_some hgeneric, if_neg (by decide), bind_assoc,
      bind_of_some hpeek]
    cases hq <;> exact bind_of_none hexpression _
  by_cases htype : w = "type".toList
  · obtain ⟨d, s, hds⟩ :=
      List.exists_cons_of_ne_nil (List.append_ne_nil_of_left_ne_nil hw.ne_nil t)
    have hfound : found .plain (w ++ t) = .text := found_of_plain rfl _
    have hmeasure : wordLength? "type" (w ++ t) = some w.length := by
      have hword := hw.word_append hstops
      unfold wordLength?
      dsimp only
      rw [hword, htype]
      rfl
    have hkeyword := token_facing gap_nil hds (hw.leads hstops hds).ink hfound hmeasure m
    rw [List.nil_append] at hkeyword
    rw [Syntax.typeAliasStatement, keyword, bind_of_some hkeyword]
    exact bind_of_none (hhint _) _
  · obtain ⟨d, s, hds⟩ :=
      List.exists_cons_of_ne_nil (List.append_ne_nil_of_left_ne_nil hw.ne_nil t)
    have hword : word (d :: s) ≠ "type".toList := by
      rw [← hds, hw.word_append hstops]
      exact htype
    rw [hds]
    exact bind_of_none (keyword_facing_none gap_nil (hw.leads hstops hds).ink hword .plain m) _

/-- No word that begins another statement is a name. -/
theorem simpleStatementAt (hw : IsName w) (ht : Declared t) (n m : Nat) :
    Syntax.simpleStatementAt (rules (n + 1)) w (.facing m (w ++ t)) =
      Syntax.expressionStatement (rules (n + 1)) (.facing m (w ++ t)) := by
  have hne : ∀ v : String, v.toList ∈ Declaration.reservedNames → w ≠ v.toList :=
    fun v hv h => hw.free (h ▸ hv)
  have halias : wholeStatement (Syntax.typeAliasStatement (rules (n + 1))) (.facing m (w ++ t)) =
      none := bind_of_none (ht.typeAliasStatement hw n m) _
  rw [Syntax.simpleStatementAt, if_neg (hne "import" (by decide)), if_neg (hne "from" (by decide)),
    if_neg (hne "assert" (by decide)), if_neg (hne "return" (by decide)),
    if_neg (hne "del" (by decide)), if_neg (hne "raise" (by decide)),
    if_neg (hne "pass" (by decide)), if_neg (hne "break" (by decide)),
    if_neg (hne "continue" (by decide)), if_neg (hne "global" (by decide)),
    if_neg (hne "nonlocal" (by decide)), if_neg (hne "print" (by decide)),
    if_neg (hne "exec" (by decide))]
  split
  · exact orElse_of_none halias
  · rfl

end Declared

namespace Assigned

variable {w t : Text} {m : Nat} {ts : List Tree}

/-- The only statement of its row. -/
theorem simpleStatements (h : Assigned w m t ts) (hw : IsName w) (n : Nat) :
    Syntax.simpleStatements (rules (n + 2)) .operand (.facing m (w ++ t)) =
      some (whole m (m + w.length + t.length) ts, .facing (m + w.length + t.length) []) := by
  have ht := h.declared
  have hstatement := h.expressionStatement hw n
  obtain ⟨d, s, hds⟩ := List.exists_cons_of_ne_nil (List.append_ne_nil_of_left_ne_nil hw.ne_nil t)
  have hfound : found .operand (w ++ t) = .text := found_of_opening (hw.opening_append ht.stops)
  have hlook : look .operand (.facing m (w ++ t)) = some (([], .text), .facing m (w ++ t)) := by
    rw [hds, look_ink (hw.leads ht.stops hds).ink, ← hds, hfound]
  have hsimple : simpleStatement (rules (n + 2)) .operand (.facing m (w ++ t)) =
      some (whole m (m + w.length + t.length) ts, .facing (m + w.length + t.length) []) := by
    rw [simpleStatement, bind_of_some hlook]
    dsimp only
    rw [get_bind, Cursor.facing_rest, hw.word_append ht.stops,
      bind_of_some ((ht.simpleStatementAt hw (n + 1) m).trans hstatement)]
    rfl
  have hsemicolon : ∀ p, mark lineEnd ";" (.facing p []) = none := fun p => token_end rfl _ p
  have hnewline : ∀ p, layoutToken lineEnd .newline (.facing p []) =
      some (⟨[], [], p, p⟩, .facing p []) := by
    intro p
    rw [layoutToken, bind_of_some (look_end lineEnd p)]
    rfl
  rw [Syntax.simpleStatements, bind_of_some hsimple,
    bind_of_some (many_of_none (bind_of_none (hsemicolon _) _)),
    bind_of_some (orNothing_of_none (hsemicolon _)), bind_of_some (hnewline _)]
  rfl

/-- The only statement of a text. -/
theorem statement (h : Assigned w m t ts) (hw : IsName w) (n : Nat) :
    Syntax.statement (rules (n + 2)) (.facing m (w ++ t)) =
      some (whole m (m + w.length + t.length) ts, .facing (m + w.length + t.length) []) := by
  have ht := h.declared
  have hline := h.simpleStatements hw n
  obtain ⟨d, s, hds⟩ := List.exists_cons_of_ne_nil (List.append_ne_nil_of_left_ne_nil hw.ne_nil t)
  have hfound : found statementStart (w ++ t) = .text :=
    found_of_opening (hw.opening_append ht.stops)
  have hlook : look statementStart (.facing m (w ++ t)) = some (([], .text), .facing m (w ++ t)) := by
    rw [hds, look_ink (hw.leads ht.stops hds).ink, ← hds, hfound]
  have hat : ∀ v, w ++ t ≠ '@' :: v := by
    intro v heq
    exact absurd (hw.head_mem heq) (by decide)
  have hne : ∀ v : String, v.toList ∈ Declaration.reservedNames → w ≠ v.toList :=
    fun v hv h => hw.free (h ▸ hv)
  have hstatementAt : statementAt (rules (n + 2)) w (.facing m (w ++ t)) =
      some (whole m (m + w.length + t.length) ts, .facing (m + w.length + t.length) []) := by
    rw [statementAt, if_neg (hne "if" (by decide)), if_neg (hne "for" (by decide)),
      if_neg (hne "while" (by decide)), if_neg (hne "try" (by decide)),
      if_neg (hne "with" (by decide)), if_neg (hne "def" (by decide)),
      if_neg (hne "class" (by decide)), if_neg (hne "async" (by decide))]
    split
    · exact orElse_of_some hline
    · exact hline
  have hword := hw.word_append ht.stops
  rw [Syntax.statement, bind_of_some hlook]
  dsimp only
  rw [get_bind, Cursor.facing_rest]
  generalize w ++ t = l at hat hword hstatementAt ⊢
  split
  · exact absurd rfl (hat _)
  · rw [hword, bind_of_some hstatementAt]
    rfl

end Assigned

/-- Behind the last statement there is no other one. -/
theorem statement_end (n m : Nat) : statement (rules (n + 1)) (.facing m []) = none := by
  have hyield : yielding (rules (n + 1)) .operand .line (.facing m []) = none :=
    bind_of_none (token_end rfl .operand m) _
  have hfirst : (rules (n + 1)).expression .conditional .operand .line (.facing m []) = none :=
    Stops.nil.expression (rules n) .conditional .operand .line m
  have hexpression : expressionStatement (rules (n + 1)) (.facing m []) = none := by
    apply bind_of_none
    rw [orElse_of_none hyield, get_bind]
    exact bind_of_none hfirst _
  have hlook : ∀ e : Expect, e.newline = false →
      look e (.facing m []) = some (([], .text), .facing m []) := by
    intro e he
    rw [look_end, he]
    rfl
  have hsimple : simpleStatement (rules (n + 1)) .operand (.facing m []) = none := by
    have hat : simpleStatementAt (rules (n + 1)) (word []) = expressionStatement (rules (n + 1)) :=
      rfl
    rw [simpleStatement, bind_of_some (hlook .operand rfl)]
    dsimp only
    rw [get_bind, Cursor.facing_rest, hat]
    exact bind_of_none hexpression _
  have hline : simpleStatements (rules (n + 1)) .operand (.facing m []) = none :=
    bind_of_none hsimple _
  have hat : statementAt (rules (n + 1)) (word []) = simpleStatements (rules (n + 1)) .operand := rfl
  rw [statement, bind_of_some (hlook statementStart rfl)]
  dsimp only
  rw [get_bind, Cursor.facing_rest]
  dsimp only
  rw [hat]
  exact bind_of_none hline _

/-- A declaration is the only statement of its text. -/
theorem readTree_declaration {w t : Text} {ts : List Tree} (hw : IsName w)
    (h : Assigned w 0 t ts) : readTree (w ++ t) =
      some (.node .file none 0 (w ++ t).length [statementNode 0 (w ++ t).length ts]) := by
  obtain ⟨n, hn⟩ : ∃ n, 4 * (w ++ t).length + 16 = n + 2 := ⟨4 * (w ++ t).length + 14, rfl⟩
  have hstatement := h.statement hw n
  have hlength : 0 + w.length + t.length = (w ++ t).length := by
    simp
  rw [hlength] at hstatement
  generalize hl : w ++ t = l at hn hstatement ⊢
  have hmany : many (fun f => do pure (f ++ (← statement (rules (n + 2))))) ⟨[], [], 0, 0⟩
      (.facing 0 l) = some (whole 0 l.length ts, .facing l.length []) := by
    have hnext : (do pure (whole 0 l.length ts ++ (← statement (rules (n + 2)))) : Parser Fragment)
        (.facing l.length []) = none := bind_of_none (statement_end (n + 1) _) _
    refine many_once ?_ hnext
    rw [bind_of_some hstatement]
    rfl
  have hlook : look .operand (.facing l.length []) =
      some (([], .text), .facing l.length []) := look_end .operand l.length
  have hsize : (Cursor.facing l.length []).size = l.length := rfl
  have hfile : file (rules (n + 2)) (.facing 0 l) = some (.node .file none 0 l.length
      [statementNode 0 l.length ts], .facing l.length []) := by
    rw [file, get_bind, Cursor.facing_place, bind_of_some hmany, bind_of_some hlook]
    dsimp only
    rw [get_bind, Cursor.facing_rest, hsize]
    rfl
  rw [readTree, hn, Cursor.ofText_eq_facing]
  show (file (rules (n + 2)) (.facing 0 l)).map _ = _
  rw [hfile]
  rfl

end PointMutation.Syntax
