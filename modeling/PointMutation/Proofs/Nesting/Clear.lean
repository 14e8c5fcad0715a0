import PointMutation.Proofs.Nesting.Orderly
import PointMutation.Proofs.Nesting.Outline

/-!
# Outlines that no cut meets halfway

In the outline of an orderly tree all expressions and lines begin with a character that is no white
space and end at a tidy place (`clearAll_ofFile`). Inside a line there are only expressions.
-/

namespace PointMutation

namespace Outline

mutual

/-- An outline of expressions, none of which a cut meets halfway. -/
def Plain (t : Text) : Outline → Prop
  | .expression _ start stop inner => Text.Clear t start stop ∧ PlainAll t inner
  | .value _ inner => Plain t inner
  | _ => False

/-- Several outlines of expressions. -/
def PlainAll (t : Text) : List Outline → Prop
  | [] => True
  | o :: os => Plain t o ∧ PlainAll t os

end

mutual

/-- No expression and no line of an outline is met halfway by a cut, and only expressions are inside
them. -/
def Clear (t : Text) : Outline → Prop
  | .expression _ start stop inner => Text.Clear t start stop ∧ PlainAll t inner
  | .value _ inner => Plain t inner
  | .line _ _ start stop inner => Text.Clear t start stop ∧ PlainAll t inner
  | .compound _ inner => ClearAll t inner
  | .block items => ClearAll t items
  | .group inner => ClearAll t inner

/-- The same for several outlines. -/
def ClearAll (t : Text) : List Outline → Prop
  | [] => True
  | o :: os => Clear t o ∧ ClearAll t os

end

variable {t : Text}

theorem Plain.clear {o : Outline} (h : Plain t o) : Clear t o := by
  cases o with
  | expression kind start stop inner => exact h
  | value site inner => exact h
  | line => exact h.elim
  | compound => exact h.elim
  | block => exact h.elim
  | group => exact h.elim

theorem PlainAll.clear {os : List Outline} (h : PlainAll t os) : ClearAll t os := by
  induction os with
  | nil => trivial
  | cons o os ih => exact ⟨h.1.clear, ih h.2⟩

theorem PlainAll.append {os ps : List Outline} (h : PlainAll t os) (h' : PlainAll t ps) :
    PlainAll t (os ++ ps) := by
  induction os with
  | nil => exact h'
  | cons o os ih => exact ⟨h.1, ih h.2⟩

theorem ClearAll.append {os ps : List Outline} (h : ClearAll t os) (h' : ClearAll t ps) :
    ClearAll t (os ++ ps) := by
  induction os with
  | nil => exact h'
  | cons o os ih => exact ⟨h.1, ih h.2⟩

theorem plainAll_flatMap {ts : List Tree} {f : Tree → List Outline}
    (hf : ∀ u ∈ ts, PlainAll t (f u)) : PlainAll t (ts.flatMap f) := by
  induction ts with
  | nil => trivial
  | cons u ts ih =>
    rw [List.flatMap_cons]
    exact (hf u (by simp)).append (ih fun v hv => hf v (by simp [hv]))

/-! ## Expressions -/

mutual

theorem plain_ofExpression {u : Tree} (h : u.Orderly t .inner) : Plain t (ofExpression u) := by
  cases u with
  | node k r a b cs =>
    obtain ⟨hclear, hcs⟩ := Tree.Orderly.inner_iff.mp h
    rw [ofExpression]
    refine ⟨hclear, ?_⟩
    split
    · trivial
    · exact plainAll_ofExpressions hcs

theorem plainAll_ofExpressions {ts : List Tree} (h : ∀ u ∈ ts, u.Orderly t .inner) :
    PlainAll t (ofExpressions ts) := by
  cases ts with
  | nil => trivial
  | cons u ts =>
    have hrest := plainAll_ofExpressions fun v hv => h v (List.mem_cons_of_mem u hv)
    have hfirst := plain_ofExpression (h u List.mem_cons_self)
    rw [ofExpressions]
    split
    · exact hrest
    · exact ⟨hfirst, hrest⟩

end

/-- An expression as a list of outlines, as a value or not. -/
theorem plainAll_ofExpression {u : Tree} (h : u.Orderly t .inner) :
    PlainAll t [ofExpression u] ∧ ∀ s, PlainAll t [.value s (ofExpression u)] :=
  ⟨⟨plain_ofExpression h, trivial⟩, fun _ => ⟨plain_ofExpression h, trivial⟩⟩

/-! ## Simple statements -/

mutual

theorem plainAll_ofAssignment {annotated : Bool} {ts : List Tree}
    (h : ∀ u ∈ ts, u.Orderly t .inner) : PlainAll t (ofAssignment annotated ts) := by
  cases ts with
  | nil =>
    rw [ofAssignment]
    trivial
  | cons u ts =>
    rw [ofAssignment]
    exact (plainAll_ofAssigned (h u List.mem_cons_self)).append
      (plainAll_ofAssignment fun v hv => h v (List.mem_cons_of_mem u hv))

theorem plainAll_ofAssigned {annotated : Bool} {u : Tree} (h : u.Orderly t .inner) :
    PlainAll t (ofAssigned annotated u) := by
  cases u with
  | node k r a b cs =>
    have hcs : ∀ c ∈ cs, c.Orderly t .inner := h.children
    rw [ofAssigned.eq_def]
    dsimp only
    split
    · exact (plainAll_ofExpression h).1
    · exact (plainAll_ofExpression h).1
    · split
      · exact plainAll_ofAssignment hcs
      · exact (plainAll_ofExpression h).2 _
    · trivial

end

theorem plainAll_ofAugmented {u : Tree} (h : u.Orderly t .inner) :
    PlainAll t (ofAugmented u) := by
  unfold ofAugmented
  split
  · exact (plainAll_ofExpression h).1
  · exact (plainAll_ofExpression h).2 _
  · trivial

theorem plainAll_ofExpressionPart {u : Tree} (h : u.Orderly t .inner) :
    PlainAll t (ofExpressionPart u) := by
  unfold ofExpressionPart
  split
  · exact plainAll_ofAssignment h.children
  · exact plainAll_flatMap fun c hc => plainAll_ofAugmented (h.children c hc)
  · exact (plainAll_ofExpression h).1

theorem plainAll_ofSimple {u : Tree} (h : u.Orderly t .inner) : PlainAll t (ofSimple u) := by
  unfold ofSimple
  split
  · exact plainAll_flatMap fun c hc => plainAll_ofExpressionPart (h.parts c hc)
  · rw [List.map_eq_flatMap]
    exact plainAll_flatMap fun c hc => (plainAll_ofExpression (h.parts c hc)).2 _
  · exact plainAll_ofExpressions h.children

/-! ## Parameters -/

theorem plainAll_ofDefaultPart {u : Tree} (h : u.Orderly t .inner) :
    PlainAll t (ofDefaultPart u) := by
  unfold ofDefaultPart
  split
  · exact (plainAll_ofExpression h).1
  · exact (plainAll_ofExpression h).1
  · exact (plainAll_ofExpression h).2 _
  · trivial

theorem plainAll_ofParameter {u : Tree} (h : u.Orderly t .inner) :
    PlainAll t (ofParameter u) := by
  unfold ofParameter
  split
  · trivial
  · exact plainAll_flatMap fun c hc => plainAll_ofDefaultPart (h.children c hc)
  · exact plainAll_flatMap fun c hc => plainAll_ofDefaultPart (h.children c hc)
  · exact (plainAll_ofExpression h).1

/-! ## Lines -/

/-- A line that is being collected and ends in front of a place. -/
def Line.Clear (t : Text) (m : Nat) (l : Line) : Prop :=
  Text.Clear t l.start l.stop ∧ PlainAll t l.inner ∧ l.stop ≤ m

theorem Line.clear_ofStatement {u : Tree} (h : u.Orderly t .inner) :
    Line.Clear t u.stop (.ofStatement u) :=
  ⟨h.clear, plainAll_ofSimple h, le_refl u.stop⟩

theorem Line.Clear.add {l : Line} {u : Tree} {m : Nat} (h : Line.Clear t m l)
    (hm : m ≤ u.start) (hu : u.Orderly t .inner) :
    Line.Clear t u.stop (l.add u.kind u.stop (ofSimple u)) := by
  obtain ⟨hclear, hinner, hstop⟩ := h
  have hlt : l.start < u.stop := by
    have := hclear.lt
    have := hu.clear.lt
    omega
  exact ⟨⟨hlt, hu.clear.le, hclear.first, hu.clear.tidy⟩,
    hinner.append (plainAll_ofSimple hu), le_refl u.stop⟩

theorem Line.Clear.outline {l : Line} {m : Nat} (h : Line.Clear t m l) (inline : Bool) :
    Outline.Clear t (l.outline inline) := by
  obtain ⟨hclear, hinner, -⟩ := h
  unfold Line.outline
  split
  · exact hinner.clear
  · exact ⟨hclear, hinner⟩

theorem clearAll_lineIfAny {l : Option Line} {m : Nat} (h : ∀ x ∈ l, Line.Clear t m x)
    (inline : Bool) : ClearAll t (lineIfAny inline l) := by
  cases l with
  | none => trivial
  | some x => exact ⟨(h x rfl).outline inline, trivial⟩

/-! ## Statements -/

mutual

/-- The statements behind the line that is being collected. -/
theorem clearAll_ofStatements {text : Text} {inline : Bool} {a b : Nat} {l : Option Line}
    {ts : List Tree} (hl : ∀ x ∈ l, Line.Clear t a x) (h : Tree.NestedIn a b ts)
    (ho : ∀ u ∈ ts, u.Orderly t .body) : ClearAll t (ofStatements text inline l ts) := by
  cases ts with
  | nil =>
    rw [ofStatements]
    exact clearAll_lineIfAny hl inline
  | cons u ts =>
    obtain ⟨ha, hu, hts⟩ := Tree.nestedIn_cons.mp h
    have hle := hu.le
    have hus : ∀ v ∈ ts, v.Orderly t .body := fun v hv => ho v (List.mem_cons_of_mem u hv)
    have hbody := ho u List.mem_cons_self
    rw [ofStatements.eq_def]
    dsimp only
    split
    · exact clearAll_ofStatements hl (hts.mono (ha.trans hle) (le_refl b)) hus
    split
    · next hsimple =>
      have hplain := hbody.ofSimple hsimple
      have halone : ClearAll t (ofStatements text inline (some (.ofStatement u)) ts) := by
        refine clearAll_ofStatements ?_ hts hus
        rintro x ⟨⟩
        exact Line.clear_ofStatement hplain
      cases l with
      | none => exact halone
      | some x =>
        have hx := hl x rfl
        dsimp only
        split
        · refine clearAll_ofStatements ?_ hts hus
          rintro y ⟨⟩
          exact hx.add ha hplain
        · exact ⟨hx.outline inline, halone⟩
    · refine (clearAll_lineIfAny hl inline).append ⟨clear_ofCompound hu hbody, ?_⟩
      exact clearAll_ofStatements (by simp) hts hus

theorem clear_ofCompound {text : Text} {u : Tree} (h : u.Nested) (ho : u.Orderly t .body) :
    Clear t (ofCompound text u) := by
  cases u with
  | node k r a b cs =>
    have hcs := Tree.nested_node.mp h
    have hclauses (hpart : ∀ c ∈ cs, c.Orderly t .part) (definition : Bool) :
        ClearAll t (ofClauses text definition cs) := clearAll_ofClauses hcs hpart
    rw [ofCompound]
    cases ho with
    | plain _ hinner =>
      have hpart : ∀ c ∈ cs, c.Orderly t .part := fun c hc => (hinner c hc).ofInner
      split
      · exact clearAll_ofDecorated hcs fun c hc => (hinner c hc).ofInner
      split
      · exact hclauses hpart _
      · exact hclauses hpart _
    | clause _ hk hpart =>
      split
      · next hdecorated =>
        rw [beq_iff_eq.mp hdecorated] at hk
        cases hk
      split
      · exact hclauses hpart _
      · exact hclauses hpart _
    | compound _ _ hne hpart =>
      rw [if_neg (by simpa using hne)]
      split
      · exact hclauses hpart _
      · exact hclauses hpart _
    | decorated hdecorated => exact clearAll_ofDecorated hcs hdecorated

theorem clearAll_ofDecorated {text : Text} {a b : Nat} {ts : List Tree}
    (h : Tree.NestedIn a b ts) (ho : ∀ u ∈ ts, u.Orderly t .decorated) :
    ClearAll t (ofDecorated text ts) := by
  cases ts with
  | nil =>
    rw [ofDecorated]
    trivial
  | cons u ts =>
    obtain ⟨-, hu, hts⟩ := Tree.nestedIn_cons.mp h
    have hrest : ClearAll t (ofDecorated text ts) :=
      clearAll_ofDecorated hts fun v hv => ho v (List.mem_cons_of_mem u hv)
    have hfirst := ho u List.mem_cons_self
    rw [ofDecorated]
    split
    · exact hrest
    · refine ⟨?_, hrest⟩
      split
      · exact clear_ofCompound hu hfirst.ofDecorated
      · next hk => exact (plain_ofExpression (hfirst.ofOther (by simpa using hk))).clear

theorem clearAll_ofClauses {text : Text} {definition : Bool} {a b : Nat} {ts : List Tree}
    (h : Tree.NestedIn a b ts) (ho : ∀ u ∈ ts, u.Orderly t .part) :
    ClearAll t (ofClauses text definition ts) := by
  cases ts with
  | nil =>
    rw [ofClauses]
    trivial
  | cons u ts =>
    obtain ⟨-, hu, hts⟩ := Tree.nestedIn_cons.mp h
    have hrest : ClearAll t (ofClauses text definition ts) :=
      clearAll_ofClauses hts fun v hv => ho v (List.mem_cons_of_mem u hv)
    have hfirst := ho u List.mem_cons_self
    cases u with
    | node k r s e cs =>
      have hcs := Tree.nested_node.mp hu
      rw [ofClauses]
      cases hfirst with
      | plain hclear hinner =>
        have hparams : PlainAll t (cs.flatMap ofParameter) :=
          plainAll_flatMap fun c hc => plainAll_ofParameter (hinner c hc)
        have hexpression : Plain t (ofExpression (.node k r s e cs)) :=
          plain_ofExpression (.plain hclear hinner)
        split
        · exact hrest
        split
        · refine ⟨clearAll_ofStatements (by simp) hcs ?_, hrest⟩
          exact fun c hc => (hinner c hc).ofInner
        split
        · exact hparams.clear.append hrest
        split
        · exact ⟨clearAll_ofClauses hcs fun c hc => (hinner c hc).ofInner, hrest⟩
        · exact ⟨hexpression.clear, hrest⟩
      | block hbody => exact ⟨clearAll_ofStatements (by simp) hcs hbody, hrest⟩
      | clause _ hk hpart =>
        have hclause : ClearAll t (.group (ofClauses text false cs) ::
            ofClauses text definition ts) := ⟨clearAll_ofClauses hcs hpart, hrest⟩
        cases k <;> first | exact hclause | cases hk
      | compound hs => simp at hs

end

/-- The outline of a file with orderly statements. -/
theorem clearAll_ofFile {a b : Nat} {ts : List Tree} (h : Tree.NestedIn a b ts)
    (ho : ∀ u ∈ ts, u.Orderly t .body) (text : Text) :
    ClearAll t (ofStatements text false none ts) :=
  clearAll_ofStatements (by simp) h ho

end Outline

end PointMutation
