import PointMutation.Outline
import PointMutation.Proofs.Nesting.Tree

/-!
# Nested outlines

The outline of nested trees is nested too: its expressions and lines lie one behind the other, and
what is inside an expression or a line lies within its stretch. The main statement is
`withinAll_ofStatements`.
-/

namespace PointMutation

namespace Outline

mutual

/-- An outline lies between two places, and what is inside it is nested. -/
def Within : Nat → Nat → Outline → Prop
  | a, b, .expression _ start stop inner => a ≤ start ∧ WithinAll start stop inner ∧ stop ≤ b
  | a, b, .value _ inner => Within a b inner
  | a, b, .line _ _ start stop inner => a ≤ start ∧ WithinAll start stop inner ∧ stop ≤ b
  | a, b, .compound _ inner => WithinAll a b inner
  | a, b, .block items => WithinAll a b items
  | a, b, .group inner => WithinAll a b inner

/-- Outlines lie one behind the other between two places. -/
def WithinAll : Nat → Nat → List Outline → Prop
  | a, b, [] => a ≤ b
  | a, b, o :: os => ∃ m, Within a m o ∧ WithinAll m b os

end

mutual

/-- No expression and no line of an outline is empty. -/
def Solid : Outline → Prop
  | .expression _ start stop inner => start < stop ∧ SolidAll inner
  | .value _ inner => Solid inner
  | .line _ _ start stop inner => start < stop ∧ SolidAll inner
  | .compound _ inner => SolidAll inner
  | .block items => SolidAll items
  | .group inner => SolidAll inner

/-- No expression and no line of several outlines is empty. -/
def SolidAll : List Outline → Prop
  | [] => True
  | o :: os => Solid o ∧ SolidAll os

end

@[simp]
theorem withinAll_nil {a b : Nat} : WithinAll a b [] ↔ a ≤ b := by
  rw [WithinAll]

@[simp]
theorem withinAll_cons {a b : Nat} {o : Outline} {os : List Outline} :
    WithinAll a b (o :: os) ↔ ∃ m, Within a m o ∧ WithinAll m b os := by
  rw [WithinAll]

mutual

theorem Within.le {a b : Nat} {o : Outline} (h : Within a b o) : a ≤ b := by
  cases o with
  | expression k s e inner =>
    obtain ⟨ha, hi, hb⟩ := h
    have := WithinAll.le hi
    omega
  | value s inner =>
    rw [Within] at h
    exact Within.le h
  | line ks d s e inner =>
    obtain ⟨ha, hi, hb⟩ := h
    have := WithinAll.le hi
    omega
  | compound k inner =>
    rw [Within] at h
    exact WithinAll.le h
  | block items =>
    rw [Within] at h
    exact WithinAll.le h
  | group inner =>
    rw [Within] at h
    exact WithinAll.le h

theorem WithinAll.le {a b : Nat} {os : List Outline} (h : WithinAll a b os) : a ≤ b := by
  cases os with
  | nil => exact withinAll_nil.mp h
  | cons o os =>
    obtain ⟨m, ho, hos⟩ := withinAll_cons.mp h
    have := Within.le ho
    have := WithinAll.le hos
    omega

end

mutual

/-- A wider stretch holds the outline as well. -/
theorem Within.mono {a a' b b' : Nat} {o : Outline} (h : Within a b o) (ha : a' ≤ a)
    (hb : b ≤ b') : Within a' b' o := by
  cases o with
  | expression k s e inner => exact ⟨by have := h.1; omega, h.2.1, by have := h.2.2; omega⟩
  | value s inner =>
    rw [Within] at h ⊢
    exact Within.mono h ha hb
  | line ks d s e inner => exact ⟨by have := h.1; omega, h.2.1, by have := h.2.2; omega⟩
  | compound k inner =>
    rw [Within] at h ⊢
    exact WithinAll.mono h ha hb
  | block items =>
    rw [Within] at h ⊢
    exact WithinAll.mono h ha hb
  | group inner =>
    rw [Within] at h ⊢
    exact WithinAll.mono h ha hb

theorem WithinAll.mono {a a' b b' : Nat} {os : List Outline} (h : WithinAll a b os)
    (ha : a' ≤ a) (hb : b ≤ b') : WithinAll a' b' os := by
  cases os with
  | nil =>
    have := withinAll_nil.mp h
    exact withinAll_nil.mpr (by omega)
  | cons o os =>
    obtain ⟨m, ho, hos⟩ := withinAll_cons.mp h
    exact withinAll_cons.mpr
      ⟨m, Within.mono ho ha (Nat.le_refl m), WithinAll.mono hos (Nat.le_refl m) hb⟩

end

theorem WithinAll.append {a b c : Nat} {os ps : List Outline} (h : WithinAll a b os)
    (h' : WithinAll b c ps) : WithinAll a c (os ++ ps) := by
  induction os generalizing a with
  | nil => exact h'.mono (withinAll_nil.mp h) (Nat.le_refl c)
  | cons o os ih =>
    obtain ⟨m, ho, hos⟩ := withinAll_cons.mp h
    exact withinAll_cons.mpr ⟨m, ho, ih hos⟩

theorem WithinAll.singleton {a b : Nat} {o : Outline} (h : Within a b o) : WithinAll a b [o] :=
  withinAll_cons.mpr ⟨b, h, withinAll_nil.mpr (Nat.le_refl b)⟩

/-- Outlines made of nested trees lie within the stretch of the trees, if those of each tree
do. -/
theorem withinAll_flatMap {a b : Nat} {ts : List Tree} {f : Tree → List Outline}
    (h : Tree.NestedIn a b ts)
    (hf : ∀ t ∈ ts, t.Nested → WithinAll t.start t.stop (f t)) :
    WithinAll a b (ts.flatMap f) := by
  induction ts generalizing a with
  | nil => exact withinAll_nil.mpr (Tree.nestedIn_nil.mp h)
  | cons t ts ih =>
    obtain ⟨ha, ht, hts⟩ := Tree.nestedIn_cons.mp h
    have hfirst := (hf t (by simp) ht).mono ha (Nat.le_refl t.stop)
    rw [List.flatMap_cons]
    exact hfirst.append (ih hts fun u hu => hf u (by simp [hu]))

/-! ## Expressions -/

mutual

theorem within_ofExpression {t : Tree} (h : t.Nested) :
    Within t.start t.stop (ofExpression t) := by
  cases t with
  | node k r a b cs =>
    have hcs := Tree.nested_node.mp h
    rw [ofExpression]
    refine ⟨Nat.le_refl a, ?_, Nat.le_refl b⟩
    split
    · exact withinAll_nil.mpr hcs.le
    · exact withinAll_ofExpressions hcs

theorem withinAll_ofExpressions {a b : Nat} {ts : List Tree} (h : Tree.NestedIn a b ts) :
    WithinAll a b (ofExpressions ts) := by
  cases ts with
  | nil => exact withinAll_nil.mpr (Tree.nestedIn_nil.mp h)
  | cons t ts =>
    obtain ⟨ha, ht, hts⟩ := Tree.nestedIn_cons.mp h
    have hrest := withinAll_ofExpressions hts
    have hle := ht.le
    rw [ofExpressions]
    split
    · exact hrest.mono (by omega) (Nat.le_refl b)
    · exact withinAll_cons.mpr
        ⟨t.stop, (within_ofExpression ht).mono ha (Nat.le_refl t.stop), hrest⟩

end

/-- An expression as a list of outlines. -/
theorem withinAll_ofExpression {t : Tree} (h : t.Nested) :
    WithinAll t.start t.stop [ofExpression t] :=
  .singleton (within_ofExpression h)

theorem withinAll_value {t : Tree} (s : Site) (h : t.Nested) :
    WithinAll t.start t.stop [.value s (ofExpression t)] := by
  refine .singleton ?_
  rw [Within]
  exact within_ofExpression h

theorem withinAll_none {t : Tree} (h : t.Nested) : WithinAll t.start t.stop [] :=
  withinAll_nil.mpr h.le

/-! ## Simple statements -/

mutual

theorem withinAll_ofAssignment {a b : Nat} {annotated : Bool} {ts : List Tree}
    (h : Tree.NestedIn a b ts) : WithinAll a b (ofAssignment annotated ts) := by
  cases ts with
  | nil =>
    rw [ofAssignment]
    exact withinAll_nil.mpr (Tree.nestedIn_nil.mp h)
  | cons t ts =>
    obtain ⟨ha, ht, hts⟩ := Tree.nestedIn_cons.mp h
    rw [ofAssignment]
    exact ((withinAll_ofAssigned ht).mono ha (Nat.le_refl t.stop)).append
      (withinAll_ofAssignment hts)

theorem withinAll_ofAssigned {annotated : Bool} {t : Tree} (h : t.Nested) :
    WithinAll t.start t.stop (ofAssigned annotated t) := by
  cases t with
  | node k r a b cs =>
    rw [ofAssigned.eq_def]
    dsimp only
    split
    · exact withinAll_ofExpression h
    · exact withinAll_ofExpression h
    · split
      · exact withinAll_ofAssignment (Tree.nested_node.mp h)
      · exact withinAll_value _ h
    · exact withinAll_none h

end

theorem withinAll_ofAugmented {t : Tree} (h : t.Nested) :
    WithinAll t.start t.stop (ofAugmented t) := by
  unfold ofAugmented
  split
  · exact withinAll_ofExpression h
  · exact withinAll_value _ h
  · exact withinAll_none h

theorem withinAll_ofExpressionPart {t : Tree} (h : t.Nested) :
    WithinAll t.start t.stop (ofExpressionPart t) := by
  unfold ofExpressionPart
  split
  · exact withinAll_ofAssignment (Tree.nested_node.mp h)
  · exact withinAll_flatMap (Tree.nested_node.mp h) fun u _ hu => withinAll_ofAugmented hu
  · exact withinAll_ofExpression h

theorem withinAll_ofSimple {t : Tree} (h : t.Nested) :
    WithinAll t.start t.stop (ofSimple t) := by
  unfold ofSimple
  split
  · exact withinAll_flatMap h.parts fun u _ hu => withinAll_ofExpressionPart hu
  · rw [List.map_eq_flatMap]
    exact withinAll_flatMap h.parts fun u _ hu => withinAll_value _ hu
  · exact withinAll_ofExpressions h.children

/-! ## Parameters -/

theorem withinAll_ofDefaultPart {t : Tree} (h : t.Nested) :
    WithinAll t.start t.stop (ofDefaultPart t) := by
  unfold ofDefaultPart
  split
  · exact withinAll_ofExpression h
  · exact withinAll_ofExpression h
  · exact withinAll_value _ h
  · exact withinAll_none h

theorem withinAll_ofParameter {t : Tree} (h : t.Nested) :
    WithinAll t.start t.stop (ofParameter t) := by
  unfold ofParameter
  split
  · exact withinAll_none h
  · exact withinAll_flatMap h.children fun u _ hu => withinAll_ofDefaultPart hu
  · exact withinAll_flatMap h.children fun u _ hu => withinAll_ofDefaultPart hu
  · exact withinAll_ofExpression h

/-! ## Lines -/

/-- A line that is being collected lies between two places. -/
def Line.Within (a b : Nat) (l : Line) : Prop :=
  a ≤ l.start ∧ WithinAll l.start l.stop l.inner ∧ l.stop ≤ b

theorem Line.within_ofStatement {t : Tree} (h : t.Nested) :
    Line.Within t.start t.stop (.ofStatement t) :=
  ⟨Nat.le_refl _, withinAll_ofSimple h, Nat.le_refl _⟩

theorem Line.Within.mono {a a' b b' : Nat} {l : Line} (h : Line.Within a b l) (ha : a' ≤ a)
    (hb : b ≤ b') : Line.Within a' b' l := by
  obtain ⟨h₁, h₂, h₃⟩ := h
  exact ⟨by omega, h₂, by omega⟩

theorem Line.Within.add {a b : Nat} {l : Line} {t : Tree} (h : Line.Within a b l)
    (hb : b ≤ t.start) (ht : t.Nested) :
    Line.Within a t.stop (l.add t.kind t.stop (ofSimple t)) := by
  obtain ⟨h₁, h₂, h₃⟩ := h
  refine ⟨h₁, ?_, Nat.le_refl _⟩
  exact h₂.append ((withinAll_ofSimple ht).mono (by omega) (Nat.le_refl _))

theorem Line.Within.outline {a b : Nat} {l : Line} {inline : Bool} (h : Line.Within a b l) :
    Outline.Within a b (l.outline inline) := by
  obtain ⟨h₁, h₂, h₃⟩ := h
  unfold Line.outline
  split
  · rw [Outline.Within]
    exact h₂.mono h₁ h₃
  · exact ⟨h₁, h₂, h₃⟩

theorem withinAll_lineIfAny {a b : Nat} {inline : Bool} {l : Option Line} (hab : a ≤ b)
    (h : ∀ x ∈ l, Line.Within a b x) : WithinAll a b (lineIfAny inline l) := by
  cases l with
  | none => exact withinAll_nil.mpr hab
  | some x => exact .singleton (h x rfl).outline

/-! ## Statements -/

mutual

/-- The statements behind the line that is being collected. -/
theorem withinAll_ofStatements {text : Text} {inline : Bool} {a b c : Nat} {l : Option Line}
    {ts : List Tree} (hab : a ≤ b) (hl : ∀ x ∈ l, Line.Within a b x)
    (h : Tree.NestedIn b c ts) : WithinAll a c (ofStatements text inline l ts) := by
  cases ts with
  | nil =>
    rw [ofStatements]
    exact (withinAll_lineIfAny hab hl).mono (Nat.le_refl a) (Tree.nestedIn_nil.mp h)
  | cons t ts =>
    obtain ⟨hb, ht, hts⟩ := Tree.nestedIn_cons.mp h
    have hle := ht.le
    have halone : ∀ {a' : Nat}, a' ≤ t.start →
        WithinAll a' c (ofStatements text inline (some (.ofStatement t)) ts) := by
      intro a' ha'
      refine withinAll_ofStatements (b := t.stop) (by omega) ?_ hts
      rintro x ⟨⟩
      exact (Line.within_ofStatement ht).mono ha' (Nat.le_refl _)
    rw [ofStatements.eq_def]
    dsimp only
    split
    · refine withinAll_ofStatements (b := b) hab hl (hts.mono (by omega) (Nat.le_refl c))
    · split
      · cases l with
        | none => exact halone (by omega)
        | some x =>
          have hx := hl x rfl
          dsimp only
          split
          · refine withinAll_ofStatements (b := t.stop) (by omega) ?_ hts
            rintro y ⟨⟩
            exact hx.add hb ht
          · exact withinAll_cons.mpr ⟨b, hx.outline, halone hb⟩
      · refine (withinAll_lineIfAny hab hl).append (withinAll_cons.mpr ⟨t.stop, ?_, ?_⟩)
        · exact (within_ofCompound ht).mono hb (Nat.le_refl _)
        · exact withinAll_ofStatements (b := t.stop) (Nat.le_refl _) (by simp) hts

theorem within_ofCompound {text : Text} {t : Tree} (h : t.Nested) :
    Within t.start t.stop (ofCompound text t) := by
  cases t with
  | node k r a b cs =>
    have hcs := Tree.nested_node.mp h
    rw [ofCompound]
    split
    · rw [Within]
      exact withinAll_ofDecorated hcs
    · split
      · rw [Within]
        exact withinAll_ofClauses hcs
      · rw [Within]
        exact withinAll_ofClauses hcs

theorem withinAll_ofDecorated {text : Text} {a b : Nat} {ts : List Tree}
    (h : Tree.NestedIn a b ts) : WithinAll a b (ofDecorated text ts) := by
  cases ts with
  | nil =>
    rw [ofDecorated]
    exact withinAll_nil.mpr (Tree.nestedIn_nil.mp h)
  | cons t ts =>
    obtain ⟨ha, ht, hts⟩ := Tree.nestedIn_cons.mp h
    have hle := ht.le
    have hrest : WithinAll t.stop b (ofDecorated text ts) := withinAll_ofDecorated hts
    rw [ofDecorated]
    split
    · exact hrest.mono (by omega) (Nat.le_refl b)
    · refine withinAll_cons.mpr ⟨t.stop, ?_, hrest⟩
      split
      · exact (within_ofCompound ht).mono ha (Nat.le_refl _)
      · exact (within_ofExpression ht).mono ha (Nat.le_refl _)

theorem withinAll_ofClauses {text : Text} {definition : Bool} {a b : Nat} {ts : List Tree}
    (h : Tree.NestedIn a b ts) : WithinAll a b (ofClauses text definition ts) := by
  cases ts with
  | nil =>
    rw [ofClauses]
    exact withinAll_nil.mpr (Tree.nestedIn_nil.mp h)
  | cons t ts =>
    obtain ⟨ha, ht, hts⟩ := Tree.nestedIn_cons.mp h
    have hle := ht.le
    cases t with
    | node k r s e cs =>
      have hcs := Tree.nested_node.mp ht
      have hrest : WithinAll e b (ofClauses text definition ts) := withinAll_ofClauses hts
      rw [ofClauses]
      split
      · exact hrest.mono (Nat.le_trans ha hle) (Nat.le_refl b)
      split
      · refine withinAll_cons.mpr ⟨e, ?_, hrest⟩
        rw [Within]
        exact (withinAll_ofStatements (Nat.le_refl s) (by simp) hcs).mono ha (Nat.le_refl e)
      split
      · refine WithinAll.append (b := e) ?_ hrest
        refine withinAll_flatMap (hcs.mono ha (Nat.le_refl e)) ?_
        exact fun u _ hu => withinAll_ofParameter hu
      split
      · refine withinAll_cons.mpr ⟨e, ?_, hrest⟩
        rw [Within]
        exact (withinAll_ofClauses hcs).mono ha (Nat.le_refl e)
      · exact withinAll_cons.mpr
          ⟨e, (within_ofExpression ht).mono ha (Nat.le_refl e), hrest⟩

end

/-- The outline of a file with nested statements. -/
theorem withinAll_ofFile {text : Text} {a b : Nat} {ts : List Tree} (h : Tree.NestedIn a b ts) :
    WithinAll a b (ofStatements text false none ts) :=
  withinAll_ofStatements (Nat.le_refl a) (by simp) h

end Outline

end PointMutation
