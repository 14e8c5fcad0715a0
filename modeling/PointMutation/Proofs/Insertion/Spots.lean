import PointMutation.Proofs.Nesting.Outline
import PointMutation.Proofs.Nesting.Reading

/-!
# Lines that a walk leaves

A walk leaves the lines of a source in the order of the text, and no line within another one.
Statements behind a colon on the same row are no lines of their own.
-/

namespace PointMutation

namespace Outline

/-- A line that a walk leaves. -/
structure Spot where
  kinds : List Kind
  docstring : Bool
  start : Nat
  stop : Nat
  deriving DecidableEq, Repr

mutual

/-- The lines of an outline in the order in which a walk leaves them. -/
def spots : Outline → List Spot
  | .expression _ _ _ inner => spotsAll inner
  | .value _ inner => spots inner
  | .line kinds docstring start stop inner => spotsAll inner ++ [⟨kinds, docstring, start, stop⟩]
  | .compound _ inner => spotsAll inner
  | .block items => spotsAll items
  | .group inner => spotsAll inner

/-- The lines of several outlines. -/
def spotsAll : List Outline → List Spot
  | [] => []
  | o :: os => spots o ++ spotsAll os

end

@[simp]
theorem spotsAll_nil : spotsAll [] = [] := by
  rw [spotsAll]

@[simp]
theorem spotsAll_cons (o : Outline) (os : List Outline) :
    spotsAll (o :: os) = spots o ++ spotsAll os := by
  rw [spotsAll]

@[simp]
theorem spotsAll_append (os ps : List Outline) :
    spotsAll (os ++ ps) = spotsAll os ++ spotsAll ps := by
  induction os with
  | nil => simp
  | cons o os ih => simp [ih]

theorem spotsAll_flatMap {α : Type} {f : α → List Outline} {xs : List α}
    (h : ∀ x ∈ xs, spotsAll (f x) = []) : spotsAll (xs.flatMap f) = [] := by
  induction xs with
  | nil => simp
  | cons x xs ih => simp_all

/-! ## Expressions and simple statements have no lines -/

mutual

@[simp]
theorem spots_ofExpression (t : Tree) : spots (ofExpression t) = [] := by
  cases t with
  | node k r a b cs =>
    rw [ofExpression, spots]
    split
    · exact spotsAll_nil
    · exact spotsAll_ofExpressions cs

@[simp]
theorem spotsAll_ofExpressions (ts : List Tree) : spotsAll (ofExpressions ts) = [] := by
  cases ts with
  | nil => rw [ofExpressions, spotsAll]
  | cons t ts =>
    rw [ofExpressions]
    split
    · exact spotsAll_ofExpressions ts
    · simp [spots_ofExpression t, spotsAll_ofExpressions ts]

end

@[simp]
theorem spots_value (s : Site) (o : Outline) : spots (.value s o) = spots o := by
  rw [spots]

mutual

theorem spotsAll_ofAssignment (annotated : Bool) (ts : List Tree) :
    spotsAll (ofAssignment annotated ts) = [] := by
  cases ts with
  | nil => rw [ofAssignment, spotsAll]
  | cons t ts =>
    rw [ofAssignment, spotsAll_append, spotsAll_ofAssigned annotated t,
      spotsAll_ofAssignment annotated ts, List.append_nil]

theorem spotsAll_ofAssigned (annotated : Bool) (t : Tree) :
    spotsAll (ofAssigned annotated t) = [] := by
  cases t with
  | node k r a b cs =>
    rw [ofAssigned.eq_def]
    dsimp only
    split
    · simp
    · simp
    · split
      · exact spotsAll_ofAssignment _ cs
      · simp
    · simp

end

theorem spotsAll_ofSimple (t : Tree) : spotsAll (ofSimple t) = [] := by
  have haugmented : ∀ u : Tree, spotsAll (ofAugmented u) = [] := by
    intro u
    unfold ofAugmented
    split <;> simp
  have hpart : ∀ u : Tree, spotsAll (ofExpressionPart u) = [] := by
    intro u
    unfold ofExpressionPart
    split
    · exact spotsAll_ofAssignment _ _
    · exact spotsAll_flatMap fun v _ => haugmented v
    · simp
  unfold ofSimple
  split
  · exact spotsAll_flatMap fun u _ => hpart u
  · rw [List.map_eq_flatMap]
    exact spotsAll_flatMap fun u _ => by simp
  · simp

theorem spotsAll_ofParameter (t : Tree) : spotsAll (ofParameter t) = [] := by
  have hpart : ∀ u : Tree, spotsAll (ofDefaultPart u) = [] := by
    intro u
    unfold ofDefaultPart
    split <;> simp
  unfold ofParameter
  split
  · simp
  · exact spotsAll_flatMap fun u _ => hpart u
  · exact spotsAll_flatMap fun u _ => hpart u
  · simp

/-! ## Lines lie one behind the other -/

/-- Lines one behind the other between two places. -/
def SpotsIn : Nat → Nat → List Spot → Prop
  | a, b, [] => a ≤ b
  | a, b, x :: xs => a ≤ x.start ∧ x.start ≤ x.stop ∧ SpotsIn x.stop b xs

theorem SpotsIn.le {a b : Nat} {xs : List Spot} (h : SpotsIn a b xs) : a ≤ b := by
  induction xs generalizing a with
  | nil => exact h
  | cons x xs ih =>
    have hrest := ih h.2.2
    have hx := h.1
    have hle := h.2.1
    omega

theorem SpotsIn.mono {a a' b b' : Nat} {xs : List Spot} (h : SpotsIn a b xs) (ha : a' ≤ a)
    (hb : b ≤ b') : SpotsIn a' b' xs := by
  induction xs generalizing a a' with
  | nil => exact Nat.le_trans ha (Nat.le_trans h hb)
  | cons x xs ih => exact ⟨Nat.le_trans ha h.1, h.2.1, ih h.2.2 (Nat.le_refl _)⟩

theorem SpotsIn.append {a b c : Nat} {xs ys : List Spot} (h : SpotsIn a b xs)
    (h' : SpotsIn b c ys) : SpotsIn a c (xs ++ ys) := by
  induction xs generalizing a with
  | nil => exact h'.mono h (Nat.le_refl c)
  | cons x xs ih => exact ⟨h.1, h.2.1, ih h.2.2⟩

theorem SpotsIn.sublist {a b : Nat} {xs ys : List Spot} (h : SpotsIn a b ys)
    (hs : xs.Sublist ys) : SpotsIn a b xs := by
  induction hs generalizing a with
  | slnil => exact h
  | cons y _ ih => exact (ih h.2.2).mono (Nat.le_trans h.1 h.2.1) (Nat.le_refl b)
  | cons_cons y _ ih => exact ⟨h.1, h.2.1, ih h.2.2⟩

/-- Each line lies between the places, and in front of those behind it. -/
theorem SpotsIn.bounds {a b : Nat} {xs : List Spot} (h : SpotsIn a b xs) :
    (∀ x ∈ xs, a ≤ x.start ∧ x.start ≤ x.stop ∧ x.stop ≤ b) ∧
      xs.Pairwise fun x y => x.stop ≤ y.start := by
  induction xs generalizing a with
  | nil => simp
  | cons x xs ih =>
    obtain ⟨ha, hx, hxs⟩ := h
    obtain ⟨hbounds, hpairs⟩ := ih hxs
    constructor
    · intro y hy
      rcases List.mem_cons.mp hy with rfl | hy
      · exact ⟨ha, hx, hxs.le⟩
      · have hy' := hbounds y hy
        exact ⟨by omega, hy'.2⟩
    · exact List.pairwise_cons.mpr ⟨fun y hy => (hbounds y hy).1, hpairs⟩

/-- The line that is being collected has no lines inside and lies between two places. -/
def Line.SpotIn (a b : Nat) (l : Line) : Prop :=
  spotsAll l.inner = [] ∧ a ≤ l.start ∧ l.start ≤ l.stop ∧ l.stop ≤ b

theorem Line.SpotIn.outline {a b : Nat} {l : Line} (inline : Bool) (h : l.SpotIn a b) :
    SpotsIn a b (spots (l.outline inline)) := by
  obtain ⟨hinner, ha, hle, hb⟩ := h
  unfold Line.outline
  split
  · rw [spots, hinner]
    exact Nat.le_trans ha (Nat.le_trans hle hb)
  · rw [spots, hinner]
    exact ⟨ha, hle, hb⟩

theorem spotsIn_lineIfAny {a b : Nat} (inline : Bool) {l : Option Line} (hab : a ≤ b)
    (h : ∀ x ∈ l, x.SpotIn a b) : SpotsIn a b (spotsAll (lineIfAny inline l)) := by
  cases l with
  | none => simpa [lineIfAny, SpotsIn] using hab
  | some x => simpa [lineIfAny] using (h x rfl).outline inline

theorem Line.spotIn_ofStatement {t : Tree} (h : t.Nested) :
    (Line.ofStatement t).SpotIn t.start t.stop :=
  ⟨spotsAll_ofSimple t, Nat.le_refl _, h.le, Nat.le_refl _⟩

theorem Line.SpotIn.add {a b : Nat} {l : Line} {t : Tree} (h : l.SpotIn a b)
    (hb : b ≤ t.start) (ht : t.Nested) :
    (l.add t.kind t.stop (ofSimple t)).SpotIn a t.stop := by
  obtain ⟨hinner, ha, hle, hstop⟩ := h
  have hlet := ht.le
  refine ⟨?_, ha, ?_, Nat.le_refl _⟩
  · simp [Line.add, hinner, spotsAll_ofSimple]
  · show l.start ≤ t.stop
    omega

mutual

/-- The lines of statements behind the line that is being collected. -/
theorem spotsIn_ofStatements (text : Text) (inline : Bool) {a b c : Nat} {l : Option Line}
    {ts : List Tree} (hab : a ≤ b) (hl : ∀ x ∈ l, x.SpotIn a b) (h : Tree.NestedIn b c ts) :
    SpotsIn a c (spotsAll (ofStatements text inline l ts)) := by
  cases ts with
  | nil =>
    rw [ofStatements]
    exact (spotsIn_lineIfAny inline hab hl).mono (Nat.le_refl a) (Tree.nestedIn_nil.mp h)
  | cons t ts =>
    obtain ⟨hb, ht, hts⟩ := Tree.nestedIn_cons.mp h
    have hle := ht.le
    have halone : ∀ {a' : Nat}, a' ≤ t.start →
        SpotsIn a' c (spotsAll (ofStatements text inline (some (.ofStatement t)) ts)) := by
      intro a' ha'
      refine spotsIn_ofStatements text inline (b := t.stop) (by omega) ?_ hts
      rintro x ⟨⟩
      obtain ⟨hinner, _, hspan, hstop⟩ := Line.spotIn_ofStatement ht
      exact ⟨hinner, ha', hspan, hstop⟩
    rw [ofStatements.eq_def]
    dsimp only
    split
    · exact spotsIn_ofStatements text inline hab hl (hts.mono (by omega) (Nat.le_refl c))
    · split
      · cases l with
        | none => exact halone (by omega)
        | some x =>
          have hx := hl x rfl
          dsimp only
          split
          · refine spotsIn_ofStatements text inline (b := t.stop) (by omega) ?_ hts
            rintro y ⟨⟩
            exact hx.add hb ht
          · rw [spotsAll_cons]
            exact (hx.outline inline).append (halone hb)
      · rw [spotsAll_append, spotsAll_cons]
        refine (spotsIn_lineIfAny inline hab hl).append (.append (b := t.stop) ?_ ?_)
        · exact (spotsIn_ofCompound text ht).mono hb (Nat.le_refl _)
        · exact spotsIn_ofStatements text inline (Nat.le_refl _) (by simp) hts

theorem spotsIn_ofCompound (text : Text) {t : Tree} (h : t.Nested) :
    SpotsIn t.start t.stop (spots (ofCompound text t)) := by
  cases t with
  | node k r a b cs =>
    have hcs := Tree.nested_node.mp h
    rw [ofCompound]
    split
    · rw [spots]
      exact spotsIn_ofDecorated text hcs
    · split
      · rw [spots]
        exact spotsIn_ofClauses text _ hcs
      · rw [spots]
        exact spotsIn_ofClauses text _ hcs

theorem spotsIn_ofDecorated (text : Text) {a b : Nat} {ts : List Tree}
    (h : Tree.NestedIn a b ts) : SpotsIn a b (spotsAll (ofDecorated text ts)) := by
  cases ts with
  | nil =>
    rw [ofDecorated, spotsAll]
    exact Tree.nestedIn_nil.mp h
  | cons t ts =>
    obtain ⟨ha, ht, hts⟩ := Tree.nestedIn_cons.mp h
    have hle := ht.le
    have hrest : SpotsIn t.stop b (spotsAll (ofDecorated text ts)) := spotsIn_ofDecorated text hts
    rw [ofDecorated]
    split
    · exact hrest.mono (by omega) (Nat.le_refl b)
    · rw [spotsAll_cons]
      refine .append (b := t.stop) ?_ hrest
      split
      · exact (spotsIn_ofCompound text ht).mono ha (Nat.le_refl _)
      · rw [spots_ofExpression]
        exact Nat.le_trans ha hle

theorem spotsIn_ofClauses (text : Text) (definition : Bool) {a b : Nat} {ts : List Tree}
    (h : Tree.NestedIn a b ts) : SpotsIn a b (spotsAll (ofClauses text definition ts)) := by
  cases ts with
  | nil =>
    rw [ofClauses, spotsAll]
    exact Tree.nestedIn_nil.mp h
  | cons t ts =>
    obtain ⟨ha, ht, hts⟩ := Tree.nestedIn_cons.mp h
    have hle := ht.le
    cases t with
    | node k r s e cs =>
      have hcs := Tree.nested_node.mp ht
      have hrest : SpotsIn e b (spotsAll (ofClauses text definition ts)) :=
        spotsIn_ofClauses text definition hts
      have hwhole := hrest.mono (Nat.le_trans ha hle) (Nat.le_refl b)
      rw [ofClauses]
      split
      · exact hwhole
      split
      · rw [spotsAll_cons, spots]
        refine .append (b := e) (.mono ?_ ha (Nat.le_refl e)) hrest
        exact spotsIn_ofStatements text _ (Nat.le_refl s) (by simp) hcs
      split
      · rw [spotsAll_append, spotsAll_flatMap fun u _ => spotsAll_ofParameter u]
        exact hwhole
      split
      · rw [spotsAll_cons, spots]
        exact .append (b := e) ((spotsIn_ofClauses text false hcs).mono ha (Nat.le_refl e)) hrest
      · rw [spotsAll_cons, spots_ofExpression]
        exact hwhole

end

/-- The lines of a source lie one behind the other in its text. -/
theorem spotsIn_ofSource (s : Source) : SpotsIn 0 s.text.length (spotsAll (ofSource s)) :=
  spotsIn_ofStatements s.text false (Nat.le_refl 0) (by simp) s.nestedIn

end Outline

end PointMutation
