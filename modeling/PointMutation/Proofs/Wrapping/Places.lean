import PointMutation.Outline
import PointMutation.Proofs.Wrapping.Values

/-!
# Places in values

The expressions that a walk leaves while it is in a value are the nodes of the values of the tree,
in the same order (`valuedAll_ofStatements`). How statements are put together to lines makes no
difference to that.
-/

namespace PointMutation

namespace Outline

/-- An expression that a walk leaves. -/
structure Place where
  kind : Kind
  start : Nat
  stop : Nat
  deriving DecidableEq, Repr

/-- Where a walk leaves a node. -/
def placeOf (t : Tree) : Place := ⟨t.kind, t.start, t.stop⟩

mutual

/-- The expressions of an outline that are left in a value. -/
def valued (within : Bool) : Outline → List Place
  | .expression kind start stop inner =>
    valuedAll within inner ++ if within then [⟨kind, start, stop⟩] else []
  | .value _ inner => valued true inner
  | .line _ _ _ _ inner => valuedAll within inner
  | .compound _ inner => valuedAll within inner
  | .block items => valuedAll within items
  | .group inner => valuedAll within inner

/-- The expressions of several outlines that are left in a value. -/
def valuedAll (within : Bool) : List Outline → List Place
  | [] => []
  | o :: os => valued within o ++ valuedAll within os

end

@[simp]
theorem valuedAll_nil {within : Bool} : valuedAll within [] = [] := by
  rw [valuedAll]

@[simp]
theorem valuedAll_cons {within : Bool} (o : Outline) (os : List Outline) :
    valuedAll within (o :: os) = valued within o ++ valuedAll within os := by
  rw [valuedAll]

@[simp]
theorem valuedAll_append {within : Bool} (os ps : List Outline) :
    valuedAll within (os ++ ps) = valuedAll within os ++ valuedAll within ps := by
  induction os with
  | nil => simp
  | cons o os ih => simp [ih]

/-- The places of the nodes of values. -/
def placesOf (vs : List Tree) : List Place := (vs.flatMap Tree.nodes).map placeOf

@[simp]
theorem placesOf_nil : placesOf [] = [] := rfl

@[simp]
theorem placesOf_append (vs us : List Tree) : placesOf (vs ++ us) = placesOf vs ++ placesOf us := by
  simp [placesOf]

theorem placesOf_singleton (v : Tree) : placesOf [v] = (Tree.nodes v).map placeOf := by
  simp [placesOf]

theorem valuedAll_flatMap {f : Tree → List Outline} {g : Tree → List Tree} {ts : List Tree}
    (h : ∀ t ∈ ts, valuedAll false (f t) = placesOf (g t)) :
    valuedAll false (ts.flatMap f) = placesOf (ts.flatMap g) := by
  induction ts with
  | nil => simp
  | cons t ts ih =>
    simp only [List.flatMap_cons, valuedAll_append, placesOf_append, h t (by simp)]
    rw [ih fun u hu => h u (by simp [hu])]

/-! ## Expressions -/

mutual

/-- In a value all nodes of an expression count, elsewhere none. -/
theorem valued_ofExpression (within : Bool) (t : Tree) :
    valued within (ofExpression t) = if within then (Tree.nodes t).map placeOf else [] := by
  cases t with
  | node k r a b cs =>
    have hinner := valuedAll_ofExpressions within cs
    rw [ofExpression, valued, Tree.nodes]
    cases within <;> split <;> simp [hinner, placeOf, Tree.kind, Tree.start, Tree.stop]

theorem valuedAll_ofExpressions (within : Bool) (ts : List Tree) :
    valuedAll within (ofExpressions ts) =
      if within then (Tree.nodesOf ts).map placeOf else [] := by
  cases ts with
  | nil =>
    rw [ofExpressions, Tree.nodesOf]
    cases within <;> simp
  | cons t ts =>
    have hfirst := valued_ofExpression within t
    have hrest := valuedAll_ofExpressions within ts
    rw [ofExpressions, Tree.nodesOf]
    cases within <;> split <;> simp [hfirst, hrest]

end

theorem valued_outside (t : Tree) : valued false (ofExpression t) = [] := valued_ofExpression false t

theorem valued_value (site : Site) (t : Tree) :
    valued false (.value site (ofExpression t)) = placesOf [t] := by
  rw [valued, valued_ofExpression, placesOf_singleton, if_pos rfl]

/-! ## Simple statements and parameters -/

/-- Of the parts only some are values. -/
theorem valuedAll_filter {f : Tree → List Outline} {p : Tree → Bool} {ts : List Tree}
    (h : ∀ t ∈ ts, valuedAll false (f t) = if p t then placesOf [t] else []) :
    valuedAll false (ts.flatMap f) = placesOf (ts.filter p) := by
  induction ts with
  | nil => simp
  | cons t ts ih =>
    have hrest := ih fun u hu => h u (by simp [hu])
    rw [List.flatMap_cons, valuedAll_append, h t (by simp), hrest]
    cases hp : p t
    · simp [hp]
    · rw [List.filter_cons_of_pos hp, if_pos rfl, ← placesOf_append, List.singleton_append]

mutual

theorem valuedAll_ofAssignment (annotated : Bool) (ts : List Tree) :
    valuedAll false (ofAssignment annotated ts) = placesOf (Tree.assignedValues ts) := by
  cases ts with
  | nil => rw [ofAssignment, Tree.assignedValues, valuedAll_nil, placesOf_nil]
  | cons t ts =>
    rw [ofAssignment, Tree.assignedValues, valuedAll_append, placesOf_append,
      valuedAll_ofAssigned annotated t, valuedAll_ofAssignment annotated ts]

theorem valuedAll_ofAssigned (annotated : Bool) (t : Tree) :
    valuedAll false (ofAssigned annotated t) = placesOf (Tree.assignedValue t) := by
  cases t with
  | node k r a b cs =>
    have hchain := valuedAll_ofAssignment (cs.any fun c => c.role == some .annotated) cs
    rw [ofAssigned.eq_def, Tree.assignedValue]
    dsimp only
    split <;> rename_i hr
    · simp [valued_outside]
    · simp [valued_outside]
    · cases hk : k == .assignment <;> simp [valued_value, hchain]
    · have hright : r ≠ some .right := fun h => by simp_all
      simp [hright]

end

theorem valuedAll_ofAugmented (t : Tree) :
    valuedAll false (ofAugmented t) = if t.role == some .right then placesOf [t] else [] := by
  unfold ofAugmented
  split
  · rename_i h
    simp [valued_outside, h]
  · rename_i h
    simp [valued_value, h]
  · rename_i hleft hright
    have hright : t.role ≠ some .right := hright
    simp [hright]

theorem valuedAll_ofExpressionPart (t : Tree) :
    valuedAll false (ofExpressionPart t) = placesOf (Tree.expressionValues t) := by
  unfold ofExpressionPart
  split
  · exact valuedAll_ofAssignment _ _
  · exact valuedAll_filter fun c _ => valuedAll_ofAugmented c
  · rename_i hassignment haugmented
    have hk : t.kind ≠ .assignment ∧ t.kind ≠ .augmentedAssignment := by
      cases t with
      | node k r a b cs =>
        constructor
        · rintro rfl
          exact hassignment r a b cs rfl
        · rintro rfl
          exact haugmented r a b cs rfl
    simp [Tree.expressionValues, hk.1, hk.2, valued_outside]

theorem valuedAll_ofSimple (t : Tree) :
    valuedAll false (ofSimple t) = placesOf (Tree.simpleValues t) := by
  unfold ofSimple
  split <;> rename_i hk
  · simp only [Tree.simpleValues, hk, BEq.rfl, if_true]
    exact valuedAll_flatMap fun c _ => valuedAll_ofExpressionPart c
  · have hvalues : Tree.simpleValues t = t.parts.flatMap fun c => [c] := by
      simp [Tree.simpleValues, hk]
    rw [List.map_eq_flatMap, hvalues]
    exact valuedAll_flatMap fun c _ => by simp [valued_value]
  · rename_i hexpression
    have hexpression : t.kind ≠ .expressionStatement := hexpression
    have hk : t.kind ≠ .returnStatement := hk
    simp [Tree.simpleValues, hexpression, hk, valuedAll_ofExpressions]

theorem valuedAll_ofDefaultPart (t : Tree) :
    valuedAll false (ofDefaultPart t) = if t.role == some .value then placesOf [t] else [] := by
  unfold ofDefaultPart
  split <;> rename_i h
  · simp [valued_outside, h]
  · simp [valued_outside, h]
  · simp [valued_value, h]
  · have h : t.role ≠ some .value := h
    simp [h]

theorem valuedAll_ofParameter (t : Tree) :
    valuedAll false (ofParameter t) = placesOf (Tree.defaultValues t) := by
  have hdefault : valuedAll false (t.children.flatMap ofDefaultPart) =
      placesOf (t.children.filter fun c => c.role == some .value) :=
    valuedAll_filter fun c _ => valuedAll_ofDefaultPart c
  unfold ofParameter
  split <;> rename_i hk
  · simp [Tree.defaultValues, hk]
  · simp [Tree.defaultValues, hk, hdefault]
  · simp [Tree.defaultValues, hk, hdefault]
  · rename_i hdefaultParameter
    have hdefaultParameter : t.kind ≠ .defaultParameter := hdefaultParameter
    have hk : t.kind ≠ .typedDefaultParameter := hk
    simp [Tree.defaultValues, hdefaultParameter, hk, valued_outside]

/-! ## Statements -/

theorem valued_line (l : Line) (inline : Bool) :
    valued false (l.outline inline) = valuedAll false l.inner := by
  unfold Line.outline
  split <;> rw [valued]

/-- The places of the line that is being collected. -/
def valuedLine (l : Option Line) : List Place := (l.map fun l => valuedAll false l.inner).getD []

theorem valuedAll_lineIfAny (inline : Bool) (l : Option Line) :
    valuedAll false (lineIfAny inline l) = valuedLine l := by
  cases l with
  | none => rw [lineIfAny, valuedAll_nil, valuedLine, Option.map_none, Option.getD_none]
  | some l => simp [lineIfAny, valuedLine, valued_line]

mutual

theorem valuedAll_ofStatements (text : Text) (inline : Bool) (l : Option Line) (ts : List Tree) :
    valuedAll false (ofStatements text inline l ts) =
      valuedLine l ++ placesOf (Tree.bodyValues ts) := by
  cases ts with
  | nil => rw [ofStatements, Tree.bodyValues, placesOf_nil, List.append_nil, valuedAll_lineIfAny]
  | cons t ts =>
    have hrest := fun l => valuedAll_ofStatements text inline l ts
    rw [ofStatements.eq_def, Tree.bodyValues]
    dsimp only
    split
    · rw [hrest, List.nil_append]
    · split
      · rename_i hsimple
        have hvalues : Tree.values t = Tree.simpleValues t := by
          rw [Tree.values_eq, if_pos hsimple]
        have halone : valuedLine (some (.ofStatement t)) = placesOf (Tree.simpleValues t) :=
          valuedAll_ofSimple t
        cases l with
        | none =>
          dsimp only
          rw [hrest, hvalues, halone]
          simp [valuedLine]
        | some l =>
          dsimp only
          split
          · rw [hrest, hvalues]
            simp [valuedLine, Line.add, valuedAll_ofSimple]
          · rw [valuedAll_cons, hrest, hvalues, halone, valued_line]
            simp [valuedLine]
      · rename_i hsimple
        rw [valuedAll_append, valuedAll_lineIfAny, valuedAll_cons, hrest,
          valued_ofCompound text t (by simpa using hsimple)]
        simp [valuedLine]

theorem valued_ofCompound (text : Text) (t : Tree) (h : t.kind.isSimple = false) :
    valued false (ofCompound text t) = placesOf (Tree.values t) := by
  cases t with
  | node k r a b cs =>
    have hk : k.isSimple = false := h
    have hdecorated := valuedAll_ofDecorated text cs
    have hclauses := fun definition => valuedAll_ofClauses text definition cs
    rw [ofCompound, Tree.values, hk]
    split
    · simp [valued, hdecorated]
    · split
      · simp [valued, hclauses]
      · rename_i hcompound
        have hdefinition : (k == .functionDefinition) = false := by
          cases k <;> simp_all [Kind.isCompound]
        simp [valued, hclauses, hdefinition]

theorem valuedAll_ofDecorated (text : Text) (ts : List Tree) :
    valuedAll false (ofDecorated text ts) = placesOf (Tree.decoratedValues ts) := by
  cases ts with
  | nil => rw [ofDecorated, Tree.decoratedValues, valuedAll_nil, placesOf_nil]
  | cons t ts =>
    have hrest := valuedAll_ofDecorated text ts
    rw [ofDecorated, Tree.decoratedValues]
    split
    · rename_i hk
      have hk : t.kind = .comment := by simpa using hk
      simp [hrest, hk, Kind.isCompound]
    · cases hk : t.kind.isCompound with
      | true =>
        have hsimple : t.kind.isSimple = false := by
          cases hs : t.kind.isSimple with
          | false => rfl
          | true => rw [Kind.not_isCompound_of_isSimple hs] at hk; cases hk
        simp [valued_ofCompound text t hsimple, hrest]
      | false => simp [valued_outside, hrest]

theorem valuedAll_ofClauses (text : Text) (definition : Bool) (ts : List Tree) :
    valuedAll false (ofClauses text definition ts) = placesOf (Tree.partValues definition ts) := by
  cases ts with
  | nil => rw [ofClauses, Tree.partValues, valuedAll_nil, placesOf_nil]
  | cons t ts =>
    cases t with
    | node k r a b cs =>
      have hrest := valuedAll_ofClauses text definition ts
      have hbody := valuedAll_ofStatements text (isInline text cs) none cs
      have hclause := valuedAll_ofClauses text false cs
      rw [ofClauses, Tree.partValues]
      split
      · rename_i hk
        have hk : k = .comment := by simpa using hk
        simp [hrest, hk, Kind.isClause]
      · split
        · simp [valued, hbody, hrest, valuedLine]
        · split
          · rw [valuedAll_append, valuedAll_flatMap fun u _ => valuedAll_ofParameter u, hrest,
              placesOf_append]
          · split
            · simp [valued, hclause, hrest]
            · simp [valued_outside, hrest]

end

/-- What a walk through a source leaves in a value are the nodes of the values of its tree. -/
theorem valuedAll_ofSource (s : Source) :
    valuedAll false (ofSource s) = placesOf (Tree.bodyValues s.tree.children) :=
  valuedAll_ofStatements s.text false none s.tree.children

end Outline

end PointMutation
