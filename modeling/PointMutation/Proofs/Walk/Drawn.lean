import PointMutation.Proofs.Nesting.Within
import PointMutation.Proofs.Walk.Score
import PointMutation.Proofs.Wrapping.Places

/-!
# Outlines drawn from trees

What the outline of some trees can be is said once (`Outline.Drawn`): each part of it is drawn from
a node that no other part is drawn from, in the order of the trees. So a value holds only
expressions and a line only values and expressions (`Drawn.fits`), the expressions are nodes of the
trees with the same nodes below (`Drawn.expressions`), and no node comes twice (`Drawn.sublist`).
-/

namespace PointMutation

namespace Tree

mutual

/-- All nodes of a tree, each behind those below it. -/
def postorder : Tree → List Tree
  | .node k r a b cs => postorderAll cs ++ [.node k r a b cs]

/-- All nodes of several trees. -/
def postorderAll : List Tree → List Tree
  | [] => []
  | t :: ts => postorder t ++ postorderAll ts

end

theorem postorder_eq (t : Tree) : postorder t = postorderAll t.children ++ [t] := by
  cases t with
  | node k r a b cs => rw [postorder, children]

@[simp]
theorem postorderAll_append (ts us : List Tree) :
    postorderAll (ts ++ us) = postorderAll ts ++ postorderAll us := by
  induction ts with
  | nil => simp [postorderAll]
  | cons t ts ih => simp [postorderAll, ih]

@[simp]
theorem postorderAll_singleton (t : Tree) : postorderAll [t] = postorder t := by
  simp [postorderAll]

mutual

theorem nodes_sublist_postorder (t : Tree) : (nodes t).Sublist (postorder t) := by
  cases t with
  | node k r a b cs =>
    rw [nodes, postorder]
    refine .append ?_ (.refl _)
    split
    · exact List.nil_sublist _
    · exact nodesOf_sublist_postorderAll cs

theorem nodesOf_sublist_postorderAll (ts : List Tree) :
    (nodesOf ts).Sublist (postorderAll ts) := by
  cases ts with
  | nil => exact .refl _
  | cons t ts =>
    rw [nodesOf, postorderAll]
    refine .append ?_ (nodesOf_sublist_postorderAll ts)
    split
    · exact List.nil_sublist _
    · exact nodes_sublist_postorder t

end

theorem postorderAll_sublist {ts us : List Tree} (h : ts.Sublist us) :
    (postorderAll ts).Sublist (postorderAll us) := by
  induction h with
  | slnil => exact .refl _
  | cons u _ ih => exact ih.trans (List.sublist_append_right _ _)
  | cons_cons u _ ih => exact ih.append_left (postorder u)

/-- The nodes that a walk through an expression visits right below it. -/
def visited (t : Tree) : List Tree := if t.isQuotation then [] else t.parts

/-- A node of one of some trees. -/
def Among (ts : List Tree) (t : Tree) : Prop := ∃ u ∈ ts, Within u t

theorem Within.trans {t u v : Tree} (h : Within t u) (h' : Within u v) : Within t v := by
  induction h with
  | self t => exact h'
  | child hc _ ih => exact .child hc (ih h')

theorem Among.child {ts : List Tree} {t c : Tree} (h : Among ts t) (hc : c ∈ t.children) :
    Among ts c := by
  obtain ⟨u, hu, ht⟩ := h
  exact ⟨u, hu, ht.trans (.child hc (.self c))⟩

theorem among_of_mem {ts : List Tree} {t : Tree} (h : t ∈ ts) : Among ts t := ⟨t, h, .self t⟩

end Tree

namespace Outline

open Fold (Scope Fits FitsAll)
open PointMutation.Tree (Among)

/-- Outlines drawn from trees, where only some things may come. -/
inductive Drawn : Scope → List Tree → List Outline → Prop
  | nil (sc : Scope) : Drawn sc [] []
  | append {sc : Scope} {ts us : List Tree} {os ps : List Outline} (h : Drawn sc ts os)
    (h' : Drawn sc us ps) : Drawn sc (ts ++ us) (os ++ ps)
  | sublist {sc : Scope} {ts us : List Tree} {os : List Outline} (h : Drawn sc us os)
    (hs : us.Sublist ts) : Drawn sc ts os
  | children {sc : Scope} {t : Tree} {os : List Outline} (h : Drawn sc t.children os) :
    Drawn sc [t] os
  | expression (sc : Scope) (t : Tree) : Drawn sc [t] [ofExpression t]
  | value {sc : Scope} (hsc : sc ≠ .expressions) (site : Site) (t : Tree) :
    Drawn sc [t] [.value site (ofExpression t)]
  | line {ts : List Tree} {kinds : List Kind} {docstring : Bool} {start stop : Nat}
    {inner : List Outline} (h : Drawn .phrases ts inner) :
    Drawn .statements ts [.line kinds docstring start stop inner]
  | compound {ts : List Tree} {kind : Kind} {inner : List Outline}
    (h : Drawn .statements ts inner) : Drawn .statements ts [.compound kind inner]
  | block {sc : Scope} {ts : List Tree} {items : List Outline} (h : Drawn sc ts items) :
    Drawn sc ts [.block items]
  | group {sc : Scope} {ts : List Tree} {inner : List Outline} (h : Drawn sc ts inner) :
    Drawn sc ts [.group inner]

namespace Drawn

variable {sc : Scope} {t : Tree} {ts us : List Tree} {o : Outline} {os ps : List Outline}

theorem cons (h : Drawn sc [t] os) (h' : Drawn sc ts ps) : Drawn sc (t :: ts) (os ++ ps) :=
  h.append h'

theorem consOne (h : Drawn sc [t] [o]) (h' : Drawn sc ts ps) : Drawn sc (t :: ts) (o :: ps) :=
  h.append h'

/-- A tree of which the outline shows nothing. -/
theorem skip (t : Tree) (h : Drawn sc ts os) : Drawn sc (t :: ts) os :=
  h.sublist (List.sublist_cons_self t ts)

theorem none (ts : List Tree) : Drawn sc ts [] := (nil sc).sublist (List.nil_sublist ts)

theorem flatMap {f : Tree → List Outline} (h : ∀ t ∈ ts, Drawn sc [t] (f t)) :
    Drawn sc ts (ts.flatMap f) := by
  induction ts with
  | nil => exact nil sc
  | cons t ts ih =>
    rw [List.flatMap_cons]
    exact (h t (by simp)).cons (ih fun u hu => h u (by simp [hu]))

end Drawn

/-! ## Outlines of trees -/

section

variable {sc : Scope}

theorem drawn_ofExpressions (ts : List Tree) : Drawn sc ts (ofExpressions ts) := by
  induction ts with
  | nil => exact .nil sc
  | cons t ts ih =>
    rw [ofExpressions]
    split
    · exact ih.skip t
    · exact (Drawn.expression sc t).cons ih

mutual

theorem drawn_ofAssignment (hsc : sc ≠ .expressions) (annotated : Bool) (ts : List Tree) :
    Drawn sc ts (ofAssignment annotated ts) := by
  cases ts with
  | nil =>
    rw [ofAssignment]
    exact .nil sc
  | cons t ts =>
    rw [ofAssignment]
    exact (drawn_ofAssigned hsc annotated t).cons (drawn_ofAssignment hsc annotated ts)

theorem drawn_ofAssigned (hsc : sc ≠ .expressions) (annotated : Bool) (t : Tree) :
    Drawn sc [t] (ofAssigned annotated t) := by
  cases t with
  | node k r a b cs =>
    rw [ofAssigned.eq_def]
    dsimp only
    split
    · exact .expression sc _
    · exact .expression sc _
    · split
      · exact .children (drawn_ofAssignment hsc _ cs)
      · exact .value hsc _ _
    · exact .none _

end

theorem drawn_ofAugmented (hsc : sc ≠ .expressions) (t : Tree) : Drawn sc [t] (ofAugmented t) := by
  unfold ofAugmented
  split
  · exact .expression sc t
  · exact .value hsc _ t
  · exact .none _

theorem drawn_ofExpressionPart (hsc : sc ≠ .expressions) (t : Tree) :
    Drawn sc [t] (ofExpressionPart t) := by
  unfold ofExpressionPart
  split
  · exact .children (drawn_ofAssignment hsc _ _)
  · exact .children (.flatMap fun u _ => drawn_ofAugmented hsc u)
  · exact .expression sc _

theorem drawn_ofSimple (hsc : sc ≠ .expressions) (t : Tree) : Drawn sc [t] (ofSimple t) := by
  unfold ofSimple
  split
  · have hparts : Drawn sc t.parts (t.parts.flatMap ofExpressionPart) :=
      .flatMap fun u _ => drawn_ofExpressionPart hsc u
    exact .children (hparts.sublist List.filter_sublist)
  · have hparts : Drawn sc t.parts (t.parts.map fun c => .value .returned (ofExpression c)) := by
      rw [List.map_eq_flatMap]
      exact .flatMap fun u _ => .value hsc _ u
    exact .children (hparts.sublist List.filter_sublist)
  · exact .children (drawn_ofExpressions _)

theorem drawn_ofDefaultPart (hsc : sc ≠ .expressions) (t : Tree) :
    Drawn sc [t] (ofDefaultPart t) := by
  unfold ofDefaultPart
  split
  · exact .expression sc t
  · exact .expression sc t
  · exact .value hsc _ t
  · exact .none _

theorem drawn_ofParameter (hsc : sc ≠ .expressions) (t : Tree) : Drawn sc [t] (ofParameter t) := by
  unfold ofParameter
  split
  · exact .none _
  · exact .children (.flatMap fun u _ => drawn_ofDefaultPart hsc u)
  · exact .children (.flatMap fun u _ => drawn_ofDefaultPart hsc u)
  · exact .expression sc t

end

/-- A line that is being collected is drawn from the statements before. -/
def Line.DrawnFrom (ts : List Tree) (l : Line) : Prop :=
  ∀ sc, sc ≠ .expressions → Drawn sc ts l.inner

theorem Line.DrawnFrom.outline {ts : List Tree} {l : Line} (h : l.DrawnFrom ts) (inline : Bool) :
    Drawn .statements ts [l.outline inline] := by
  unfold Line.outline
  split
  · exact .group (h .statements (by decide))
  · exact .line (h .phrases (by decide))

theorem drawn_lineIfAny {ts : List Tree} {l : Option Line} (inline : Bool)
    (h : ∀ x ∈ l, x.DrawnFrom ts) : Drawn .statements ts (lineIfAny inline l) := by
  cases l with
  | none => exact .none ts
  | some x => exact (h x rfl).outline inline

mutual

/-- The statements behind the line that is being collected from those before. -/
theorem drawn_ofStatements (text : Text) (inline : Bool) {l : Option Line} (us : List Tree)
    (ts : List Tree) (hl : ∀ x ∈ l, x.DrawnFrom us) :
    Drawn .statements (us ++ ts) (ofStatements text inline l ts) := by
  cases ts with
  | nil =>
    rw [ofStatements, List.append_nil]
    exact drawn_lineIfAny inline hl
  | cons t ts =>
    have halone : Drawn .statements (t :: ts)
        (ofStatements text inline (some (.ofStatement t)) ts) := by
      refine drawn_ofStatements text inline [t] ts ?_
      rintro x ⟨⟩
      exact fun sc hsc => drawn_ofSimple hsc t
    rw [ofStatements.eq_def]
    dsimp only
    split
    · exact (drawn_ofStatements text inline us ts hl).sublist
        ((List.sublist_cons_self t ts).append_left us)
    · split
      · cases l with
        | none => exact halone.sublist (List.sublist_append_right us _)
        | some x =>
          dsimp only
          split
          · rw [List.append_cons]
            refine drawn_ofStatements text inline (us ++ [t]) ts ?_
            rintro y ⟨⟩
            exact fun sc hsc => (hl x rfl sc hsc).append (drawn_ofSimple hsc t)
          · exact ((hl x rfl).outline inline).append halone
      · refine (drawn_lineIfAny inline hl).append ((drawn_ofCompound text t).cons ?_)
        exact drawn_ofStatements text inline [] ts (by simp)

theorem drawn_ofCompound (text : Text) (t : Tree) : Drawn .statements [t] [ofCompound text t] := by
  cases t with
  | node k r a b cs =>
    rw [ofCompound]
    split
    · exact .children (.group (drawn_ofDecorated text cs))
    · split
      · exact .children (.compound (drawn_ofClauses text _ cs))
      · exact .children (.group (drawn_ofClauses text _ cs))

theorem drawn_ofDecorated (text : Text) (ts : List Tree) :
    Drawn .statements ts (ofDecorated text ts) := by
  cases ts with
  | nil =>
    rw [ofDecorated]
    exact .nil _
  | cons t ts =>
    rw [ofDecorated]
    split
    · exact (drawn_ofDecorated text ts).skip t
    · refine Drawn.consOne ?_ (drawn_ofDecorated text ts)
      split
      · exact drawn_ofCompound text t
      · exact .expression _ t

theorem drawn_ofClauses (text : Text) (definition : Bool) (ts : List Tree) :
    Drawn .statements ts (ofClauses text definition ts) := by
  cases ts with
  | nil =>
    rw [ofClauses]
    exact .nil _
  | cons t ts =>
    cases t with
    | node k r a b cs =>
      have hrest := drawn_ofClauses text definition ts
      rw [ofClauses]
      split
      · exact hrest.skip _
      split
      · refine Drawn.consOne (.children (.block ?_)) hrest
        exact drawn_ofStatements text _ [] cs (by simp)
      split
      · refine Drawn.cons (.children ?_) hrest
        exact .flatMap fun u _ => drawn_ofParameter (by decide) u
      split
      · exact Drawn.consOne (.children (.group (drawn_ofClauses text false cs))) hrest
      · exact (Drawn.expression _ _).cons hrest

end

/-! ## What outlines of trees are like -/

mutual

theorem fits_ofExpression (sc : Scope) (t : Tree) : Fits sc (ofExpression t) := by
  cases t with
  | node k r a b cs =>
    rw [ofExpression, Fits]
    split
    · trivial
    · exact fitsAll_ofExpressions .expressions cs

theorem fitsAll_ofExpressions (sc : Scope) (ts : List Tree) : FitsAll sc (ofExpressions ts) := by
  cases ts with
  | nil => trivial
  | cons t ts =>
    rw [ofExpressions]
    split
    · exact fitsAll_ofExpressions sc ts
    · exact ⟨fits_ofExpression sc t, fitsAll_ofExpressions sc ts⟩

end

/-- A value holds only expressions, and a line only values and expressions. -/
theorem Drawn.fits {sc : Scope} {ts : List Tree} {os : List Outline} (h : Drawn sc ts os) :
    FitsAll sc os := by
  induction h with
  | nil => trivial
  | append _ _ ih ih' => exact ih.append ih'
  | sublist _ _ ih => exact ih
  | children _ ih => exact ih
  | expression sc t => exact ⟨fits_ofExpression sc t, trivial⟩
  | value hsc site t => exact ⟨⟨hsc, fits_ofExpression _ t⟩, trivial⟩
  | line _ ih => exact ⟨⟨rfl, ih⟩, trivial⟩
  | compound _ ih => exact ⟨⟨rfl, ih⟩, trivial⟩
  | block _ ih => exact ⟨ih, trivial⟩
  | group _ ih => exact ⟨ih, trivial⟩

/-- No node is drawn twice, and the expressions come in the order of the nodes. -/
theorem Drawn.places_sublist {sc : Scope} {ts : List Tree} {os : List Outline}
    (h : Drawn sc ts os) :
    (valuedAll true os).Sublist ((Tree.postorderAll ts).map placeOf) := by
  have hexpression : ∀ t, (valued true (ofExpression t)).Sublist
      ((Tree.postorderAll [t]).map placeOf) := by
    intro t
    rw [valued_ofExpression, if_pos rfl, Tree.postorderAll_singleton]
    exact (Tree.nodes_sublist_postorder t).map placeOf
  induction h with
  | nil => simp [Tree.postorderAll]
  | append _ _ ih ih' =>
    rw [valuedAll_append, Tree.postorderAll_append, List.map_append]
    exact ih.append ih'
  | sublist _ hs ih => exact ih.trans ((Tree.postorderAll_sublist hs).map placeOf)
  | @children sc t os _ ih =>
    rw [Tree.postorderAll_singleton, Tree.postorder_eq, List.map_append]
    exact ih.trans (List.sublist_append_left _ _)
  | expression sc t => simpa using hexpression t
  | value hsc site t => simpa [valued] using hexpression t
  | line _ ih => simpa [valued] using ih
  | compound _ ih => simpa [valued] using ih
  | block _ ih => simpa [valued] using ih
  | group _ ih => simpa [valued] using ih

mutual

/-- All expressions of an outline are outlines of nodes among some trees. -/
def Shows (ts : List Tree) : Outline → Prop
  | .expression kind start stop inner =>
    (∃ t, Among ts t ∧ ofExpression t = .expression kind start stop inner) ∧ ShowsAll ts inner
  | .value _ inner => Shows ts inner
  | .line _ _ _ _ inner => ShowsAll ts inner
  | .compound _ inner => ShowsAll ts inner
  | .block items => ShowsAll ts items
  | .group inner => ShowsAll ts inner

def ShowsAll (ts : List Tree) : List Outline → Prop
  | [] => True
  | o :: os => Shows ts o ∧ ShowsAll ts os

end

mutual

theorem shows_ofExpression {ts : List Tree} {t : Tree} (h : Among ts t) :
    Shows ts (ofExpression t) := by
  cases t with
  | node k r a b cs =>
    have hinner : ShowsAll ts (ofExpressions cs) := showsAll_ofExpressions fun c hc => h.child hc
    refine ⟨⟨_, h, rfl⟩, ?_⟩
    split
    · trivial
    · exact hinner

theorem showsAll_ofExpressions {ts cs : List Tree} (h : ∀ c ∈ cs, Among ts c) :
    ShowsAll ts (ofExpressions cs) := by
  cases cs with
  | nil => trivial
  | cons c cs =>
    have hrest : ShowsAll ts (ofExpressions cs) :=
      showsAll_ofExpressions fun d hd => h d (List.mem_cons_of_mem c hd)
    rw [ofExpressions]
    split
    · exact hrest
    · exact ⟨shows_ofExpression (h c List.mem_cons_self), hrest⟩

end

theorem ShowsAll.append {ts : List Tree} {os ps : List Outline} (h : ShowsAll ts os)
    (h' : ShowsAll ts ps) : ShowsAll ts (os ++ ps) := by
  induction os with
  | nil => exact h'
  | cons o os ih => exact ⟨h.1, ih h.2⟩

theorem ShowsAll.of_mem {ts : List Tree} {os : List Outline} (h : ShowsAll ts os) {o : Outline}
    (ho : o ∈ os) : Shows ts o := by
  induction os with
  | nil => cases ho
  | cons p os ih =>
    rcases List.mem_cons.mp ho with rfl | ho
    · exact h.1
    · exact ih h.2 ho

theorem Drawn.shows {sc : Scope} {ts us : List Tree} {os : List Outline} (h : Drawn sc ts os)
    (hts : ∀ t ∈ ts, Among us t) : ShowsAll us os := by
  induction h with
  | nil => trivial
  | append _ _ ih ih' =>
    refine (ih fun t ht => hts t ?_).append (ih' fun t ht => hts t ?_)
    · exact List.mem_append_left _ ht
    · exact List.mem_append_right _ ht
  | sublist _ hs ih => exact ih fun t ht => hts t (hs.subset ht)
  | children _ ih => exact ih fun c hc => (hts _ (by simp)).child hc
  | expression sc t => exact ⟨shows_ofExpression (hts t (by simp)), trivial⟩
  | value hsc site t => exact ⟨shows_ofExpression (hts t (by simp)), trivial⟩
  | line _ ih => exact ⟨ih hts, trivial⟩
  | compound _ ih => exact ⟨ih hts, trivial⟩
  | block _ ih => exact ⟨ih hts, trivial⟩
  | group _ ih => exact ⟨ih hts, trivial⟩

theorem ofExpressions_eq (ts : List Tree) :
    ofExpressions ts = (ts.filter fun t => t.kind != .comment).map ofExpression := by
  induction ts with
  | nil => rw [ofExpressions, List.filter_nil, List.map_nil]
  | cons t ts ih =>
    rw [ofExpressions, ih]
    cases h : t.kind == .comment <;> simp [bne, h]

/-- Inside the outline of an expression are those of the nodes that are visited right below. -/
theorem ofExpression_eq (t : Tree) :
    ofExpression t = .expression t.kind t.start t.stop (t.visited.map ofExpression) := by
  cases t with
  | node k r a b cs =>
    rw [ofExpression, Tree.visited, ofExpressions_eq]
    cases h : k == .string || k == .concatenatedString <;>
      simp [Tree.kind, Tree.start, Tree.stop, Tree.isQuotation, Tree.parts, Tree.children, h]

end Outline

end PointMutation
