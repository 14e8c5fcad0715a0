import PointMutation.Proofs.Mutator.Passes
import PointMutation.Proofs.Nesting.Reading
import PointMutation.Proofs.Wrapping.Pass

/-!
# The first literal

A literal is eligible if it stands in a value, wherever the value is in the tree (`Eligible`). A
pass wraps the eligible literal that comes first in the text, and leaves every other character as
it is. So a run needs one pass if there is an eligible literal, and makes all its passes in vain if
there is none.
-/

namespace PointMutation

namespace Wrapping

open Outline (Place placeOf)

/-- A literal of some kinds that stands in a value. Literals have no other literals in them. -/
structure Eligible (kinds : List LiteralKind) (s : Source) (e : Tree) : Prop where
  value : ∃ t ∈ s.tree.parts, ∃ v, Tree.ValueIn t v ∧ Tree.Inside v e
  literal : isLiteral kinds s.text (placeOf e) = true
  inmost : ∀ d, Tree.Below e d → isLiteral kinds s.text (placeOf d) = false

/-- The text with a literal in the call of a function. -/
def wrapped (s : Source) (e : Tree) : Text :=
  s.text.take e.start ++ "(lambda: ".toList ++ Text.slice s.text e.start e.stop ++
    ")()".toList ++ s.text.drop e.stop

/-- The source with a literal in the call of a function. -/
def wrappedAt (s : Source) (e : Tree) : Except Fault Source :=
  (Source.read (wrapped s e)).mapError fun fault =>
    .mismatch (wrappedText s.text (placeOf e)) (Fault.describe (.unparsable fault))

/-! ## Literals in their order -/

/-- The nodes of all values. -/
def nodesOf (s : Source) : List Tree := (Tree.bodyValues s.tree.children).flatMap Tree.nodes

theorem mem_nodesOf {s : Source} {e : Tree} :
    e ∈ nodesOf s ↔ ∃ t ∈ s.tree.parts, ∃ v, Tree.ValueIn t v ∧ Tree.Inside v e := by
  simp only [nodesOf, List.mem_flatMap, Tree.mem_bodyValues, Tree.mem_values, Tree.mem_nodes,
    Tree.mem_parts]
  constructor
  · rintro ⟨v, ⟨t, ht, hk, hv⟩, he⟩
    exact ⟨t, ⟨ht, hk⟩, v, hv, he⟩
  · rintro ⟨t, ⟨ht, hk⟩, v, hv, he⟩
    exact ⟨v, ⟨t, ht, hk, hv⟩, he⟩

theorem walked_nodesOf (s : Source) : Tree.Walked 0 s.text.length (nodesOf s) :=
  Tree.walked_flatMap (Tree.nestedIn_bodyValues s.nestedIn)

theorem first_eq (kinds : List LiteralKind) (s : Source) :
    first kinds s =
      ((nodesOf s).find? fun e => isLiteral kinds s.text (placeOf e)).map placeOf := by
  rw [first, Outline.valuedAll_ofSource, Outline.placesOf, List.find?_map]
  rfl

theorem first_of_none {kinds : List LiteralKind} {s : Source} (h : first kinds s = none) :
    ∀ e, ¬ Eligible kinds s e := by
  intro e he
  rw [first_eq, Option.map_eq_none_iff, List.find?_eq_none] at h
  exact h e (mem_nodesOf.mpr he.value) he.literal

/-- What the search finds is eligible, and every other eligible literal comes behind it. -/
theorem first_of_some {kinds : List LiteralKind} {s : Source} {x : Place}
    (h : first kinds s = some x) :
    ∃ e, placeOf e = x ∧ Eligible kinds s e ∧
      ∀ e', Eligible kinds s e' → e' = e ∨ e.stop ≤ e'.start := by
  rw [first_eq] at h
  obtain ⟨e, hfind, hx⟩ := Option.map_eq_some_iff.mp h
  obtain ⟨hliteral, front, behind, hsplit, hfront⟩ := List.find?_eq_some_iff_append.mp hfind
  have hwalked := walked_nodesOf s
  have hmem : e ∈ nodesOf s := by simp [hsplit]
  have hsettled := hwalked.settled
  have horder := hwalked.order
  rw [hsplit] at hsettled horder
  have hbelow := (Tree.settled_append.mp hsettled).2.1
  have hinmost : ∀ d, Tree.Below e d → isLiteral kinds s.text (placeOf d) = false := by
    intro d hd
    simpa using hfront d (by simpa using hbelow d hd)
  refine ⟨e, hx, ⟨mem_nodesOf.mp hmem, hliteral, hinmost⟩, fun e' he' => ?_⟩
  have hmem' := mem_nodesOf.mpr he'.value
  rw [hsplit] at hmem'
  rcases List.mem_append.mp hmem' with hin | hin
  · have hnot := hfront e' hin
    rw [he'.literal] at hnot
    cases hnot
  · rcases List.mem_cons.mp hin with rfl | hin
    · exact .inl rfl
    · have hpairs := (List.pairwise_append.mp horder).2.1
      rcases (List.pairwise_cons.mp hpairs).1 e' hin with hstop | hunder
      · exact .inr hstop
      · have hnot := he'.inmost e hunder
        rw [hliteral] at hnot
        cases hnot

theorem Eligible.bounds {kinds : List LiteralKind} {s : Source} {e : Tree}
    (h : Eligible kinds s e) : e.stop ≤ s.text.length :=
  ((walked_nodesOf s).bounds e (mem_nodesOf.mpr h.value)).2

/-- The kinds of literals that a configuration can ask for. -/
theorem wrappable_of_validate {c : WrappingConfig} (h : c.validate = .ok ()) :
    ∀ k ∈ c.kinds.1, k ∈ LiteralKind.wrappable := by
  intro k hk
  unfold WrappingConfig.validate at h
  split at h
  · cases h
  · split at h
    · cases h
    · rename_i hfind
      simpa using List.find?_eq_none.mp hfind k hk

theorem kind_of_isLiteral {kinds : List LiteralKind} {source : Text} {x : Place}
    (h : isLiteral kinds source x = true) :
    ∃ k ∈ kinds, Expression.literal? ⟨x.kind, .pure (Text.slice source x.start x.stop)⟩ =
      some k := by
  unfold isLiteral at h
  split at h
  · rename_i k hk
    exact ⟨k, by simpa using h, hk⟩
  · cases h

/-! ## Passes and runs -/

theorem rewritten_wrapping {s : Source} {e : Tree} (hb : e.stop ≤ s.text.length) :
    Fold.rewritten s [wrapping s.text (placeOf e)] = wrappedAt s e := by
  have htext : s.text.take e.start ++ wrappedText s.text (placeOf e) ++ s.text.drop e.stop =
      wrapped s e := by
    unfold wrappedText wrapped
    generalize "(lambda: ".toList = opening
    generalize ")()".toList = closing
    simp only [placeOf, List.append_assoc]
  have hrewritten := Fold.rewritten_singleton (e := wrapping s.text (placeOf e)) hb
  rw [hrewritten, wrappedAt]
  exact congrArg (fun t => (Source.read t).mapError _) htext

/-- Passes that find no literal. -/
theorem passes_of_none {s : Source} {m : Wrapping} (hworked : m.traversal.worked = false)
    (h : first m.kinds s = none) (made budget : Nat) :
    (Machine.passes s made budget m).1 = .ok ⟨s, false, made + budget⟩ := by
  induction budget generalizing made m with
  | zero => rfl
  | succ budget ih =>
    obtain ⟨hpass, hkinds, hworked'⟩ := pass_eq s hworked
    rw [h] at hpass hworked'
    have hanswer : Machine.pass s m = (.ok s, (Machine.pass s m).2) := Prod.ext hpass rfl
    rw [Machine.passes, hanswer]
    dsimp only
    rw [hworked', if_neg (by decide), ih hworked' (by rw [hkinds, h])]
    congr 2
    omega

/-- The first of some passes, if it finds a literal. -/
theorem passes_of_some {s : Source} {m : Wrapping} {x : Place}
    (hworked : m.traversal.worked = false) (h : first m.kinds s = some x) (made budget : Nat) :
    (Machine.passes s made (budget + 1) m).1 =
      (Machine.pass s m).1.map fun s' => ⟨s', true, made + 1⟩ := by
  obtain ⟨-, -, hworked'⟩ := pass_eq s hworked
  rw [h] at hworked'
  rw [Machine.passes]
  cases hpass : Machine.pass s m with
  | mk answer m' =>
    rw [hpass] at hworked'
    cases answer with
    | error fault => rfl
    | ok s' =>
      dsimp only
      rw [hworked']
      rfl

end Wrapping

end PointMutation
