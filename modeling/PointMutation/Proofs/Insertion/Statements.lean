import PointMutation.Proofs.Insertion.Lines
import PointMutation.Proofs.Insertion.Setup

/-!
# Statements around an insertion

Each line that a walk leaves begins with a simple statement of the file or of a body
(`Outline.isHead_of_mem_spots`). So a declaration is put in front of a statement, and the text of
each node of the source is found again, in its place or behind what was put in, but for the nodes
around the body of that statement: those have the declaration among their text
(`Insertion.pass_keeps_statements`).

That is all the text says. Which body the declaration belongs to is decided when the text is read
again. A line that goes on behind a backslash may begin further to the left than its body, and is
then no part of it any more (`Insertion.pass_moves_statement_out`).
-/

namespace PointMutation

namespace Text

/-- The text with something put in at a place. -/
def put (t ins : Text) (p : Nat) : Text := t.take p ++ ins ++ t.drop p

variable {t ins : Text} {a b p : Nat}

theorem take_put (hb : b ≤ p) (hp : p ≤ t.length) : (put t ins p).take b = t.take b := by
  have hlength : (t.take p).length = p := List.length_take_of_le hp
  rw [put, List.append_assoc, List.take_append_of_le_length (by omega), List.take_take,
    Nat.min_eq_left hb]

theorem slice_put_before (hb : b ≤ p) (hp : p ≤ t.length) :
    slice (put t ins p) a b = slice t a b := by
  rw [slice, slice, ← List.drop_take, ← List.drop_take, take_put hb hp]

theorem drop_put (hp : p ≤ t.length) : (put t ins p).drop (p + ins.length) = t.drop p := by
  have hlength : (t.take p ++ ins).length = p + ins.length := by
    rw [List.length_append, List.length_take_of_le hp]
  rw [put, ← hlength, List.drop_left]

theorem slice_put_behind (ha : p ≤ a) (hp : p ≤ t.length) :
    slice (put t ins p) (a + ins.length) (b + ins.length) = slice t a b := by
  have hdrop : (put t ins p).drop (a + ins.length) = t.drop a := by
    have hsum : a + ins.length = p + ins.length + (a - p) := by omega
    rw [hsum, ← List.drop_drop, drop_put hp, List.drop_drop, Nat.add_sub_cancel' ha]
  rw [slice, slice, hdrop, Nat.add_sub_add_right]

theorem slice_put_around (ha : a ≤ p) (hb : p ≤ b) (hp : p ≤ t.length) :
    slice (put t ins p) a (b + ins.length) = slice t a p ++ ins ++ slice t p b := by
  have hins : slice (put t ins p) p (p + ins.length) = ins := by
    have hlength : (t.take p).length = p := List.length_take_of_le hp
    rw [slice, put, List.append_assoc, List.drop_left' hlength, Nat.add_sub_cancel_left,
      List.take_left]
  rw [← slice_append ha (show p ≤ b + ins.length by omega),
    ← slice_append (Nat.le_add_right p ins.length) (Nat.add_le_add_right hb _),
    slice_put_before (Nat.le_refl p) hp, hins, slice_put_behind (Nat.le_refl p) hp,
    List.append_assoc]

end Text

/-! ## What lines begin with -/

namespace Tree

/-- A simple statement among the nodes right below a node, which begins at a place. -/
def IsHead (b : Tree) (p : Nat) (u : Tree) : Prop :=
  u ∈ b.children ∧ u.kind.isSimple = true ∧ u.start = p

/-- Somewhere within a node a statement of a body begins at a place. -/
def HasHead (t : Tree) (p : Nat) : Prop :=
  ∃ b u, Within t b ∧ b.kind = .block ∧ IsHead b p u

theorem HasHead.child {t c : Tree} {p : Nat} (hc : c ∈ t.children) (h : HasHead c p) :
    HasHead t p := by
  obtain ⟨b, u, hb, hkind, hu⟩ := h
  exact ⟨b, u, .child hc hb, hkind, hu⟩

end Tree

namespace Outline

open PointMutation.Tree (HasHead IsHead)

/-- A line begins with a statement of what the walk came by as a body, or of a body within. -/
theorem Leaves.hasHead {mode : Mode} {t : Tree} {x : Spot} (h : Leaves mode t x) :
    (mode = .body ∧ ∃ u, IsHead t x.start u) ∨ HasHead t x.start := by
  induction h with
  | line h =>
    obtain ⟨u, us, -, hu, hsimple, hstart⟩ := h.head
    exact .inl ⟨rfl, u, Tree.mem_children_of_mem_parts hu, hsimple, hstart⟩
  | statement ht _ _ ih =>
    exact .inr ((ih.resolve_left (by simp)).child (Tree.mem_children_of_mem_parts ht))
  | decorated _ hu _ ih => exact .inr ((ih.resolve_left (by simp)).child hu)
  | compound _ _ ih => exact .inr (ih.resolve_left (by simp))
  | @block t b x hb hk _ ih =>
    rcases ih with ⟨-, u, hu⟩ | hhead
    · exact .inr ⟨b, u, .child hb (.self b), hk, hu⟩
    · exact .inr (hhead.child hb)
  | clause hu _ _ ih => exact .inr ((ih.resolve_left (by simp)).child hu)

/-- Each line begins with a simple statement of the file or of a body. -/
theorem isHead_of_mem_spots {s : Source} {x : Spot} (hx : x ∈ spotsAll (ofSource s)) :
    ∃ b u, Tree.Within s.tree b ∧ (b = s.tree ∨ b.kind = .block) ∧ IsHead b x.start u := by
  rcases (leaves_ofSource hx).hasHead with ⟨-, u, hu⟩ | ⟨b, u, hb, hkind, hu⟩
  · exact ⟨s.tree, u, .self _, .inl rfl, hu⟩
  · exact ⟨b, u, hb, .inr hkind, hu⟩

end Outline

/-! ## The nodes of the source in the new text -/

namespace Insertion

open Outline (Spot)
open PointMutation.Tree (IsHead Within)

/-- How a node of a source is found again once something was put in at a place of a body: where
it stood, further behind, or with what was put in inside it. -/
inductive IsKept (s : Source) (ins : Text) (p : Nat) (b t : Tree) : Prop
  | before (place : t.stop ≤ p)
      (text : Text.slice (Text.put s.text ins p) t.start t.stop =
        Text.slice s.text t.start t.stop)
  | behind (place : p ≤ t.start)
      (text : Text.slice (Text.put s.text ins p) (t.start + ins.length) (t.stop + ins.length) =
        Text.slice s.text t.start t.stop)
  | around (body : Within t b)
      (text : Text.slice (Text.put s.text ins p) t.start (t.stop + ins.length) =
        Text.slice s.text t.start p ++ ins ++ Text.slice s.text p t.stop)

theorem isKept_of_isHead {s : Source} {b u t : Tree} {p : Nat} (ins : Text)
    (hb : Within s.tree b) (hu : IsHead b p u) (hp : p ≤ s.text.length) (ht : Within s.tree t) :
    IsKept s ins p b t := by
  obtain ⟨-, -, hnested⟩ := s.nested
  obtain ⟨hmem, -, rfl⟩ := hu
  by_cases hbefore : t.stop ≤ u.start
  · exact .before hbefore (Text.slice_put_before hbefore hp)
  by_cases hbehind : u.start ≤ t.start
  · exact .behind hbehind (Text.slice_put_behind hbehind hp)
  · exact .around (hnested.within_of_across_child ht hb hmem (by omega) (by omega))
      (Text.slice_put_around (by omega) (by omega) hp)

/-- What is put in with a declaration: the declaration, a line end and the blanks in front of the
line. -/
def insertedText (s : Source) (d : Declaration) (x : Spot) : Text :=
  d.text ++ s.newline ++ Fold.indentBefore s.text x.start

theorem inserted_eq_put (s : Source) (d : Declaration) (x : Spot) :
    inserted s d x = Text.put s.text (insertedText s d x) x.start := by
  simp [inserted, insertedText, Text.put]

/-- A declaration stands in front of a statement of the file or of a body, and every node of the
source is found again. -/
structure IsPlaced (s : Source) (d : Declaration) (x : Spot) (b u : Tree) : Prop where
  within : Within s.tree b
  body : b = s.tree ∨ b.kind = .block
  head : IsHead b x.start u
  text : inserted s d x = Text.put s.text (insertedText s d x) x.start
  kept : ∀ t, Within s.tree t → IsKept s (insertedText s d x) x.start b t

theorem isPlaced_of_mem_spots {s : Source} (d : Declaration) {x : Spot} (hx : x ∈ spots s) :
    ∃ b u, IsPlaced s d x b u := by
  obtain ⟨b, u, hb, hbody, hu⟩ := Outline.isHead_of_mem_spots (List.mem_filter.mp hx).1
  obtain ⟨hspan, hstop⟩ := (spots_bounds s).1 x hx
  exact ⟨b, u, hb, hbody, hu, inserted_eq_put s d x,
    fun t ht => isKept_of_isHead _ hb hu (by omega) ht⟩

/-- The texts of the statements of a file. -/
def statementTexts (s : Source) : List Text :=
  s.tree.children.map fun t => Text.slice s.text t.start t.stop

theorem statementTexts_of_readTree {s : Source} {ts : List Text}
    (h : (Syntax.readTree s.text).map
      (fun r => r.children.map fun t => Text.slice s.text t.start t.stop) = some ts) :
    statementTexts s = ts :=
  Source.tree_of_readTree h

end Insertion

end PointMutation
