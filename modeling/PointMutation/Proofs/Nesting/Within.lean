import PointMutation.Proofs.Nesting.Tree
import Mathlib.Data.List.Pairwise

/-!
# Nodes within nodes

Two nodes of a nested tree lie apart in the text unless one is within the other. So a node whose
stretch goes on across the start of another one has that one within it.
-/

namespace PointMutation

namespace Tree

/-- A node of a tree: the tree itself, or a node of one of its children. -/
inductive Within : Tree → Tree → Prop
  | self (t : Tree) : Within t t
  | child {t c u : Tree} (hc : c ∈ t.children) (h : Within c u) : Within t u

theorem Within.spec {t u : Tree} (h : Within t u) (ht : t.Nested) :
    u.Nested ∧ t.start ≤ u.start ∧ u.stop ≤ t.stop := by
  induction h with
  | self t => exact ⟨ht, Nat.le_refl _, Nat.le_refl _⟩
  | child hc _ ih =>
    obtain ⟨hstart, hstop, hnested⟩ := ht.children.of_mem hc
    obtain ⟨hu, hustart, hustop⟩ := ih hnested
    exact ⟨hu, by omega, by omega⟩

/-- One ends where the other begins or earlier. -/
def Apart (t u : Tree) : Prop := t.stop ≤ u.start ∨ u.stop ≤ t.start

theorem NestedIn.pairwise {a b : Nat} {ts : List Tree} (h : NestedIn a b ts) :
    ts.Pairwise Apart := by
  induction ts generalizing a with
  | nil => exact .nil
  | cons t ts ih =>
    obtain ⟨-, -, hts⟩ := nestedIn_cons.mp h
    exact .cons (fun u hu => .inl (hts.of_mem hu).1) (ih hts)

theorem NestedIn.apart_of_mem {a b : Nat} {ts : List Tree} {t u : Tree} (h : NestedIn a b ts)
    (ht : t ∈ ts) (hu : u ∈ ts) (hne : t ≠ u) : Apart t u :=
  have : Std.Symm Apart := ⟨fun _ _ h => h.symm⟩
  h.pairwise.forall ht hu hne

/-- Two nodes lie apart, or one is within the other. -/
theorem Nested.within_or_apart {r t u : Tree} (hr : r.Nested) (ht : Within r t)
    (hu : Within r u) : Within t u ∨ Within u t ∨ Apart t u := by
  induction ht with
  | self r => exact .inl hu
  | @child r c t hc ht ih =>
    cases hu with
    | self => exact .inr (.inl (.child hc ht))
    | @child _ d _ hd hu =>
      obtain ⟨-, -, hcnested⟩ := hr.children.of_mem hc
      obtain ⟨-, -, hdnested⟩ := hr.children.of_mem hd
      rcases eq_or_ne c d with rfl | hne
      · exact ih hcnested hu
      · have hsymm : Std.Symm Apart := ⟨fun _ _ h => h.symm⟩
        have hapart : Apart c d := hr.children.pairwise.forall hc hd hne
        obtain ⟨-, htstart, htstop⟩ := ht.spec hcnested
        obtain ⟨-, hustart, hustop⟩ := hu.spec hdnested
        refine .inr (.inr (hapart.imp (fun h => ?_) fun h => ?_)) <;> omega

/-- A node that goes on across the start of a child of another node has that other node within. -/
theorem Nested.within_of_across_child {r t b u : Tree} (hr : r.Nested) (ht : Within r t)
    (hb : Within r b) (hu : u ∈ b.children) (hstart : t.start < u.start)
    (hstop : u.start < t.stop) : Within t b := by
  obtain ⟨hnested, -, -⟩ := hb.spec hr
  obtain ⟨hbstart, hbstop, hunested⟩ := hnested.children.of_mem hu
  have hle := hunested.le
  rcases hr.within_or_apart ht hb with h | h | h
  · exact h
  · cases h with
    | self => exact .self _
    | @child _ c _ hc h =>
      -- within a child of the other node, it would begin behind `u` or end in front of it
      obtain ⟨-, -, hcnested⟩ := hnested.children.of_mem hc
      obtain ⟨-, hcstart, hcstop⟩ := h.spec hcnested
      rcases eq_or_ne c u with rfl | hne
      · omega
      · rcases hnested.children.apart_of_mem hc hu hne with h | h <;> omega
  · rcases h with h | h <;> omega

end Tree

end PointMutation
