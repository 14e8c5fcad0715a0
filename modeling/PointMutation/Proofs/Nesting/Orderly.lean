import PointMutation.Proofs.Nesting.Tree
import PointMutation.Proofs.Rewriting.Clear

/-!
# Orderly trees

The nodes of expressions and simple statements begin and end with a token, so that no cut of a line
meets them halfway. Only bodies may be empty. A tree is orderly if bodies are found nowhere but in
compound statements and their clauses, and all nodes without a body begin and end with a token. Which
of them may stand below which is told by slots.
-/

namespace PointMutation

namespace Tree

/-- What a tree is a part of: of an expression or a simple statement, of a compound statement or one
of its clauses, of a decorated definition, or of a file or a body. -/
inductive Slot
  | inner | part | decorated | body

/-- A tree that may stand in a slot. -/
inductive Orderly (t : Text) : Slot → Tree → Prop
  /-- Nodes without a body may stand anywhere. -/
  | plain {s : Slot} {k : Kind} {r : Option Role} {a b : Nat} {cs : List Tree}
      (h : Text.Clear t a b) (hcs : ∀ c ∈ cs, Orderly t .inner c) : Orderly t s (.node k r a b cs)
  | block {r : Option Role} {a b : Nat} {cs : List Tree} (hcs : ∀ c ∈ cs, Orderly t .body c) :
      Orderly t .part (.node .block r a b cs)
  /-- A clause stands in its statement, or in a body that has only clauses. -/
  | clause {s : Slot} {k : Kind} {r : Option Role} {a b : Nat} {cs : List Tree}
      (hs : s = .part ∨ s = .body) (hk : k.isClause = true) (hcs : ∀ c ∈ cs, Orderly t .part c) :
      Orderly t s (.node k r a b cs)
  | compound {s : Slot} {k : Kind} {r : Option Role} {a b : Nat} {cs : List Tree}
      (hs : s = .decorated ∨ s = .body) (hk : k.isCompound = true)
      (hne : k ≠ .decoratedDefinition) (hcs : ∀ c ∈ cs, Orderly t .part c) :
      Orderly t s (.node k r a b cs)
  | decorated {r : Option Role} {a b : Nat} {cs : List Tree}
      (hcs : ∀ c ∈ cs, Orderly t .decorated c) :
      Orderly t .body (.node .decoratedDefinition r a b cs)

namespace Orderly

variable {t : Text} {u : Tree} {s : Slot}

/-- What may stand in an expression may stand anywhere. -/
theorem ofInner (h : Orderly t .inner u) : Orderly t s u := by
  cases h with
  | plain h hcs => exact .plain h hcs
  | clause hs => simp at hs
  | compound hs => simp at hs

theorem ofDecorated (h : Orderly t .decorated u) : Orderly t .body u := by
  cases h with
  | plain h hcs => exact .plain h hcs
  | clause hs => simp at hs
  | compound _ hk hne hcs => exact .compound (.inr rfl) hk hne hcs

/-- A decorator is an expression. -/
theorem ofOther (h : Orderly t .decorated u) (hk : u.kind.isCompound = false) :
    Orderly t .inner u := by
  cases h with
  | plain h hcs => exact .plain h hcs
  | clause hs => simp at hs
  | compound _ hcompound =>
    rw [kind] at hk
    rw [hk] at hcompound
    cases hcompound

theorem clear (h : Orderly t .inner u) : Text.Clear t u.start u.stop := by
  cases h with
  | plain h => exact h
  | clause hs => simp at hs
  | compound hs => simp at hs

theorem children (h : Orderly t .inner u) : ∀ c ∈ u.children, Orderly t .inner c := by
  cases h with
  | plain _ hcs => exact hcs
  | clause hs => simp at hs
  | compound hs => simp at hs

theorem parts (h : Orderly t .inner u) : ∀ c ∈ u.parts, Orderly t .inner c :=
  fun c hc => h.children c (mem_children_of_mem_parts hc)

theorem iff_inner :
    Orderly t .inner u ↔ Text.Clear t u.start u.stop ∧ ∀ c ∈ u.children, Orderly t .inner c := by
  refine ⟨fun h => ⟨h.clear, h.children⟩, fun h => ?_⟩
  cases u with
  | node k r a b cs => exact .plain h.1 h.2

theorem inner_iff {k : Kind} {r : Option Role} {a b : Nat} {cs : List Tree} :
    Orderly t .inner (.node k r a b cs) ↔ Text.Clear t a b ∧ ∀ c ∈ cs, Orderly t .inner c :=
  iff_inner

/-- In a body each simple statement is a node without a body. -/
theorem ofSimple (h : Orderly t .body u) (hk : u.kind.isSimple = true) : Orderly t .inner u := by
  cases h with
  | plain h hcs => exact .plain h hcs
  | clause _ hclause =>
    rw [kind] at hk
    rw [Kind.not_isClause_of_isSimple hk] at hclause
    cases hclause
  | compound _ hcompound =>
    rw [kind] at hk
    rw [Kind.not_isCompound_of_isSimple hk] at hcompound
    cases hcompound
  | decorated => cases hk

end Orderly

end Tree

end PointMutation
