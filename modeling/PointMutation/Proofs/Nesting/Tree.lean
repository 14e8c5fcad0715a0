import PointMutation.Syntax.Tree

/-!
# Nested trees

A tree is nested if the nodes below each node lie inside it, in the order of the text, none of
them overlapping another. Nested lists of trees can be put one behind the other, and a node over
the fragment that it is made of is nested if the fragment is.
-/

namespace PointMutation

namespace Tree

mutual

/-- The nodes below lie inside the node, one behind the other, and so on further down. -/
def Nested : Tree → Prop
  | .node _ _ start stop children => NestedIn start stop children

/-- Nested trees one behind the other, all of them between two places. -/
def NestedIn : Nat → Nat → List Tree → Prop
  | start, stop, [] => start ≤ stop
  | start, stop, t :: ts => start ≤ t.start ∧ Nested t ∧ NestedIn t.stop stop ts

end

@[simp]
theorem nested_node {k : Kind} {r : Option Role} {a b : Nat} {cs : List Tree} :
    Nested (.node k r a b cs) ↔ NestedIn a b cs := by
  rw [Nested]

@[simp]
theorem nestedIn_nil {a b : Nat} : NestedIn a b [] ↔ a ≤ b := by
  rw [NestedIn]

@[simp]
theorem nestedIn_cons {a b : Nat} {t : Tree} {ts : List Tree} :
    NestedIn a b (t :: ts) ↔ a ≤ t.start ∧ Nested t ∧ NestedIn t.stop b ts := by
  rw [NestedIn]

mutual

theorem Nested.le {t : Tree} (h : Nested t) : t.start ≤ t.stop := by
  cases t with
  | node k r a b cs => exact NestedIn.le (nested_node.mp h)

theorem NestedIn.le {a b : Nat} {ts : List Tree} (h : NestedIn a b ts) : a ≤ b := by
  cases ts with
  | nil => exact nestedIn_nil.mp h
  | cons t ts =>
    obtain ⟨ha, ht, hts⟩ := nestedIn_cons.mp h
    have hle := Nested.le ht
    have hb := NestedIn.le hts
    omega

end

theorem Nested.children {t : Tree} (h : Nested t) : NestedIn t.start t.stop t.children := by
  cases t with
  | node k r a b cs => exact nested_node.mp h

theorem nested_iff {t : Tree} : Nested t ↔ NestedIn t.start t.stop t.children := by
  cases t with
  | node k r a b cs => exact nested_node

/-- A wider stretch holds the trees as well. -/
theorem NestedIn.mono {a a' b b' : Nat} {ts : List Tree} (h : NestedIn a b ts) (ha : a' ≤ a)
    (hb : b ≤ b') : NestedIn a' b' ts := by
  induction ts generalizing a a' with
  | nil =>
    have := nestedIn_nil.mp h
    exact nestedIn_nil.mpr (by omega)
  | cons t ts ih =>
    obtain ⟨hs, ht, hts⟩ := nestedIn_cons.mp h
    exact nestedIn_cons.mpr ⟨by omega, ht, ih hts (Nat.le_refl _)⟩

theorem NestedIn.append {a b c : Nat} {ts us : List Tree} (h : NestedIn a b ts)
    (h' : NestedIn b c us) : NestedIn a c (ts ++ us) := by
  induction ts generalizing a with
  | nil => exact h'.mono (nestedIn_nil.mp h) (Nat.le_refl _)
  | cons t ts ih =>
    obtain ⟨hs, ht, hts⟩ := nestedIn_cons.mp h
    exact nestedIn_cons.mpr ⟨hs, ht, ih hts⟩

theorem NestedIn.sublist {a b : Nat} {ts us : List Tree} (h : NestedIn a b us)
    (hs : ts.Sublist us) : NestedIn a b ts := by
  induction hs generalizing a with
  | slnil => exact h
  | cons u _ ih =>
    obtain ⟨ha, hu, hus⟩ := nestedIn_cons.mp h
    have := hu.le
    exact (ih hus).mono (by omega) (Nat.le_refl _)
  | cons_cons u _ ih =>
    obtain ⟨ha, hu, hus⟩ := nestedIn_cons.mp h
    exact nestedIn_cons.mpr ⟨ha, hu, ih hus⟩

theorem NestedIn.singleton {a b : Nat} {t : Tree} (h : Nested t) (ha : a ≤ t.start)
    (hb : t.stop ≤ b) : NestedIn a b [t] :=
  nestedIn_cons.mpr ⟨ha, h, nestedIn_nil.mpr hb⟩

/-- What a nested list says of one of its trees. -/
theorem NestedIn.of_mem {a b : Nat} {t : Tree} {ts : List Tree} (h : NestedIn a b ts)
    (hm : t ∈ ts) : a ≤ t.start ∧ t.stop ≤ b ∧ Nested t := by
  have h' := h.sublist (List.singleton_sublist.mpr hm)
  obtain ⟨ha, ht, hb⟩ := nestedIn_cons.mp h'
  exact ⟨ha, nestedIn_nil.mp hb, ht⟩

theorem Nested.parts {t : Tree} (h : Nested t) : NestedIn t.start t.stop t.parts :=
  h.children.sublist List.filter_sublist

end Tree

end PointMutation
