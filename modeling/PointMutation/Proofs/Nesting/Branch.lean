import PointMutation.Proofs.Nesting.Lengths
import PointMutation.Proofs.Nesting.Tree
import PointMutation.Repair.Diagnosis

/-!
# Nested branches

A branch is nested if its parts lie one behind the other within its stretch. The trees that it is
shown as are nested then.
-/

namespace PointMutation

namespace Repair

open PointMutation.Grammar

/-- Place of the first character. -/
def Branch.start (b : Branch) : Nat := b.summary.start

/-- Place after the last character. -/
def Branch.stop (b : Branch) : Nat := b.summary.stop

mutual

/-- The parts lie inside the branch, one behind the other, and so on further down. -/
def Branch.Nested : Branch → Prop
  | .node s ps => PartsIn s.start s.stop ps

/-- Nested branches one behind the other, all of them between two places. -/
def PartsIn : Nat → Nat → List Branch → Prop
  | a, b, [] => a ≤ b
  | a, b, p :: ps => a ≤ p.start ∧ p.Nested ∧ PartsIn p.stop b ps

end

@[simp]
theorem nested_node {s : Summary} {ps : List Branch} :
    (Branch.node s ps).Nested ↔ PartsIn s.start s.stop ps := by
  rw [Branch.Nested]

@[simp]
theorem partsIn_nil {a b : Nat} : PartsIn a b [] ↔ a ≤ b := by
  rw [PartsIn]

@[simp]
theorem partsIn_cons {a b : Nat} {p : Branch} {ps : List Branch} :
    PartsIn a b (p :: ps) ↔ a ≤ p.start ∧ p.Nested ∧ PartsIn p.stop b ps := by
  rw [PartsIn]

mutual

theorem Branch.Nested.le {b : Branch} (h : b.Nested) : b.start ≤ b.stop := by
  cases b with
  | node s ps => exact PartsIn.le (nested_node.mp h)

theorem PartsIn.le {a b : Nat} {ps : List Branch} (h : PartsIn a b ps) : a ≤ b := by
  cases ps with
  | nil => exact partsIn_nil.mp h
  | cons p ps =>
    obtain ⟨ha, hp, hps⟩ := partsIn_cons.mp h
    have hle := Branch.Nested.le hp
    have hb := PartsIn.le hps
    omega

end

theorem Branch.Nested.parts {b : Branch} (h : b.Nested) : PartsIn b.start b.stop b.parts := by
  cases b with
  | node s ps => exact nested_node.mp h

theorem nested_iff {b : Branch} : b.Nested ↔ PartsIn b.start b.stop b.parts := by
  cases b with
  | node s ps => exact nested_node

theorem PartsIn.mono {a a' b b' : Nat} {ps : List Branch} (h : PartsIn a b ps) (ha : a' ≤ a)
    (hb : b ≤ b') : PartsIn a' b' ps := by
  induction ps generalizing a a' with
  | nil =>
    have := partsIn_nil.mp h
    exact partsIn_nil.mpr (by omega)
  | cons p ps ih =>
    obtain ⟨hs, hp, hps⟩ := partsIn_cons.mp h
    exact partsIn_cons.mpr ⟨by omega, hp, ih hps (Nat.le_refl _)⟩

theorem PartsIn.singleton {a b : Nat} {p : Branch} (h : p.Nested) (ha : a ≤ p.start)
    (hb : p.stop ≤ b) : PartsIn a b [p] :=
  partsIn_cons.mpr ⟨ha, h, partsIn_nil.mpr hb⟩

/-- Parts in a row can be parted at any place. -/
theorem partsIn_append {a b : Nat} {ps qs : List Branch} :
    PartsIn a b (ps ++ qs) ↔ ∃ m, PartsIn a m ps ∧ PartsIn m b qs := by
  induction ps generalizing a with
  | nil =>
    constructor
    · intro h
      exact ⟨a, partsIn_nil.mpr (Nat.le_refl a), h⟩
    · rintro ⟨m, hm, h⟩
      exact h.mono (partsIn_nil.mp hm) (Nat.le_refl b)
  | cons p ps ih =>
    constructor
    · intro h
      obtain ⟨ha, hp, hrest⟩ := partsIn_cons.mp h
      obtain ⟨m, hps, hqs⟩ := ih.mp hrest
      exact ⟨m, partsIn_cons.mpr ⟨ha, hp, hps⟩, hqs⟩
    · rintro ⟨m, h, hqs⟩
      obtain ⟨ha, hp, hps⟩ := partsIn_cons.mp h
      exact partsIn_cons.mpr ⟨ha, hp, ih.mpr ⟨m, hps, hqs⟩⟩

/-! ## Trees of branches -/

mutual

theorem nestedIn_trees (g : Grammar) {above : Kind} {guise : Option Guise}
    {role : Option String} {b : Branch} (h : b.Nested) :
    Tree.NestedIn b.start b.stop (b.trees g above guise role) := by
  cases b with
  | node s ps =>
    have hps := nested_node.mp h
    have hle := hps.le
    have hnode : ∀ k r, Tree.NestedIn s.start s.stop
        [.node k r s.start s.stop (partTrees g k s.traces none ps)] := by
      intro k r
      refine .singleton (Tree.nested_node.mpr ?_) (Nat.le_refl _) (Nat.le_refl _)
      exact nestedIn_partTrees g hps
    rw [Branch.trees.eq_def]
    dsimp only
    split
    · exact Tree.nestedIn_nil.mpr hle
    · exact hnode _ _
    · split
      · refine .singleton (Tree.nested_node.mpr ?_) (Nat.le_refl _) (Nat.le_refl _)
        exact Tree.nestedIn_nil.mpr hle
      · exact hnode _ _
      · exact Tree.nestedIn_nil.mpr hle
    · exact nestedIn_partTrees g hps

theorem nestedIn_partTrees (g : Grammar) {above : Kind} {traces : List Trace}
    {role : Option String} {a b : Nat} {ps : List Branch} (h : PartsIn a b ps) :
    Tree.NestedIn a b (partTrees g above traces role ps) := by
  cases ps with
  | nil =>
    rw [partTrees]
    exact Tree.nestedIn_nil.mpr (partsIn_nil.mp h)
  | cons p ps =>
    obtain ⟨ha, hp, hps⟩ := partsIn_cons.mp h
    rw [partTrees]
    split
    · exact ((nestedIn_trees g hp).mono ha (Nat.le_refl _)).append (nestedIn_partTrees g hps)
    · exact ((nestedIn_trees g hp).mono ha (Nat.le_refl _)).append (nestedIn_partTrees g hps)

end

/-! ## Making branches -/

theorem addParts_span (g : Grammar) (s : Summary) (traces : List Trace) (bs : List Branch) :
    (addParts g s traces bs).start = s.start ∧ (addParts g s traces bs).stop = s.stop := by
  induction bs generalizing s traces with
  | nil => exact ⟨rfl, rfl⟩
  | cons b bs ih => exact ih _ _

/-- Parts end where the last of them ends. -/
theorem PartsIn.last {a b : Nat} {ps : List Branch} {l : Branch} (h : PartsIn a b ps)
    (hl : ps.getLast? = some l) : PartsIn a l.stop ps ∧ l.stop ≤ b := by
  obtain ⟨ps', rfl⟩ := List.getLast?_eq_some_iff.mp hl
  obtain ⟨m, hps, hlast⟩ := partsIn_append.mp h
  obtain ⟨ha, hn, hb⟩ := partsIn_cons.mp hlast
  refine ⟨partsIn_append.mpr ⟨m, hps, .singleton hn ha (Nat.le_refl _)⟩, partsIn_nil.mp hb⟩

/-- A nested branch between two places. -/
structure Branch.In (a b : Nat) (x : Branch) : Prop where
  start : a ≤ x.start
  nested : x.Nested
  stop : x.stop ≤ b

/-- A branch that is made of parts lies where they lie. -/
theorem make_in (g : Grammar) (site : Site) (label : Label) (traces : List Trace)
    {a b place : Nat} {ps : List Branch} (h : PartsIn a b ps) (ha : a ≤ place) (hb : place ≤ b) :
    (Branch.make g site label traces ps place).In a b := by
  have hspan := addParts_span g
    { label, traces
      lead := (ps.head?.map (·.summary.lead)).getD place
      start := (ps.head?.map (·.summary.start)).getD place
      stop := (ps.getLast?.map (·.summary.stop)).getD place
      shown := label.isShown g } traces ps
  have hstart : (Branch.make g site label traces ps place).start =
      (ps.head?.map Branch.start).getD place := hspan.1
  have hstop : (Branch.make g site label traces ps place).stop =
      (ps.getLast?.map Branch.stop).getD place := hspan.2
  have hparts : (Branch.make g site label traces ps place).parts = ps := rfl
  have hnested : PartsIn ((ps.head?.map Branch.start).getD place)
      ((ps.getLast?.map Branch.stop).getD place) ps ∧
      a ≤ (ps.head?.map Branch.start).getD place ∧
      (ps.getLast?.map Branch.stop).getD place ≤ b := by
    cases hl : ps.getLast? with
    | none =>
      obtain rfl := List.getLast?_eq_none_iff.mp hl
      exact ⟨partsIn_nil.mpr (Nat.le_refl _), ha, hb⟩
    | some l =>
      obtain ⟨hlast, hle⟩ := h.last hl
      cases ps with
      | nil => cases hl
      | cons p ps =>
        obtain ⟨hp, hn, hps⟩ := partsIn_cons.mp hlast
        exact ⟨partsIn_cons.mpr ⟨Nat.le_refl _, hn, hps⟩, hp, hle⟩
  refine ⟨?_, nested_iff.mpr ?_, ?_⟩
  · rw [hstart]
    exact hnested.2.1
  · rw [hstart, hstop, hparts]
    exact hnested.1
  · rw [hstop]
    exact hnested.2.2

/-! ## Branches between two places -/

namespace Branch.In

variable {a a' b b' : Nat} {x : Branch}

theorem mono (h : x.In a b) (ha : a' ≤ a) (hb : b ≤ b') : x.In a' b' :=
  ⟨Nat.le_trans ha h.start, h.nested, Nat.le_trans h.stop hb⟩

theorem le (h : x.In a b) : a ≤ b :=
  Nat.le_trans h.start (Nat.le_trans h.nested.le h.stop)

theorem asExtra (h : x.In a b) : x.asExtra.In a b := by
  cases x with
  | node s ps => exact ⟨h.start, nested_node.mpr (nested_node.mp h.nested), h.stop⟩

theorem addWeight (h : x.In a b) (n : Int) : (x.addWeight n).In a b := by
  cases x with
  | node s ps => exact ⟨h.start, nested_node.mpr (nested_node.mp h.nested), h.stop⟩

theorem partsIn (h : x.In a b) : PartsIn a b [x] := .singleton h.nested h.start h.stop

theorem parts (h : x.In a b) : PartsIn a b x.parts := h.nested.parts.mono h.start h.stop

end Branch.In

/-- The branches in front of those that may stand anywhere, and those. -/
theorem splitExtras_append (bs : List Branch) :
    (Task.splitExtras bs).1 ++ (Task.splitExtras bs).2 = bs := by
  have hsplit : bs.reverse.takeWhile Branch.isExtra ++ bs.reverse.dropWhile Branch.isExtra =
      bs.reverse := List.takeWhile_append_dropWhile
  have hbs : bs = (bs.reverse.dropWhile Branch.isExtra).reverse ++
      (bs.reverse.takeWhile Branch.isExtra).reverse := by
    rw [← List.reverse_append, hsplit, List.reverse_reverse]
  have htake : ∀ front extras : List Branch, bs = front ++ extras →
      bs.take (bs.length - extras.length) = front := by
    rintro front extras rfl
    simp
  rw [Task.splitExtras, htake _ _ hbs]
  exact hbs.symm

theorem partsIn_splitExtras {a b : Nat} {bs : List Branch} (h : PartsIn a b bs) :
    ∃ m, PartsIn a m (Task.splitExtras bs).1 ∧ PartsIn m b (Task.splitExtras bs).2 := by
  rw [← splitExtras_append bs] at h
  exact partsIn_append.mp h

end Repair

end PointMutation
