import PointMutation.Proofs.Insertion.Spots
import PointMutation.Proofs.Rewriting.Refinement

/-!
# Removing lines

This is what a fold that only removes lines is meant to come to. The fold is asked about the source
as it stands (`Fold.removed`), since no line lies within an expression or another line
(`Outline.shallowAll_ofSource`). Of the lines that it wants to be gone the first one of a body of
which nothing else is left is vacated for `pass` (`Outline.vacated`).
-/

namespace PointMutation

namespace Outline

/-! ## Bodies of which nothing is left -/

/-- The line that an outline is, if it is one. -/
def asLine : Outline → Option Spot
  | .line kinds docstring start stop _ => some ⟨kinds, docstring, start, stop⟩
  | _ => none

/-- Whether an outline is one of the lines that are gone. -/
def isGone (gone : List Spot) (o : Outline) : Bool := o.asLine.any fun x => decide (x ∈ gone)

mutual

/-- The lines that make room for `pass`: the first one of each body of which all is gone. -/
def vacated (gone : List Spot) : Outline → List Spot
  | .expression _ _ _ inner => vacatedAll gone inner
  | .value _ inner => vacated gone inner
  | .line _ _ _ _ inner => vacatedAll gone inner
  | .compound _ inner => vacatedAll gone inner
  | .block items =>
    if items.all (isGone gone) then (items.take 1).filterMap asLine else vacatedAll gone items
  | .group inner => vacatedAll gone inner

/-- The lines of several outlines that make room for `pass`. -/
def vacatedAll (gone : List Spot) : List Outline → List Spot
  | [] => []
  | o :: os => vacated gone o ++ vacatedAll gone os

end

theorem mem_spots_of_asLine {o : Outline} {x : Spot} (h : o.asLine = some x) : x ∈ spots o := by
  cases o with
  | line kinds docstring start stop inner =>
    cases h
    simp [spots]
  | _ => cases h

theorem isGone_iff {gone : List Spot} {o : Outline} :
    isGone gone o = true ↔ ∃ x, o.asLine = some x ∧ x ∈ gone := by
  simp [isGone, Option.any_eq_true]

theorem mem_spotsAll_of_mem {o : Outline} {os : List Outline} {x : Spot} (ho : o ∈ os)
    (hx : x ∈ spots o) : x ∈ spotsAll os := by
  induction ho with
  | head => simp [hx]
  | tail _ _ ih => simp [ih]

theorem isGone_congr {gone gone' : List Spot} {o : Outline}
    (h : ∀ x ∈ spots o, x ∈ gone ↔ x ∈ gone') : isGone gone o = isGone gone' o := by
  rw [Bool.eq_iff_iff, isGone_iff, isGone_iff]
  refine exists_congr fun x => and_congr_right fun hx => h x (mem_spots_of_asLine hx)

mutual

/-- Only the lines of an outline matter for what is vacated in it. -/
theorem vacated_congr {gone gone' : List Spot} {o : Outline}
    (h : ∀ x ∈ spots o, x ∈ gone ↔ x ∈ gone') : vacated gone o = vacated gone' o := by
  cases o with
  | expression kind start stop inner =>
    rw [spots] at h
    rw [vacated, vacated, vacatedAll_congr h]
  | value site inner =>
    rw [spots] at h
    rw [vacated, vacated, vacated_congr h]
  | line kinds docstring start stop inner =>
    rw [spots] at h
    rw [vacated, vacated, vacatedAll_congr fun x hx => h x (List.mem_append_left _ hx)]
  | compound kind inner =>
    rw [spots] at h
    rw [vacated, vacated, vacatedAll_congr h]
  | block items =>
    rw [spots] at h
    have hall : items.all (isGone gone) = items.all (isGone gone') := by
      rw [Bool.eq_iff_iff, List.all_eq_true, List.all_eq_true]
      refine forall₂_congr fun o ho => ?_
      rw [isGone_congr fun x hx => h x (mem_spotsAll_of_mem ho hx)]
    rw [vacated, vacated, vacatedAll_congr h, hall]
  | group inner =>
    rw [spots] at h
    rw [vacated, vacated, vacatedAll_congr h]

theorem vacatedAll_congr {gone gone' : List Spot} {os : List Outline}
    (h : ∀ x ∈ spotsAll os, x ∈ gone ↔ x ∈ gone') : vacatedAll gone os = vacatedAll gone' os := by
  cases os with
  | nil => rw [vacatedAll, vacatedAll]
  | cons o os =>
    rw [spotsAll_cons] at h
    rw [vacatedAll, vacatedAll, vacated_congr fun x hx => h x (List.mem_append_left _ hx),
      vacatedAll_congr fun x hx => h x (List.mem_append_right _ hx)]

end

mutual

/-- What is vacated is gone. -/
theorem vacated_subset (gone : List Spot) (o : Outline) : vacated gone o ⊆ gone := by
  cases o with
  | expression kind start stop inner =>
    rw [vacated]
    exact vacatedAll_subset gone inner
  | value site inner =>
    rw [vacated]
    exact vacated_subset gone inner
  | line kinds docstring start stop inner =>
    rw [vacated]
    exact vacatedAll_subset gone inner
  | compound kind inner =>
    rw [vacated]
    exact vacatedAll_subset gone inner
  | block items =>
    rw [vacated]
    split
    · next hall =>
      intro x hx
      obtain ⟨o, ho, hline⟩ := List.mem_filterMap.mp hx
      obtain ⟨y, hy, hgone⟩ := isGone_iff.mp (List.all_eq_true.mp hall o (List.mem_of_mem_take ho))
      rw [hline] at hy
      cases hy
      exact hgone
    · exact vacatedAll_subset gone items
  | group inner =>
    rw [vacated]
    exact vacatedAll_subset gone inner

theorem vacatedAll_subset (gone : List Spot) (os : List Outline) : vacatedAll gone os ⊆ gone := by
  cases os with
  | nil => simp [vacatedAll]
  | cons o os =>
    rw [vacatedAll]
    exact List.append_subset.mpr ⟨vacated_subset gone o, vacatedAll_subset gone os⟩

end

/-- Nothing is vacated where there are no lines. -/
theorem vacated_of_spots (gone : List Spot) {o : Outline} (h : spots o = []) :
    vacated gone o = [] := by
  have hnone : vacated gone o = vacated [] o := vacated_congr (by simp [h])
  rw [hnone]
  exact List.subset_nil.mp (vacated_subset [] o)

theorem vacatedAll_of_spots (gone : List Spot) {os : List Outline} (h : spotsAll os = []) :
    vacatedAll gone os = [] := by
  have hnone : vacatedAll gone os = vacatedAll [] os := vacatedAll_congr (by simp [h])
  rw [hnone]
  exact List.subset_nil.mp (vacatedAll_subset [] os)

/-! ## Lines lie apart from expressions and other lines -/

mutual

/-- No line lies within an expression or another line. -/
def Shallow : Outline → Prop
  | .expression _ _ _ inner => spotsAll inner = []
  | .value _ inner => Shallow inner
  | .line _ _ _ _ inner => spotsAll inner = []
  | .compound _ inner => ShallowAll inner
  | .block items => ShallowAll items
  | .group inner => ShallowAll inner

/-- No line of several outlines lies within an expression or another line. -/
def ShallowAll : List Outline → Prop
  | [] => True
  | o :: os => Shallow o ∧ ShallowAll os

end

theorem ShallowAll.append {os ps : List Outline} (h : ShallowAll os) (h' : ShallowAll ps) :
    ShallowAll (os ++ ps) := by
  induction os with
  | nil => exact h'
  | cons o os ih => exact ⟨h.1, ih h.2⟩

mutual

theorem shallow_of_spots {o : Outline} (h : spots o = []) : Shallow o := by
  cases o with
  | expression kind start stop inner =>
    rw [spots] at h
    exact h
  | value site inner =>
    rw [spots] at h
    rw [Shallow]
    exact shallow_of_spots h
  | line kinds docstring start stop inner => simp [spots] at h
  | compound kind inner =>
    rw [spots] at h
    exact shallowAll_of_spots h
  | block items =>
    rw [spots] at h
    exact shallowAll_of_spots h
  | group inner =>
    rw [spots] at h
    exact shallowAll_of_spots h

theorem shallowAll_of_spots {os : List Outline} (h : spotsAll os = []) : ShallowAll os := by
  cases os with
  | nil => trivial
  | cons o os =>
    rw [spotsAll_cons, List.append_eq_nil_iff] at h
    exact ⟨shallow_of_spots h.1, shallowAll_of_spots h.2⟩

end

theorem Shallow.spots_of_asLine {o : Outline} {x : Spot} (h : Shallow o) (hx : o.asLine = some x) :
    spots o = [x] := by
  cases o with
  | line kinds docstring start stop inner =>
    rw [Shallow] at h
    cases hx
    rw [spots, h, List.nil_append]
  | _ => cases hx

/-- Of lines that are gone nothing further is vacated. -/
theorem ShallowAll.vacatedAll_of_isGone {gone : List Spot} {os : List Outline} (h : ShallowAll os)
    (hgone : os.all (isGone gone) = true) : vacatedAll gone os = [] := by
  induction os with
  | nil => rfl
  | cons o os ih =>
    rw [List.all_cons, Bool.and_eq_true] at hgone
    obtain ⟨x, hline, -⟩ := isGone_iff.mp hgone.1
    rw [vacatedAll, ih h.2 hgone.2, List.append_nil]
    cases o with
    | line kinds docstring start stop inner =>
      rw [vacated]
      exact vacatedAll_of_spots gone h.1
    | _ => cases hline

theorem Line.shallow_outline {l : Line} (inline : Bool) (h : spotsAll l.inner = []) :
    Shallow (l.outline inline) := by
  unfold Line.outline
  split
  · exact shallowAll_of_spots h
  · exact h

theorem shallowAll_lineIfAny (inline : Bool) {l : Option Line}
    (h : ∀ x ∈ l, spotsAll x.inner = []) : ShallowAll (lineIfAny inline l) := by
  cases l with
  | none => trivial
  | some x => exact ⟨x.shallow_outline inline (h x rfl), trivial⟩

mutual

theorem shallowAll_ofStatements (text : Text) (inline : Bool) {l : Option Line} (ts : List Tree)
    (h : ∀ x ∈ l, spotsAll x.inner = []) : ShallowAll (ofStatements text inline l ts) := by
  cases ts with
  | nil =>
    rw [ofStatements]
    exact shallowAll_lineIfAny inline h
  | cons t ts =>
    have hrest : ∀ {l : Option Line}, (∀ x ∈ l, spotsAll x.inner = []) →
        ShallowAll (ofStatements text inline l ts) := shallowAll_ofStatements text inline ts
    have halone : ∀ x ∈ some (Line.ofStatement t), spotsAll x.inner = [] := by
      rintro x ⟨⟩
      exact spotsAll_ofSimple t
    rw [ofStatements.eq_def]
    dsimp only
    split
    · exact hrest h
    split
    · cases l with
      | none => exact hrest halone
      | some l =>
        have hl := h l rfl
        dsimp only
        split
        · refine hrest ?_
          rintro x ⟨⟩
          simp [Line.add, hl, spotsAll_ofSimple]
        · exact ⟨l.shallow_outline inline hl, hrest halone⟩
    · exact (shallowAll_lineIfAny inline h).append
        ⟨shallow_ofCompound text t, hrest (by simp)⟩

theorem shallow_ofCompound (text : Text) (t : Tree) : Shallow (ofCompound text t) := by
  cases t with
  | node k r a b cs =>
    rw [ofCompound]
    split
    · exact shallowAll_ofDecorated text cs
    split
    · exact shallowAll_ofClauses text _ cs
    · exact shallowAll_ofClauses text false cs

theorem shallowAll_ofDecorated (text : Text) (ts : List Tree) :
    ShallowAll (ofDecorated text ts) := by
  cases ts with
  | nil => trivial
  | cons t ts =>
    have hrest := shallowAll_ofDecorated text ts
    rw [ofDecorated]
    split
    · exact hrest
    · refine ⟨?_, hrest⟩
      split
      · exact shallow_ofCompound text t
      · exact shallow_of_spots (spots_ofExpression t)

theorem shallowAll_ofClauses (text : Text) (definition : Bool) (ts : List Tree) :
    ShallowAll (ofClauses text definition ts) := by
  cases ts with
  | nil => trivial
  | cons t ts =>
    cases t with
    | node k r a b cs =>
      have hrest := shallowAll_ofClauses text definition ts
      rw [ofClauses]
      split
      · exact hrest
      split
      · exact ⟨shallowAll_ofStatements text _ cs (by simp), hrest⟩
      split
      · refine .append (shallowAll_of_spots ?_) hrest
        exact spotsAll_flatMap fun u _ => spotsAll_ofParameter u
      split
      · exact ⟨shallowAll_ofClauses text false cs, hrest⟩
      · exact ⟨shallow_of_spots (spots_ofExpression _), hrest⟩

end

/-- No line of a source lies within an expression or another line. -/
theorem shallowAll_ofSource (s : Source) : ShallowAll (ofSource s) :=
  shallowAll_ofStatements s.text false s.tree.children (by simp)

end Outline

/-! ## The lines that a fold removes -/

namespace Fold

open Outline (Spot)

variable {σ : Type}

/-- A fold that removes lines or keeps them, and leaves expressions alone. It may give up. -/
structure OnlyRemoves (f : Fold σ) : Prop where
  leaveLine : ∀ l s answer s', f.leaveLine l s = (.ok answer, s') →
    answer = .keep ∨ answer.removes = true
  leaveExpression : ∀ e s answer s', f.leaveExpression e s = (.ok answer, s') → answer = none

mutual

/-- The lines of an outline that a fold removes, which is shown the source as it stands. -/
def removed (f : Fold σ) (source : Text) : Outline → Rewriting σ (List Spot)
  | .expression kind start stop inner => do
    let xs ← removedAll f source inner
    let _ ← f.leaveExpression ⟨kind, .mk fun _ => Text.slice source start stop⟩
    pure xs
  | .value site inner => do
    Rewriting.tell (f.enterValue site)
    Rewriting.andTell (removed f source inner) (f.leaveValue site)
  | .line kinds docstring start stop inner => do
    Rewriting.tell (f.enterLine ⟨kinds, docstring, .mk fun _ => Text.slice source start stop⟩)
    let xs ← removedAll f source inner
    let answer ← f.leaveLine ⟨kinds, docstring, .mk fun _ => Text.slice source start stop⟩
    pure (xs ++ if answer.removes then [⟨kinds, docstring, start, stop⟩] else [])
  | .compound kind inner => do
    Rewriting.tell (f.enterCompound kind)
    Rewriting.andTell (removedAll f source inner) (f.leaveCompound kind)
  | .block items => removedAll f source items
  | .group inner => removedAll f source inner

/-- The lines of several outlines that a fold removes. -/
def removedAll (f : Fold σ) (source : Text) : List Outline → Rewriting σ (List Spot)
  | [] => pure []
  | o :: os => do
    let xs ← removed f source o
    let ys ← removedAll f source os
    pure (xs ++ ys)

end

end Fold

end PointMutation
