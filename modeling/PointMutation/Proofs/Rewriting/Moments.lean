import PointMutation.Proofs.Removal.Places
import PointMutation.Proofs.Walk.Invariant

/-!
# The edits along a walk

A walk makes at most one edit for each expression, line and body, when it leaves it. The edits as
they stand whenever it has come past a part of the outline (`Fold.momentsAll`) are therefore all that
it ever has: each follows from the one before by at most one edit (`Fold.steps_momentsAll`), the
first from those that the walk began with, and the last are those that it ends with, also if it
fails on the way.
-/

namespace PointMutation

namespace Edit

/-- The edit replaces the stretch between two places. -/
def Spans (a b : Nat) (e : Edit) : Prop := e.start = a ∧ e.stop = b

/-- Makes an edit if there is one. -/
def replaceAny : Option Edit → List Edit → List Edit
  | none, es => es
  | some e, es => replace e es

/-- One list of edits after the other, each made of the one before by at most one edit. -/
def Steps : List Edit → List (List Edit) → List Edit → Prop
  | es, [], es' => es' = es
  | es, m :: ms, es' => (∃ e, m = replaceAny e es) ∧ Steps m ms es'

theorem Steps.append {es es' es'' : List Edit} {ms ns : List (List Edit)} (h : Steps es ms es')
    (h' : Steps es' ns es'') : Steps es (ms ++ ns) es'' := by
  induction ms generalizing es with
  | nil =>
    obtain rfl : es' = es := h
    exact h'
  | cons m ms ih => exact ⟨h.1, ih h.2⟩

theorem Steps.snoc {es es' es'' : List Edit} {ms : List (List Edit)} (h : Steps es ms es')
    (hlast : ∃ e, es'' = replaceAny e es') : Steps es (ms ++ [es'']) es'' :=
  h.append ⟨hlast, rfl⟩

end Edit

namespace Fold

open Edit (Steps Spans replaceAny)

variable {σ α β : Type} (f : Fold σ) (source newline : Text)

/-! ## What a walk does when it leaves something -/

/-- Leaving an expression may put a text in its place. -/
theorem walk_expression_edits (kind : Kind) (start stop : Nat) (inner : List Outline)
    (p : Progress σ) :
    ∃ e, (walk f source newline (.expression kind start stop inner) p).2.edits =
        replaceAny e (walkAll f source newline inner p).2.edits ∧
      (∀ x ∈ e, x.Spans start stop) ∧
      ∀ pass, (walk f source newline (.expression kind start stop inner) p).1 ≠
        .ok (some pass) := by
  rw [walk, bind_apply]
  generalize walkAll f source newline inner p = answer
  obtain ⟨answer, q⟩ := answer
  cases answer with
  | error e => exact ⟨none, rfl, by simp, fun _ h => by cases h⟩
  | ok es =>
    simp only [bind_apply, shown, ask]
    generalize f.leaveExpression _ q.state = answer
    obtain ⟨answer, s⟩ := answer
    match answer with
    | .error e => exact ⟨none, rfl, by simp, fun _ h => by cases h⟩
    | .ok none => exact ⟨none, rfl, by simp, fun _ h => by cases h⟩
    | .ok (some text) =>
      refine ⟨some ⟨start, stop, text⟩, rfl, ?_, fun _ h => by cases h⟩
      rintro x ⟨⟩
      exact ⟨rfl, rfl⟩

/-- The stretches of the two edits by which a line can go. -/
theorem removal_spans (a b : Nat) :
    (removal source newline a b).1.Spans (Text.cutStart source a b) (Text.cutStop source a b) ∧
      (removal source newline a b).2.Spans (Text.cutStart source a b)
        (Text.cutStop source a b) := by
  have halone : (Text.isBlank (Text.lastLine (source.take a)) &&
      Text.isBlank (Text.firstLine (source.drop b))) = Text.alone source a b := rfl
  simp only [removal, halone, Text.cutStart, Text.cutStop, Text.lineStart, Text.lineStop]
  split
  · exact ⟨⟨rfl, rfl⟩, rfl, rfl⟩
  · exact ⟨⟨rfl, rfl⟩, rfl, rfl⟩

/-- What is done about a line: nothing, other statements in its place, or its cut, in the place of
which `pass` could stand. -/
theorem settle_edits (start stop : Nat) (answer : Replacement) (p : Progress σ) :
    ∃ e, (settle source newline start stop answer p).2.edits = replaceAny e p.edits ∧
      (∀ x ∈ e, x.Spans start stop ∨
        x.Spans (Text.cutStart source start stop) (Text.cutStop source start stop)) ∧
      ∀ pass, (settle source newline start stop answer p).1 = .ok (some pass) →
        pass.Spans (Text.cutStart source start stop) (Text.cutStop source start stop) ∧
          ∃ x ∈ e, x.Spans pass.start pass.stop := by
  obtain ⟨hgone, hpass⟩ := removal_spans source newline start stop
  have hcut : ∀ x ∈ some (removal source newline start stop).1, x.Spans start stop ∨
      x.Spans (Text.cutStart source start stop) (Text.cutStop source start stop) := by
    rintro x ⟨⟩
    exact .inr hgone
  have hroom : ∀ pass, (.ok (some (removal source newline start stop).2) :
      Except Fault (Option Edit)) = .ok (some pass) →
      pass.Spans (Text.cutStart source start stop) (Text.cutStop source start stop) ∧
        ∃ x ∈ some (removal source newline start stop).1, x.Spans pass.start pass.stop := by
    rintro pass ⟨⟩
    exact ⟨hpass, _, rfl, hgone.1.trans hpass.1.symm, hgone.2.trans hpass.2.symm⟩
  match answer with
  | .keep => exact ⟨none, rfl, by simp, fun _ h => by cases h⟩
  | .flatten (s :: ss) =>
    refine ⟨some ⟨start, stop, _⟩, rfl, ?_, fun _ h => by cases h⟩
    rintro x ⟨⟩
    exact .inl ⟨rfl, rfl⟩
  | .flatten [] => exact ⟨some _, rfl, hcut, hroom⟩
  | .remove => exact ⟨some _, rfl, hcut, hroom⟩

/-- The progress in which the walk comes to what is inside a line. -/
def enteredLine (kinds : List Kind) (docstring : Bool)
    (start stop : Nat) (p : Progress σ) : Progress σ :=
  (tell (f.enterLine ⟨kinds, docstring, .mk fun _ => Edit.render source p.edits start stop⟩) p).2

/-- Leaving a line does about it what the fold answers. -/
theorem walk_line_edits (kinds : List Kind) (docstring : Bool) (start stop : Nat)
    (inner : List Outline) (p : Progress σ) :
    ∃ e, (walk f source newline (.line kinds docstring start stop inner) p).2.edits =
        replaceAny e (walkAll f source newline inner
          (enteredLine f source kinds docstring start stop p)).2.edits ∧
      (∀ x ∈ e, x.Spans start stop ∨
        x.Spans (Text.cutStart source start stop) (Text.cutStop source start stop)) ∧
      ∀ pass, (walk f source newline (.line kinds docstring start stop inner) p).1 =
          .ok (some pass) →
        pass.Spans (Text.cutStart source start stop) (Text.cutStop source start stop) ∧
          ∃ x ∈ e, x.Spans pass.start pass.stop := by
  have hwalk : walk f source newline (.line kinds docstring start stop inner) p = (do
      let _ ← walkAll f source newline inner
      let answer ← ask (f.leaveLine ⟨kinds, docstring, ← shown source start stop⟩)
      settle source newline start stop answer : Walk σ (Option Edit))
        (enteredLine f source kinds docstring start stop p) := by
    rw [walk]
    rfl
  rw [hwalk, bind_apply]
  generalize walkAll f source newline inner _ = answer
  obtain ⟨answer, q⟩ := answer
  cases answer with
  | error e => exact ⟨none, rfl, by simp, fun _ h => by cases h⟩
  | ok es =>
    simp only [bind_apply, shown, ask]
    generalize f.leaveLine _ q.state = answer
    obtain ⟨answer, s⟩ := answer
    cases answer with
    | error e => exact ⟨none, rfl, by simp, fun _ h => by cases h⟩
    | ok answer => exact settle_edits source newline start stop answer { q with state := s }

/-- Leaving a body puts `pass` in it if nothing is left of it. -/
theorem walk_block_edits (items : List Outline) (p : Progress σ) :
    ∃ e, (walk f source newline (.block items) p).2.edits =
        replaceAny e (walkAll f source newline items p).2.edits ∧
      (∀ x ∈ e, ∃ es, (walkAll f source newline items p).1 = .ok es ∧ allGone es = some x) ∧
      ∀ pass, (walk f source newline (.block items) p).1 ≠ .ok (some pass) := by
  rw [walk, bind_apply]
  generalize walkAll f source newline items p = answer
  obtain ⟨answer, q⟩ := answer
  cases answer with
  | error e => exact ⟨none, rfl, by simp, fun _ h => by cases h⟩
  | ok es =>
    dsimp only
    cases hgone : allGone es with
    | none => exact ⟨none, rfl, by simp, fun _ h => by cases h⟩
    | some pass =>
      refine ⟨some pass, rfl, ?_, fun _ h => by cases h⟩
      rintro x ⟨⟩
      exact ⟨es, rfl, hgone⟩

/-- A part of a walk behind which nothing is edited. -/
theorem andTell_edits (w : Walk σ α) (act : StateM σ Unit) (b : β) (p : Progress σ) :
    ((andTell w act >>= fun _ => pure b : Walk σ β) p).2.edits = (w p).2.edits ∧
      ∀ b', ((andTell w act >>= fun _ => pure b : Walk σ β) p).1 = .ok b' → b' = b := by
  simp only [bind_apply, andTell]
  generalize w p = answer
  obtain ⟨answer, q⟩ := answer
  cases answer with
  | error e => exact ⟨rfl, fun _ h => by cases h⟩
  | ok a => exact ⟨rfl, fun _ h => by cases h; rfl⟩

/-- Around a value nothing is edited. -/
theorem walk_value_edits (site : Site) (inner : Outline) (p : Progress σ) :
    (walk f source newline (.value site inner) p).2.edits =
        (walk f source newline inner (tell (f.enterValue site) p).2).2.edits ∧
      ∀ pass, (walk f source newline (.value site inner) p).1 ≠ .ok (some pass) := by
  have hwalk : walk f source newline (.value site inner) p =
      (andTell (walk f source newline inner) (f.leaveValue site) >>= fun _ => pure none :
        Walk σ (Option Edit)) (tell (f.enterValue site) p).2 := by
    rw [walk]
    rfl
  obtain ⟨hedits, hnone⟩ := andTell_edits (walk f source newline inner) (f.leaveValue site)
    (none : Option Edit) (tell (f.enterValue site) p).2
  rw [hwalk]
  exact ⟨hedits, fun _ h => by cases hnone _ h⟩

/-- Around a compound statement nothing is edited. -/
theorem walk_compound_edits (kind : Kind) (inner : List Outline) (p : Progress σ) :
    (walk f source newline (.compound kind inner) p).2.edits =
        (walkAll f source newline inner (tell (f.enterCompound kind) p).2).2.edits ∧
      ∀ pass, (walk f source newline (.compound kind inner) p).1 ≠ .ok (some pass) := by
  have hwalk : walk f source newline (.compound kind inner) p =
      (andTell (walkAll f source newline inner) (f.leaveCompound kind) >>= fun _ => pure none :
        Walk σ (Option Edit)) (tell (f.enterCompound kind) p).2 := by
    rw [walk]
    rfl
  obtain ⟨hedits, hnone⟩ := andTell_edits (walkAll f source newline inner) (f.leaveCompound kind)
    (none : Option Edit) (tell (f.enterCompound kind) p).2
  rw [hwalk]
  exact ⟨hedits, fun _ h => by cases hnone _ h⟩

/-- Around other parts of a statement nothing is edited. -/
theorem walk_group_edits (inner : List Outline) (p : Progress σ) :
    (walk f source newline (.group inner) p).2.edits =
        (walkAll f source newline inner p).2.edits ∧
      ∀ pass, (walk f source newline (.group inner) p).1 ≠ .ok (some pass) := by
  rw [walk, bind_apply]
  generalize walkAll f source newline inner p = answer
  obtain ⟨answer, q⟩ := answer
  cases answer with
  | error e => exact ⟨rfl, fun _ h => by cases h⟩
  | ok es => exact ⟨rfl, fun _ h => by cases h⟩

/-! ## Moments -/

mutual

/-- The edits as they stand whenever a walk has come past a part of an outline. -/
def moments (f : Fold σ) (source newline : Text) : Outline → Progress σ → List (List Edit)
  | .expression kind start stop inner, p =>
    momentsAll f source newline inner p ++
      [(walk f source newline (.expression kind start stop inner) p).2.edits]
  | .value site inner, p => moments f source newline inner (tell (f.enterValue site) p).2
  | .line kinds docstring start stop inner, p =>
    momentsAll f source newline inner (enteredLine f source kinds docstring start stop p) ++
      [(walk f source newline (.line kinds docstring start stop inner) p).2.edits]
  | .compound kind inner, p => momentsAll f source newline inner (tell (f.enterCompound kind) p).2
  | .block items, p =>
    momentsAll f source newline items p ++ [(walk f source newline (.block items) p).2.edits]
  | .group inner, p => momentsAll f source newline inner p

/-- The edits as they stand whenever a walk has come past a part of some outlines. -/
def momentsAll (f : Fold σ) (source newline : Text) : List Outline → Progress σ → List (List Edit)
  | [], _ => []
  | o :: os, p =>
    moments f source newline o p ++
      match walk f source newline o p with
      | (.ok _, q) => momentsAll f source newline os q
      | (.error _, _) => []

end

/-- A walk through outlines goes on behind the first one unless it fails there. -/
theorem walkAll_cons_edits (o : Outline) (os : List Outline) (p : Progress σ) :
    (∃ e, (walk f source newline o p).1 = .ok e ∧
        momentsAll f source newline (o :: os) p = moments f source newline o p ++
          momentsAll f source newline os (walk f source newline o p).2 ∧
        (walkAll f source newline (o :: os) p).2.edits =
          (walkAll f source newline os (walk f source newline o p).2).2.edits ∧
        ∀ es, (walkAll f source newline (o :: os) p).1 = .ok es →
          ∃ es', (walkAll f source newline os (walk f source newline o p).2).1 = .ok es' ∧
            es = e :: es') ∨
      momentsAll f source newline (o :: os) p = moments f source newline o p ∧
        (walkAll f source newline (o :: os) p).2.edits = (walk f source newline o p).2.edits ∧
        ∀ es, (walkAll f source newline (o :: os) p).1 ≠ .ok es := by
  rw [momentsAll, walkAll, bind_apply]
  generalize walk f source newline o p = answer
  obtain ⟨answer, q⟩ := answer
  cases answer with
  | error e => exact .inr ⟨List.append_nil _, rfl, fun _ h => by cases h⟩
  | ok e =>
    refine .inl ⟨e, rfl, rfl, ?_⟩
    simp only [bind_apply]
    generalize walkAll f source newline os q = answer
    obtain ⟨answer, q'⟩ := answer
    cases answer with
    | error e => exact ⟨rfl, fun _ h => by cases h⟩
    | ok es' =>
      refine ⟨rfl, ?_⟩
      rintro es ⟨⟩
      exact ⟨es', rfl, rfl⟩

mutual

theorem steps_moments (o : Outline) (p : Progress σ) :
    Steps p.edits (moments f source newline o p) (walk f source newline o p).2.edits := by
  cases o with
  | expression kind start stop inner =>
    obtain ⟨e, hedits, -⟩ := walk_expression_edits f source newline kind start stop inner p
    exact (steps_momentsAll inner p).snoc ⟨e, hedits⟩
  | value site inner =>
    rw [(walk_value_edits f source newline site inner p).1]
    exact steps_moments inner (tell (f.enterValue site) p).2
  | line kinds docstring start stop inner =>
    obtain ⟨e, hedits, -⟩ := walk_line_edits f source newline kinds docstring start stop inner p
    exact (steps_momentsAll inner (enteredLine f source kinds docstring start stop p)).snoc
      ⟨e, hedits⟩
  | compound kind inner =>
    rw [(walk_compound_edits f source newline kind inner p).1]
    exact steps_momentsAll inner (tell (f.enterCompound kind) p).2
  | block items =>
    obtain ⟨e, hedits, -⟩ := walk_block_edits f source newline items p
    exact (steps_momentsAll items p).snoc ⟨e, hedits⟩
  | group inner =>
    rw [(walk_group_edits f source newline inner p).1]
    exact steps_momentsAll inner p

/-- Each moment of a walk follows from the one before by at most one edit. -/
theorem steps_momentsAll (os : List Outline) (p : Progress σ) :
    Steps p.edits (momentsAll f source newline os p) (walkAll f source newline os p).2.edits := by
  cases os with
  | nil => rfl
  | cons o os =>
    rcases walkAll_cons_edits f source newline o os p with
      ⟨e, -, hmoments, hedits, -⟩ | ⟨hmoments, hedits, -⟩
    · rw [hmoments, hedits]
      exact (steps_moments o p).append (steps_momentsAll os _)
    · rw [hmoments, hedits]
      exact steps_moments o p

end

end Fold

end PointMutation
