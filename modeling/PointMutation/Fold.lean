import PointMutation.Outline
import PointMutation.Snippet
import PointMutation.Edit
import PointMutation.Fault

/-!
# Folds

A fold walks over the outline of a source. It is told when the walk enters and leaves compound
statements, lines and values, and it answers what takes the place of a line or an expression that
is being left. What it is shown carries the edits made so far. Its answers become edits of the
text, and if there are any, the edited text is read as a new source.

A fold has a state, which it keeps when it gives up: then the walk only leaves the values and the
compound statements that it has entered.
-/

namespace PointMutation

/-- An expression as a fold sees it, with the text that stands there by now. -/
structure Expression where
  kind : Kind
  shown : Thunk Text

/-- Statements that share a physical line, as a fold sees them, with the text that stands there by
now. -/
structure Line where
  kinds : List Kind
  docstring : Bool
  shown : Thunk Text

def Expression.text (e : Expression) : Text := e.shown.get

def Line.text (l : Line) : Text := l.shown.get

/-- The line as a snippet, to be put next to others. -/
def Line.snippet (l : Line) : Snippet := .anchored l.text

/-- What takes the place of a line. -/
inductive Replacement
  | keep
  | remove
  /-- Several statements one below the other. -/
  | flatten (snippets : List Snippet)
  deriving DecidableEq, Repr

/-- What a fold does with its state of type `σ` on the way. -/
structure Fold (σ : Type) where
  enterCompound : Kind → StateM σ Unit := fun _ => pure ()
  leaveCompound : Kind → StateM σ Unit := fun _ => pure ()
  enterLine : Line → StateM σ Unit := fun _ => pure ()
  leaveLine : Line → ExceptT Fault (StateM σ) Replacement := fun _ => pure .keep
  enterValue : Site → StateM σ Unit := fun _ => pure ()
  leaveValue : Site → StateM σ Unit := fun _ => pure ()
  leaveExpression : Expression → ExceptT Fault (StateM σ) (Option Text) := fun _ => pure none

namespace Fold

variable {σ : Type}

/-- How far a walk has come: the state of the fold and the edits made so far. -/
structure Progress (σ : Type) where
  state : σ
  edits : List Edit

/-- A part of a walk, which keeps what was done when it fails. -/
abbrev Walk (σ : Type) := ExceptT Fault (StateM (Progress σ))

/-- What a fold does without failing. -/
def tell (act : StateM σ Unit) : Walk σ Unit := fun p =>
  let (_, s) := act p.state
  (.ok (), { p with state := s })

/-- What a fold answers. -/
def ask {α : Type} (act : ExceptT Fault (StateM σ) α) : Walk σ α := fun p =>
  let (a, s) := act p.state
  (a, { p with state := s })

/-- Walks on, and tells the fold behind it even if the walk fails. -/
def andTell {α : Type} (w : Walk σ α) (act : StateM σ Unit) : Walk σ α := fun p =>
  let (a, p) := w p
  let (_, s) := act p.state
  (a, { p with state := s })

/-- Makes an edit. -/
def edit (e : Edit) : Walk σ Unit := fun p => (.ok (), { p with edits := Edit.replace e p.edits })

/-- The text of a stretch with the edits made so far. -/
def shown (source : Text) (start stop : Nat) : Walk σ (Thunk Text) := fun p =>
  (.ok (.mk fun _ => Edit.render source p.edits start stop), p)

/-! ## Lines -/

/-- The blanks in front of a place on its physical line, or as many spaces as there are characters
if they are not all blank. -/
def indentBefore (source : Text) (place : Nat) : Text :=
  let before := Text.lastLine (source.take place)
  if Text.isBlank before then before else List.replicate before.length ' '

/-- Snippets one below the other where `indent` stands in front of the first one. -/
def stack (indent newline : Text) (snippets : List Snippet) : Text :=
  (newline ++ indent).intercalate (snippets.map (Snippet.render indent newline))

/-- What removing a line does, and the edit that would put `pass` there instead. If nothing else
stands on the physical line, all of it goes. -/
def removal (source newline : Text) (start stop : Nat) : Edit × Edit :=
  let before := Text.lastLine (source.take start)
  let behind := Text.firstLine (source.drop stop)
  if Text.isBlank before && Text.isBlank behind then
    let ending := if Text.endsIn behind '\n' then newline else []
    let first := start - before.length
    let last := stop + behind.length
    (⟨first, last, []⟩, ⟨first, last, before ++ "pass".toList ++ ending⟩)
  else (⟨start, stop, []⟩, ⟨start, stop, "pass".toList⟩)

/-- Carries out what the fold has answered for a line. Gives the edit that would put `pass` there
if nothing is left of the line. -/
def settle (source newline : Text) (start stop : Nat) : Replacement → Walk σ (Option Edit)
  | .keep => pure none
  | .flatten (s :: ss) => do
    edit ⟨start, stop, stack (indentBefore source start) newline (s :: ss)⟩
    pure none
  | _ => do
    let (gone, pass) := removal source newline start stop
    edit gone
    pure (some pass)

/-- The first of some edits, if all of them are there and there is any. -/
def allGone : List (Option Edit) → Option Edit
  | [] => none
  | e :: es => if es.all (·.isSome) then e else none

/-! ## The walk -/

mutual

/-- Walks through an outline. Gives the edit that would put `pass` there if it is a line of which
nothing is left. -/
def walk (f : Fold σ) (source newline : Text) : Outline → Walk σ (Option Edit)
  | .expression kind start stop inner => do
    let _ ← walkAll f source newline inner
    match ← ask (f.leaveExpression ⟨kind, ← shown source start stop⟩) with
    | some text => edit ⟨start, stop, text⟩
    | none => pure ()
    pure none
  | .value site inner => do
    tell (f.enterValue site)
    let _ ← andTell (walk f source newline inner) (f.leaveValue site)
    pure none
  | .line kinds docstring start stop inner => do
    tell (f.enterLine ⟨kinds, docstring, ← shown source start stop⟩)
    let _ ← walkAll f source newline inner
    let answer ← ask (f.leaveLine ⟨kinds, docstring, ← shown source start stop⟩)
    settle source newline start stop answer
  | .compound kind inner => do
    tell (f.enterCompound kind)
    let _ ← andTell (walkAll f source newline inner) (f.leaveCompound kind)
    pure none
  | .block items => do
    match allGone (← walkAll f source newline items) with
    | some pass => edit pass
    | none => pure ()
    pure none
  | .group inner => do
    let _ ← walkAll f source newline inner
    pure none

/-- Walks through outlines one after the other. -/
def walkAll (f : Fold σ) (source newline : Text) : List Outline → Walk σ (List (Option Edit))
  | [] => pure []
  | o :: os => do
    let e ← walk f source newline o
    let es ← walkAll f source newline os
    pure (e :: es)

end

/-- The edits that a fold makes on its way through outlines, and its state behind it. -/
def edits (f : Fold σ) (source newline : Text) (os : List Outline) (state : σ) :
    Except Fault (List Edit) × σ :=
  let (answer, p) := walkAll f source newline os ⟨state, []⟩
  (answer.map fun _ => p.edits, p.state)

/-- Applies edits to a source. Without any it is the same source. -/
def rewritten (s : Source) (es : List Edit) : Except Fault Source :=
  if es.isEmpty then .ok s
  else
    match Source.read (Edit.render s.text es 0 s.text.length) with
    | .ok s => .ok s
    | .error e => .error (.mismatch (['\n'].intercalate (es.map Edit.text))
        (Fault.describe (.unparsable e)))

/-- Walks a fold through outlines of a source. -/
def runOver (f : Fold σ) (s : Source) (os : List Outline) (state : σ) : Except Fault Source × σ :=
  let (es, state) := edits f s.text s.newline os state
  (es.bind (rewritten s), state)

/-- Walks a fold through a source. -/
def run (f : Fold σ) (s : Source) (state : σ) : Except Fault Source × σ :=
  runOver f s (Outline.ofSource s) state

end Fold

end PointMutation
