import PointMutation.Fold

/-!
# Rewriting from below

This is what a fold is meant to do to a source, without any list of edits. What stands in place of
a node is found once that is known for the nodes below it: their texts with the gaps between them
copied from the source make up the text that the fold is shown, and what the fold answers goes in
place of all of it. Lines that a fold removes are not covered: they count as kept.
-/

namespace PointMutation

namespace Fold

variable {σ : Type}

/-- What stands in place of the stretch of a node, and the answers that went into it and were not
given up for a later one. -/
structure Piece where
  start : Nat
  stop : Nat
  text : Text
  answers : List Text

namespace Piece

/-- The source from `place` up to `stop` with pieces put in their places. -/
def fill (source : Text) (stop : Nat) : Nat → List Piece → Text
  | place, [] => Text.slice source place stop
  | place, p :: ps => Text.slice source place p.start ++ p.text ++ fill source stop p.stop ps

/-- A node that stays, with the pieces below it. -/
def keeping (source : Text) (start stop : Nat) (below : List Piece) : Piece :=
  ⟨start, stop, fill source stop start below, below.flatMap answers⟩

/-- An answer in place of a node. -/
def answering (start stop : Nat) (text : Text) : Piece := ⟨start, stop, text, [text]⟩

end Piece

/-- A part of the rewriting, which keeps the state of the fold when it fails. -/
abbrev Rewriting (σ : Type) := ExceptT Fault (StateM σ)

namespace Rewriting

/-- What a fold does without failing. -/
def tell (act : StateM σ Unit) : Rewriting σ Unit := fun s =>
  let (_, s) := act s
  (.ok (), s)

/-- Goes on, and tells the fold behind it even after a failure. -/
def andTell {α : Type} (r : Rewriting σ α) (act : StateM σ Unit) : Rewriting σ α := fun s =>
  let (a, s) := r s
  let (_, s) := act s
  (a, s)

end Rewriting

/-- What a line becomes if it is not removed. -/
def settled (source newline : Text) (current : Piece) : Replacement → Piece
  | .flatten (s :: ss) =>
    .answering current.start current.stop
      (stack (indentBefore source current.start) newline (s :: ss))
  | _ => current

mutual

/-- The pieces in place of the nodes of an outline. -/
def rewrite (f : Fold σ) (source newline : Text) : Outline → Rewriting σ (List Piece)
  | .expression kind start stop inner => do
    let below ← rewriteAll f source newline inner
    let current := Piece.keeping source start stop below
    match ← f.leaveExpression ⟨kind, .mk fun _ => current.text⟩ with
    | some text => pure [.answering start stop text]
    | none => pure [current]
  | .value site inner => do
    Rewriting.tell (f.enterValue site)
    Rewriting.andTell (rewrite f source newline inner) (f.leaveValue site)
  | .line kinds docstring start stop inner => do
    Rewriting.tell (f.enterLine ⟨kinds, docstring, .mk fun _ => Text.slice source start stop⟩)
    let below ← rewriteAll f source newline inner
    let current := Piece.keeping source start stop below
    let answer ← f.leaveLine ⟨kinds, docstring, .mk fun _ => current.text⟩
    pure [settled source newline current answer]
  | .compound kind inner => do
    Rewriting.tell (f.enterCompound kind)
    Rewriting.andTell (rewriteAll f source newline inner) (f.leaveCompound kind)
  | .block items => rewriteAll f source newline items
  | .group inner => rewriteAll f source newline inner

/-- The pieces in place of the nodes of several outlines. -/
def rewriteAll (f : Fold σ) (source newline : Text) : List Outline → Rewriting σ (List Piece)
  | [] => pure []
  | o :: os => do
    let ps ← rewrite f source newline o
    let qs ← rewriteAll f source newline os
    pure (ps ++ qs)

end

/-- The source with pieces in place of its outermost nodes, or the same source if no answer stands
in any of them. -/
def Piece.assemble (s : Source) (ps : List Piece) : Except Fault Source :=
  if ps.flatMap answers = [] then .ok s
  else
    match Source.read (fill s.text s.text.length 0 ps) with
    | .ok s => .ok s
    | .error e => .error (.mismatch (['\n'].intercalate (ps.flatMap answers))
        (Fault.describe (.unparsable e)))

/-- Rewrites a source from below. -/
def rewriteOver (f : Fold σ) (s : Source) (os : List Outline) (state : σ) :
    Except Fault Source × σ :=
  let (answer, state) := rewriteAll f s.text s.newline os state
  (answer.bind (Piece.assemble s), state)

end Fold

end PointMutation
