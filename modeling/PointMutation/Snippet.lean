import PointMutation.Source

/-!
# Snippets

A snippet is the text of one statement that is to be spliced into a block. One that was written on
its own starts at column zero and is indented where it is put; one that was cut out of a source
carries the indentation of its block already.
-/

namespace PointMutation

/-- The text of one statement. -/
inductive Snippet
  /-- Written on its own. -/
  | free (text : Text) (compound : Bool)
  /-- Cut out of a source. -/
  | anchored (text : Text)
  deriving DecidableEq, Repr

namespace Snippet

def text : Snippet → Text
  | free t _ => t
  | anchored t => t

/-- Whether the statement has a body. -/
def isCompound : Snippet → Bool
  | free _ c => c
  | anchored _ => false

/-- Lines behind the first one, each indented unless it is empty. -/
def indentLines (indent newline : Text) : List Text → Text
  | [] => []
  | l :: ls => newline ++ (if l.isEmpty then [] else indent ++ l) ++ indentLines indent newline ls

/-- The text to be spliced where `indent` stands already. -/
def render (indent newline : Text) : Snippet → Text
  | anchored t => t
  | free t _ =>
    match Text.lines t with
    | [] => []
    | l :: ls => l ++ indentLines indent newline ls

/-- Reads exactly one statement. -/
def read (t : Text) : Except SyntaxError Snippet :=
  match parse t with
  | .error e => .error e
  | .ok tree =>
    match tree.parts with
    | [s] => .ok (.free (Text.slice t s.start s.stop) s.kind.isCompound)
    | [] => .error ⟨1, 1, "expected a statement"⟩
    | _ :: s :: _ => .error (.atPlace t s.start "expected a single statement")

theorem render_anchored (indent newline t : Text) : render indent newline (anchored t) = t := rfl

end Snippet

end PointMutation
