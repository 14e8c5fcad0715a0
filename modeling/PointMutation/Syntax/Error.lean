import PointMutation.Text.Basic

/-!
# Syntax errors

Where a text stops being a source, counted from one in lines and in the bytes of a line, and what
is wrong there.
-/

namespace PointMutation

/-- A place in a text with what is wrong there. -/
structure SyntaxError where
  line : Nat
  column : Nat
  message : String
  deriving DecidableEq, Repr

namespace SyntaxError

/-- Reports a syntax error with its place. -/
def describe (e : SyntaxError) : String :=
  toString e.line ++ ":" ++ toString e.column ++ ": " ++ e.message

/-- An error at the `place`-th character of a text. -/
def atPlace (t : Text) (place : Nat) (message : String) : SyntaxError :=
  let before := t.take place
  ⟨Text.breaks before + 1, Text.size (Text.lastLine before) + 1, message⟩

/-- What a message quotes of a stretch of text: the start of its first line. -/
def excerpt (t : Text) : String :=
  String.ofList (((Text.lines t).headD []).take 24)

end SyntaxError

end PointMutation
