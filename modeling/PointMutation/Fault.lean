import PointMutation.Syntax.Error

/-!
# Faults

What can go wrong while sources are mutated or configurations are read. A pass that finds no place
to work at is not a fault.
-/

namespace PointMutation

/-- A reason for which an operation gives no result. -/
inductive Fault
  /-- A configuration that cannot be worked with. -/
  | configuration (reason : String)
  /-- A name without characters. -/
  | invalidLength (length : Nat)
  /-- An edit whose result is not a source. -/
  | mismatch (snippet : Text) (reason : String)
  /-- A text that is not a source. -/
  | unparsable (e : SyntaxError)
  /-- A configuration file that cannot be read as one. The reason is known if the file is at
  least well-formed. -/
  | unreadable (reason : Option String)
  /-- A value that has no place in a file. -/
  | unwritable
  /-- A file that is not there, or not text. -/
  | inaccessible
  deriving DecidableEq, Repr

namespace Fault

/-- Reports a fault. -/
def describe : Fault → String
  | configuration reason => "Configuration error: " ++ reason
  | invalidLength n => "Random strings must have length 1 minimum, got " ++ toString n
  | mismatch snippet reason =>
    "Synthesized snippet `" ++ String.ofList snippet ++ "` does not fit the tree: " ++ reason
  | unparsable e => "Parse error: " ++ e.describe
  | unreadable reason => "Invalid configuration file: " ++ reason.getD ""
  | unwritable => "unsupported value"
  | inaccessible => "I/O error"

end Fault

end PointMutation
