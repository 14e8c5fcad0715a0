import PointMutation.Fault
import PointMutation.Source

/-!
# Mutators

A mutator is a machine that makes passes over sources, together with its name and its categories.
A pass changes a source at one place or not at all, and the machine tells whether it did. After a
pass that worked, further passes change nothing until the machine is reset.
-/

namespace PointMutation

/-- What a mutator is about. -/
inductive Category
  | naming | smell | structural | lambda | controlflow | comment | nlp | bytecode | testing
  deriving DecidableEq, Repr

namespace Category

def all : List Category :=
  [naming, smell, structural, lambda, controlflow, comment, nlp, bytecode, testing]

def name : Category → String
  | naming => "naming"
  | smell => "smell"
  | structural => "structure"
  | lambda => "lambda"
  | controlflow => "controlflow"
  | comment => "comment"
  | nlp => "nlp"
  | bytecode => "bytecode"
  | testing => "testing"

end Category

/-- Machines with states of type `τ` that make passes over sources. -/
class Machine (τ : Type) where
  /-- One pass. -/
  pass : Source → τ → Except Fault Source × τ
  /-- Starts anew. -/
  reset : τ → τ
  /-- Whether the last pass changed something. -/
  worked : τ → Bool
  /-- Takes note of a pass that worked, and starts anew. -/
  acknowledge : τ → τ

/-- A machine with a name and categories. -/
structure Mutator (τ : Type) where
  name : String
  categories : List Category
  state : τ

/-- Where a machine is in a source, how many places it has seen, and whether it has changed one. -/
structure Traversal where
  depth : Nat := 0
  visited : Nat := 0
  worked : Bool := false
  deriving DecidableEq, Repr

namespace Traversal

def enter (t : Traversal) : Traversal := { t with depth := t.depth + 1 }

def leave (t : Traversal) : Traversal := { t with depth := t.depth - 1 }

/-- Sees a place. -/
def visit (t : Traversal) : Traversal := { t with visited := t.visited + 1 }

/-- Has changed a place. -/
def work (t : Traversal) : Traversal := { t with worked := true }

end Traversal

end PointMutation
