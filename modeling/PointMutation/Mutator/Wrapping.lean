import PointMutation.Config.Basic
import PointMutation.Mutator.Basic

/-!
# Wrapping of literals

A pass looks for the first literal in a value that is bound or returned, and puts the call of a
function around it that gives the literal. Which one it is does not depend on chance. After a
reset it may be the one that stands in the function already.
-/

namespace PointMutation

/-- A machine that wraps a literal. The depth counts the values that the walk is in. -/
structure Wrapping where
  kinds : List LiteralKind
  traversal : Traversal
  valueDepth : Nat
  applications : Nat
  deriving DecidableEq, Repr

namespace Wrapping

/-- The name of the mutator. -/
def name : String := "lambda_identity"

/-- A machine set up with a configuration. -/
def ofConfig (c : WrappingConfig) : Except Fault Wrapping :=
  match c.validate with
  | .error e => .error e
  | .ok () => .ok ⟨c.kinds.1, {}, 0, 0⟩

/-- Whether an expression is a literal to be wrapped, if it stands in a value. -/
def accepts (m : Wrapping) (e : Expression) : Bool :=
  match e.literal? with
  | some k => m.kinds.contains k
  | none => false

/-- Whether an expression is to be wrapped where the walk is. -/
def isEligible (m : Wrapping) (e : Expression) : Bool := 0 < m.valueDepth && m.accepts e

/-- Keeps track of the place. -/
def track (f : Traversal → Traversal) : StateM Wrapping Unit :=
  modify fun m => { m with traversal := f m.traversal }

/-- What is done at an expression. -/
def settle (e : Expression) : ExceptT Fault (StateM Wrapping) (Option Text) := do
  let m ← get
  if m.traversal.worked || !m.isEligible e then return none
  track fun t => t.visit.work
  return some e.identityLambda

/-- What is done on the way through a source. -/
def fold : Fold Wrapping where
  enterCompound _ := track .enter
  leaveCompound _ := track .leave
  enterValue _ := modify fun m => { m with valueDepth := m.valueDepth + 1 }
  leaveValue _ := modify fun m => { m with valueDepth := m.valueDepth - 1 }
  leaveExpression := settle

/-- Starts anew. -/
def reset (m : Wrapping) : Wrapping := { m with traversal := {}, valueDepth := 0 }

instance : Machine Wrapping where
  pass s m := fold.run s { m with valueDepth := 0 }
  reset := reset
  worked m := m.traversal.worked
  acknowledge m := reset { m with applications := m.applications + 1 }

/-- The machine with its name. -/
def mutator (m : Wrapping) : Mutator Wrapping := ⟨name, [.structural, .lambda], m⟩

end Wrapping

end PointMutation
