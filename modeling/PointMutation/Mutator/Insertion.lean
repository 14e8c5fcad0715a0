import PointMutation.Config.Basic
import PointMutation.Mutator.Basic

/-!
# Insertion of declarations

A pass goes through the lines of a source. At each of them a declaration is drawn, and then whether
it is inserted there, in front of the line. Quotations that stand alone and imports of features are
passed over, since they have to stay first. After an insertion nothing is drawn any more.
-/

namespace PointMutation

/-- A machine that inserts a declaration. -/
structure Insertion where
  probability : Double
  pattern : Declaration.Pattern
  random : RandomSource
  traversal : Traversal
  applications : Nat
  deriving DecidableEq, Repr

namespace Insertion

/-- The name of the mutator. -/
def name : String := "add_variable"

/-- A machine set up with a configuration, which draws from a source of its own. -/
def ofConfig (c : InsertionConfig) (r : RandomSource) : Except Fault Insertion :=
  match c.validate with
  | .error e => .error e
  | .ok () => .ok ⟨c.probability, ⟨c.nameLength, c.kinds.1, c.annotated⟩, r, {}, 0⟩

/-- The text of a declaration as a snippet, which has to be a simple statement. -/
def snippetOf (text : Text) : Except Fault Snippet :=
  match Snippet.read text with
  | .ok s => if s.isCompound then .error (.mismatch text "not a simple statement") else .ok s
  | .error e => .error (.mismatch text (Fault.describe (.unparsable e)))

/-- Draws a declaration. -/
def draw : ExceptT Fault (StateM Insertion) Snippet := fun m =>
  let (d, r) := Declaration.draw m.pattern m.random
  (d.bind fun d => snippetOf d.text, { m with random := r })

/-- Draws whether a declaration is inserted. -/
def coin : ExceptT Fault (StateM Insertion) Bool := fun m =>
  let (b, r) := m.random.chance m.probability
  (.ok b, { m with random := r })

/-- Keeps track of the place. -/
def track (f : Traversal → Traversal) : StateM Insertion Unit :=
  modify fun m => { m with traversal := f m.traversal }

/-- Whether a line has to stay first. -/
def isLeading (l : Line) : Bool :=
  l.docstring || l.kinds.contains .futureImportStatement

/-- What is done at a line. -/
def settle (l : Line) : ExceptT Fault (StateM Insertion) Replacement := do
  if (← get).traversal.worked then return .keep
  track .leave
  if isLeading l then return .keep
  track .visit
  let s ← draw
  if ← coin then
    track .work
    return .flatten [s, l.snippet]
  else return .keep

/-- What is done on the way through a source. -/
def fold : Fold Insertion where
  enterCompound _ := track .enter
  leaveCompound _ := track .leave
  enterLine _ := track .enter
  leaveLine := settle

/-- Starts anew. -/
def reset (m : Insertion) : Insertion := { m with traversal := {} }

instance : Machine Insertion where
  pass s m := fold.run s m
  reset := reset
  worked m := m.traversal.worked
  acknowledge m := reset { m with applications := m.applications + 1 }

/-- The machine with its name. -/
def mutator (m : Insertion) : Mutator Insertion := ⟨name, [.naming, .smell], m⟩

end Insertion

end PointMutation
