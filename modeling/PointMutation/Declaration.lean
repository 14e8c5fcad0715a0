import PointMutation.Random.Draw

/-!
# Declarations

A declaration gives a new variable a value, and perhaps an annotation. Its name and its value are
drawn at random. Names that the language has reserved are drawn again.
-/

namespace PointMutation

/-- What kind of value a declaration gives. -/
inductive ValueKind
  | int | float | double | str
  deriving DecidableEq, Repr

namespace ValueKind

def all : List ValueKind := [int, float, double, str]

def name : ValueKind → String
  | int => "int"
  | float => "float"
  | double => "double"
  | str => "str"

end ValueKind

/-- A variable with its value. -/
structure Declaration where
  name : Text
  kind : ValueKind
  value : Text
  annotated : Bool
  deriving DecidableEq, Repr

namespace Declaration

/-- The line that declares the variable. -/
def text (d : Declaration) : Text :=
  let annotation := if d.annotated then ": ".toList ++ d.kind.name.toList else []
  d.name ++ annotation ++ " = ".toList ++ d.value

/-! ## Names -/

/-- Lowercase words that no variable can have as its name. -/
def reservedNames : List Text :=
  ["and", "as", "assert", "async", "await", "break", "class", "continue", "def", "del", "elif",
   "else", "except", "exec", "finally", "for", "from", "global", "if", "import", "in", "is",
   "lambda", "nonlocal", "not", "or", "pass", "print", "raise", "return", "try", "while", "with",
   "yield"].map (·.toList)

/-- A name, drawn again as long as it is reserved, but no more than `fuel` times. After that it is
a row of the same letter. -/
def drawNameWithin (length : Nat) : Nat → RandomSource → Except Fault Text × RandomSource
  | 0, r => (.ok (List.replicate length 'x'), r)
  | fuel + 1, r =>
    match r.identifier length with
    | (.error e, r) => (.error e, r)
    | (.ok name, r) =>
      if reservedNames.contains name then drawNameWithin length fuel r else (.ok name, r)

/-- A name of some length. -/
def drawName (length : Nat) (r : RandomSource) : Except Fault Text × RandomSource :=
  drawNameWithin length 1000 r

/-! ## Values -/

/-- A word between quotation marks. -/
def drawQuoted (length : Nat) (r : RandomSource) : Except Fault Text × RandomSource :=
  match r.identifier length with
  | (.error e, r) => (.error e, r)
  | (.ok w, r) => (.ok ('"' :: w ++ ['"']), r)

/-- A value of some kind, as it is written. -/
def drawValue (kind : ValueKind) (r : RandomSource) : Except Fault Text × RandomSource :=
  match kind with
  | .int =>
    let drawn := r.intIn 2 1000
    (.ok (toString drawn.1).toList, drawn.2)
  | .float | .double =>
    let drawn := r.unit
    (.ok drawn.1.literal, drawn.2)
  | .str =>
    let drawn := r.intIn 3 30
    drawQuoted drawn.1.toNat drawn.2

/-- What declarations are drawn from. -/
structure Pattern where
  nameLength : Nat
  kinds : List ValueKind
  annotated : Bool
  deriving DecidableEq, Repr

/-- A declaration. Without any kind to choose from its value is a whole number. -/
def draw (p : Pattern) (r : RandomSource) : Except Fault Declaration × RandomSource :=
  match drawName p.nameLength r with
  | (.error e, r) => (.error e, r)
  | (.ok name, r) =>
    let (kind, r) := r.choose p.kinds
    let kind := kind.getD .int
    match drawValue kind r with
    | (.error e, r) => (.error e, r)
    | (.ok value, r) => (.ok ⟨name, kind, value, p.annotated⟩, r)

end Declaration

end PointMutation
