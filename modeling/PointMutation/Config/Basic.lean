import PointMutation.Config.Distribution
import PointMutation.Declaration
import PointMutation.Literal

/-!
# Configurations

What an engine and its mutators are set up with. A configuration can hold values that nothing can
be set up with; `Config.validate` accepts the others, and of several faults it reports the first
one, section by section.

The kinds of a section are a set: a part of all kinds in their order.
-/

namespace PointMutation

/-- A set of kinds of values. -/
abbrev ValueKinds := { ks : List ValueKind // ks.Sublist ValueKind.all }

/-- A set of kinds of literals. -/
abbrev LiteralKinds := { ks : List LiteralKind // ks.Sublist LiteralKind.all }

/-- The set of some kinds. -/
def ValueKinds.ofList (ks : List ValueKind) : ValueKinds :=
  ⟨ValueKind.all.filter ks.contains, List.filter_sublist⟩

/-- The set of some kinds. -/
def LiteralKinds.ofList (ks : List LiteralKind) : LiteralKinds :=
  ⟨LiteralKind.all.filter ks.contains, List.filter_sublist⟩

/-- How often an engine selects a mutator, how many passes the mutator has each time, and with
which weights it is selected. Without weights all are alike. -/
structure EngineConfig where
  transformations : Nat := 1
  maxAttempts : Nat := 100
  distribution : Distribution := .empty
  deriving DecidableEq

/-- What is inserted, and how probably at each place. -/
structure InsertionConfig where
  probability : Double := .ofDecimal false 5 (-2)
  annotated : Bool := true
  kinds : ValueKinds := ⟨ValueKind.all, .refl _⟩
  nameLength : Nat := 10
  deriving DecidableEq

/-- The kinds of literals that a function can be wrapped around. -/
def LiteralKind.wrappable : List LiteralKind := [integer, float, string]

/-- Which literals are wrapped. -/
structure WrappingConfig where
  kinds : LiteralKinds := LiteralKinds.ofList LiteralKind.wrappable
  deriving DecidableEq

/-- A configuration. -/
structure Config where
  seed : Option UInt64 := none
  engine : EngineConfig := {}
  insertion : InsertionConfig := {}
  wrapping : WrappingConfig := {}
  deriving DecidableEq

/-! ## Validation -/

/-- Accepts what an engine can be set up with. -/
def EngineConfig.validate (c : EngineConfig) : Except Fault Unit :=
  if c.maxAttempts < 1 then .error (.configuration "engine.max_attempts must be at least 1")
  else if !c.distribution.isEmpty && c.distribution.weights.all (· == 0) then
    .error (.configuration "engine.distribution needs at least one non-zero weight")
  else .ok ()

/-- Accepts what declarations can be inserted with. -/
def InsertionConfig.validate (c : InsertionConfig) : Except Fault Unit :=
  if !(Double.le .zero c.probability && Double.le c.probability (.ofInt 1)) then
    .error (.configuration ("add_variable.probability must be within [0, 1], got " ++
      String.ofList c.probability.text))
  else if c.kinds.1.isEmpty then
    .error (.configuration "add_variable.supported_kinds must not be empty")
  else if c.nameLength < 1 then .error (.invalidLength c.nameLength)
  else .ok ()

/-- Accepts what literals can be wrapped with. -/
def WrappingConfig.validate (c : WrappingConfig) : Except Fault Unit :=
  if c.kinds.1.isEmpty then
    .error (.configuration "lambda_identity.supported_kinds must not be empty")
  else
    match c.kinds.1.find? fun k => !LiteralKind.wrappable.contains k with
    | some k => .error (.configuration ("lambda_identity cannot wrap " ++ k.title ++ " literals"))
    | none => .ok ()

/-- Accepts what an engine with all its mutators can be set up with. -/
def Config.validate (c : Config) : Except Fault Unit := do
  c.engine.validate
  c.insertion.validate
  c.wrapping.validate

end PointMutation
