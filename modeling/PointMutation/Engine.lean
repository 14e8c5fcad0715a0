import PointMutation.Config.Basic
import PointMutation.Mutator.Run
import PointMutation.Mutator.Insertion
import PointMutation.Mutator.Wrapping

/-!
# Engines

An engine selects mutators at random, by weight, and runs them over a source one after the other.
It keeps a record of each run that came to an end. What is done before a fault stays done.
-/

namespace PointMutation

/-! ## Registries -/

/-- Mutators in the order in which they were registered. -/
structure Registry (τ : Type) where
  mutators : List (Mutator τ)

namespace Registry

variable {τ : Type}

/-- The registry without any mutator. -/
def empty : Registry τ := ⟨[]⟩

def names (r : Registry τ) : List String := r.mutators.map (·.name)

def size (r : Registry τ) : Nat := r.mutators.length

def isEmpty (r : Registry τ) : Bool := r.mutators.isEmpty

/-- The mutator of a name. -/
def find? (r : Registry τ) (name : String) : Option (Mutator τ) :=
  r.mutators.find? (·.name == name)

/-- Registers a mutator behind the others. -/
def register (r : Registry τ) (m : Mutator τ) : Except Fault (Registry τ) :=
  if r.names.contains m.name then
    .error (.configuration ("transformer `" ++ m.name ++ "` is already registered"))
  else .ok ⟨r.mutators ++ [m]⟩

/-- Puts a machine in a new state. -/
def setState (r : Registry τ) (i : Nat) (state : τ) : Registry τ :=
  ⟨r.mutators.modify i fun m => { m with state := state }⟩

end Registry

/-! ## Engines -/

/-- A run that came to an end. -/
structure Record where
  label : Option String
  mutator : String
  categories : List Category
  attempts : Nat
  applied : Bool
  deriving DecidableEq, Repr

/-- A registry with the weights by which its mutators are selected. -/
structure Engine (τ : Type) where
  registry : Registry τ
  config : EngineConfig
  random : RandomSource
  weights : List UInt32
  records : List Record

namespace Engine

variable {τ : Type}

/-- Selects mutators by the weights of a distribution from now on. Those that have none in it are
selected no more. -/
def setDistribution (e : Engine τ) (d : Distribution) : Except Fault (Engine τ) :=
  match d.names.find? fun n => !e.registry.names.contains n with
  | some n => .error (.configuration ("unknown transformer `" ++ n ++ "` in distribution"))
  | none =>
    let weights := e.registry.names.map fun n => (d.weight? n).getD 0
    if weights.all (· == 0) then
      .error (.configuration "distribution needs at least one non-zero weight")
    else .ok { e with weights := weights }

/-- An engine set up with a configuration. -/
def ofConfig (registry : Registry τ) (c : EngineConfig) (r : RandomSource) :
    Except Fault (Engine τ) := do
  c.validate
  if registry.isEmpty then .error (.configuration "no transformers registered")
  else
    let e : Engine τ := ⟨registry, c, r, registry.names.map fun _ => 1, []⟩
    if c.distribution.isEmpty then .ok e else e.setDistribution c.distribution

variable [Machine τ]

/-- Runs the mutator at an index over a source. -/
def runAt (e : Engine τ) (label : Option String) (i : Nat) (s : Source) :
    Except Fault Source × Engine τ :=
  match e.registry.mutators[i]? with
  | none => (.error (.configuration "no transformers registered"), e)
  | some m =>
    let (outcome, state) := Machine.run e.config.maxAttempts s m.state
    let e := { e with registry := e.registry.setState i state }
    match outcome with
    | .error fault => (.error fault, e)
    | .ok o =>
      let record := ⟨label, m.name, m.categories, o.attempts, o.worked⟩
      (.ok o.source, { e with records := e.records ++ [record] })

/-- Selects a mutator and runs it over a source. -/
def step (e : Engine τ) (label : Option String) (s : Source) : Except Fault Source × Engine τ :=
  match e.random.weighted e.weights with
  | (.error fault, r) => (.error fault, { e with random := r })
  | (.ok i, r) => runAt { e with random := r } label i s

/-- Several steps one after the other. -/
def steps (label : Option String) : Nat → Engine τ → Source → Except Fault Source × Engine τ
  | 0, e, s => (.ok s, e)
  | n + 1, e, s =>
    match e.step label s with
    | (.error fault, e) => (.error fault, e)
    | (.ok s, e) => steps label n e s

/-- As many steps as the configuration says. -/
def transform (e : Engine τ) (label : Option String) (s : Source) :
    Except Fault Source × Engine τ :=
  steps label e.config.transformations e s

end Engine

/-! ## The two mutators together -/

/-- One of the two machines. -/
inductive Builtin
  | insertion (m : Insertion)
  | wrapping (m : Wrapping)
  deriving DecidableEq, Repr

namespace Builtin

instance : Machine Builtin where
  pass s
    | insertion m => let (r, m) := Machine.pass s m; (r, insertion m)
    | wrapping m => let (r, m) := Machine.pass s m; (r, wrapping m)
  reset
    | insertion m => insertion (Machine.reset m)
    | wrapping m => wrapping (Machine.reset m)
  worked
    | insertion m => Machine.worked m
    | wrapping m => Machine.worked m
  acknowledge
    | insertion m => insertion (Machine.acknowledge m)
    | wrapping m => wrapping (Machine.acknowledge m)

/-- The machine with its name. -/
def mutator : Builtin → Mutator Builtin
  | insertion m => { m.mutator with state := insertion m }
  | wrapping m => { m.mutator with state := wrapping m }

end Builtin

namespace Registry

/-- Both mutators. The first one draws from a source of its own, which is made from the given
one. -/
def standard (c : Config) (r : RandomSource) : Except Fault (Registry Builtin × RandomSource) := do
  let (own, r) := r.fork
  let registry ← empty.register (Builtin.insertion (← Insertion.ofConfig c.insertion own)).mutator
  let registry ← registry.register (Builtin.wrapping (← Wrapping.ofConfig c.wrapping)).mutator
  pure (registry, r)

end Registry

/-- An engine with both mutators. -/
def Engine.standard (c : Config) (r : RandomSource) : Except Fault (Engine Builtin) := do
  c.validate
  let (registry, r) ← Registry.standard c r
  Engine.ofConfig registry c.engine r

/-- Mutates the source that a text is. A configuration without a seed counts as one with the seed
zero. -/
def mutate (c : Config) (t : Text) : Except Fault Text := do
  let s ← (Source.read t).mapError .unparsable
  let e ← Engine.standard c (.seeded (c.seed.getD 0))
  let s ← (e.transform none s).1
  pure s.text

end PointMutation
