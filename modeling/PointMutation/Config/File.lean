import PointMutation.Config.Basic
import PointMutation.Toml.Document
import PointMutation.Text.Debug

/-!
# Configuration files

A configuration file is a TOML document with a section for each part of the configuration. What it
leaves out has its default. A section may also be an array, which gives the fields of the section
in their order. Reading complains about the first thing in the file that does not belong there; a
configuration that was read is validated.
-/

namespace PointMutation

/-! ## Complaints -/

namespace Toml.Value

/-- What a value is, in complaints about its type. -/
def title : Value → String
  | string t => "string " ++ String.ofList (Text.debug t)
  | integer i => "integer `" ++ toString i ++ "`"
  | float .nan => "floating point `NaN`"
  | float (.infinite s) => "floating point `" ++ (if s then "-inf" else "inf") ++ "`"
  | float d => "floating point `" ++ String.ofList d.literal ++ "`"
  | boolean b => "boolean `" ++ (if b then "true" else "false") ++ "`"
  | moment _ => "map"
  | array _ => "sequence"
  | table _ _ => "map"
  | tables _ => "sequence"

end Toml.Value

namespace ConfigFile

open Toml (Value Statement)

/-- What reading a part of the file comes to. -/
abbrev Reading (α : Type) := Except Fault α

def complain {α : Type} (reason : String) : Reading α := .error (.unreadable (some reason))

/-- The value has the wrong type. -/
def mistyped {α : Type} (v : Value) (expected : String) : Reading α :=
  complain ("invalid type: " ++ v.title ++ ", expected " ++ expected)

/-- Words in a row, each between backticks. -/
def alternatives (ws : List String) : String :=
  match ws.map fun w => "`" ++ w ++ "`" with
  | [] => "there are no fields"
  | [a] => "expected " ++ a
  | [a, b] => "expected " ++ a ++ " or " ++ b
  | ws => "expected one of " ++ ", ".intercalate ws

/-! ## Values -/

/-- A whole number below a bound. -/
def whole (type : String) (bound : Nat) : Value → Reading Nat
  | .integer i =>
    if 0 ≤ i ∧ i < bound then .ok i.toNat
    else complain ("invalid value: integer `" ++ toString i ++ "`, expected " ++ type)
  | v => mistyped v type

def readSeed (v : Value) : Reading UInt64 := (whole "u64" UInt64.size v).map (·.toUInt64)

def readSize (v : Value) : Reading Nat := whole "usize" UInt64.size v

def readWeight (v : Value) : Reading UInt32 := (whole "u32" UInt32.size v).map (·.toUInt32)

def readDouble : Value → Reading Double
  | .float d => .ok d
  | .integer i => .ok (.ofInt i)
  | v => mistyped v "f64"

def readBool : Value → Reading Bool
  | .boolean b => .ok b
  | v => mistyped v "a boolean"

/-- The text of a key. -/
def keyName (k : Toml.Key) : String := String.ofList k

/-- One of several words. -/
def readWord {α : Type} (words : List (String × α)) (t : Text) : Reading α :=
  match words.lookup (String.ofList t) with
  | some a => .ok a
  | none =>
    complain ("unknown variant `" ++ String.ofList t ++ "`, " ++ alternatives (words.map (·.1)))

/-- Whether a value may stand behind a word: only an empty one. -/
def readNothing : Value → Reading Unit
  | .array [] => .ok ()
  | .table _ [] => .ok ()
  | .tables [] => .ok ()
  | .array _ => complain "expected empty table"
  | .table _ _ => complain "expected empty table"
  | .tables _ => complain "expected empty array"
  | v => complain ("expected table, found " ++ v.kind)

/-- One of several words, which may also be the only key of a table. -/
def readVariant {α : Type} (words : List (String × α)) : Value → Reading α
  | .string t => readWord words t
  | .table _ [] => complain "wanted exactly 1 element, found 0 elements"
  | .table _ [(k, v)] => do
    let a ← readWord words k
    readNothing v
    pure a
  | .table _ _ => complain "wanted exactly 1 element, more than 1 element"
  | _ => complain "wanted string or table"

/-- Several words. -/
def readVariants {α : Type} (words : List (String × α)) : Value → Reading (List α)
  | .array vs => vs.mapM (readVariant words)
  | .tables ts => ts.mapM fun t => readVariant words (.table .header t)
  | v => mistyped v "a sequence"

/-- Names with their weights. -/
def readDistribution : Value → Reading Distribution
  | .table _ es =>
    es.foldlM (fun d e => (readWeight e.2).map (d.insert (keyName e.1))) .empty
  | .moment t => readWeight (.string t) *> .ok .empty
  | v => mistyped v "a map"

/-! ## Sections -/

/-- The fields of a section with how they are read into it. -/
abbrev Fields (σ : Type) := List (String × (σ → Value → Reading σ))

/-- Reads a field into a section. -/
def readField {σ : Type} (fields : Fields σ) (s : σ) (key : String) (v : Value) : Reading σ :=
  match fields.lookup key with
  | some f => f s v
  | none => complain ("unknown field `" ++ key ++ "`, " ++ alternatives (fields.map (·.1)))

/-- Reads values as the fields of a section in their order. -/
def readInOrder {σ : Type} (fields : Fields σ) (s : σ) (vs : List Value) : Reading σ :=
  (fields.zip vs).foldlM (fun s p => p.1.2 s p.2) s

/-- Reads a section, which has the fields of `s` unless they are given. -/
def readSection {σ : Type} (title : String) (fields : Fields σ) (s : σ) : Value → Reading σ
  | .table _ es => es.foldlM (fun s e => readField fields s (keyName e.1) e.2) s
  | .array vs => readInOrder fields s vs
  | .tables ts => readInOrder fields s (ts.map (.table .header))
  | .moment _ => readField fields s "$__toml_private_datetime" (.boolean true)
  | v => mistyped v ("struct " ++ title)

def engineFields : Fields EngineConfig :=
  [("transformations", fun c v => (readSize v).map fun n => { c with transformations := n }),
   ("max_attempts", fun c v => (readSize v).map fun n => { c with maxAttempts := n }),
   ("distribution", fun c v => (readDistribution v).map fun d => { c with distribution := d })]

def insertionFields : Fields InsertionConfig :=
  [("probability", fun c v => (readDouble v).map fun d => { c with probability := d }),
   ("annotate_types", fun c v => (readBool v).map fun b => { c with annotated := b }),
   ("supported_kinds", fun c v =>
     (readVariants (ValueKind.all.map fun k => (k.name, k)) v).map fun ks =>
       { c with kinds := .ofList ks }),
   ("name_length", fun c v => (readSize v).map fun n => { c with nameLength := n })]

def wrappingFields : Fields WrappingConfig :=
  [("supported_kinds", fun c v =>
     (readVariants (LiteralKind.all.map fun k => (k.name, k)) v).map fun ks =>
       { c with kinds := .ofList ks })]

def configFields : Fields Config :=
  [("seed", fun c v => (readSeed v).map fun n => { c with seed := some n }),
   ("engine", fun c v =>
     (readSection "EngineConfig" engineFields {} v).map fun s => { c with engine := s }),
   ("add_variable", fun c v =>
     (readSection "AddVariableConfig" insertionFields {} v).map fun s => { c with insertion := s }),
   ("lambda_identity", fun c v =>
     (readSection "LambdaIdentityConfig" wrappingFields {} v).map fun s =>
       { c with wrapping := s })]

/-! ## Writing -/

/-- A statement that gives a key its value. -/
def entry (key : String) (v : Value) : Statement := .entry [] key.toList v

/-- A statement that opens a section. -/
def header (path : List String) : Statement := .header (path.map (·.toList))

def ofSize (n : Nat) : Value := .integer n

/-- Words in a row. -/
def ofWords (ws : List String) : Value := .array (ws.map fun w => .string w.toList)

/-- The greatest whole number of a file. -/
def greatest : Nat := 0x7fffffffffffffff

/-- The statements of a configuration. -/
def statements (c : Config) : List Statement :=
  (match c.seed with
    | some n => [entry "seed" (ofSize n.toNat)]
    | none => []) ++
  [header ["engine"],
   entry "transformations" (ofSize c.engine.transformations),
   entry "max_attempts" (ofSize c.engine.maxAttempts),
   header ["engine", "distribution"]] ++
  (c.engine.distribution.entries.map fun e => entry e.1 (ofSize e.2.toNat)) ++
  [header ["add_variable"],
   entry "probability" (.float c.insertion.probability),
   entry "annotate_types" (.boolean c.insertion.annotated),
   entry "supported_kinds" (ofWords (c.insertion.kinds.1.map (·.name))),
   entry "name_length" (ofSize c.insertion.nameLength),
   header ["lambda_identity"],
   entry "supported_kinds" (ofWords (c.wrapping.kinds.1.map (·.name)))]

/-- Whether all the numbers of a configuration have a place in a file. -/
def isWritable (c : Config) : Bool :=
  (match c.seed with
    | some n => n.toNat ≤ greatest
    | none => true) &&
  c.engine.transformations ≤ greatest && c.engine.maxAttempts ≤ greatest &&
  c.insertion.nameLength ≤ greatest

end ConfigFile

namespace Config

/-- Reads a configuration file. -/
def read (t : Text) : Except Fault Config := do
  match Toml.read t with
  | none => .error (.unreadable none)
  | some es =>
    let c ← ConfigFile.readSection "MutatorConfig" ConfigFile.configFields {} (.table .header es)
    c.validate
    pure c

/-- Writes a configuration file. -/
def write (c : Config) : Except Fault Text :=
  if ConfigFile.isWritable c then .ok (Toml.write (ConfigFile.statements c))
  else .error .unwritable

end Config

end PointMutation
