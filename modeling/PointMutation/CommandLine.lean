import PointMutation.Batch.Report
import PointMutation.Diff.Render

/-!
# The command line

The words of a command line are options and inputs. An option of one letter may have its value in
the same word, and several letters may share a word as long as only the last one has a value; an
option of several letters may have its value behind an equals sign. No option is given twice, and
behind two hyphens there are only inputs.
-/

namespace PointMutation

/-- What is asked for on the command line. -/
structure Request where
  inputs : List Text
  out : Text
  config : Option Text := none
  seed : Option UInt64 := none
  transformations : Option Nat := none
  diff : Bool := false
  report : Option Text := none
  deriving DecidableEq, Repr

namespace CommandLine

/-! ## Options -/

inductive Opt
  | out | config | seed | transformations | diff | report | help
  deriving DecidableEq, Repr

namespace Opt

def all : List Opt := [out, config, seed, transformations, diff, report, help]

def letter : Opt → Char
  | out => 'o'
  | config => 'c'
  | seed => 's'
  | transformations => 't'
  | diff => 'd'
  | report => 'r'
  | help => 'h'

def word : Opt → Text
  | out => "out".toList
  | config => "config".toList
  | seed => "seed".toList
  | transformations => "transformations".toList
  | diff => "diff".toList
  | report => "report".toList
  | help => "help".toList

/-- Whether a value belongs to the option. -/
def takesValue : Opt → Bool
  | diff => false
  | help => false
  | _ => true

def ofLetter? (c : Char) : Option Opt := all.find? (·.letter == c)

def ofWord? (w : Text) : Option Opt := all.find? (·.word == w)

end Opt

/-- Why a command line is no request. -/
inductive Refusal
  /-- It asks how to write one. -/
  | help
  /-- It is wrong. -/
  | wrong
  deriving DecidableEq, Repr

/-- The options and inputs of the words read so far. -/
structure Words where
  options : List (Opt × Text)
  inputs : List Text

/-! ## Values -/

/-- A whole number below a bound, perhaps behind a plus. -/
def number? (bound : Nat) (t : Text) : Option Nat :=
  let ds := match t with
    | '+' :: r => r
    | t => t
  if ds.isEmpty || !ds.all Toml.isDigit then none
  else
    let n := Toml.numberFrom 10 0 ds
    if n < bound then some n else none

/-- Whether a value fits an option. -/
def fits (o : Opt) (v : Text) : Bool :=
  match o with
  | .seed => (number? 0x8000000000000000 v).isSome
  | .transformations => (number? UInt64.size v).isSome
  | _ => !v.isEmpty

/-- Takes an option with its value. -/
def take (w : Words) (o : Opt) (v : Text) : Except Refusal Words :=
  if o == .help then .error .help
  else if w.options.any (·.1 == o) then .error .wrong
  else if o.takesValue && !fits o v then .error .wrong
  else .ok { w with options := w.options ++ [(o, v)] }

/-- Takes an input. -/
def takeInput (w : Words) (v : Text) : Except Refusal Words :=
  if v.isEmpty then .error .wrong else .ok { w with inputs := w.inputs ++ [v] }

/-! ## Words -/

/-- Takes letters that share a word. The last one may be an option whose value is missing. -/
def letters (w : Words) : Text → Except Refusal (Words × Option Opt)
  | [] => .ok (w, none)
  | c :: r =>
    match Opt.ofLetter? c with
    | none => .error .wrong
    | some o =>
      if o.takesValue then
        match r with
        | [] => .ok (w, some o)
        | '=' :: v => (take w o v).map (·, none)
        | v => (take w o v).map (·, none)
      else
        match take w o [] with
        | .ok w => letters w r
        | .error e => .error e

/-- Takes an option of several letters, perhaps with a value behind an equals sign. -/
def longOption (w : Words) (t : Text) : Except Refusal (Words × Option Opt) :=
  match Opt.ofWord? (t.takeWhile (· != '=')), t.dropWhile (· != '=') with
  | none, _ => .error .wrong
  | some o, [] => if o.takesValue then .ok (w, some o) else (take w o []).map (·, none)
  | some o, _ :: v => if o.takesValue then (take w o v).map (·, none) else .error .wrong

/-- Takes a word, which may be an option whose value is missing. -/
def word (w : Words) (t : Text) : Except Refusal (Words × Option Opt) :=
  match t with
  | '-' :: '-' :: r => longOption w r
  | ['-'] => (takeInput w ['-']).map (·, none)
  | '-' :: r => letters w r
  | t => (takeInput w t).map (·, none)

/-- Whether a word cannot be the value of an option in front of it. -/
def isOption (t : Text) : Bool :=
  match t with
  | '-' :: _ :: _ => true
  | _ => false

/-- Takes words one after the other, the first one for an option that has no value yet. -/
def words : Option Opt → Words → List Text → Except Refusal Words
  | none, w, [] => .ok w
  | some _, _, [] => .error .wrong
  | some o, w, t :: ts =>
    if isOption t then .error .wrong
    else
      match take w o t with
      | .ok w => words none w ts
      | .error e => .error e
  | none, w, t :: ts =>
    if t = ['-', '-'] then ts.foldlM takeInput w
    else
      match word w t with
      | .ok (w, o) => words o w ts
      | .error e => .error e

/-- The value of an option. -/
def Words.value? (w : Words) (o : Opt) : Option Text := w.options.lookup o

/-- Reads a command line. -/
def parse (ts : List Text) : Except Refusal Request := do
  let w ← words none ⟨[], []⟩ ts
  match w.inputs, w.value? .out with
  | [], _ => .error .wrong
  | _, none => .error .wrong
  | inputs, some out =>
    pure
      { inputs := inputs
        out := out
        config := w.value? .config
        seed := ((w.value? .seed).bind (number? 0x8000000000000000)).map (·.toUInt64)
        transformations := (w.value? .transformations).bind (number? UInt64.size)
        diff := (w.value? .diff).isSome
        report := w.value? .report }

/-- How to write a command line. -/
def help : Text := "Apply single-site mutations to Python source files

Usage: cst-mutate [OPTIONS] --out <OUT> <INPUTS>...

Arguments:
  <INPUTS>...  Python files or directories to mutate

Options:
  -o, --out <OUT>
          Directory receiving the mutated files
  -c, --config <FILE>
          Path to .toml configuration for the mutator
  -s, --seed <SEED>
          Base seed; file `i` is mutated with `seed + i`
  -t, --transformations <TRANSFORMATIONS>
          Transformations per file, overriding the configuration
  -d, --diff
          Print a colored diff for each file
  -r, --report <FILE>
          Write a TOML report of every transformation
  -h, --help
          Print help
".toList

end CommandLine

/-! ## Requests -/

/-- What a program complains of in the end. -/
inductive Complaint
  /-- A command line that is wrong. -/
  | usage
  /-- A configuration file that cannot be loaded. -/
  | configuration (path : Text) (e : Fault)
  /-- Values that nothing can be set up with. -/
  | invalid (e : Fault)
  /-- What keeps a batch from being done or reported. -/
  | batch (e : BatchFault)
  /-- An output folder that cannot be made. -/
  | noOutput (path : Text)
  /-- A report that cannot be written. -/
  | noReport (path : Text)
  /-- A batch all of whose jobs have failed. -/
  | nothingMutated
  deriving DecidableEq, Repr

namespace Complaint

/-- Reports what was being done. The text of a usage error is left to the reader of the command
line. -/
def describe : Complaint → String
  | usage => ""
  | configuration p _ => "loading configuration " ++ String.ofList p
  | invalid e => e.describe
  | batch e => e.describe
  | noOutput p => "creating output directory " ++ String.ofList p
  | noReport p => "writing report " ++ String.ofList p
  | nothingMutated => "no file could be mutated"

end Complaint

/-- How a program ends: what it has printed, and what it complains of. -/
structure Ending where
  output : Text
  complaint : Option Complaint
  deriving DecidableEq, Repr

/-- The number that a program ends with. -/
def Ending.code (e : Ending) : Nat :=
  match e.complaint with
  | none => 0
  | some .usage => 2
  | some _ => 1

namespace Config

/-- Loads a configuration file. -/
def load (t : FileTree) (p : Text) : Except Fault Config :=
  match t.readText p with
  | none => .error .inaccessible
  | some s => read s

end Config

namespace Request

/-- The configuration of a request. -/
def setting (r : Request) (t : FileTree) : Except Complaint Config := do
  let c ← match r.config with
    | some p => (Config.load t p).mapError (.configuration p)
    | none => .ok {}
  let c := match r.seed with
    | some s => { c with seed := some s }
    | none => c
  let c := match r.transformations with
    | some n => { c with engine := { c.engine with transformations := n } }
    | none => c
  c.validate.mapError .invalid
  pure c

/-- The differences of all files that were mutated. -/
def diffs (colour : Bool) (rs : List (Except BatchFault Processed)) : Text :=
  (rs.filterMap (·.toOption)).flatMap fun p => Diff.render colour p.input p.original p.mutated

/-- Writes the report of a batch if it is asked for. -/
def writeReport (r : Request) (report : Report) (t : FileTree) : Except Complaint FileTree :=
  match r.report with
  | none => .ok t
  | some p =>
    match report.write with
    | .error e => .error (.batch e)
    | .ok s =>
      match t.writeText p s with
      | none => .error (.noReport p)
      | some t => .ok t

/-- What is done behind the jobs of a batch: their differences are printed and the report is
written. The program complains if there were jobs and all of them have failed. -/
def conclude (r : Request) (colour : Bool) (seed : UInt64)
    (rs : List (Except BatchFault Processed)) (t : FileTree) : Ending × FileTree :=
  let output := if r.diff then diffs colour rs else []
  let report := Report.ofOutcomes seed rs
  match r.writeReport report t with
  | .error e => (⟨output, some e⟩, t)
  | .ok t =>
    (⟨output, if !rs.isEmpty && report.failures = rs.length then some .nothingMutated else none⟩, t)

/-- Does a batch. A seed that is given nowhere is `chosen`. -/
def run (r : Request) (colour : Bool) (chosen : UInt64) (t : FileTree) : Ending × FileTree :=
  match r.setting t with
  | .error e => (⟨[], some e⟩, t)
  | .ok c =>
    let seed := c.seed.getD chosen
    match Job.discover t r.inputs with
    | .error e => (⟨[], some (.batch e)⟩, t)
    | .ok jobs =>
      match t.makeFolders r.out with
      | none => (⟨[], some (.noOutput r.out)⟩, t)
      | some t =>
        let (rs, t) := Job.processAll c r.out seed jobs t
        r.conclude colour seed rs t

end Request

namespace CommandLine

/-- Reads a command line and does what it asks for. -/
def run (ts : List Text) (colour : Bool) (chosen : UInt64) (t : FileTree) : Ending × FileTree :=
  match parse ts with
  | .ok r => r.run colour chosen t
  | .error .help => (⟨help, none⟩, t)
  | .error .wrong => (⟨[], some .usage⟩, t)

end CommandLine

end PointMutation
