import PointMutation.Batch.Job
import PointMutation.Engine

/-!
# Processing of jobs

A job reads its input, mutates it with an engine of its own and writes the output. Job number `i`
of a batch has the seed of the batch plus `i`. A job that fails leaves the others alone.

Jobs may also be done side by side. A schedule says which job goes on next: the first time it reads
and mutates its input, the second time it writes its output, and then it is done.
-/

namespace PointMutation

/-- What a job comes to. -/
structure Processed where
  input : Text
  output : Text
  original : Text
  mutated : Text
  records : List Record
  deriving DecidableEq, Repr

/-- What a job has read, and what it is going to write. -/
structure Draft where
  original : Text
  result : Text
  records : List Record
  deriving DecidableEq, Repr

namespace Job

/-- Mutates the text of a job. Gives the result with the records of the engine. -/
def mutated (j : Job) (c : Config) (seed : UInt64) (original : Text) :
    Except BatchFault (Text × List Record) :=
  match Source.read original with
  | .error e => .error (.unparsable j.input e)
  | .ok s =>
    match Engine.standard c (.seeded seed) with
    | .error e => .error (.misconfigured e)
    | .ok engine =>
      match engine.transform (some (String.ofList j.input)) s with
      | (.error e, _) => .error (.unmutated j.input e)
      | (.ok s, engine) => .ok (s.text, engine.records)

/-- Writes the output of a job. -/
def write (t : FileTree) (output result : Text) : Except BatchFault Unit × FileTree :=
  match t.makeFolders (Path.parent output) with
  | none => (.error (.noFolder (Path.parent output)), t)
  | some t =>
    match t.writeText output result with
    | none => (.error (.unwritten output), t)
    | some t => (.ok (), t)

/-- Reads the input of a job and mutates it. -/
def draft (c : Config) (seed : UInt64) (t : FileTree) (j : Job) : Except BatchFault Draft :=
  match t.readText j.input with
  | none => .error (.unreadable j.input)
  | some original =>
    match j.mutated c seed original with
    | .error e => .error e
    | .ok (result, records) => .ok ⟨original, result, records⟩

/-- Writes what a job has made. -/
def deliver (out : Text) (j : Job) (d : Draft) (t : FileTree) :
    Except BatchFault Processed × FileTree :=
  let output := Path.join out j.relative
  match write t output d.result with
  | (.error e, t) => (.error e, t)
  | (.ok (), t) => (.ok ⟨j.input, output, d.original, d.result, d.records⟩, t)

/-- Ends a job, which writes something only if it has made something. -/
def finish (out : Text) (j : Job) (d : Except BatchFault Draft) (t : FileTree) :
    Except BatchFault Processed × FileTree :=
  match d with
  | .error e => (.error e, t)
  | .ok d => j.deliver out d t

/-- Does a job. -/
def process (c : Config) (seed : UInt64) (out : Text) (t : FileTree) (j : Job) :
    Except BatchFault Processed × FileTree :=
  j.finish out (j.draft c seed t) t

/-- Does jobs one after the other, the first one with the given seed. -/
def processAll (c : Config) (out : Text) :
    UInt64 → List Job → FileTree → List (Except BatchFault Processed) × FileTree
  | _, [], t => ([], t)
  | seed, j :: js, t =>
    let (r, t) := j.process c seed out t
    let (rs, t) := processAll c out (seed + 1) js t
    (r :: rs, t)

end Job

/-! ## Jobs side by side -/

/-- How far a job has come. -/
inductive Stage
  | waiting
  | drafted (d : Except BatchFault Draft)
  | done (r : Except BatchFault Processed)

/-- A job with its seed and its stage. -/
structure Task where
  job : Job
  seed : UInt64
  stage : Stage

/-- Jobs side by side on one file tree. -/
structure Batch where
  tree : FileTree
  tasks : List Task

namespace Task

/-- A job goes on to its next stage. -/
def advance (c : Config) (out : Text) (k : Task) (t : FileTree) : Task × FileTree :=
  match k.stage with
  | .waiting => ({ k with stage := .drafted (k.job.draft c k.seed t) }, t)
  | .drafted d =>
    let (r, t) := k.job.finish out d t
    ({ k with stage := .done r }, t)
  | .done _ => (k, t)

/-- The outcome of a job that is done. -/
def outcome? (k : Task) : Option (Except BatchFault Processed) :=
  match k.stage with
  | .done r => some r
  | _ => none

end Task

namespace Batch

/-- The tasks of jobs that wait, the first one with the given seed. -/
def waiting : UInt64 → List Job → List Task
  | _, [] => []
  | seed, j :: js => ⟨j, seed, .waiting⟩ :: waiting (seed + 1) js

/-- Job number `i` goes on. -/
def advance (c : Config) (out : Text) (b : Batch) (i : Nat) : Batch :=
  match b.tasks[i]? with
  | none => b
  | some k =>
    let (k, t) := k.advance c out b.tree
    ⟨t, b.tasks.set i k⟩

/-- Jobs go on in the order of a schedule. -/
def run (c : Config) (out : Text) (b : Batch) (schedule : List Nat) : Batch :=
  schedule.foldl (advance c out) b

end Batch

end PointMutation
