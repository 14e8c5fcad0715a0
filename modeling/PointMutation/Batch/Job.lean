import PointMutation.Files.Listing
import PointMutation.Fault

/-!
# Jobs

The inputs of a batch are files and folders. A folder stands for all files below it with the right
extension, in the order of their locations. Each file becomes a job, which says where its output
goes; no two jobs may have the same output.
-/

namespace PointMutation

/-- What keeps a batch or one of its jobs from being done. -/
inductive BatchFault
  /-- An input that is neither a file nor a folder. -/
  | missing (input : Text)
  /-- Two inputs with the same output. -/
  | collision (first second output : Text)
  /-- A file that cannot be read as text. -/
  | unreadable (input : Text)
  /-- A file that is not a source. -/
  | unparsable (input : Text) (e : SyntaxError)
  /-- An engine that cannot be set up. -/
  | misconfigured (e : Fault)
  /-- A transformation that fails. -/
  | unmutated (input : Text) (e : Fault)
  /-- A folder that cannot be made. -/
  | noFolder (path : Text)
  /-- A file that cannot be written. -/
  | unwritten (path : Text)
  /-- A report that has no form as a file. -/
  | unreported
  deriving DecidableEq, Repr

namespace BatchFault

/-- Reports what was being done. -/
def describe : BatchFault → String
  | missing i => "input " ++ String.ofList i ++ " does not exist"
  | collision a b o =>
    String.ofList a ++ " and " ++ String.ofList b ++ " would both be written to " ++ String.ofList o
  | unreadable i => "reading " ++ String.ofList i
  | unparsable i _ => "parsing " ++ String.ofList i
  | misconfigured e => e.describe
  | unmutated i _ => "mutating " ++ String.ofList i
  | noFolder p => "creating directory " ++ String.ofList p
  | unwritten p => "writing " ++ String.ofList p
  | unreported => "serializing report"

/-- The fault behind it. -/
def cause? : BatchFault → Option Fault
  | unparsable _ e => some (.unparsable e)
  | misconfigured e => some e
  | unmutated _ e => some e
  | _ => none

end BatchFault

/-- A file to be mutated, and where its output goes below the output folder. -/
structure Job where
  input : Text
  relative : Text
  deriving DecidableEq, Repr

namespace Job

/-- Whether a file below a folder is taken. -/
def isTaken (l : Location) : Bool := Path.extension? (l.getLast?.getD []) = some ['p', 'y']

/-- Whether a location comes before another one in the order of their parts, or is the same. -/
def inOrder (a b : Location) : Bool :=
  !List.lex b a fun p q => List.lex p q fun c d => c.toNat < d.toNat

/-- The jobs of a folder. -/
def ofFolder (t : FileTree) (input : Text) (l : Location) : List Job :=
  let found := (t.filesBelow l).filter isTaken
  (found.mergeSort inOrder).map fun way =>
    ⟨Path.join input (Path.ofParts way), Path.ofParts way⟩

/-- The jobs of an input. -/
def ofInput (t : FileTree) (input : Text) : Except BatchFault (List Job) :=
  match t.locate input with
  | none => .error (.missing input)
  | some l =>
    if t.isFolderAt l then .ok (ofFolder t input l)
    else .ok [⟨input, Path.lastPart input⟩]

/-- The first job with the same output as an earlier one, behind jobs seen before. -/
def collision? : List Job → List Job → Option BatchFault
  | _, [] => none
  | seen, j :: js =>
    match seen.find? fun i => i.relative = j.relative with
    | some i => some (.collision i.input j.input j.relative)
    | none => collision? (seen ++ [j]) js

/-- The jobs of all inputs. -/
def discover (t : FileTree) (inputs : List Text) : Except BatchFault (List Job) := do
  let jobs ← inputs.mapM (ofInput t)
  match collision? [] jobs.flatten with
  | some e => .error e
  | none => .ok jobs.flatten

/-! ## Finding the files -/

/-- The jobs of an input whose folders are walked through in the order of a listing. -/
def ofWalk {t : FileTree} (input : Text) (s : t.Listing) : Except BatchFault (List Job) :=
  match t.locate input with
  | none => .error (.missing input)
  | some l =>
    if t.isFolderAt l then
      .ok (((s.walk isTaken l []).mergeSort inOrder).map fun way =>
        ⟨Path.join input (Path.ofParts way), Path.ofParts way⟩)
    else .ok [⟨input, Path.lastPart input⟩]

/-- The jobs of all inputs, each with an order in which the folders below it are listed. -/
def discoverListed {t : FileTree} (inputs : List (Text × t.Listing)) :
    Except BatchFault (List Job) := do
  let jobs ← inputs.mapM fun i => ofWalk i.1 i.2
  match collision? [] jobs.flatten with
  | some e => .error e
  | none => .ok jobs.flatten

end Job

end PointMutation
