import PointMutation.Repair.Search
import PointMutation.Syntax.Error

/-!
# What a repair tells

The repaired tree of a text has its faults as nodes: stretches of text that fit nowhere, and tokens
that are missing. The first of them is where the text is at fault. Missing tokens of the layout are
no nodes; a text that lacks only those is accepted, with the tree that it has.
-/

namespace PointMutation.Repair

open PointMutation.Grammar

/-! ## Faults -/

/-- A fault in a text. -/
inductive Fault
  | unexpected (start stop : Nat)
  | missing (place : Nat) (name : String)
  deriving DecidableEq, Repr

/-- The name of a token that is a node. -/
def terminalName : Terminal → String
  | .written w => w
  | .exceptStar => "*"
  | .leaf k => k.name
  | .opening => "string_start"
  | .doubledBrace => "escape_interpolation"
  | .closing => "string_end"
  | .escape => "escape_sequence"
  | .conversion => "type_conversion"
  | _ => ""

mutual

/-- The first fault in a branch that is shown as `guise`, if it is disguised. -/
def Branch.fault? (g : Grammar) (guise : Option Guise) : Branch → Option Fault
  | .node s ps =>
    match s.label, s.missing && (guise.isSome || s.shown) with
    | .fault, _ => some (.unexpected s.start s.stop)
    | .terminal t, true =>
      some (.missing s.start
        ((guise.map Guise.text).getD (terminalName (g.terminals.getD t .stop))))
    | _, _ => firstFault? g s.traces ps

/-- The first fault in the parts of a branch. -/
def firstFault? (g : Grammar) (traces : List Trace) : List Branch → Option Fault
  | [] => none
  | b :: bs =>
    if b.isExtra then b.fault? g none <|> firstFault? g traces bs
    else b.fault? g (traces.head?.bind (·.guise)) <|> firstFault? g (traces.drop 1) bs

end

/-! ## Trees -/

/-- The kind of node that a branch is, if it is one. -/
def kindOf (g : Grammar) : Label → Option Kind
  | .terminal t =>
    match g.terminals.getD t .stop with
    | .leaf k => some k
    | _ => none
  | .phrase p =>
    match g.phrases.getD p .statement with
    | .node k => some k
    | _ => none
  | _ => none

/-- The role of a part in a node, where roles count. -/
def roleIn (k : Kind) (name : String) : Option Role :=
  match k with
  | .assignment | .augmentedAssignment | .defaultParameter | .typedParameter
  | .typedDefaultParameter =>
    [("left", Role.left), ("right", .right), ("type", .annotated), ("name", .name),
      ("value", .value)].lookup name
  | _ => none

mutual

/-- The nodes that a branch is or contains, seen from a node of the kind `above`. -/
def Branch.trees (g : Grammar) (above : Kind) (guise : Option Guise) (role : Option String) :
    Branch → List Tree
  | .node s ps =>
    let place := role.bind (roleIn above)
    match guise, s.shown with
    | some (.name _), _ => []
    | some (.kind k), _ => [.node k place s.start s.stop (partTrees g k s.traces none ps)]
    | none, true =>
      match kindOf g s.label with
      | some .string => [.node .string place s.start s.stop []]
      | some k => [.node k place s.start s.stop (partTrees g k s.traces none ps)]
      | none => []
    | none, false => partTrees g above s.traces role ps

/-- The nodes that the parts of a branch are or contain. A part without a role of its own has that
of the branch. -/
def partTrees (g : Grammar) (above : Kind) (traces : List Trace) (role : Option String) :
    List Branch → List Tree
  | [] => []
  | b :: bs =>
    if b.isExtra then b.trees g above none role ++ partTrees g above traces role bs
    else
      let trace := traces.headD {}
      b.trees g above trace.guise (trace.role <|> role) ++
        partTrees g above (traces.drop 1) role bs

end

/-! ## Texts -/

/-- What is wrong at a fault. -/
def Fault.toSyntaxError (t : Text) : Fault → SyntaxError
  | .unexpected start stop =>
    .atPlace t start ("unexpected `" ++ SyntaxError.excerpt (t.slice start stop) ++ "`")
  | .missing place name => .atPlace t place ("missing `" ++ name ++ "`")

/-- The tree of a text, or where the text is at fault. -/
def diagnose (r : Reader) (t : Text) : Except SyntaxError Tree :=
  match (r.task t).best with
  | none => .error ((Fault.unexpected 0 t.length).toSyntaxError t)
  | some b =>
    match b.fault? r.grammar none with
    | some f => .error (f.toSyntaxError t)
    | none =>
      .ok (.node .file none 0 t.length (partTrees r.grammar .file b.summary.traces none b.parts))

end PointMutation.Repair
