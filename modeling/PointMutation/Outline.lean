import PointMutation.Source

/-!
# Outlines

An outline is what a walk through a source comes by: expressions with the expressions below them,
the places where a value is bound or returned, the physical lines of simple statements, and the
compound statements and blocks around them. Comments are no part of it, and the inside of a
quotation is not either.

Simple statements belong to one line as long as each begins in the row in which the one before it
ends. A body that follows its colon on the same row has no lines: its statements belong to the
header.
-/

namespace PointMutation

/-- Where an expression is a value that is bound or returned. -/
inductive Site
  | assign | annotatedAssign | augmentedAssign | returned | parameterDefault
  deriving DecidableEq, Repr

/-- What a walk comes by. -/
inductive Outline
  /-- An expression with what lies below it. -/
  | expression (kind : Kind) (start stop : Nat) (inner : List Outline)
  /-- An expression that is a value. -/
  | value (site : Site) (inner : Outline)
  /-- A line of simple statements, with their kinds and whether it is only a quotation. -/
  | line (kinds : List Kind) (docstring : Bool) (start stop : Nat) (inner : List Outline)
  /-- A compound statement. -/
  | compound (kind : Kind) (inner : List Outline)
  /-- A body, which may not lose all its lines. -/
  | block (items : List Outline)
  /-- Other parts of a statement. -/
  | group (inner : List Outline)
  deriving Repr

namespace Outline

/-- A line that is being collected. -/
structure Line where
  kinds : List Kind
  docstring : Bool
  start : Nat
  stop : Nat
  inner : List Outline

/-- The outline of a collected line, or of statements that belong to their header. -/
def Line.outline (l : Line) (inline : Bool) : Outline :=
  if inline then .group l.inner else .line l.kinds l.docstring l.start l.stop l.inner

/-- The outline of a line if there is one. -/
def lineIfAny (inline : Bool) : Option Line → List Outline
  | some l => [l.outline inline]
  | none => []

/-- Whether a statement that begins at `start` goes on with a line. -/
def Line.goesOn (text : Text) (l : Line) (start : Nat) : Bool :=
  Text.breaks (Text.slice text l.stop start) == 0

/-- Adds a statement to a line. -/
def Line.add (l : Line) (kind : Kind) (stop : Nat) (inner : List Outline) : Line :=
  ⟨l.kinds ++ [kind], false, l.start, stop, l.inner ++ inner⟩

/-- Whether a statement is a quotation and nothing else. -/
def isDocstring (kind : Kind) (children : List Tree) : Bool :=
  match children with
  | [c] => kind == .expressionStatement && (c.kind == .string || c.kind == .concatenatedString)
  | _ => false

/-- Whether the first statement of a body follows the colon on the same row. -/
def isInline (text : Text) (children : List Tree) : Bool :=
  match children.find? fun c => c.kind != .comment with
  | none => false
  | some first =>
    match (text.take first.start).reverse.dropWhile fun c => c == ' ' || c == '\t' with
    | [] => false
    | c :: _ => c != '\n'

mutual

/-- An expression. -/
def ofExpression : Tree → Outline
  | .node k _ a b cs =>
    .expression k a b (if k == .string || k == .concatenatedString then [] else ofExpressions cs)

/-- Expressions side by side. -/
def ofExpressions : List Tree → List Outline
  | [] => []
  | t :: ts => if t.kind == .comment then ofExpressions ts else ofExpression t :: ofExpressions ts

end

mutual

/-- What an assignment holds, of which only the innermost right side is a value. -/
def ofAssignment : Bool → List Tree → List Outline
  | _, [] => []
  | annotated, t :: ts => ofAssigned annotated t ++ ofAssignment annotated ts

/-- A part of an assignment. -/
def ofAssigned : Bool → Tree → List Outline
  | annotated, .node k r a b cs =>
    match r with
    | some .left => [ofExpression (.node k r a b cs)]
    | some .annotated => [ofExpression (.node k r a b cs)]
    | some .right =>
      if k == .assignment then ofAssignment (cs.any fun c => c.role == some .annotated) cs
      else
        [.value (if annotated then .annotatedAssign else .assign) (ofExpression (.node k r a b cs))]
    | _ => []

end

/-- A part of an augmented assignment. -/
def ofAugmented (t : Tree) : List Outline :=
  match t.role with
  | some .left => [ofExpression t]
  | some .right => [.value .augmentedAssign (ofExpression t)]
  | _ => []

/-- A part of a statement made of expressions. -/
def ofExpressionPart (t : Tree) : List Outline :=
  match t with
  | .node .assignment _ _ _ cs => ofAssignment (cs.any fun c => c.role == some .annotated) cs
  | .node .augmentedAssignment _ _ _ cs => cs.flatMap ofAugmented
  | t => [ofExpression t]

/-- What a simple statement holds. -/
def ofSimple (t : Tree) : List Outline :=
  match t.kind with
  | .expressionStatement => t.parts.flatMap ofExpressionPart
  | .returnStatement => t.parts.map fun c => .value .returned (ofExpression c)
  | _ => ofExpressions t.children

/-- A part of a parameter with a default value. -/
def ofDefaultPart (t : Tree) : List Outline :=
  match t.role with
  | some .name => [ofExpression t]
  | some .annotated => [ofExpression t]
  | some .value => [.value .parameterDefault (ofExpression t)]
  | _ => []

/-- A parameter of a definition. -/
def ofParameter (t : Tree) : List Outline :=
  match t.kind with
  | .comment => []
  | .defaultParameter => t.children.flatMap ofDefaultPart
  | .typedDefaultParameter => t.children.flatMap ofDefaultPart
  | _ => [ofExpression t]

/-- A line of one statement. -/
def Line.ofStatement (t : Tree) : Line :=
  ⟨[t.kind], isDocstring t.kind t.children, t.start, t.stop, ofSimple t⟩

mutual

/-- The statements of a file or a body behind the line that is being collected. -/
def ofStatements (text : Text) (inline : Bool) : Option Line → List Tree → List Outline
  | l, [] => lineIfAny inline l
  | l, t :: ts =>
    if t.kind == .comment then ofStatements text inline l ts
    else if t.kind.isSimple then
      match l with
      | some l =>
        if l.goesOn text t.start then
          ofStatements text inline (some (l.add t.kind t.stop (ofSimple t))) ts
        else l.outline inline :: ofStatements text inline (some (.ofStatement t)) ts
      | none => ofStatements text inline (some (.ofStatement t)) ts
    else lineIfAny inline l ++ ofCompound text t :: ofStatements text inline none ts

/-- A compound statement, or another part of a body that is no simple statement. -/
def ofCompound (text : Text) : Tree → Outline
  | .node k _ _ _ cs =>
    if k == .decoratedDefinition then .group (ofDecorated text cs)
    else if k.isCompound then .compound k (ofClauses text (k == .functionDefinition) cs)
    else .group (ofClauses text false cs)

/-- Decorators and what they decorate. -/
def ofDecorated (text : Text) : List Tree → List Outline
  | [] => []
  | t :: ts =>
    if t.kind == .comment then ofDecorated text ts
    else (if t.kind.isCompound then ofCompound text t else ofExpression t) :: ofDecorated text ts

/-- The parts of a compound statement or one of its clauses. -/
def ofClauses (text : Text) (definition : Bool) : List Tree → List Outline
  | [] => []
  | .node k r a b cs :: ts =>
    if k == .comment then ofClauses text definition ts
    else if k == .block then
      .block (ofStatements text (isInline text cs) none cs) :: ofClauses text definition ts
    else if k == .parameters && definition then
      cs.flatMap ofParameter ++ ofClauses text definition ts
    else if k.isClause then
      .group (ofClauses text false cs) :: ofClauses text definition ts
    else ofExpression (.node k r a b cs) :: ofClauses text definition ts

end

/-- The outline of a source. -/
def ofSource (s : Source) : List Outline := ofStatements s.text false none s.tree.children

end Outline

end PointMutation
