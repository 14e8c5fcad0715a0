import PointMutation.Syntax.Simple

/-!
# Compound statements

Statements with bodies. A body is an indented block, the simple statements behind a colon on the
same line, or nothing at all.
-/

namespace PointMutation.Syntax

/-- Where a statement of a block may begin or the block may end. -/
def statementStart : Expect := { quote := true, dedent := true }

/-- Right behind the colon in front of a body. -/
def bodyStart : Expect := { newline := true, indent := true, quote := true }

/-- Right behind the colon in front of the cases of a match. -/
def casesStart : Expect := { newline := true, indent := true }

/-! ## Bodies -/

/-- A fragment without tokens, where the cursor stands. -/
def emptyFragment : Parser Fragment := do
  let c ← get
  pure ⟨[], [], c.place, c.place⟩

/-- Constructs up to the end of their indentation. -/
def untilDedent (e : Expect) (p : Parser Fragment) : Parser Fragment := do
  let f ← (do
    let first ← p
    many (fun f => do pure (f ++ (← p))) first) <|> emptyFragment
  pure (f ++ (← layoutToken e .dedent))

/-- A body behind its colon. -/
def body (r : Rules) : Parser Fragment := do
  let c ← get
  let (extras, found) ← look bodyStart
  match found with
  | .indent => do
    let b ← untilDedent statementStart r.statement
    pure ((b.node .block).behind extras)
  | .newline => do pure (((← emptyFragment).node .block).behind extras)
  | _ => do
    set c
    pure ((← simpleStatements r bodyStart).node .block)

/-- A colon with the body behind it, behind `f`. -/
def withBody (r : Rules) (e : Expect) (f : Fragment) : Parser Fragment := do
  let colon ← mark e ":"
  pure (f ++ colon ++ (← body r))

/-! ## Clauses -/

/-- A clause that begins with a word alone. -/
def plainClause (r : Rules) (w : String) (k : Kind) : Parser Fragment := do
  pure ((← withBody r .plain (← keyword statementStart w)).node k)

def elseClause (r : Rules) : Parser Fragment := plainClause r "else" .elseClause

/-- A word with a condition and a body. -/
def conditioned (r : Rules) (w : String) : Parser Fragment := do
  let f := (← keyword statementStart w) ++ (← r.expression .conditional .operand .other)
  withBody r .plain f

def ifStatement (r : Rules) : Parser Fragment := do
  let f ← many (fun f => do pure (f ++ (← conditioned r "elif").node .elifClause))
    (← conditioned r "if")
  pure ((← orNothing f (elseClause r)).node .ifStatement)

def whileStatement (r : Rules) : Parser Fragment := do
  pure ((← orNothing (← conditioned r "while") (elseClause r)).node .whileStatement)

/-- Whether a value ends with one that is given a name. -/
def endsNamed (t : Tree) : Bool :=
  t.kind == .namedExpression ||
    ((t.kind == .notOperator || t.kind == .booleanOperator) &&
      match _h : t.children.getLast? with
      | some c => endsNamed c
      | none => false)
termination_by sizeOf t
decreasing_by exact Tree.sizeOf_lt_of_mem_children (List.mem_of_getLast? _h)

/-- What is caught first. A value that is given a name there takes in an `as`, which none does
elsewhere. -/
def caught (r : Rules) : Parser Fragment := do
  let f ← (do
      let target ← operandName .operand
      let f := target ++ (← mark .plain ":=")
      pure ((f ++ (← r.expression .filter .operand .other)).node .namedExpression))
    <|> r.expression .disjunction .operand .other
  if f.items.any endsNamed && (← peekWord .plain) = "as".toList then failure
  many (combine r .conditional .other) f

def exceptClause (r : Rules) : Parser Fragment := do
  let value (e : Expect) := r.expression .conditional e .other
  let f ← orNothing (← keyword statementStart "except") (mark .operand "*")
  let f ← orNothing f (do commaSeparated .plain .operand value false (← caught r))
  pure ((← withBody r .plain f).node .exceptClause)

def tryStatement (r : Rules) : Parser Fragment := do
  let f ← withBody r .plain (← keyword .plain "try")
  let f ← many (fun f => do pure (f ++ (← exceptClause r))) f
  let f ← orNothing f (elseClause r)
  pure ((← orNothing f (plainClause r "finally" .finallyClause)).node .tryStatement)

/-! ## Loops and contexts -/

/-- The word `async` in front of a statement, if it is there. -/
def maybeAsync (w : String) : Parser Fragment :=
  (do pure ((← keyword .plain "async") ++ (← keyword .plain w))) <|> keyword .plain w

def forStatement (r : Rules) : Parser Fragment := do
  let f := (← maybeAsync "for") ++ (← targetList r false .operand .other)
  let f := f ++ (← keyword .plain "in") ++ (← expressionList r .operand .other)
  pure ((← orNothing (← withBody r .plain f) (elseClause r)).node .forStatement)

/-- Contexts separated by commas. -/
def withItems (r : Rules) (follow : Follow) (e : Expect) : Parser Fragment := do
  let item (e : Expect) : Parser Fragment := do
    pure ((← r.expression .conditional e follow).node .withItem)
  commaSeparated follow.expect follow.orOperand item true (← item e)

/-- Several contexts between parentheses. -/
def parenthesizedItems (r : Rules) : Parser Fragment := do
  let f := (← mark .operand "(") ++ (← withItems r .bracket element)
  if 1 < (f.items.filter fun t => t.kind == .withItem).length then do
    let f := f ++ (← mark closing ")")
    match ← peek .plain with
    | ':' :: _ => pure f
    | _ => failure
  else failure

def withStatement (r : Rules) : Parser Fragment := do
  let k ← maybeAsync "with"
  let items ← parenthesizedItems r <|> withItems r .other .operand
  pure ((← withBody r .plain (k ++ items.node .withClause)).node .withStatement)

/-! ## Definitions -/

/-- Whether a starred name comes next, with more of a type behind it. -/
def isLongSplat : Parser Bool := do
  let c ← get
  let b ← (do
    let _ ← splatType .plain .line
    match ← peek Follow.line.expect with
    | d :: _ => pure (d == ':' || d == '.' || d == '|')
    | [] => pure false) <|> pure false
  set c
  pure b

/-- Whether the body behind a result's annotation could be taken for more of it. -/
def looksLikeBound : Parser Bool := do
  let c ← get
  let b ← (do
    let _ ← mark .plain ":"
    let (_, found) ← look bodyStart
    if found = .text then pure ((← isGeneric .plain .line) || (← isLongSplat))
    else pure false) <|> pure false
  set c
  pure b

def functionDefinition (r : Rules) : Parser Fragment := do
  let f := (← maybeAsync "def") ++ (← name .plain)
  let f ← orNothing f (typeParameter r .plain)
  let f := f ++ (← parameters r)
  let f ← orNothing f (do
    let arrow ← mark .plain "->"
    let f := arrow ++ (← r.typeHint false .operand .other)
    if ← looksLikeBound then failure else pure f)
  pure ((← withBody r .plain f).node .functionDefinition)

def classDefinition (r : Rules) : Parser Fragment := do
  let f := (← keyword .plain "class") ++ (← name .plain)
  let f ← orNothing f (typeParameter r .plain)
  let f ← orNothing f (argumentList r .plain)
  pure ((← withBody r .plain f).node .classDefinition)

def decorator (r : Rules) : Parser Fragment := do
  let f := (← mark .plain "@") ++ (← r.expression .conditional .operand .line)
  pure ((f ++ (← layoutToken lineEnd .newline)).node .decorator)

def decoratedDefinition (r : Rules) : Parser Fragment := do
  let f ← many (fun f => do pure (f ++ (← decorator r))) (← decorator r)
  pure ((f ++ (← classDefinition r <|> functionDefinition r)).node .decoratedDefinition)

/-! ## Matches -/

def caseClause (r : Rules) : Parser Fragment := do
  let k ← keyword { dedent := true } "case"
  let pattern (e : Expect) := r.casePattern e .other
  let f ← commaSeparated .plain .operand pattern true (k ++ (← pattern .operand))
  let f ← orNothing f (do
    let w ← keyword .plain "if"
    pure ((w ++ (← r.expression .conditional .operand .other)).node .ifClause))
  pure ((← withBody r .plain f).node .caseClause)

def matchStatement (r : Rules) : Parser Fragment := do
  let value (e : Expect) := r.expression .conditional e .other
  let k ← keyword .plain "match"
  if Text.startsWith (← peek lineEndOrOperand) ['*', '*'] then failure
  let f ← commaSeparated .plain .operand value true (k ++ (← value lineEndOrOperand))
  let f := f ++ (← mark .plain ":")
  let (extras, found) ← look casesStart
  let o ← emptyFragment
  let cases ← match found with
    | .indent => do pure (o ++ (← untilDedent { dedent := true } (caseClause r)))
    | .newline => pure o
    | _ => failure
  pure ((f ++ (cases.node .block).behind extras).node .matchStatement)

/-! ## All statements -/

/-- A statement that begins with the word `w`. -/
def statementAt (r : Rules) (w : Text) : Parser Fragment :=
  let line := simpleStatements r .operand
  if w = "if".toList then ifStatement r
  else if w = "for".toList then forStatement r
  else if w = "while".toList then whileStatement r
  else if w = "try".toList then tryStatement r
  else if w = "with".toList then withStatement r
  else if w = "def".toList then functionDefinition r
  else if w = "class".toList then classDefinition r
  else if w = "match".toList then line <|> matchStatement r
  else if w = "async".toList then
    functionDefinition r <|> forStatement r <|> withStatement r <|> line
  else line

/-- A statement, or several simple ones up to the end of their line. -/
def statement (r : Rules) : Parser Fragment := do
  let (extras, found) ← look statementStart
  let f ← match found with
    | .quote _ _ => simpleStatements r .operand
    | .text => do
      match (← get).rest with
      | '@' :: _ => decoratedDefinition r
      | t => statementAt r (Text.word t)
    | _ => failure
  pure (f.behind extras)

end PointMutation.Syntax
