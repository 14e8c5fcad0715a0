import PointMutation.Syntax.CasePattern

/-!
# Simple statements

Statements without a body. Several of them may share a line, separated by semicolons. Words such
as `print` and `type` begin statements of their own only where the line cannot be read as an
expression or an assignment, or, for `type`, where it can be read as an alias.
-/

namespace PointMutation.Syntax

/-- Behind a statement on its line. -/
def lineEnd : Expect := { newline := true }

/-- Right behind a semicolon, or behind a word that may be a whole statement. -/
def lineEndOrOperand : Expect := { newline := true, quote := true }

/-- A keyword with what stands behind it, as one node. -/
def introduced (w : String) (k : Kind) (p : Parser Fragment) : Parser Fragment := do
  let f ← keyword .operand w
  pure ((f ++ (← p)).node k)

/-- Names separated by commas. -/
def namesBehind (w : String) (k : Kind) : Parser Fragment :=
  introduced w k (do commaSeparated lineEnd .plain name false (← name .plain))

/-! ## Imports -/

/-- A module or a member that is imported, perhaps under another name. -/
def importedName (follow e : Expect) : Parser Fragment := do
  let f ← dottedName e follow
  (do
    let k ← keyword follow "as"
    pure ((f ++ k ++ (← name .plain)).node .aliasedImport)) <|> pure f

def importedNames (follow e : Expect) : Parser Fragment := do
  commaSeparated follow follow (importedName follow) true (← importedName follow e)

/-- The names imported from a module, with or without parentheses. -/
def importedMembers : Parser Fragment :=
  (do
    let f := (← mark .plain "(") ++ (← importedNames closing .plain)
    pure (f ++ (← mark closing ")"))) <|>
  importedNames lineEnd .plain

/-- A module given relative to the importing one. -/
def relativeImport : Parser Fragment := do
  let points ← many (fun f => do pure (f ++ (← mark .plain "."))) (← mark .plain ".")
  let f ← orNothing (points.node .importPrefix) (dottedName .plain .plain)
  pure (f.node .relativeImport)

def importFrom : Parser Fragment := do
  let k ← keyword .plain "from"
  if (← peekWord .plain) = "__future__".toList then do
    let f := k ++ (← keyword .plain "__future__") ++ (← keyword .plain "import")
    pure ((f ++ (← importedMembers)).node .futureImportStatement)
  else do
    let f := k ++ (← relativeImport <|> dottedName .plain .plain) ++ (← keyword .plain "import")
    let members ← (do pure ((← mark .plain "*").node .wildcardImport)) <|> importedMembers
    pure ((f ++ members).node .importFromStatement)

/-! ## Expressions and assignments -/

/-- The operator of an augmented assignment. -/
def augmented (e : Expect) : Parser Fragment := token e augmentedLength?

/-- An assignment to targets, the first of which are read as such. -/
def assignmentTo (r : Rules) (e : Expect) : Parser Fragment := do
  let left := (← targetList r true e .line).withRole .left
  (do
    let o ← augmented lineEnd
    pure ((left ++ o ++ (← r.rightSide).withRole .right).node .augmentedAssignment)) <|>
  (do
    let o ← equals lineEnd
    pure ((left ++ o ++ (← r.rightSide).withRole .right).node .assignment)) <|>
  (do
    let colon ← mark lineEnd ":"
    let f := left ++ colon ++ (← r.typeHint true .operand .line).withRole .annotated
    let f ← (do
      let o ← equals lineEnd
      pure (f ++ o ++ (← r.rightSide).withRole .right)) <|> pure f
    pure (f.node .assignment))

/-- Whether what was read is the left side of an assignment. -/
def atAssignment : Parser Bool := do
  let t ← peek lineEnd
  pure ((equalsLength? t).isSome || t.head? == some ':' || (augmentedLength? t).isSome)

/-- What stands behind an equals sign: values, or another assignment. -/
def rightSide (r : Rules) : Parser Fragment :=
  yielding r .operand .line <|> (do
    let c ← get
    let f ← expressionList r .operand .line
    if ← atAssignment then do
      set c
      assignmentTo r .operand
    else pure f)

/-- Expressions separated by commas, or an assignment. An assignment to several targets may go on
in the next line. -/
def expressionStatement (r : Rules) : Parser Fragment := do
  let f ← yielding r .operand .line <|> (do
    let c ← get
    let first ← r.expression .conditional .operand .line
    let f ← commaSeparated lineEnd lineEndOrOperand
      (fun e => r.expression .conditional e .line) true first
    let d ← get
    let assignment : Parser Fragment := do
      set c
      assignmentTo r .operand
    if ← atAssignment then assignment
    else if f.stop = first.stop then pure f
    else assignment <|> (do
      set d
      pure f))
  pure (f.node .expressionStatement)

/-- Whether a statement ends here. -/
def atStatementEnd : Parser Bool := do
  let c ← get
  let (_, found) ← look lineEnd
  let t := (← get).rest
  set c
  pure (found = .newline || (found = .text && t.head? == some ';'))

/-- What a reader reads, if the statement ends behind it. -/
def wholeStatement (p : Parser Fragment) : Parser Fragment := do
  let f ← p
  if ← atStatementEnd then pure f else failure

/-! ## Statements that begin with a word that may be a name -/

/-- Behind `print`: values, the first of them a file behind two angles. -/
def printStatement (r : Rules) : Parser Fragment := do
  let value (e : Expect) := r.expression .conditional e .line
  let k ← keyword .plain "print"
  let t ← peek lineEndOrOperand
  let f ← if Text.startsWith t ['>', '>'] then do
      let angles ← mark lineEndOrOperand ">>"
      pure ((angles ++ (← value .operand)).node .chevron)
    else value lineEndOrOperand
  let f ← commaSeparated lineEnd lineEndOrOperand value true (k ++ f)
  pure (f.node .printStatement)

/-- Whether the word `print` begins a statement that writes to a file. -/
def writesToFile : Parser Bool := do
  let c ← get
  let b ← (do
    let _ ← keyword .plain "print"
    let t ← peek lineEndOrOperand
    pure (Text.startsWith t ['>', '>'] && t[2]? != some '=')) <|> pure false
  set c
  pure b

/-- Behind `exec`: a quotation or a name, and where it is carried out. -/
def execStatement (r : Rules) : Parser Fragment := do
  let k ← keyword .plain "exec"
  let f := k ++ (← quotation r lineEndOrOperand <|> name lineEndOrOperand)
  let f ← (do
    let k ← keyword lineEnd "in"
    let value (e : Expect) := r.expression .conditional e .line
    commaSeparated lineEnd .operand value false (f ++ k ++ (← value .operand))) <|> pure f
  pure (f.node .execStatement)

/-- Whether the word `exec` begins a statement of its own. -/
def executes : Parser Bool := do
  let c ← get
  let b ← (do
    let _ ← keyword .plain "exec"
    let (_, found) ← look lineEndOrOperand
    match found with
    | .quote _ _ => pure true
    | .text => do pure (nameLength? (← get).rest).isSome
    | _ => pure false) <|> pure false
  set c
  pure b

/-- A name for a type. -/
def typeAliasStatement (r : Rules) : Parser Fragment := do
  let k ← keyword .plain "type"
  let f := k ++ (← r.typeHint true lineEndOrOperand .other) ++ (← equals .plain)
  pure ((f ++ (← r.typeHint true .operand .line)).node .typeAliasStatement)

/-! ## All of them -/

/-- A word that is a statement by itself. -/
def wordStatement (w : String) (k : Kind) : Parser Fragment := do
  pure ((← keyword .plain w).node k)

/-- A simple statement that begins with the word `w`. -/
def simpleStatementAt (r : Rules) (w : Text) : Parser Fragment :=
  let values := expressionList r lineEndOrOperand .line
  if w = "import".toList then
    introduced "import" .importStatement (importedNames lineEnd .plain)
  else if w = "from".toList then importFrom
  else if w = "assert".toList then
    introduced "assert" .assertStatement (do
      let value (e : Expect) := r.expression .conditional e .line
      commaSeparated lineEnd .operand value false (← value .operand))
  else if w = "return".toList then do
    pure ((← orNothing (← keyword .plain "return") values).node .returnStatement)
  else if w = "del".toList then
    introduced "del" .deleteStatement (expressionList r .operand .line)
  else if w = "raise".toList then do
    let f ← orNothing (← keyword .plain "raise") values
    let f ← orNothing f (do
      let k ← keyword lineEnd "from"
      pure (k ++ (← r.expression .conditional .operand .line)))
    pure (f.node .raiseStatement)
  else if w = "pass".toList then wordStatement "pass" .passStatement
  else if w = "break".toList then wordStatement "break" .breakStatement
  else if w = "continue".toList then wordStatement "continue" .continueStatement
  else if w = "global".toList then namesBehind "global" .globalStatement
  else if w = "nonlocal".toList then namesBehind "nonlocal" .nonlocalStatement
  else if w = "print".toList then do
    if ← writesToFile then printStatement r
    else wholeStatement (expressionStatement r) <|> printStatement r
  else if w = "exec".toList then do
    if ← executes then execStatement r else expressionStatement r
  else if w = "type".toList then
    wholeStatement (typeAliasStatement r) <|> expressionStatement r
  else expressionStatement r

/-- A simple statement. -/
def simpleStatement (r : Rules) (e : Expect) : Parser Fragment := do
  let (extras, found) ← look e
  let f ← match found with
    | .quote _ _ => expressionStatement r
    | .text => do simpleStatementAt r (Text.word (← get).rest)
    | _ => failure
  pure (f.behind extras)

/-- Simple statements up to the end of their line. -/
def simpleStatements (r : Rules) (e : Expect) : Parser Fragment := do
  let first ← simpleStatement r e
  let f ← many (fun f => do
    let s ← mark lineEnd ";"
    pure (f ++ s ++ (← simpleStatement r lineEndOrOperand))) first
  let f ← orNothing f (mark lineEnd ";")
  pure (f ++ (← layoutToken lineEnd .newline))

end PointMutation.Syntax
