import PointMutation.Syntax.Quoted

/-!
# Displays, subscripts and arguments

What stands between brackets: elements separated by commas, the clauses of a comprehension, the
items of a subscript and the arguments of a call.

A star in front of an element takes in the whole element among arguments and in a display of
several elements, and as little as it can where an expression may stand alone. The same holds for
a starred element between parentheses of its own.
-/

namespace PointMutation.Syntax

/-- Right behind a bracket or a comma. -/
def element : Expect := { quote := true, bracket := true }

/-- Behind an element. -/
def closing : Expect := { bracket := true }

/-! ## Lists without brackets -/

/-- Expressions separated by commas, as one node if there is any comma. -/
def expressionList (r : Rules) (e : Expect) (follow : Follow) : Parser Fragment := do
  let first ← r.expression .conditional e follow
  let all ← commaSeparated follow.expect follow.orOperand
    (fun e => r.expression .conditional e follow) true first
  pure (if all.stop = first.stop then first else all.node .expressionList)

/-- A `yield` with all it takes in. -/
def yielding (r : Rules) (e : Expect) (follow : Follow) : Parser Fragment := do
  let k ← keyword e "yield"
  let f ← (do
      let source ← keyword follow.orOperand "from"
      pure (k ++ source ++ (← r.expression .conditional .operand follow)))
    <|> orNothing k (expressionList r follow.orOperand follow)
  pure (f.node .yield)

/-- Whether the fragment is a `yield`. -/
def isYield (f : Fragment) : Bool := f.items.any (·.kind == .yield)

/-- An expression or a `yield`. -/
def yieldOrExpression (r : Rules) (e : Expect) (follow : Follow) : Parser Fragment :=
  yielding r e follow <|> r.expression .conditional e follow

/-! ## Lists of targets -/

/-- Targets separated by commas, as one node if there is any comma. No line ends behind the first
comma. -/
def targetList (r : Rules) (first : Bool) (e : Expect) (follow : Follow) : Parser Fragment := do
  let f ← r.target first e follow
  (do
    let f := f ++ (← mark follow.expect ",")
    let all ← orNothing f (do
      commaSeparated .plain .operand (fun e => r.target false e .other) true
        (← r.target false .operand .other))
    pure (all.node .patternList)) <|> pure f

/-- Targets between brackets, as one node. -/
def bracketedTargets (r : Rules) (first : Bool) (e : Expect) (opening closing' : String)
    (k : Kind) : Parser Fragment := do
  let o ← mark e opening
  let f ← orNothing o (do
    commaSeparated closing element (fun e => r.target false e .bracket) true
      (← r.target first element .bracket))
  pure ((f ++ (← mark closing closing')).node k)

/-! ## Comprehensions -/

/-- Whether the clauses of a comprehension come next. -/
def atClauses : Parser Bool := do
  let w ← peekWord closing
  pure (w == "for".toList || w == "async".toList)

/-- A clause that runs through iterables. Behind a comma, `async` begins the next clause. -/
def forClause (r : Rules) : Parser Fragment := do
  let f ← (do pure ((← keyword closing "async") ++ (← keyword .plain "for")))
    <|> keyword closing "for"
  let targets ← targetList r false .operand .other
  let k ← keyword .plain "in"
  let g := f ++ targets ++ k ++ (← r.expression .iterable .operand .bracket)
  let iterable (e : Expect) : Parser Fragment := do
    if (← peekWord e) = "async".toList then failure
    r.expression .iterable e .bracket
  pure ((← commaSeparated closing element iterable true g).node .forInClause)

/-- A clause that leaves some elements out. -/
def filterClause (r : Rules) : Parser Fragment := do
  let k ← keyword closing "if"
  pure ((k ++ (← r.expression .filter .operand .bracket)).node .ifClause)

/-- Whether the clauses of a comprehension come next, behind an element that may have some. -/
def hasClauses (f : Fragment) : Parser Bool := do
  if isYield f then pure false else atClauses

/-- The clauses of a comprehension behind its element. -/
def clauses (r : Rules) (f : Fragment) : Parser Fragment := do
  many (fun f => do pure (f ++ (← forClause r <|> filterClause r))) (f ++ (← forClause r))

/-! ## Starred elements -/

/-- A starred expression that takes in all of it. -/
def starred (r : Rules) (e : Expect) : Parser Fragment := do
  let star ← mark e "*"
  pure ((star ++ (← r.expression .conditional .operand .bracket)).node .listSplat)

/-- Whether only parentheses stand in front of a star, joined lines and comments aside. -/
def hasStarFrom (inComment : Bool) : Text → Bool
  | [] => false
  | c :: r =>
    if inComment then hasStarFrom (c != '\n') r
    else if c == '#' then hasStarFrom true r
    else c == '*' || ((c == '(' || c == '\\' || isSeparator c) && hasStarFrom false r)

/-- Whether only parentheses stand in front of a star. -/
def hasStar (t : Text) : Bool := hasStarFrom false t

/-- Opening parentheses, the innermost of which comes first. -/
def openings (e : Expect) : Parser (List Fragment) := do
  let outer ← mark e "("
  many (fun fs => do pure ((← mark .operand "(") :: fs)) [outer]

/-- A starred expression between parentheses, the outermost of which make a node of kind `k`. -/
def parenthesizedStar (r : Rules) (k : Kind) (e : Expect) : Parser Fragment := do
  let opened ← openings e
  let inner ← starred r .operand
  let f ← opened.foldlM
    (fun f o => do pure ((o ++ f ++ (← mark closing ")")).node .parenthesizedExpression)) inner
  pure (f.withKind k)

/-- Whether a starred expression between parentheses comes next whose star takes in what no star
within an expression can. -/
def isLooseStar (r : Rules) (e : Expect) : Parser Bool := do
  if hasStar (← peek e) then do
    let c ← get
    let b ← (do
      let _ ← parenthesizedStar r .tuple e
      set c
      (do
        let _ ← openings e
        let _ ← r.expression .conditional .operand .bracket
        let _ ← mark closing ")"
        pure false) <|> pure true) <|> pure false
    set c
    pure b
  else pure false

/-- What a reader reads, unless it would begin with a loose star. -/
def unlessLoose (r : Rules) (e : Expect) (p : Parser Fragment) : Parser Fragment := do
  if ← isLooseStar r e then failure else p

/-- An element that is an expression or a `yield`. -/
def elementExpression (r : Rules) (e : Expect) : Parser Fragment :=
  unlessLoose r e (yieldOrExpression r e .bracket)

/-- Whether the element that was read is followed by a comma or a closing bracket. -/
def endsElement : Parser Bool := do
  match ← peek closing with
  | c :: _ => pure (c == ',' || c == ')' || c == ']' || c == '}')
  | [] => pure false

/-! ## Elements of displays -/

/-- An element of a display of several elements. -/
def displayElement (r : Rules) (first : Bool) (e : Expect) : Parser Fragment := do
  let t ← peek e
  match t with
  | '*' :: _ => starred r e
  | _ =>
    if first && hasStar t then
      (do
        let f ← parenthesizedStar r .parenthesizedListSplat e
        if ← endsElement then pure f else failure) <|> elementExpression r e
    else
      elementExpression r e <|> parenthesizedStar r .parenthesizedListSplat e

/-- The elements behind the first one. -/
def moreElements (r : Rules) (f : Fragment) : Parser Fragment :=
  commaSeparated closing element (displayElement r false) true f

/-- A display of several elements behind its opening bracket, with the closing one. -/
def severalElements (r : Rules) (o : Fragment) (close : String) : Parser Fragment := do
  let first ← displayElement r true element
  let all ← moreElements r (o ++ first)
  pure (all ++ (← mark closing close))

/-- What stands between parentheses: nothing, one expression, a generator or several elements. -/
def parenthesized (r : Rules) (follow : Follow) : Parser Fragment := do
  let o ← mark .plain "("
  let t ← peek element
  if hasStar t then
    (do
      let f ← elementExpression r element
      if ← hasClauses f then do
        pure (((← clauses r (o ++ f)) ++ (← mark closing ")")).node .generatorExpression)
      else do
        let g := o ++ f ++ (← mark closing ")")
        if ← endsText follow then failure else pure (g.node .parenthesizedExpression))
    <|> (do pure ((← severalElements r o ")").node .tuple))
  else
    (do pure ((o ++ (← mark element ")")).node .tuple)) <|> (do
      let f ← yieldOrExpression r element .bracket
      let g := o ++ f
      if ← hasClauses f then do
        pure (((← clauses r g) ++ (← mark closing ")")).node .generatorExpression)
      else
        (do pure ((g ++ (← mark closing ")")).node .parenthesizedExpression)) <|>
          (do pure (((← moreElements r g) ++ (← mark closing ")")).node .tuple)))

/-- A list or a comprehension of one. -/
def listDisplay (r : Rules) : Parser Fragment := do
  let o ← mark .plain "["
  let starred := hasStar (← peek element)
  (do pure ((o ++ (← mark element "]")).node .list)) <|> (do
    let f ← elementExpression r element
    let g := o ++ f
    if ← hasClauses f then do
      pure (((← clauses r g) ++ (← mark closing "]")).node .listComprehension)
    else do
      let g ← if starred then pure g else moreElements r g
      pure ((g ++ (← mark closing "]")).node .list)) <|>
  (if starred then do pure ((← severalElements r o "]").node .list) else failure)

/-- The value that belongs to a key. -/
def pairValue (r : Rules) (key : Fragment) (e : Expect) : Parser Fragment := do
  let colon ← mark e ":"
  pure ((key ++ colon ++ (← r.expression .conditional .operand .bracket)).node .pair)

/-- An unpacked dictionary. -/
def unpacked (r : Rules) (e : Expect) : Parser Fragment := do
  let stars ← mark e "**"
  pure ((stars ++ (← r.expression .conditional .operand .bracket)).node .dictionarySplat)

/-- An entry of a dictionary. -/
def entry (r : Rules) (e : Expect) : Parser Fragment :=
  unpacked r e <|> (do
    let key ← r.expression .conditional e .other
    pairValue r key .plain)

/-- The rest of a dictionary behind its first entry. -/
def moreEntries (r : Rules) (f : Fragment) : Parser Fragment := do
  let all ← commaSeparated closing element (entry r) true f
  pure ((all ++ (← mark closing "\x7d")).node .dictionary)

/-- A display between braces behind its first element: a dictionary if a colon follows. -/
def bracedRest (r : Rules) (o first : Fragment) (starred : Bool) : Parser Fragment := do
  match ← peek closing with
  | ':' :: _ => do
    if isYield first then failure
    let f := o ++ (← pairValue r first closing)
    if ← atClauses then do
      pure (((← clauses r f) ++ (← mark closing "\x7d")).node .dictionaryComprehension)
    else moreEntries r f
  | _ =>
    if ← hasClauses first then do
      pure (((← clauses r (o ++ first)) ++ (← mark closing "\x7d")).node .setComprehension)
    else do
      let f ← if starred then pure (o ++ first) else moreElements r (o ++ first)
      pure ((f ++ (← mark closing "\x7d")).node .set)

/-- A dictionary, a set or a comprehension of one. -/
def bracedDisplay (r : Rules) : Parser Fragment := do
  let o ← mark .plain "\x7b"
  match ← peek element with
  | '}' :: _ => do pure ((o ++ (← mark element "\x7d")).node .dictionary)
  | ',' :: _ => do
    let comma ← mark element ","
    pure ((o ++ comma ++ (← mark closing "\x7d")).node .dictionary)
  | '*' :: '*' :: _ => do moreEntries r (o ++ (← unpacked r element))
  | t =>
    (do bracedRest r o (← elementExpression r element) (hasStar t)) <|>
    (if hasStar t then do pure ((← severalElements r o "\x7d").node .set) else failure)

/-! ## Subscripts -/

/-- The part of a slice from its first colon on, behind `f`. -/
def sliceTail (r : Rules) (e : Expect) (f : Parser Fragment) : Parser Fragment := do
  let bound (f : Fragment) := orNothing f (r.expression .conditional element .bracket)
  let f ← bound (← f)
  let g ← (do bound (f ++ (← mark e ":"))) <|> pure f
  pure (g.node .slice)

/-- An index or a slice. -/
def subscriptItem (r : Rules) (e : Expect) : Parser Fragment :=
  (do
    let f ← r.expression .conditional e .bracket
    (sliceTail r closing (do pure (f ++ (← mark closing ":")))) <|> pure f) <|>
  sliceTail r closing (mark e ":")

/-- The brackets behind a value, with what they hold. -/
def subscripts (r : Rules) (follow : Follow) : Parser Fragment := do
  let f := (← mark follow.expect "[") ++ (← subscriptItem r .operand)
  let f ← commaSeparated closing element (subscriptItem r) true f
  pure (f ++ (← mark closing "]"))

/-! ## Arguments -/

/-- An argument with a name. -/
def keywordArgument (r : Rules) (e : Expect) : Parser Fragment := do
  let f := (← operandName e) ++ (← equals closing)
  pure ((f ++ (← r.expression .conditional .operand .bracket)).node .keywordArgument)

/-- A starred argument between parentheses. In a call the star takes in the whole of it; in the
arguments of a class it does so only if it is loose. -/
def parenthesizedArgument (r : Rules) (ofCall : Bool) (e : Expect) : Parser Fragment := do
  let loose ← isLooseStar r e
  (if loose || ofCall then do
    let f ← parenthesizedStar r .parenthesizedExpression e
    if ← endsElement then pure f else failure
  else failure) <|> (if loose then failure else r.expression .conditional e .bracket)

/-- One of several arguments. -/
def argument (r : Rules) (ofCall : Bool) (e : Expect) : Parser Fragment := do
  let t ← peek e
  match t with
  | '*' :: '*' :: _ => unpacked r e
  | '*' :: _ => starred r e
  | _ =>
    if hasStar t then parenthesizedArgument r ofCall e
    else keywordArgument r e <|> r.expression .conditional e .bracket

/-- The rest of the arguments behind the first one. -/
def moreArguments (r : Rules) (ofCall : Bool) (f : Fragment) : Parser Fragment := do
  let all ← commaSeparated closing element (argument r ofCall) true f
  pure ((all ++ (← mark closing ")")).node .argumentList)

/-- The arguments behind the opening parenthesis. A comma may stand alone. -/
def argumentsBehind (r : Rules) (ofCall : Bool) (o : Fragment) : Parser Fragment := do
  match ← peek element with
  | ')' :: _ => do pure ((o ++ (← mark element ")")).node .argumentList)
  | ',' :: _ => do
    let comma ← mark element ","
    pure ((o ++ comma ++ (← mark closing ")")).node .argumentList)
  | _ => do moreArguments r ofCall (o ++ (← argument r ofCall element))

/-- The arguments of a class. -/
def argumentList (r : Rules) (e : Expect) : Parser Fragment := do
  argumentsBehind r false (← mark e "(")

/-- A generator that is the only argument, behind its element. -/
def generatorRest (r : Rules) (f : Fragment) : Parser Fragment := do
  pure (((← clauses r f) ++ (← mark closing ")")).node .generatorExpression)

/-- The arguments of a call: a list of them, or a generator. -/
def callArguments (r : Rules) (follow : Follow) : Parser Fragment := do
  let o ← mark follow.expect "("
  let generator : Parser Fragment := do
    generatorRest r (o ++ (← unlessLoose r element (r.expression .conditional element .bracket)))
  match ← peek element with
  | ')' :: _ => argumentsBehind r true o
  | ',' :: _ => argumentsBehind r true o
  | t =>
    if Text.startsWith t ['*', '*'] then argumentsBehind r true o
    else if hasStar t then argumentsBehind r true o <|> generator
    else do
      let c ← get
      let first ← r.expression .conditional element .bracket
      if ← atClauses then generatorRest r (o ++ first)
      else if (equalsLength? (← peek closing)).isSome then do
        set c
        argumentsBehind r true o
      else moreArguments r true (o ++ first)

/-! ## Interpolations -/

/-- What stands between the braces in a formatted quotation, and the closing brace. -/
def interpolation (r : Rules) : Parser Unit := do
  let _ ← yielding r .operand .bracket <|> expressionList r .operand .bracket
  optionally (equals closing)
  optionally (token closing conversionLength?)
  optionally (do
    let _ ← mark closing ":"
    many (formatSpecifier r) ())
  let _ ← mark closing "\x7d"

end PointMutation.Syntax
