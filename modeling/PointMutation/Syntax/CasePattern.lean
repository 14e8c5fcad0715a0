import PointMutation.Syntax.Target

/-!
# Patterns of cases

A case compares a value with patterns: literals, dotted names, classes with patterns for their
parts, sequences, dictionaries and alternatives of them. An underscore matches anything and is no
node.
-/

namespace PointMutation.Syntax

/-- Names joined by points. -/
def dottedName (e next : Expect) : Parser Fragment := do
  let f ← many (fun f => do
    let point ← mark next "."
    pure (f ++ point ++ (← name .plain))) (← name e)
  pure (f.node .dottedName)

/-- The length of a name other than the underscore. -/
def captureLength? (t : Text) : Option Nat :=
  if Text.word t = ['_'] then none else nameLength? t

/-- Patterns separated by commas between brackets. -/
def bracketedPatterns (r : Rules) (o : Fragment) (close : String) : Parser Fragment := do
  let item (e : Expect) := r.casePattern e .bracket
  let f ← orNothing o (do commaSeparated closing element item true (← item element))
  pure (f ++ (← mark closing close))

/-- A number without a sign. -/
def unsignedNumber (e : Expect) : Parser Fragment := do
  match numeral? (← peek e) with
  | some (k, _) => do pure ((← token e numeralLength?).node k)
  | none => failure

/-- A number, perhaps with a sign. -/
def signedNumber (e : Expect) : Parser Fragment := do
  (do
    let s ← mark e "-"
    pure (s ++ (← unsignedNumber .plain))) <|> unsignedNumber e

/-- A number, or two of them that make a complex one. -/
def numberPattern (e : Expect) (follow : Follow) : Parser Fragment := do
  let f ← signedNumber e
  (do
    let s ← mark follow.expect "+" <|> mark follow.expect "-"
    match numeral? (← peek .plain) with
    | some (k, _) => do
      pure ((f ++ s ++ (← token .plain numeralLength?).node k).node .complexPattern)
    | none => failure) <|> pure f

/-- A starred name, or a starred underscore. -/
def splatPattern (e : Expect) : Parser Fragment := do
  let stars ← mark e "**" <|> mark e "*"
  let f ← keyword .plain "_" <|> name .plain
  pure ((stars ++ f).node .splatPattern)

/-- An entry of a dictionary pattern. -/
def entryPattern (r : Rules) (e : Expect) : Parser Fragment := do
  match ← peek e with
  | '*' :: _ => splatPattern e
  | _ => do
    let f := (← r.simplePattern e .other) ++ (← mark .plain ":")
    pure (f ++ (← r.casePattern .operand .bracket))

/-- A pattern without alternatives. -/
def closedPattern (r : Rules) (e : Expect) (follow : Follow) : Parser Fragment := do
  let (extras, found) ← look e
  let f ← match found with
    | .quote _ _ => quotations r .operand follow
    | .text => do
      let t := (← get).rest
      match t with
      | '(' :: _ => do
        pure ((← bracketedPatterns r (← mark .plain "(") ")").node .tuplePattern)
      | '[' :: _ => do
        pure ((← bracketedPatterns r (← mark .plain "[") "]").node .listPattern)
      | '{' :: _ => do
        let o ← mark .plain "\x7b"
        let f ← orNothing o (do
          commaSeparated closing element (entryPattern r) true (← entryPattern r element))
        pure ((f ++ (← mark closing "\x7d")).node .dictPattern)
      | '*' :: _ => splatPattern .plain
      | '-' :: _ => numberPattern .plain follow
      | _ =>
        if (numeral? t).isSome then numberPattern .plain follow
        else
          let w := Text.word t
          if w = "True".toList then do pure ((← keyword .plain "True").node .trueLiteral)
          else if w = "False".toList then do pure ((← keyword .plain "False").node .falseLiteral)
          else if w = "None".toList then do pure ((← keyword .plain "None").node .noneLiteral)
          else if w = ['_'] then keyword .plain "_"
          else do
            let n ← dottedName .plain follow.expect
            (do
              let o ← mark follow.expect "("
              pure ((← bracketedPatterns r (n ++ o) ")").node .classPattern)) <|> pure n
    | _ => failure
  pure (f.behind extras)

/-- A pattern, or alternatives as one node however many there are. -/
def simplePattern (r : Rules) (e : Expect) (follow : Follow) : Parser Fragment := do
  let first ← closedPattern r e follow
  let all ← many (fun f => do
    let bar ← mark follow.expect "|"
    pure (f ++ bar ++ (← closedPattern r .operand follow))) first
  pure (if all.stop = first.stop then first else all.node .unionPattern)

/-- A pattern by name. -/
def keywordPattern (r : Rules) (e : Expect) (follow : Follow) : Parser Fragment := do
  let f := (← token e captureLength?).node .identifier ++ (← equals follow.expect)
  pure ((f ++ (← simplePattern r .operand follow)).node .keywordPattern)

/-- The pattern of a case, perhaps with a name for what it matches. -/
def casePattern (r : Rules) (e : Expect) (follow : Follow) : Parser Fragment := do
  let f := (← keywordPattern r e follow <|> simplePattern r e follow).node .casePattern
  many (fun f => do
    let k ← keyword follow.expect "as"
    pure (((f ++ k ++ (← name .plain)).node .asPattern).node .casePattern)) f

end PointMutation.Syntax
