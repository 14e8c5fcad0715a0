import PointMutation.Syntax.Display

/-!
# Parameters

The parameters of a definition may be annotated, those of a lambda may not. A star or a stroke
alone separates the parameters that are passed by position from those that are passed by name.
-/

namespace PointMutation.Syntax

/-- A parameter behind one or two stars. -/
def starredParameter (r : Rules) (stars : String) (k : Kind) (e : Expect) (follow : Follow) :
    Parser Fragment := do
  let s ← mark e stars
  let f ← r.target false .operand follow
  match f.items.getLast? with
  | some t =>
    if t.kind = .identifier || t.kind = .attribute || t.kind = .subscript then
      pure ((s ++ f).node k)
    else failure
  | none => failure

/-- Behind a parameter: its default value. -/
def defaultValue (r : Rules) (follow : Follow) (f : Fragment) (k : Kind) : Parser Fragment := do
  let f := f ++ (← equals follow.expect)
  let value ← r.expression .conditional .operand follow
  pure ((f ++ value.withRole .value).node k)

/-- Behind a parameter: its annotation, and a default value too if it is a plain name. -/
def annotatedParameter (r : Rules) (follow : Follow) (f : Fragment) (plain : Bool) :
    Parser Fragment := do
  let colon ← mark follow.expect ":"
  let hint := (← r.typeHint true .operand follow).withRole .annotated
  (do
    if plain then
      defaultValue r follow (f.withRole .name ++ colon ++ hint) .typedDefaultParameter
    else failure) <|>
  pure ((f ++ colon ++ hint).node .typedParameter)

/-- A parameter, annotated or not. -/
def parameter (r : Rules) (annotations : Bool) (follow : Follow) (e : Expect) :
    Parser Fragment := do
  let annotate (f : Fragment) (plain : Bool) : Parser Fragment :=
    if annotations then annotatedParameter r follow f plain else failure
  match ← peek e with
  | '*' :: '*' :: _ => do
    let f ← starredParameter r "**" .dictionarySplatPattern e follow
    annotate f false <|> pure f
  | '*' :: _ =>
    (do
      let f ← starredParameter r "*" .listSplatPattern e follow
      annotate f false <|> pure f) <|>
    (do pure ((← mark e "*").node .keywordSeparator))
  | '/' :: _ => do pure ((← mark e "/").node .positionalSeparator)
  | '(' :: _ => do
    let f ← bracketedTargets r false e "(" ")" .tuplePattern
    defaultValue r follow (f.withRole .name) .defaultParameter <|> pure f
  | _ => do
    let f ← name e
    annotate f true <|> defaultValue r follow (f.withRole .name) .defaultParameter <|> pure f

/-- Parameters separated by commas. -/
def parametersWithin (r : Rules) (annotations : Bool) (follow : Follow) (e : Expect) :
    Parser Fragment := do
  let first ← parameter r annotations follow e
  commaSeparated follow.expect follow.expect (parameter r annotations follow) true first

/-- The parameters of a lambda. -/
def lambdaParameters (r : Rules) : Parser Fragment := do
  pure ((← parametersWithin r false .other .plain).node .lambdaParameters)

/-- The parameters of a definition between their parentheses. -/
def parameters (r : Rules) : Parser Fragment := do
  let o ← mark .plain "("
  let f ← orNothing o (parametersWithin r true .bracket closing)
  pure ((f ++ (← mark closing ")")).node .parameters)

end PointMutation.Syntax
