import PointMutation.Syntax.Expression

/-!
# Targets and annotations

What an assignment or a loop binds, and the annotations of names, parameters and results. A name
with brackets behind it is always a generic annotation, never a subscript.
-/

namespace PointMutation.Syntax

/-! ## Targets -/

/-- A name, an attribute or a subscript. -/
def plainTarget (r : Rules) (e : Expect) (follow : Follow) : Parser Fragment := do
  let f ← operand r e follow
  if isBindable f then pure f else failure

/-- A starred target. As the first target of a statement or between brackets it reads like an
expression, so the star takes in as little as it can. -/
def starredTarget (r : Rules) (first : Bool) (e : Expect) (follow : Follow) :
    Parser Fragment := do
  let s ← starredOperand r e follow
  match s.stars, s.trailers with
  | [star], [] =>
    if isBindable s.operand then pure ((star ++ s.operand).node .listSplatPattern) else failure
  | [star], ts => do
    let whole := ts.foldl attach s.operand
    if !isBindable whole then failure
    else if first then
      match below [star] s.operand ts with
      | some (f, []) => pure (f.withKind .listSplatPattern)
      | some (f, ts) => pure (ts.foldl attach f)
      | none => failure
    else pure ((star ++ whole).node .listSplatPattern)
  | _, _ => failure

/-- A target. Brackets with nothing behind them hold targets themselves. -/
def target (r : Rules) (first : Bool) (e : Expect) (follow : Follow) : Parser Fragment := do
  match ← peek e with
  | '*' :: _ => starredTarget r first e follow
  | '(' :: _ => plainTarget r e follow <|> bracketedTargets r true e "(" ")" .tuplePattern
  | '[' :: _ => plainTarget r e follow <|> bracketedTargets r true e "[" "]" .listPattern
  | _ => plainTarget r e follow

/-! ## Annotations -/

/-- The length of a name that may be generic. -/
def genericNameLength? (t : Text) : Option Nat :=
  let w := Text.word t
  if w = "print".toList || w = "exec".toList || w = "match".toList then none else nameLength? t

/-- The parameters of a type between brackets. -/
def typeParameter (r : Rules) (e : Expect) : Parser Fragment := do
  let o ← mark e "["
  let f ← commaSeparated closing element (fun e => r.typeHint true e .bracket) true
    (o ++ (← r.typeHint true .operand .bracket))
  pure ((f ++ (← mark closing "]")).node .typeParameter)

/-- The length of a name that is nothing but a name: one that no statement or operand begins
with. -/
def unambiguousNameLength? (t : Text) : Option Nat :=
  let w := Text.word t
  if ["print", "exec", "async", "await", "match", "type"].any fun s => w = s.toList then none
  else nameLength? t

/-- A starred name, unless an operand goes on behind it. -/
def splatType (e : Expect) (follow : Follow) : Parser Fragment := do
  let stars ← mark e "**" <|> mark e "*"
  let f := (stars ++ (← token .plain unambiguousNameLength?).node .identifier).node .splatType
  match ← peek follow.expect with
  | '[' :: _ => failure
  | '(' :: _ => failure
  | t =>
    match binary? t with
    | some (m, _) => if m = ['|'] then pure f else failure
    | none => pure f

/-- A name with type parameters, or a starred name. -/
def parameterizedType (r : Rules) (e : Expect) (follow : Follow) : Parser Fragment := do
  match ← peek e with
  | '*' :: _ => splatType e follow
  | _ => do
    let f := (← token e genericNameLength?).node .identifier
    pure ((f ++ (← typeParameter r follow.expect)).node .genericType)

/-- Whether brackets follow a name. -/
def isGeneric (e : Expect) (follow : Follow) : Parser Bool := do
  let c ← get
  let b ← (do
    let _ ← token e genericNameLength?
    match ← peek follow.expect with
    | '[' :: _ => pure true
    | _ => pure false) <|> pure false
  set c
  pure b

/-- A type without members, alternatives and bounds. -/
def baseType (r : Rules) (e : Expect) (follow : Follow) : Parser Fragment := do
  let f ← (do
      if ← isGeneric e follow then parameterizedType r e follow
      else match ← peek e with
        | '*' :: '*' :: _ => splatType e follow
        | '*' :: _ => splatType e follow <|> r.expression .conditional e follow
        | _ => r.expression .conditional e follow)
  pure (f.node .typeHint)

/-- Whether a fragment is a type and no expression. -/
def isProperType (f : Fragment) : Bool :=
  f.items.any fun t => t.children.any fun c => c.kind == .splatType || c.kind == .genericType

/-- A member of a type, or an alternative to it, behind the type `whole`, of which `last` was read
last. An expression has neither, since it would have taken it in. -/
def typeTail (r : Rules) (follow : Follow) : Fragment × Fragment → Parser (Fragment × Fragment)
  | (whole, last) => do
    if !isProperType last then failure
    match ← peek follow.expect with
    | '.' :: _ => do
      let point ← mark follow.expect "."
      let member := ((whole ++ point ++ (← name .plain)).node .memberType).node .typeHint
      pure (member, last)
    | '|' :: _ => do
      let bar ← mark follow.expect "|"
      let last ← baseType r .operand follow
      pure (((whole ++ bar ++ last).node .unionType).node .typeHint, last)
    | _ => failure

/-- An annotation. -/
def typeHint (r : Rules) (bounded : Bool) (e : Expect) (follow : Follow) : Parser Fragment := do
  let base ← baseType r e follow
  let (f, _) ← many (typeTail r follow) (base, base)
  if bounded then
    (do
      let colon ← mark follow.expect ":"
      let bound ← r.typeHint true .operand follow
      pure (((f ++ colon ++ bound).node .constrainedType).node .typeHint)) <|> pure f
  else pure f

end PointMutation.Syntax
