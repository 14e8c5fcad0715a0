import PointMutation.Syntax.Display
import PointMutation.Syntax.Parameter

/-!
# Expressions

Operands with what follows them directly, operators between operands by how tightly they bind,
comparisons, and the operators written as words.
-/

namespace PointMutation.Syntax

/-! ## Operands -/

/-- Whether an operand begins here, after a word that may take one. -/
def atOperand (follow : Follow) : Parser Bool := do
  let c ← get
  let (_, found) ← look follow.orOperand
  let t := (← get).rest
  set c
  match found with
  | .quote _ _ => pure true
  | .text =>
    let w := Text.word t
    pure <|
      if Text.startsWith t ['*', '*'] || (augmentedLength? t).isSome then false
      else (t.head?.any fun d => "([\x7b+-~*".toList.contains d) ||
        Text.startsWith t "...".toList || (numeral? t).isSome ||
        (!w.isEmpty && ((operandNameLength? t).isSome ||
          ["True".toList, "False".toList, "None".toList].contains w))
  | _ => pure false

/-- An operand without anything behind it, a star aside. The word `await` is a name only where it
cannot take an operand. -/
def atom (r : Rules) (e : Expect) (follow : Follow) : Parser Fragment := do
  let (extras, found) ← look e
  let f ← match found with
    | .quote _ _ => quotations r .operand follow
    | .text => do
      let t := (← get).rest
      match t with
      | '(' :: _ => parenthesized r follow
      | '[' :: _ => listDisplay r
      | '{' :: _ => bracedDisplay r
      | '.' :: '.' :: '.' :: _ => do pure ((← mark .plain "...").node .ellipsis)
      | _ =>
        match numeral? t with
        | some (k, _) => do pure ((← token .plain numeralLength?).node k)
        | none =>
          let w := Text.word t
          if w = "True".toList then do pure ((← keyword .plain "True").node .trueLiteral)
          else if w = "False".toList then do pure ((← keyword .plain "False").node .falseLiteral)
          else if w = "None".toList then do pure ((← keyword .plain "None").node .noneLiteral)
          else do
            let f ← operandName .plain
            if w = "await".toList && (← atOperand follow) then failure else pure f
    | _ => failure
  pure (f.behind extras)

/-- What follows an operand directly, with the kind of node that the two make. -/
abbrev Trailer := Kind × Fragment

/-- An attribute, a subscript or a call. -/
def trailer (r : Rules) (follow : Follow) : Parser Trailer := do
  match ← peek follow.expect with
  | '.' :: _ => do pure (.attribute, (← mark follow.expect ".") ++ (← name .plain))
  | '[' :: _ => do pure (.subscript, ← subscripts r follow)
  | '(' :: _ => do pure (.call, ← callArguments r follow)
  | _ => failure

def trailers (r : Rules) (follow : Follow) : Parser (List Trailer) :=
  many (fun ts => do pure (ts ++ [← trailer r follow])) []

/-- An operand with a trailer. -/
def attach (f : Fragment) (t : Trailer) : Fragment := (f ++ t.2).node t.1

/-- Whether a star may take in the fragment: a name, an attribute or a subscript. -/
def isBindable (f : Fragment) : Bool :=
  match f.items.getLast? with
  | some t => t.kind == .identifier || t.kind == .attribute || t.kind == .subscript
  | none => false

/-- Attaches trailers until a star may take in the whole. -/
def bindable? : Fragment → List Trailer → Option (Fragment × List Trailer)
  | f, [] => if isBindable f then some (f, []) else none
  | f, t :: ts => if isBindable f then some (f, t :: ts) else bindable? (attach f t) ts

/-- An operand below stars, the innermost of which comes first. Each star takes in as little as it
can. -/
def below : List Fragment → Fragment → List Trailer → Option (Fragment × List Trailer)
  | [], f, ts => some (f, ts)
  | s :: ss, f, ts =>
    match bindable? f ts with
    | some (g, ts) => below ss ((s ++ g).node .listSplat) ts
    | none => none

/-- Stars with the operand and the trailers behind them. -/
structure Starred where
  stars : List Fragment
  operand : Fragment
  trailers : List Trailer

def starredOperand (r : Rules) (e : Expect) (follow : Follow) : Parser Starred := do
  let s ← mark e "*"
  let stars ← many (fun ss => do pure ((← mark .operand "*") :: ss)) [s]
  let f ← atom r .operand follow
  pure ⟨stars, f, ← trailers r follow⟩

/-- A starred operand. The star takes in all of it at the end of the text. -/
def starredExpression (r : Rules) (follow : Follow) : Parser Fragment := do
  let s ← starredOperand r .operand follow
  let whole := s.trailers.foldl attach s.operand
  match s.stars, (← endsText follow) && isBindable whole with
  | [star], true => pure ((star ++ whole).node .listSplat)
  | _, _ =>
    match below s.stars s.operand s.trailers with
    | some (f, ts) => pure (ts.foldl attach f)
    | none => failure

/-- An operand with all that follows it directly. -/
def operand (r : Rules) (e : Expect) (follow : Follow) : Parser Fragment := do
  match ← peek e with
  | '*' :: _ => starredExpression r follow
  | _ => do
    let f ← atom r e follow
    pure ((← trailers r follow).foldl attach f)

/-! ## Operators between operands -/

/-- An awaited operand. Behind the word, what can be an operand is one. -/
def awaited (r : Rules) (follow : Follow) : Parser Fragment := do
  let k ← keyword .plain "await"
  if ← atOperand follow then
    pure ((k ++ (← r.operation signLevel follow.orOperand follow)).node .await)
  else failure

/-- A sign with its operand. -/
def signed (r : Rules) (sign : String) (follow : Follow) : Parser Fragment := do
  let s ← mark .plain sign
  pure ((s ++ (← r.operation signLevel .operand follow)).node .unaryOperator)

/-- An operator that binds at least as tightly as `level`, with its right operand, behind `f`.
Only powers group to the right. -/
def operate (r : Rules) (level : Nat) (follow : Follow) (f : Fragment) : Parser Fragment := do
  match binary? (← peek follow.expect) with
  | some (_, tightness) =>
    if level ≤ tightness then do
      let o ← token follow.expect binaryLength?
      let right := if tightness = 21 then 21 else tightness + 1
      pure ((f ++ o ++ (← r.operation right .operand follow)).node .binaryOperator)
    else failure
  | none => failure

/-- Operands with the operators between them. -/
def operation (r : Rules) (level : Nat) (e : Expect) (follow : Follow) : Parser Fragment := do
  let (extras, found) ← look e
  let head ← match found with
    | .quote _ _ => operand r .operand follow
    | .text => do
      match (← get).rest with
      | '-' :: _ => signed r "-" follow
      | '+' :: _ => signed r "+" follow
      | '~' :: _ => signed r "~" follow
      | _ => awaited r follow <|> operand r .operand follow
    | _ => failure
  pure ((← many (operate r level follow) head).behind extras)

/-! ## Comparisons -/

/-- An operator that compares. -/
def comparisonOperator (follow : Follow) : Parser Fragment := do
  let t ← peek follow.expect
  match comparisonLength? t with
  | some _ => token follow.expect comparisonLength?
  | none =>
    let w := Text.word t
    if w = "in".toList then keyword follow.expect "in"
    else if w = "not".toList then do
      pure ((← keyword follow.expect "not") ++ (← keyword .plain "in"))
    else if w = "is".toList then do
      orNothing (← keyword follow.expect "is") (keyword .operand "not")
    else failure

/-- Operands compared with each other, as one node however many there are. -/
def comparison (r : Rules) (follow : Follow) : Parser Fragment := do
  let first ← operation r 0 .operand follow
  let all ← many
    (fun f => do
      let o ← comparisonOperator follow
      pure (f ++ o ++ (← operation r 0 .operand follow))) first
  pure (if all.stop = first.stop then first else all.node .comparisonOperator)

/-! ## Operators written as words -/

/-- A value that is given a name on the way. -/
def named (r : Rules) (follow : Follow) : Parser Fragment := do
  let f := (← operandName .plain) ++ (← mark follow.expect ":=")
  pure ((f ++ (← r.expression .disjunction .operand follow)).node .namedExpression)

/-- A function without a name. -/
def lambda (r : Rules) (floor : Floor) (follow : Follow) : Parser Fragment := do
  let k ← keyword .plain "lambda"
  let f ← orNothing k (lambdaParameters r)
  let f := f ++ (← mark .plain ":")
  let body := if floor = .iterable then .iterable else .conditional
  pure ((f ++ (← r.expression body .operand follow)).node .lambda)

/-- A word between operands, with what stands behind it, behind `f`. -/
def combine (r : Rules) (floor : Floor) (follow : Follow) (f : Fragment) : Parser Fragment := do
  let w ← peekWord follow.expect
  if w = "and".toList && floor.takesAnd then do
    let k ← keyword follow.expect "and"
    pure ((f ++ k ++ (← r.expression .negation .operand follow)).node .booleanOperator)
  else if w = "or".toList && floor.takesOr then do
    let k ← keyword follow.expect "or"
    pure ((f ++ k ++ (← r.expression .conjunction .operand follow)).node .booleanOperator)
  else if w = "as".toList && floor.takesAlias then do
    let k ← keyword follow.expect "as"
    let target ← r.expression .disjunction .operand follow
    pure ((f ++ k ++ target.node .asPatternTarget).node .asPattern)
  else if w = "if".toList && floor.takesConditional then do
    let k ← keyword follow.expect "if"
    let condition ← r.expression .conditional .operand .other
    let k' ← keyword .plain "else"
    let other ← r.expression .conditional .operand follow
    pure ((f ++ k ++ condition ++ k' ++ other).node .conditionalExpression)
  else failure

/-- An expression with the operators it may take in. -/
def expression (r : Rules) (floor : Floor) (e : Expect) (follow : Follow) : Parser Fragment := do
  let (extras, found) ← look e
  let head ← match found with
    | .quote _ _ => comparison r follow
    | .text => do
      let w := Text.word (← get).rest
      if w = "not".toList then do
        let k ← keyword .plain "not"
        pure ((k ++ (← r.expression .negation .operand follow)).node .notOperator)
      else if w = "lambda".toList then lambda r floor follow
      else named r follow <|> comparison r follow
    | _ => failure
  pure ((← many (combine r floor follow) head).behind extras)

end PointMutation.Syntax
