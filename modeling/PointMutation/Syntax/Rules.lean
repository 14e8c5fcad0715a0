import PointMutation.Syntax.Token

/-!
# Rules

The constructs of the language contain each other, so each is read by a rule that is given the
rules for what it contains. `Rules` is the collection of those that others contain.
-/

namespace PointMutation.Syntax

/-- Which of the loosely binding operators an expression may take in. An iterable of a
comprehension and what is written behind its `if` leave an `if` alone; an iterable leaves it alone
within a lambda too. -/
inductive Floor
  | conditional | iterable | filter | disjunction | conjunction | negation
  deriving DecidableEq, Repr

namespace Floor

/-- Whether `a if b else c` may be taken in. -/
def takesConditional (f : Floor) : Bool := f == conditional

/-- Whether `a as b` may be taken in. -/
def takesAlias (f : Floor) : Bool := f == conditional || f == iterable || f == filter

/-- Whether `a or b` may be taken in. -/
def takesOr (f : Floor) : Bool := f.takesAlias || f == disjunction

/-- Whether `a and b` may be taken in. -/
def takesAnd (f : Floor) : Bool := f.takesOr || f == conjunction

end Floor

/-- How the constructs that others contain are read. -/
structure Rules where
  /-- An expression. -/
  expression : Floor → Expect → Follow → Parser Fragment
  /-- An expression of operators between operands that bind at least as tightly as a level. -/
  operation : Nat → Expect → Follow → Parser Fragment
  /-- What stands between the braces in a formatted quotation, and the closing brace. -/
  interpolation : Parser Unit
  /-- An annotation, with a bound behind a colon if that is allowed. -/
  typeHint : Bool → Expect → Follow → Parser Fragment
  /-- The pattern of a case. -/
  casePattern : Expect → Follow → Parser Fragment
  /-- A pattern without a name for what it matches. -/
  simplePattern : Expect → Follow → Parser Fragment
  /-- The target of an assignment, as the first of a statement or elsewhere. -/
  target : Bool → Expect → Follow → Parser Fragment
  /-- What stands behind an equals sign. -/
  rightSide : Parser Fragment
  /-- A statement, or several simple ones up to the end of their line. -/
  statement : Parser Fragment

/-- The rules of which none reads anything. -/
def Rules.none : Rules :=
  ⟨fun _ _ _ => failure, fun _ _ _ => failure, failure, fun _ _ _ => failure,
    fun _ _ => failure, fun _ _ => failure, fun _ _ _ => failure, failure, failure⟩

/-! ## Combinations -/

/-- The text from the next ordinary token on, empty if a token of the layout comes next. -/
def peek (e : Expect) : Parser Text := do
  let c ← get
  let (_, found) ← look e
  let t := (← get).rest
  set c
  pure (if found = .text then t else [])

/-- The next word, empty if anything else comes next. -/
def peekWord (e : Expect) : Parser Text := do pure (Text.word (← peek e))

/-- Whether the line ends here and nothing follows it. -/
def endsText (f : Follow) : Parser Bool := do
  let c ← get
  let (_, found) ← look f.expect
  let t := (← get).rest
  set c
  pure (found = .newline && t.all isSeparator)

/-- What a reader reads behind `f`, or `f` alone where it fails. -/
def orNothing (f : Fragment) (p : Parser Fragment) : Parser Fragment :=
  (do pure (f ++ (← p))) <|> pure f

/-- As many of a construct behind `f` as there are, each behind a comma, and a comma at the end.
The layout that counts is given for commas and for the constructs behind them. -/
def commaSeparated (comma item : Expect) (p : Expect → Parser Fragment) (trailing : Bool)
    (f : Fragment) : Parser Fragment := do
  let f ← many (fun f => do
    let c ← mark comma ","
    pure (f ++ c ++ (← p item))) f
  if trailing then orNothing f (mark comma ",") else pure f

end PointMutation.Syntax
