import PointMutation.Syntax.Rules

/-!
# Quotations

A quotation is a leaf of the tree, but its inside is read: escapes, doubled braces and the
expressions between braces of a formatted quotation all have their form. A line may not end inside
a quotation that is not tripled, except right at the start of a stretch of content.
-/

namespace PointMutation.Syntax

/-! ## Content -/

/-- What comes next inside a quotation. -/
inductive Content
  /-- The closing marks after this many characters. -/
  | closing (length : Nat)
  /-- Plain characters. -/
  | plain (length : Nat)
  /-- Neither. -/
  | other
  /-- Neither, since the text ends behind this many characters. -/
  | unfinished (length : Nat)
  deriving DecidableEq, Repr

/-- How the next character of a content is taken: for what it is, as the one behind a backslash
that stands for itself, as a line feed that may follow such a one, or as it comes. -/
inductive Taken
  | asIs | escaped | newline | lineFeed | letter | any
  deriving DecidableEq, Repr

/-- Reads the content of a quotation after `n` characters, of which some count as content if
`some?` is set. -/
def content (q : Quote) : Text → Taken → Nat → Bool → Content
  | [], _, n, _ => .unfinished n
  | c :: r, taken, n, some? =>
    if taken = .letter then content q r .any (n + 1) some?
    else if taken = .any then content q r .asIs (n + 1) true
    else if taken = .escaped && (c = q.mark || c = '\\') then content q r .newline (n + 1) some?
    else if (taken = .escaped || taken = .newline) && c = '\r' then
      content q r .lineFeed (n + 1) some?
    else if taken != .asIs && c = '\n' then content q r .asIs (n + 1) some?
    else if c = '\x00' then .unfinished n
    else if q.format && (c = '{' || c = '}') then if some? then .plain n else .other
    else if c = '\\' then
      if q.raw then content q r .escaped (n + 1) some?
      else if q.bytes && (r.head?.any fun d => d == 'N' || d == 'u' || d == 'U') then
        content q r .letter (n + 1) some?
      else if some? then .plain n else .other
    else if c = q.mark then
      if !q.triple then if some? then .plain n else .closing (n + 1)
      else match r with
        | d :: e :: _ =>
          if d = q.mark && e = q.mark then if some? then .plain n else .closing (n + 3)
          else if d = q.mark then .plain (n + 2) else .plain (n + 1)
        | [d] => if d = q.mark then .plain (n + 2) else .plain (n + 1)
        | [] => .plain (n + 1)
    else if c = '\n' && some? && !q.triple then .other
    else content q r .asIs (n + 1) true

/-- The length of `n` hexadecimal digits. -/
def hexLength? (n : Nat) (t : Text) : Option Nat :=
  let digits := (t.take n).takeWhile fun d =>
    d.isDigit || ('a' ≤ d && d ≤ 'f') || ('A' ≤ d && d ≤ 'F')
  if digits.length = n then some n else none

/-- The length of what a backslash escapes at the front of a text. -/
def escapedLength? : Text → Option Nat
  | [] => none
  | '\n' :: _ => some 1
  | '\r' :: '\n' :: _ => some 2
  | 'u' :: t => (hexLength? 4 t).map (· + 1)
  | 'U' :: t => (hexLength? 8 t).map (· + 1)
  | 'x' :: t => (hexLength? 2 t).map (· + 1)
  | 'N' :: '{' :: t =>
    let name := t.takeWhile fun d => d != '}' && d != '\x00'
    if name.isEmpty || (t.drop name.length).head? != some '}' then none
    else some (name.length + 3)
  | c :: t =>
    if c.isDigit then some (1 + ((t.take 2).takeWhile Char.isDigit).length)
    else if "'\"abfrntv\\".toList.contains c then some 1
    else none

/-- The length of an escape. A backslash that begins none is one by itself. -/
def escapeLength? : Text → Option Nat
  | '\\' :: r => some (1 + (escapedLength? r).getD 0)
  | _ => none

/-- Whether a formatted quotation goes on with a doubled brace. -/
def atDoubledBrace : Text → Bool
  | '{' :: '{' :: _ => true
  | '}' :: '}' :: _ => true
  | _ => false

/-! ## Interpolations -/

/-- A letter behind an exclamation mark. -/
def conversionLength? : Text → Option Nat
  | '!' :: c :: _ => if 'a' ≤ c && c ≤ 'z' then some 2 else none
  | _ => none

/-- The rest of a format specifier, which may itself hold interpolations. -/
def formatSpecifier (r : Rules) : Unit → Parser Unit := fun _ => do
  let c ← get
  match c.rest with
  | '{' :: _ => do
    set (c.advance 1)
    r.interpolation
  | '}' :: _ => failure
  | '\n' :: _ => set (c.advance 1)
  | t => do
    let n := (t.takeWhile fun d => d != '{' && d != '}' && d != '\n' && d != '\x00').length
    if n = 0 then failure else set (c.advance n)

/-- Runs a reader for what it moves past, or not at all where it fails. -/
def optionally {α : Type} (p : Parser α) : Parser Unit := (do let _ ← p) <|> pure ()

/-! ## The whole -/

/-- The inside of a quotation up to its closing marks. -/
def inside (r : Rules) (q : Quote) : Nat → Parser Unit
  | 0 => failure
  | n + 1 => do
    let c ← get
    if q.format && atDoubledBrace c.rest then do
      set (c.advance 2)
      inside r q n
    else
      match (if q.format && (c.rest.head?.any fun d => d == '{' || d == '}') then .other
        else content q c.rest .asIs 0 false) with
      | .closing length => set { c.advance length with formatting := false }
      | .plain length => do
        set (c.advance length)
        inside r q n
      | .other | .unfinished _ =>
        match escapeLength? c.rest with
        | some length => do
          set (c.advance length)
          inside r q n
        | none =>
          let c := c.skip
          match extra? c.rest with
          | some (_, length) => do
            set (c.advance length)
            inside r q n
          | none =>
            match c.rest with
            | '{' :: _ => do
              set (c.advance 1)
              r.interpolation
              inside r q n
            | _ => failure

/-- A quotation. -/
def quotation (r : Rules) (e : Expect) : Parser Fragment := do
  let (extras, found) ← look e
  match found with
  | .quote q length => do
    let c ← get
    set { c.advance length with formatting := q.format }
    inside r q (c.left + 1)
    let d ← get
    pure ⟨extras, [.node .string none c.place d.place []], c.place, d.place⟩
  | _ => failure

/-- Several quotations in a row are one value. -/
def quotations (r : Rules) (e : Expect) (follow : Follow) : Parser Fragment := do
  let first ← quotation r e
  let all ← many (fun f => do pure (f ++ (← quotation r follow.orOperand))) first
  pure (if all.items.length = first.items.length then first else all.node .concatenatedString)

end PointMutation.Syntax
