import PointMutation.Syntax.Tree

/-!
# Layout

A token is read together with the blanks in front of it. What the blanks amount to depends on
what may come next: the end of a line, a deeper or a shallower indentation and the opening of a
quotation are tokens of their own where they are expected, and nothing but blank elsewhere. The
first three have no width and stand where the blanks begin.

A cursor knows the indentations that are open. Between a comment and the line it stands on there
is no layout: a comment is a node, and reading goes on behind it.
-/

namespace PointMutation.Syntax

/-- How a quotation is delimited and what it may hold. -/
structure Quote where
  mark : Char
  triple : Bool := false
  raw : Bool := false
  format : Bool := false
  bytes : Bool := false
  deriving DecidableEq, Repr

/-- Where reading stands: what is left of the text, how much of it lies behind, its whole length,
the widths of the open indentations, the innermost first, and whether the quotation that was
opened or closed last was the opening of a formatted one. -/
structure Cursor where
  rest : Text
  place : Nat
  size : Nat
  indents : List Nat
  formatting : Bool
  deriving DecidableEq, Repr

/-- The start of a text. -/
def Cursor.ofText (t : Text) : Cursor := ⟨t, 0, t.length, [], false⟩

/-- Moves on by `n` characters. -/
def Cursor.advance (c : Cursor) (n : Nat) : Cursor :=
  { c with rest := c.rest.drop n, place := c.place + n }

/-- An upper bound for the number of characters left. -/
def Cursor.left (c : Cursor) : Nat := c.size - c.place

/-- Which layout counts at a place. -/
structure Expect where
  newline : Bool := false
  indent : Bool := false
  dedent : Bool := false
  quote : Bool := false
  bracket : Bool := false
  deriving DecidableEq, Repr

namespace Expect

def either (a b : Expect) : Expect :=
  ⟨a.newline || b.newline, a.indent || b.indent, a.dedent || b.dedent, a.quote || b.quote,
    a.bracket || b.bracket⟩

/-- Only the tokens of ordinary text. -/
def plain : Expect := {}

/-- An operand, which may be a quotation. -/
def operand : Expect := { quote := true }

end Expect

/-- What may stand behind an expression: the end of its line, a closing bracket, or neither. -/
inductive Follow
  | line | bracket | other
  deriving DecidableEq, Repr

/-- The layout that counts behind an expression. -/
def Follow.expect : Follow → Expect
  | line => { newline := true }
  | bracket => { bracket := true }
  | other => {}

/-- The layout that counts where an operand may come or the construct may end. -/
def Follow.orOperand (f : Follow) : Expect := f.expect.either .operand

/-! ## Blanks -/

/-- What was seen among blanks: whether a line ended, how far the next token is indented, how far
the first line was indented that holds only a comment, and the text behind them. -/
structure Blanks where
  broke : Bool := false
  width : Nat := 0
  comment : Option Nat := none
  rest : Text := []
  deriving DecidableEq, Repr

/-- Where among blanks a character is read. -/
inductive Among
  | space | comment | backslash | backslashReturn
  deriving DecidableEq, Repr

/-- Reads blanks. Lines that hold only a comment are blank where `comments` is set, but not the
comment behind other tokens. A backslash joins a line with the next; any other backslash, like a
comment behind other tokens, leaves the blanks without meaning. -/
def blanks (comments : Bool) : Text → Among → Blanks → Option Blanks
  | [], _, b => some { b with broke := true, width := 0, rest := [] }
  | c :: r, .space, b =>
    if c = '\n' then blanks comments r .space { b with broke := true, width := 0 }
    else if c = ' ' then blanks comments r .space { b with width := b.width + 1 }
    else if c = '\t' then blanks comments r .space { b with width := b.width + 8 }
    else if c = '\r' || c = '\x0c' then blanks comments r .space { b with width := 0 }
    else if c = '#' && comments then
      if b.broke then blanks comments r .comment { b with comment := b.comment <|> some b.width }
      else none
    else if c = '\\' then blanks comments r .backslash b
    else some { b with rest := c :: r }
  | c :: r, .comment, b =>
    if c = '\n' || c = '\x00' then blanks comments r .space { b with width := 0 }
    else blanks comments r .comment b
  | c :: r, .backslash, b =>
    if c = '\n' then blanks comments r .space b
    else if c = '\r' then blanks comments r .backslashReturn b
    else none
  | c :: r, .backslashReturn, b => if c = '\n' then blanks comments r .space b else none

/-- Separates tokens without any meaning. -/
def isSeparator (c : Char) : Bool :=
  let n := c.toNat
  (9 ≤ n && n ≤ 13) || n == 32 || n == 0xfeff || n == 0x2060 || n == 0x200b

/-! ## Tokens of the layout -/

/-- A token of the layout, or `text` where an ordinary token begins. -/
inductive Layout
  | newline | indent | dedent
  | quote (q : Quote) (length : Nat)
  | text
  deriving DecidableEq, Repr

/-- Letters that may precede a quotation mark. -/
def isQuoteLetter (c : Char) : Bool :=
  ['f', 'F', 't', 'T', 'r', 'R', 'b', 'B', 'u', 'U'].contains c

/-- The opening of a quotation with its length. -/
def opening (t : Text) : Option (Quote × Nat) :=
  let letters := t.takeWhile isQuoteLetter
  let has (cs : List Char) : Bool := letters.any cs.contains
  let quote (mark : Char) (triple : Bool) : Quote :=
    ⟨mark, triple, has ['r', 'R'], has ['f', 'F', 't', 'T'], has ['b', 'B']⟩
  match t.dropWhile isQuoteLetter with
  | '`' :: _ => some (quote '`' false, letters.length + 1)
  | '\'' :: '\'' :: '\'' :: _ => some (quote '\'' true, letters.length + 3)
  | '\'' :: _ => some (quote '\'' false, letters.length + 1)
  | '"' :: '"' :: '"' :: _ => some (quote '"' true, letters.length + 3)
  | '"' :: _ => some (quote '"' false, letters.length + 1)
  | _ => none

/-- Whether a quotation mark comes next. -/
def atQuotationMark : Text → Bool
  | c :: _ => c == '"' || c == '\'' || c == '`'
  | [] => false

/-- The layout token at a cursor, if there is one, and the cursor in front of what it announces. -/
def Cursor.layout? (c : Cursor) (e : Expect) : Option (Layout × Cursor) :=
  match blanks (e.newline || e.indent || e.dedent) c.rest .space {} with
  | none => none
  | some b =>
    let current := c.indents.headD 0
    if b.broke && e.indent && current < b.width then
      some (.indent, { c with indents := b.width :: c.indents })
    else if b.broke &&
        (e.dedent || !(e.newline || e.bracket || (e.quote && atQuotationMark b.rest))) &&
        b.width < current && !c.formatting && b.comment.all (· < current) then
      some (.dedent, { c with indents := c.indents.tail })
    else if b.broke && e.newline then some (.newline, c)
    else if e.quote && b.comment.isNone then
      match opening b.rest with
      | some (q, n) =>
        some (.quote q n, { c with rest := b.rest, place := c.size - b.rest.length })
      | none => none
    else none

/-- Passes what separates ordinary tokens. -/
def Cursor.skip (c : Cursor) : Cursor := c.advance (c.rest.takeWhile isSeparator).length

/-- The length of a comment or of a joint between two lines. -/
def extra? : Text → Option (Kind × Nat)
  | '#' :: r => some (.comment, 1 + (r.takeWhile fun c => c != '\n' && c != '\x00').length)
  | '\\' :: '\n' :: _ => some (.lineContinuation, 2)
  | '\\' :: '\r' :: '\n' :: _ => some (.lineContinuation, 3)
  | '\\' :: '\x00' :: _ => some (.lineContinuation, 2)
  | _ => none

/-! ## Readers -/

/-- Reads from a cursor and leaves it behind what was read, or fails. -/
abbrev Parser := StateT Cursor Option

/-- Repeats a step as long as it succeeds, at most once for each character left. -/
def repeated {α : Type} (step : α → Parser α) : Nat → α → Parser α
  | 0, a => pure a
  | n + 1, a => (do repeated step n (← step a)) <|> pure a

/-- Repeats a step as long as it succeeds. -/
def many {α : Type} (step : α → Parser α) (a : α) : Parser α := do
  repeated step ((← get).left + 1) a

/-- Comments and joints up to the next token, and what that token is. The cursor is left in front
of the token. A quotation does not begin behind separators that are no blanks. -/
def lookWithin (e : Expect) : Nat → List Tree → Parser (List Tree × Layout)
  | 0, _ => failure
  | n + 1, extras => do
    let c ← get
    match c.layout? e with
    | some (l, c) => do
      set c
      pure (extras, l)
    | none =>
      let c := c.skip
      match extra? c.rest with
      | some (k, length) => do
        set (c.advance length)
        lookWithin e n (extras ++ [.node k none c.place (c.place + length) []])
      | none => do
        set c
        if e.quote && (opening c.rest).isSome then failure else pure (extras, .text)

/-- What stands in front of the next token, and what the token is. -/
def look (e : Expect) : Parser (List Tree × Layout) := do
  lookWithin e ((← get).left + 1) []

/-- The next token of the layout, if it is the expected one. -/
def layoutToken (e : Expect) (l : Layout) : Parser Fragment := do
  let (extras, found) ← look e
  let c ← get
  if found = l then pure ⟨extras, [], c.place, c.place⟩ else failure

/-- The next ordinary token, as long as `measure` says. -/
def token (e : Expect) (measure : Text → Option Nat) : Parser Fragment := do
  let (extras, found) ← look e
  let c ← get
  match found, measure c.rest with
  | .text, some n => do
    set (c.advance n)
    pure ⟨extras, [], c.place, c.place + n⟩
  | _, _ => failure

end PointMutation.Syntax
