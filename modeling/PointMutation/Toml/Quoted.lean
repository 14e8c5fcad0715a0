import PointMutation.Text.Basic

/-!
# Quoted strings of TOML

A string stands between quotation marks, between apostrophes, or between three of either, and only
marks allow escapes. This module reads what stands behind the opening quotes up to the closing
ones, and writes a string in the plainest form that holds it.
-/

namespace PointMutation.Toml

/-- Whether a character may stand in a string or a comment as it is. -/
def isPlain (c : Char) : Bool := c == '\t' || (0x20 ≤ c.toNat && c.toNat != 0x7f)

/-- Puts a character in front of what was read. -/
def before (c : Char) : Option (Text × Text) → Option (Text × Text)
  | some (t, r) => some (c :: t, r)
  | none => none

/-! ## Escapes -/

/-- The value of a hexadecimal digit. -/
def hexDigit? (c : Char) : Option Nat :=
  let n := c.toNat
  if '0'.toNat ≤ n && n ≤ '9'.toNat then some (n - '0'.toNat)
  else if 'a'.toNat ≤ n && n ≤ 'f'.toNat then some (n - 'a'.toNat + 10)
  else if 'A'.toNat ≤ n && n ≤ 'F'.toNat then some (n - 'A'.toNat + 10)
  else none

/-- The number that hexadecimal digits spell behind another one. -/
def hexNumber? (n : Nat) : Text → Option Nat
  | [] => some n
  | c :: r =>
    match hexDigit? c with
    | some d => hexNumber? (16 * n + d) r
    | none => none

/-- The character of a code point. -/
def codePoint? (digits : Text) : Option Char :=
  match hexNumber? 0 digits with
  | some n => if n.isValidChar then some (Char.ofNat n) else none
  | none => none

/-- The character that a letter stands for behind a backslash. -/
def escape? : Char → Option Char
  | 'b' => some '\x08'
  | 't' => some '\t'
  | 'n' => some '\n'
  | 'f' => some '\x0c'
  | 'r' => some '\r'
  | '"' => some '"'
  | '\\' => some '\\'
  | _ => none

/-! ## Reading -/

/-- Reads up to a quotation mark. -/
def readBasic : Text → Option (Text × Text)
  | [] => none
  | '"' :: r => some ([], r)
  | '\\' :: 'u' :: a :: b :: c :: d :: r =>
    match codePoint? [a, b, c, d] with
    | some x => before x (readBasic r)
    | none => none
  | '\\' :: 'U' :: a :: b :: c :: d :: e :: f :: g :: h :: r =>
    match codePoint? [a, b, c, d, e, f, g, h] with
    | some x => before x (readBasic r)
    | none => none
  | '\\' :: c :: r =>
    match escape? c with
    | some x => before x (readBasic r)
    | none => none
  | c :: r => if isPlain c then before c (readBasic r) else none

/-- Reads up to an apostrophe. -/
def readLiteral : Text → Option (Text × Text)
  | [] => none
  | '\'' :: r => some ([], r)
  | c :: r => if isPlain c then before c (readLiteral r) else none

/-- Reads up to three apostrophes. Up to two more right in front of them belong to the string. -/
def readLongLiteral : Text → Option (Text × Text)
  | [] => none
  | '\'' :: '\'' :: '\'' :: '\'' :: '\'' :: r => some (['\'', '\''], r)
  | '\'' :: '\'' :: '\'' :: '\'' :: r => some (['\''], r)
  | '\'' :: '\'' :: '\'' :: r => some ([], r)
  | '\r' :: '\n' :: r => before '\n' (readLongLiteral r)
  | c :: r => if c == '\n' || isPlain c then before c (readLongLiteral r) else none

/-- Where a backslash in front of a line end has led to. -/
inductive Joint
  /-- Nowhere. -/
  | none
  /-- To the blanks in front of the line end. -/
  | ahead
  /-- Behind it, where blanks and further line ends are passed over. -/
  | behind

/-- Reads up to three quotation marks. Up to two more right in front of them belong to the
string. -/
def readLong : Joint → Text → Option (Text × Text)
  | _, [] => .none
  | .ahead, '\n' :: r => readLong .behind r
  | .ahead, '\r' :: '\n' :: r => readLong .behind r
  | .ahead, c :: r => if c == ' ' || c == '\t' then readLong .ahead r else .none
  | .behind, '\n' :: r => readLong .behind r
  | .behind, '\r' :: '\n' :: r => readLong .behind r
  | .behind, ' ' :: r => readLong .behind r
  | .behind, '\t' :: r => readLong .behind r
  | _, '"' :: '"' :: '"' :: '"' :: '"' :: r => some (['"', '"'], r)
  | _, '"' :: '"' :: '"' :: '"' :: r => some (['"'], r)
  | _, '"' :: '"' :: '"' :: r => some ([], r)
  | _, '\\' :: 'u' :: a :: b :: c :: d :: r =>
    match codePoint? [a, b, c, d] with
    | some x => before x (readLong .none r)
    | .none => .none
  | _, '\\' :: 'U' :: a :: b :: c :: d :: e :: f :: g :: h :: r =>
    match codePoint? [a, b, c, d, e, f, g, h] with
    | some x => before x (readLong .none r)
    | .none => .none
  | _, '\\' :: '\n' :: r => readLong .behind r
  | _, '\\' :: '\r' :: '\n' :: r => readLong .behind r
  | _, '\\' :: c :: r =>
    match escape? c with
    | some x => before x (readLong .none r)
    | .none => if c == ' ' || c == '\t' then readLong .ahead r else .none
  | _, '\r' :: '\n' :: r => before '\n' (readLong .none r)
  | _, c :: r => if c == '\n' || isPlain c then before c (readLong .none r) else .none

/-- A line end right behind three opening quotes does not belong to the string. -/
def dropBreak : Text → Text
  | '\n' :: r => r
  | '\r' :: '\n' :: r => r
  | t => t

/-- Reads a string, whatever its quotes are. -/
def readString : Text → Option (Text × Text)
  | '"' :: '"' :: '"' :: r => readLong .none (dropBreak r)
  | '"' :: r => readBasic r
  | '\'' :: '\'' :: '\'' :: r => readLongLiteral (dropBreak r)
  | '\'' :: r => readLiteral r
  | _ => none

/-! ## Writing -/

/-- What decides the form of a string. -/
structure Traits where
  apostrophes : Nat
  marks : Nat
  backslash : Bool
  control : Bool
  ending : Bool
  deriving DecidableEq, Repr

/-- The length of the longest run of a character, of which `run` stand in front already. -/
def longestRun (c : Char) (run : Nat) : Text → Nat
  | [] => run
  | d :: r => if d = c then longestRun c (run + 1) r else max run (longestRun c 0 r)

/-- Whether a character has to be escaped wherever it stands. Tabs need not be. -/
def isControl (c : Char) : Bool := (c.toNat < 0x20 && c != '\t') || c.toNat == 0x7f

def Traits.ofText (t : Text) : Traits :=
  ⟨longestRun '\'' 0 t, longestRun '"' 0 t, t.contains '\\', t.any fun c => isControl c && c != '\n',
    t.contains '\n'⟩

/-- Four hexadecimal digits. -/
def fourDigits (n : Nat) : Text :=
  [n / 4096 % 16, n / 256 % 16, n / 16 % 16, n % 16].map fun d =>
    if d < 10 then Char.ofNat (d + 48) else Char.ofNat (d + 55)

/-- A character with the escape it needs between quotation marks. -/
def escaped (long : Bool) (c : Char) : Text :=
  match c with
  | '\x08' => ['\\', 'b']
  | '\t' => ['\\', 't']
  | '\n' => if long then ['\n'] else ['\\', 'n']
  | '\x0c' => ['\\', 'f']
  | '\r' => ['\\', 'r']
  | '\\' => ['\\', '\\']
  | c => if isControl c then '\\' :: 'u' :: fourDigits c.toNat else [c]

/-- The characters of a string between quotation marks. Of marks in a row, every one is escaped
that makes a run longer than `most`. -/
def escapeAll (long : Bool) (most run : Nat) : Text → Text
  | [] => []
  | c :: r =>
    if c = '"' then
      if run < most then '"' :: escapeAll long most (run + 1) r
      else '\\' :: '"' :: escapeAll long most 0 r
    else escaped long c ++ escapeAll long most 0 r

/-- A string between single quotation marks. -/
def basic (t : Text) : Text := '"' :: escapeAll false 0 0 t ++ ['"']

/-- A string between triple quotation marks, which begins on a line of its own if it has several. -/
def long (lines : Bool) (t : Text) : Text :=
  "\"\"\"".toList ++ (if lines then ['\n'] else []) ++ escapeAll true 2 0 t ++ "\"\"\"".toList

/-- A string between single apostrophes. -/
def literal (t : Text) : Text := '\'' :: t ++ ['\'']

/-- A string between triple apostrophes. -/
def longLiteral (lines : Bool) (t : Text) : Text :=
  ['\'', '\'', '\''] ++ (if lines then ['\n'] else []) ++ t ++ ['\'', '\'', '\'']

/-- A string in the plainest form that holds it. -/
def quote (t : Text) : Text :=
  let k := Traits.ofText t
  if !k.control && !k.backslash && k.marks = 0 && !k.ending then basic t
  else if !k.control && k.apostrophes = 0 && !k.ending then literal t
  else if !k.control && !k.backslash && k.marks ≤ 2 then long k.ending t
  else if !k.control && k.apostrophes ≤ 2 then longLiteral k.ending t
  else if k.ending then long true t
  else basic t

/-- Whether a character may stand in a key without quotes. -/
def isBare (c : Char) : Bool :=
  (c.isAlphanum && c.toNat < 0x80) || c == '-' || c == '_'

/-- A key in the plainest form that holds it, all on one line. -/
def writeKey (t : Text) : Text :=
  let k := Traits.ofText t
  if !t.isEmpty && t.all isBare then t
  else if !k.control && !k.backslash && k.marks = 0 && !k.ending then basic t
  else if !k.control && k.apostrophes = 0 && !k.ending then literal t
  else basic t

end PointMutation.Toml
