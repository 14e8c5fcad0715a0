import PointMutation.Syntax.Layout
import PointMutation.Text.Identifier

/-!
# Ordinary tokens

Names, keywords, marks and numerals. A word is read whole, so a keyword never ends inside a longer
word. A few words are keywords only where a statement may begin, and names elsewhere.
-/

namespace PointMutation.Syntax

open Text (word startsWith)

/-! ## Words -/

/-- Words that are never names. -/
def reservedWords : List Text :=
  ["False", "await", "else", "import", "pass", "None", "break", "except", "in", "raise", "True",
   "class", "finally", "is", "return", "and", "continue", "for", "lambda", "try", "as", "def",
   "from", "nonlocal", "while", "assert", "del", "global", "not", "with", "async", "elif", "if",
   "or", "yield"].map (·.toList)

/-- Whether a word is reserved. -/
def isReserved (w : Text) : Bool := reservedWords.contains w

/-- The length of the name at the front of a text. -/
def nameLength? (t : Text) : Option Nat :=
  let w := word t
  if w.isEmpty || isReserved w then none else some w.length

/-- The length of the name at the front of a text, where two reserved words can be names too. -/
def operandNameLength? (t : Text) : Option Nat :=
  let w := word t
  if w.isEmpty || (isReserved w && w != "await".toList && w != "async".toList) then none
  else some w.length

/-- The length of the word `w`, if it stands at the front of a text. -/
def wordLength? (w : String) (t : Text) : Option Nat :=
  let w := w.toList
  if word t == w then some w.length else none

def keyword (e : Expect) (w : String) : Parser Fragment := token e (wordLength? w)

/-- A name that is never a keyword where it stands. -/
def name (e : Expect) : Parser Fragment := do
  pure ((← token e nameLength?).node .identifier)

/-- A name that is used as an operand. -/
def operandName (e : Expect) : Parser Fragment := do
  pure ((← token e operandNameLength?).node .identifier)

/-! ## Marks -/

/-- The length of the mark `m`, if it stands at the front of a text. -/
def markLength? (m : String) (t : Text) : Option Nat :=
  let m := m.toList
  if startsWith t m then some m.length else none

def mark (e : Expect) (m : String) : Parser Fragment := token e (markLength? m)

/-- The length of a lone equals sign. -/
def equalsLength? (t : Text) : Option Nat :=
  match t with
  | '=' :: '=' :: _ => none
  | '=' :: _ => some 1
  | _ => none

def equals (e : Expect) : Parser Fragment := token e equalsLength?

/-- The longest of some marks at the front of a text. -/
def longestMark? (ms : List Text) (t : Text) : Option Text :=
  ms.foldl
    (fun best m =>
      if startsWith t m && best.all (fun b => b.length < m.length) then some m else best)
    none

/-- Marks that join an assignment to the operation it carries out. -/
def augmentedMarks : List Text :=
  ["+=", "-=", "*=", "/=", "@=", "//=", "%=", "**=", ">>=", "<<=", "&=", "^=", "|="].map
    (·.toList)

def augmentedLength? (t : Text) : Option Nat := (longestMark? augmentedMarks t).map (·.length)

/-- Operators between two operands, each with how tightly it binds. -/
def binaryMarks : List (Text × Nat) :=
  [("|", 14), ("&", 15), ("^", 16), ("<<", 17), (">>", 17), ("+", 18), ("-", 18), ("*", 19),
   ("@", 19), ("/", 19), ("%", 19), ("//", 19), ("**", 21)].map fun (m, level) => (m.toList, level)

/-- The marks of operations, alone or joined to an assignment. -/
def operationMarks : List Text := augmentedMarks ++ binaryMarks.map (·.1)

/-- How tightly a sign in front of an operand binds. -/
def signLevel : Nat := 20

/-- The operator between two operands at the front of a text, with its level. -/
def binary? (t : Text) : Option (Text × Nat) :=
  match longestMark? operationMarks t with
  | some m => binaryMarks.find? fun p => p.1 == m
  | none => none

/-- The length of the operator between two operands at the front of a text. -/
def binaryLength? (t : Text) : Option Nat := (binary? t).map (·.1.length)

/-- Marks that compare. -/
def comparisonMarks : List Text := ["<", "<=", "==", "!=", ">=", ">", "<>"].map (·.toList)

/-- The length of a comparison mark at the front of a text. -/
def comparisonLength? (t : Text) : Option Nat :=
  match longestMark? (comparisonMarks ++ operationMarks) t with
  | some m => if comparisonMarks.contains m then some m.length else none
  | none => none

/-! ## Numerals -/

/-- The length of groups of digits with an underscore allowed behind each group. -/
def digitsLength : Text → Bool → Nat
  | [], _ => 0
  | c :: r, grouped =>
    if c.isDigit then digitsLength r true + 1
    else if c = '_' && grouped then digitsLength r false + 1
    else 0

/-- The length of groups of digits of some base with an underscore allowed before each group. -/
def basedLength (isDigit : Char → Bool) : Text → Nat
  | [] => 0
  | '_' :: c :: r => if isDigit c then basedLength isDigit r + 2 else 0
  | c :: r => if isDigit c then basedLength isDigit r + 1 else 0

/-- One more if a character of `cs` comes next. -/
def suffixLength (cs : List Char) : Text → Nat
  | c :: _ => if cs.contains c then 1 else 0
  | [] => 0

/-- The digits of the base that a letter behind a zero stands for. -/
def baseDigits? (c : Char) : Option (Char → Bool) :=
  if c = 'x' || c = 'X' then
    some fun d => d.isDigit || ('a' ≤ d && d ≤ 'f') || ('A' ≤ d && d ≤ 'F')
  else if c = 'o' || c = 'O' then some fun d => '0' ≤ d && d ≤ '7'
  else if c = 'b' || c = 'B' then some fun d => d == '0' || d == '1'
  else none

/-- The length of a whole number in base ten. -/
def decimalLength (t : Text) : Nat :=
  let n := digitsLength t false
  if n = 0 then 0 else n + suffixLength ['l', 'L', 'j', 'J'] (t.drop n)

/-- The length of a whole number. -/
def integerLength (t : Text) : Nat :=
  match t with
  | '0' :: c :: r =>
    match baseDigits? c with
    | some isDigit =>
      let n := basedLength isDigit r
      if n = 0 then decimalLength t else n + 2 + suffixLength ['l', 'L'] (r.drop n)
    | none => decimalLength t
  | _ => decimalLength t

/-- The length of an exponent. -/
def exponentLength (t : Text) : Nat :=
  match t with
  | c :: r =>
    if c = 'e' || c = 'E' then
      let sign := suffixLength ['+', '-'] r
      let n := digitsLength (r.drop sign) false
      if n = 0 then 0 else n + sign + 1
    else 0
  | [] => 0

/-- The length of a number with a point or an exponent. -/
def floatLength (t : Text) : Nat :=
  let whole := digitsLength t false
  let point := suffixLength ['.'] (t.drop whole)
  let fraction := if point = 0 then 0 else digitsLength (t.drop (whole + point)) false
  let digits := whole + point + fraction
  let exponent := exponentLength (t.drop digits)
  if whole + fraction = 0 || point + exponent = 0 then 0
  else digits + exponent + suffixLength ['j', 'J'] (t.drop (digits + exponent))

/-- The numeral at the front of a text. -/
def numeral? (t : Text) : Option (Kind × Nat) :=
  let n := integerLength t
  let m := floatLength t
  if n < m then some (.float, m) else if n = 0 then none else some (.integer, n)

/-- The length of the numeral at the front of a text. -/
def numeralLength? (t : Text) : Option Nat := (numeral? t).map (·.2)

end PointMutation.Syntax
