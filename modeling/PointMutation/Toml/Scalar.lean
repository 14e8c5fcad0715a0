import PointMutation.Toml.Value
import PointMutation.Number.Decimal

/-!
# Scalars of TOML

Numbers, truth values and moments are read from words of letters, digits and a few signs. A whole
number has a decimal form, perhaps with a sign, and three other forms without one; it has to fit
into 64 bits with a sign. Single underscores may stand between digits. A number with a point or an
exponent is rounded to the nearest floating-point number.
-/

namespace PointMutation.Toml

def isDigit (c : Char) : Bool := '0'.toNat ≤ c.toNat && c.toNat ≤ '9'.toNat

/-! ## Whole numbers -/

/-- Digits without the underscores between them. -/
def bareDigits (ok : Char → Bool) : Text → Option Text
  | [] => none
  | [c] => if ok c then some [c] else none
  | c :: '_' :: r => if ok c then (bareDigits ok r).map (c :: ·) else none
  | c :: r => if ok c then (bareDigits ok r).map (c :: ·) else none

/-- The number that digits of a base spell behind another one. -/
def numberFrom (base : Nat) : Nat → Text → Nat
  | n, [] => n
  | n, c :: r =>
    let d := if isDigit c then c.toNat - 48 else (c.toLower.toNat - 'a'.toNat) + 10
    numberFrom base (base * n + d) r

/-- The digits of a decimal whole number, which has no zeros in front. -/
def wholeDigits (t : Text) : Option Text :=
  match t with
  | '0' :: _ :: _ => none
  | t => bareDigits isDigit t

/-- A sign in front of a word: whether it is negative, and the rest. -/
def signed : Text → Bool × Text
  | '-' :: r => (true, r)
  | '+' :: r => (false, r)
  | t => (false, t)

/-- A whole number, if it fits into 64 bits with a sign. -/
def fitting (i : Int) : Option Value :=
  if -0x8000000000000000 ≤ i && i < 0x8000000000000000 then some (.integer i) else none

/-- Whether a character is a digit of a base up to sixteen. -/
def isDigitOf (base : Nat) (c : Char) : Bool :=
  (isDigit c && c.toNat - 48 < base) ||
    (base == 16 && (('a'.toNat ≤ c.toNat && c.toNat ≤ 'f'.toNat) ||
      ('A'.toNat ≤ c.toNat && c.toNat ≤ 'F'.toNat)))

/-- A whole number of a base. -/
def based (base : Nat) (t : Text) : Option Value :=
  (bareDigits (isDigitOf base) t).bind fun ds => fitting (numberFrom base 0 ds)

/-- A whole number. -/
def integer? (t : Text) : Option Value :=
  match t with
  | '0' :: 'x' :: r => based 16 r
  | '0' :: 'o' :: r => based 8 r
  | '0' :: 'b' :: r => based 2 r
  | t =>
    let (negative, ds) := signed t
    (wholeDigits ds).bind fun ds =>
      let n : Int := numberFrom 10 0 ds
      fitting (if negative then -n else n)

/-! ## Floating-point numbers -/

/-- The exponent behind its letter. -/
def exponent? (t : Text) : Option Int :=
  let (negative, ds) := signed t
  (bareDigits isDigit ds).map fun ds =>
    let n : Int := numberFrom 10 0 ds
    if negative then -n else n

/-- Digits with those behind the point and an exponent. What is too great is no number unless it is
negative. -/
def decimal (negative : Bool) (whole part : Text) (exponent : Int) : Option Value :=
  let d := Double.ofDecimal negative (numberFrom 10 0 (whole ++ part)) (exponent - part.length)
  if d = .infinite false then none else some (.float d)

/-- Whether a letter stands in front of an exponent. -/
def isExponentMark (c : Char) : Bool := c == 'e' || c == 'E'

/-- A number with a point or an exponent. -/
def float? (t : Text) : Option Value :=
  let (negative, t) := signed t
  let inWhole (c : Char) : Bool := isDigit c || c == '_'
  match wholeDigits (t.takeWhile inWhole), t.dropWhile inWhole with
  | some whole, '.' :: r =>
    match bareDigits isDigit (r.takeWhile inWhole), r.dropWhile inWhole with
    | some part, [] => decimal negative whole part 0
    | some part, c :: r => if isExponentMark c then (exponent? r).bind (decimal negative whole part)
        else none
    | none, _ => none
  | some whole, c :: r =>
    if isExponentMark c then (exponent? r).bind (decimal negative whole []) else none
  | _, _ => none

/-- A number that has a name. -/
def named? (t : Text) : Option Value :=
  let (negative, t) := signed t
  if t = "inf".toList then some (.float (.infinite negative))
  else if t = "nan".toList then some (.float .nan)
  else none

/-! ## Moments -/

/-- A number of two digits from `lo` to `hi`. -/
def twoDigits? (lo hi : Nat) : Text → Option Nat
  | [a, b] =>
    if isDigit a && isDigit b && lo ≤ numberFrom 10 0 [a, b] && numberFrom 10 0 [a, b] ≤ hi then
      some (numberFrom 10 0 [a, b])
    else none
  | _ => none

/-- The days of a month. -/
def daysOf (year month : Nat) : Nat :=
  if month = 2 then
    if (year % 4 = 0 && year % 100 != 0) || year % 400 = 0 then 29 else 28
  else if [4, 6, 9, 11].contains month then 30
  else 31

/-- A date and what stands behind it. -/
def date? (t : Text) : Option (Text × Text) :=
  match t with
  | y :: y' :: y'' :: y''' :: '-' :: m :: m' :: '-' :: d :: d' :: r =>
    if [y, y', y'', y'''].all isDigit then
      match twoDigits? 1 12 [m, m'] with
      | some month =>
        match twoDigits? 1 (daysOf (numberFrom 10 0 [y, y', y'', y''']) month) [d, d'] with
        | some _ => some ([y, y', y'', y''', '-', m, m', '-', d, d'], r)
        | none => none
      | none => none
    else none
  | _ => none

/-- A fraction of a second, as far as it counts. -/
def fraction (t : Text) : Text :=
  match (t.take 9).reverse.dropWhile (· == '0') with
  | [] => []
  | r => '.' :: r.reverse

/-- A time and what stands behind it. -/
def time? (t : Text) : Option (Text × Text) :=
  match t with
  | h :: h' :: ':' :: m :: m' :: ':' :: s :: s' :: r =>
    match twoDigits? 0 23 [h, h'], twoDigits? 0 59 [m, m'], twoDigits? 0 60 [s, s'] with
    | some _, some _, some _ =>
      let shown := [h, h', ':', m, m', ':', s, s']
      match r with
      | '.' :: r =>
        if (r.takeWhile isDigit).isEmpty then none
        else some (shown ++ fraction (r.takeWhile isDigit), r.dropWhile isDigit)
      | r => some (shown, r)
    | _, _, _ => none
  | _ => none

/-- How far a time is away from that of the zero meridian. -/
def offset? (t : Text) : Option Text :=
  match t with
  | [] => some []
  | ['Z'] => some ['Z']
  | ['z'] => some ['Z']
  | [c, h, h', ':', m, m'] =>
    match twoDigits? 0 23 [h, h'], twoDigits? 0 59 [m, m'] with
    | some a, some b =>
      if c = '+' || (c = '-' && a + b = 0) then some ['+', h, h', ':', m, m']
      else if c = '-' then some ['-', h, h', ':', m, m']
      else none
    | _, _ => none
  | _ => none

/-- A date, a time, or a date with a time. -/
def moment? (t : Text) : Option Value :=
  match date? t with
  | some (d, []) => some (.moment d)
  | some (d, c :: r) =>
    if c == 'T' || c == 't' || c == ' ' then
      match time? r with
      | some (h, r) => (offset? r).map fun o => .moment (d ++ 'T' :: h ++ o)
      | none => none
    else none
  | none =>
    match time? t with
    | some (h, []) => some (.moment h)
    | _ => none

/-! ## Words -/

/-- Whether a character may stand in a word. -/
def isWordChar (c : Char) : Bool :=
  (c.isAlphanum && c.toNat < 0x80) || ['_', '+', '-', '.', ':'].contains c

/-- The value that a word is. -/
def scalar? (t : Text) : Option Value :=
  if t = "true".toList then some (.boolean true)
  else if t = "false".toList then some (.boolean false)
  else ((moment? t).or (float? t)).or ((integer? t).or (named? t))

/-- Reads a word. A date and a time may have a space between them. -/
def readScalar (t : Text) : Option (Value × Text) :=
  let w := t.takeWhile isWordChar
  let r := t.dropWhile isWordChar
  match date? w, r with
  | some (_, []), ' ' :: s =>
    match time? (s.takeWhile isWordChar) with
    | some _ => (moment? (w ++ ' ' :: s.takeWhile isWordChar)).map (·, s.dropWhile isWordChar)
    | none => (scalar? w).map (·, r)
  | _, _ => (scalar? w).map (·, r)

end PointMutation.Toml
