import PointMutation.Number.Double

/-!
# Decimal text of floating-point numbers

A finite number is written with the fewest decimal digits that read back as the same number, the
nearest of them if there are several, and always positionally.
-/

namespace PointMutation.Double

/-! ## Reading -/

/-- The number nearest to `digits` times ten to the power of `exponent`. -/
def ofDecimal (negative : Bool) (digits : Nat) (exponent : Int) : Double :=
  if digits = 0 then finite negative 0 leastExponent
  else
    let size : Int := (Nat.toDigits 10 digits).length + exponent
    if 400 < size then infinite negative
    else if size < -400 then finite negative 0 leastExponent
    else round negative (digits * Nat.pow 10 exponent.toNat) (Nat.pow 10 (-exponent).toNat)

/-! ## Writing -/

/-- The least `j` from `k` on for which the ratio times ten to the power of `j` is at least one. -/
def leadingPlaces (den : Nat) : Nat → Nat → Nat → Nat
  | 0, _, k => k
  | n + 1, num, k => if den ≤ num then k else leadingPlaces den n (num * 10) (k + 1)

/-- The exponent of the first decimal digit of a ratio. -/
def decimalExponent (num den : Nat) : Int :=
  if den ≤ num then (Nat.toDigits 10 (num / den)).length - 1
  else -(leadingPlaces den 400 num 0 : Nat)

/-- A ratio between which and a number there is no other number. -/
structure Interval where
  low : Nat
  high : Nat
  den : Nat
  closed : Bool

/-- The ratios that round to a number, all over the same denominator. -/
def interval (mantissa : Nat) (exponent : Int) : Interval :=
  let up := Nat.pow 2 exponent.toNat
  let down := Nat.pow 2 (-exponent).toNat
  let below := if mantissa = Nat.pow 2 (digits - 1) && leastExponent < exponent then 1 else 2
  ⟨(4 * mantissa - below) * up, (4 * mantissa + 2) * up, 4 * down, mantissa % 2 == 0⟩

/-- Whether `n` times ten to the power of `k` lies in an interval. -/
def Interval.holds (i : Interval) (n : Nat) (k : Int) : Bool :=
  let v := n * Nat.pow 10 k.toNat * i.den
  let scale := Nat.pow 10 (-k).toNat
  if i.closed then i.low * scale ≤ v && v ≤ i.high * scale
  else i.low * scale < v && v < i.high * scale

/-- The shortest decimal that lies in an interval, from `fuel` fewer than the most digits on. -/
def shortestFrom (num den : Nat) (i : Interval) (first : Int) : Nat → Nat → Nat × Int
  | 0, _ => (num / den, 0)
  | fuel + 1, count =>
    let k := first + 1 - count
    let n := num * Nat.pow 10 (-k).toNat
    let d := den * Nat.pow 10 k.toNat
    let q := n / d
    match i.holds q k, i.holds (q + 1) k with
    | true, true => (if d < 2 * (n % d) || (2 * (n % d) == d && q % 2 == 1) then q + 1 else q, k)
    | true, false => (q, k)
    | false, true => (q + 1, k)
    | false, false => shortestFrom num den i first fuel (count + 1)

/-- The fewest decimal digits that read back as a positive number, with their exponent. -/
def shortest (mantissa : Nat) (exponent : Int) : Nat × Int :=
  let num := mantissa * Nat.pow 2 exponent.toNat
  let den := Nat.pow 2 (-exponent).toNat
  shortestFrom num den (interval mantissa exponent) (decimalExponent num den) 25 1

/-- Digits with a point where their exponent says. -/
def positional (n : Nat) (exponent : Int) : List Char :=
  let ds := Nat.toDigits 10 n
  if 0 ≤ exponent then ds ++ List.replicate exponent.toNat '0'
  else
    let places := (-exponent).toNat
    let ds := List.replicate (places + 1 - ds.length) '0' ++ ds
    ds.take (ds.length - places) ++ '.' :: ds.drop (ds.length - places)

/-- Digits without zeros at their end. -/
def trimZeros : Nat → Nat → Int → Nat × Int
  | 0, n, e => (n, e)
  | fuel + 1, n, e => if n % 10 == 0 && n != 0 then trimZeros fuel (n / 10) (e + 1) else (n, e)

/-- A number as text. -/
def text : Double → List Char
  | nan => "NaN".toList
  | infinite s => (if s then "-inf" else "inf").toList
  | finite s m e =>
    let body :=
      if m = 0 then ['0']
      else
        let (n, k) := shortest m e
        let (n, k) := trimZeros 25 n k
        positional n k
    if s then '-' :: body else body

/-- A number as a literal: with a point even if it is whole. -/
def literal (d : Double) : List Char :=
  let t := text d
  if t.contains '.' then t else t ++ ['.', '0']

end PointMutation.Double
