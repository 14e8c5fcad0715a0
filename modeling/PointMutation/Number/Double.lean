/-!
# Floating-point numbers

Numbers of 53 binary digits with an exponent, infinities, and what is not a number. A finite
number is a mantissa times a power of two, with a sign that zero has too. `Double.round` gives the
nearest one to a ratio, the one with an even mantissa if two are equally near.
-/

namespace PointMutation

/-- A floating-point number. -/
inductive Double
  | nan
  | infinite (negative : Bool)
  /-- The mantissa times two to the power of the exponent. -/
  | finite (negative : Bool) (mantissa : Nat) (exponent : Int)
  deriving DecidableEq, Repr

namespace Double

def zero : Double := finite false 0 (-1074)

/-- The number of binary digits of a mantissa. -/
def digits : Nat := 53

/-- The least exponent. -/
def leastExponent : Int := -1074

/-- The greatest exponent. -/
def greatestExponent : Int := 971

/-! ## Order -/

/-- A mantissa with its exponent as a whole number of units of two to the power of `unit`, which
is at most the exponent. -/
def scaled (negative : Bool) (mantissa : Nat) (exponent unit : Int) : Int :=
  let n : Int := (mantissa * Nat.pow 2 (exponent - unit).toNat : Nat)
  if negative then -n else n

/-- Whether one number is less than another. What is not a number is not. -/
def lt : Double → Double → Bool
  | nan, _ => false
  | _, nan => false
  | infinite s, infinite t => s && !t
  | infinite s, finite _ _ _ => s
  | finite _ _ _, infinite t => !t
  | finite s m e, finite t n f => scaled s m e (min e f) < scaled t n f (min e f)

/-- Whether one number is at most another. What is not a number is not. -/
def le : Double → Double → Bool
  | nan, _ => false
  | _, nan => false
  | a, b => !lt b a

/-! ## Rounding -/

/-- The nearest whole number to a ratio, the even one if two are equally near. -/
def roundDiv (num den : Nat) : Nat :=
  let q := num / den
  let r := num % den
  if den < 2 * r || (2 * r == den && q % 2 == 1) then q + 1 else q

/-- The ratio `num / den` divided by two to the power of `e`. -/
def shifted (num den : Nat) (e : Int) : Nat × Nat :=
  (num * Nat.pow 2 (-e).toNat, den * Nat.pow 2 e.toNat)

/-- The exponent for which the mantissa of a ratio has all its digits, if that is not below the
least one. -/
def exponentOf (num den : Nat) : Int :=
  let guess : Int := (num.log2 : Int) - den.log2 - digits
  let fits (e : Int) : Bool :=
    let (n, d) := shifted num den e
    n / d < Nat.pow 2 digits
  max leastExponent (if fits guess then guess else if fits (guess + 1) then guess + 1 else guess + 2)

/-- The nearest floating-point number to a ratio. -/
def round (negative : Bool) (num den : Nat) : Double :=
  if num = 0 || den = 0 then finite negative 0 leastExponent
  else
    let e := exponentOf num den
    let (n, d) := shifted num den e
    let m := roundDiv n d
    let (m, e) := if m < Nat.pow 2 digits then (m, e) else (m / 2, e + 1)
    if greatestExponent < e then infinite negative else finite negative m e

/-- The floating-point number of a whole number. -/
def ofInt (i : Int) : Double := round (i < 0) i.natAbs 1

theorem lt_nan (a : Double) : lt a nan = false := by cases a <;> rfl

theorem nan_lt (a : Double) : lt nan a = false := rfl

theorem le_of_finite (s t : Bool) (m n : Nat) (e f : Int) :
    le (finite s m e) (finite t n f) = !lt (finite t n f) (finite s m e) := rfl

end Double

end PointMutation
