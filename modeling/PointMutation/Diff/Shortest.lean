import PointMutation.Diff.Script

/-!
# Shortest edit scripts

A shortest script between two lists is found by cutting both of them in two where a shortest path
through the grid of their elements passes, and doing the same with the halves. The cut is found by
two searches at once, one from either end, each of which knows how far it comes along each diagonal
with a given number of edits.
-/

namespace PointMutation.Diff

variable {α : Type} [DecidableEq α]

/-! ## Reach along diagonals -/

/-- How far a search has come along each diagonal, counted in elements of the first list. -/
structure Reach where
  offset : Nat
  ends : Array Nat

namespace Reach

/-- A search that has not begun, with room for diagonals up to `bound` on either side. -/
def start (bound : Nat) : Reach := ⟨bound, Array.replicate (2 * bound + 1) 0⟩

/-- How far the search has come along diagonal `k`. -/
def get (r : Reach) (k : Int) : Nat := r.ends.getD (k + r.offset).toNat 0

/-- Says how far the search has come along diagonal `k`. -/
def set (r : Reach) (k : Int) (x : Nat) : Reach :=
  { r with ends := r.ends.setIfInBounds (k + r.offset).toNat x }

/-- Where the search enters diagonal `k` with its `d`-th edit. -/
def entrance (r : Reach) (d k : Int) : Nat :=
  if k = -d || (k != d && r.get (k - 1) < r.get (k + 1)) then r.get (k + 1) else r.get (k - 1) + 1

end Reach

/-- How many elements two arrays have in common from two places on, up to `fuel`. -/
def commonFrom (as bs : Array α) : Nat → Nat → Nat → Nat
  | 0, _, _ => 0
  | fuel + 1, x, y =>
    match as[x]?, bs[y]? with
    | some a, some b => if a = b then commonFrom as bs fuel (x + 1) (y + 1) + 1 else 0
    | _, _ => 0

/-- The diagonals that a search can be on after `d` edits. -/
def diagonals (d : Nat) : List Int := (List.range (d + 1)).map fun i : Nat => (d : Int) - 2 * (i : Int)

/-- Goes on along diagonals, and gives the place where a diagonal was entered whose end satisfies
`meets`. -/
def advance (as bs : Array α) (d : Nat) (meets : Int → Nat → Bool) :
    List Int → Reach → Option (Nat × Nat × Nat) × Reach
  | [], r => (none, r)
  | k :: ks, r =>
    let x := r.entrance d k
    let y := (x - k : Int).toNat
    let n := commonFrom as bs as.size x y
    let r := r.set k (x + n)
    if meets k (x + n) then (some (x, y, n), r) else advance as bs d meets ks r

/-- Searches from either end with `d` edits, then with one more, up to `fuel` times. The arrays of
`back` are those of `front` in reverse. -/
def meeting (as bs as' bs' : Array α) : Nat → Nat → Reach → Reach → Option (Nat × Nat)
  | 0, _, _, _ => none
  | fuel + 1, d, front, back =>
    let delta : Int := as.size - bs.size
    let odd := delta % 2 != 0
    let meetsBack (k : Int) (x : Nat) : Bool :=
      odd && (k - delta).natAbs + 1 ≤ d && as.size ≤ x + back.get (-(k - delta))
    match advance as bs d meetsBack (diagonals d) front with
    | (some (x, y, _), _) => some (x, y)
    | (none, front) =>
      let meetsFront (k : Int) (x : Nat) : Bool :=
        !odd && (k - delta).natAbs ≤ d && as.size ≤ x + front.get (-(k - delta))
      match advance as' bs' d meetsFront (diagonals d) back with
      | (some (x, y, n), _) => some (as.size - (x + n), bs.size - (y + n))
      | (none, back) => meeting as bs as' bs' fuel (d + 1) front back

/-- A place where a shortest path passes. -/
def middle (as bs : List α) : Option (Nat × Nat) :=
  let most := (as.length + bs.length + 1) / 2 + 1
  let none := Reach.start (most + 1)
  meeting as.toArray bs.toArray as.reverse.toArray bs.reverse.toArray most 0 none none

/-! ## Scripts -/

/-- Elements that are kept, if there are any. -/
def kept (xs : List α) : Script α := if xs.isEmpty then [] else [.keep xs]

/-- A script between two lists, cut in two up to `fuel` times. -/
def shortestWithin : Nat → List α → List α → Script α
  | 0, as, bs => [.delete as, .insert bs]
  | fuel + 1, as, bs =>
    let front := commonFront as bs
    let as' := as.drop front
    let bs' := bs.drop front
    let back := commonBack as' bs'
    let as'' := as'.take (as'.length - back)
    let bs'' := bs'.take (bs'.length - back)
    let inner : Script α :=
      match as'', bs'' with
      | [], [] => []
      | as, [] => [.delete as]
      | [], bs => [.insert bs]
      | as, bs =>
        match middle as bs with
        | some (x, y) =>
          shortestWithin fuel (as.take x) (bs.take y) ++ shortestWithin fuel (as.drop x) (bs.drop y)
        | none => [.delete as, .insert bs]
    kept (as.take front) ++ inner ++ kept (as'.drop (as'.length - back))

/-- A shortest script between two lists. -/
def shortest (as bs : List α) : Script α := shortestWithin (as.length + bs.length + 1) as bs

end PointMutation.Diff
