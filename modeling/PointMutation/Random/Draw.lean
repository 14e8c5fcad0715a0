import PointMutation.Random.Block
import PointMutation.Number.Decimal
import PointMutation.Fault

/-!
# Draws

A random source gives words one after the other, and everything random is drawn from them: numbers
between zero and one, whole numbers of a range, elements of a list and weighted choices. A source
that was made from the same seed gives the same draws.

A whole number of a range is the high half of a product of the range with a word. The bias of that
is made smaller by a second word where it matters.
-/

namespace PointMutation

/-- A source of random words: the key of its blocks, the number of the next block, and the words
of the present block that were not given yet. -/
structure RandomSource where
  key : Random.Key
  next : UInt64
  left : List UInt32
  deriving DecidableEq, Repr

namespace RandomSource

/-- The source that belongs to a seed. -/
def seeded (seed : UInt64) : RandomSource := ⟨.ofSeed seed, 0, []⟩

/-- The next word. -/
def word (r : RandomSource) : UInt32 × RandomSource :=
  match r.left with
  | w :: ws => (w, { r with left := ws })
  | [] =>
    match (r.key.block r.next).words with
    | w :: ws => (w, ⟨r.key, r.next + 1, ws⟩)
    | [] => (0, r)

/-- The next two words as one number, the low half first. -/
def wide (r : RandomSource) : Nat × RandomSource :=
  let (low, r) := r.word
  let (high, r) := r.word
  (low.toNat + high.toNat * UInt32.size, r)

/-- A seed for another source. -/
def nextSeed (r : RandomSource) : UInt64 × RandomSource :=
  let (n, r) := r.wide
  (n.toUInt64, r)

/-- Another source, and what is left of this one. -/
def fork (r : RandomSource) : RandomSource × RandomSource :=
  let (seed, r) := r.nextSeed
  (seeded seed, r)

/-- The numerator of a number from zero up to one, over `2 ^ 53`. -/
def unitNumerator (r : RandomSource) : Nat × RandomSource :=
  let (n, r) := r.wide
  (n / Nat.pow 2 11, r)

/-- A number from zero up to one. -/
def unit (r : RandomSource) : Double × RandomSource :=
  let (n, r) := r.unitNumerator
  (.round false n (Nat.pow 2 53), r)

/-- Whether an event happens that has a probability. -/
def chance (p : Double) (r : RandomSource) : Bool × RandomSource :=
  let (n, r) := r.unitNumerator
  (Double.lt (.finite false n (-53)) p, r)

/-! ## Ranges -/

/-- A number below `range`, from a word below `size` and another one if `again` says so. -/
def reduce (size range word second : Nat) : Nat :=
  let product := word * range
  let high := product / size
  let low := product % size
  if size - range < low && size ≤ low + second * range / size then high + 1 else high

/-- Whether a second word is drawn for a number below `range`. -/
def needsSecond (size range word : Nat) : Bool := size - range < word * range % size

/-- A number below `range`, from words of 64 bits. -/
def belowWide (range : Nat) (r : RandomSource) : Nat × RandomSource :=
  let (w, r) := r.wide
  if needsSecond UInt64.size range w then
    let (w', r) := r.wide
    (reduce UInt64.size range w w', r)
  else (reduce UInt64.size range w 0, r)

/-- A number below `range`, from words of 32 bits. -/
def below (range : Nat) (r : RandomSource) : Nat × RandomSource :=
  let (w, r) := r.word
  if needsSecond UInt32.size range w.toNat then
    let (w', r) := r.word
    (reduce UInt32.size range w.toNat w'.toNat, r)
  else (reduce UInt32.size range w.toNat 0, r)

/-- An index of a list of that length. Words of 64 bits are only drawn for a length that does not
fit into 32 bits. -/
def index (length : Nat) (r : RandomSource) : Nat × RandomSource :=
  if length < UInt32.size then r.below length else r.belowWide length

/-- A number from `lo` to `hi`, both of 64 bits with a sign and `lo` at most `hi`. If every such
number is in the range, it is the one that two words spell. -/
def intIn (lo hi : Int) (r : RandomSource) : Int × RandomSource :=
  let range := (hi - lo + 1).toNat
  if range = UInt64.size then
    let (n, r) := r.wide
    ((n : Int).bmod UInt64.size, r)
  else
    let (n, r) := r.belowWide range
    (lo + n, r)

/-- An element of a list, unless it is empty. -/
def choose {α : Type} (xs : List α) (r : RandomSource) : Option α × RandomSource :=
  if xs.isEmpty then (none, r)
  else
    let (i, r) := r.index xs.length
    (xs[i]?, r)

/-! ## Weighted choices -/

/-- A number below `total` and the words used up, drawing again where a word would favour some
numbers, but no more than `fuel` times. -/
def uniform (total : Nat) : Nat → RandomSource → Nat × RandomSource
  | 0, r => (0, r)
  | fuel + 1, r =>
    let (w, r) := r.word
    let product := w.toNat * total
    if (UInt32.size - total) % total ≤ product % UInt32.size || fuel = 0 then
      (product / UInt32.size, r)
    else uniform total fuel r

/-- The first index up to which the weights sum up to more than `n`. -/
def indexAbove (n : Nat) : List UInt32 → Nat
  | [] => 0
  | w :: ws => if n < w.toNat then 0 else indexAbove (n - w.toNat) ws + 1

/-- The sum of weights. -/
def total (weights : List UInt32) : Nat := weights.foldr (fun w n => w.toNat + n) 0

/-- An index, as often as its weight says. -/
def weighted (weights : List UInt32) (r : RandomSource) : Except Fault Nat × RandomSource :=
  let fault (reason : String) : Except Fault Nat :=
    .error (.configuration ("invalid distribution: " ++ reason))
  if weights.isEmpty then (fault "Weights sequence is empty/too long/unordered", r)
  else if UInt32.size ≤ total weights then (fault "Overflow when summing weights", r)
  else if total weights = 0 then (fault "Not enough weights > zero", r)
  else
    let (n, r) := uniform (total weights) 1000 r
    (.ok (indexAbove n weights), r)

/-! ## Words to name things by -/

def lowercase : List Char := "abcdefghijklmnopqrstuvwxyz".toList

def alphanumeric : List Char :=
  "abcdefghijklmnopqrstuvwxyzABCDEFGHIJKLMNOPQRSTUVWXYZ0123456789".toList

/-- A character of an alphabet. -/
def pick (alphabet : List Char) (r : RandomSource) : Char × RandomSource :=
  let (i, r) := r.index alphabet.length
  (alphabet.getD i 'a', r)

/-- Several characters. -/
def letters : Nat → RandomSource → List Char × RandomSource
  | 0, r => ([], r)
  | n + 1, r =>
    let (c, r) := r.pick alphanumeric
    let (cs, r) := letters n r
    (c :: cs, r)

/-- A lowercase letter with letters and digits behind it, `length` characters in all. -/
def identifier (length : Nat) (r : RandomSource) : Except Fault Text × RandomSource :=
  match length with
  | 0 => (.error (.invalidLength 0), r)
  | n + 1 =>
    let (c, r) := r.pick lowercase
    let (cs, r) := r.letters n
    (.ok (c :: cs), r)

end RandomSource

end PointMutation
