import PointMutation.Grammar.Production
import PointMutation.Repair.Scanner
import Std.Data.HashMap

/-!
# Ordinary tokens in a faulty text

The longest of the tokens that may come is taken. Words are told apart by which of them may come:
a word that is a keyword where it may come is a name elsewhere, unless it is reserved.
-/

namespace PointMutation.Repair

open PointMutation.Grammar PointMutation.Syntax

/-- The text of a token that is written out. -/
def spelling? : Terminal → Option String
  | .written w => some w
  | .exceptStar => some "*"
  | .leaf .ellipsis => some "..."
  | .leaf .trueLiteral => some "True"
  | .leaf .falseLiteral => some "False"
  | .leaf .noneLiteral => some "None"
  | _ => none

/-- Whether a spelling is that of a word. -/
def isWord (w : Text) : Bool := w.all fun c => c.isAlpha || c == '_'

/-- The tokens of a grammar by how they are written: marks and words with the number of each. -/
structure Lexicon where
  terminals : Array Terminal
  numbers : Std.HashMap Terminal Nat
  marks : List (Text × Nat)
  words : List (Text × Nat)

namespace Lexicon

def ofGrammar (g : Grammar) : Lexicon :=
  let spelled := g.terminals.toList.zipIdx.filterMap fun (t, n) =>
    (spelling? t).map fun w => (w.toList, n)
  { terminals := g.terminals
    numbers := g.terminals.toList.zipIdx.foldl (fun m (t, n) => m.insert t n) {}
    marks := spelled.filter fun (w, _) => !isWord w
    words := spelled.filter fun (w, _) => isWord w }

/-- The number of a token. -/
def number (l : Lexicon) (t : Terminal) : Nat := l.numbers.getD t 0

def terminal (l : Lexicon) (n : Nat) : Terminal := l.terminals.getD n .stop

/-- The token that a word is where it is not a name. -/
def word? (l : Lexicon) (w : Text) : Option Nat := (l.words.find? (·.1 == w)).map (·.2)

end Lexicon

/-- An ordinary token from `start` up to `stop`, or a word. -/
inductive Lexed
  | token (number start stop : Nat)
  | word (start stop : Nat)
  deriving DecidableEq, Repr

/-- The stretches at the front of a text that may be tokens, each with its length. A mark goes
before anything else of its length, and the star behind `except` before other marks. -/
def candidates (l : Lexicon) (t : Text) : List (Nat × Nat) :=
  let star := l.number .exceptStar
  let marks := l.marks.filterMap fun (w, n) =>
    if Text.startsWith t w then some (n, w.length) else none
  let (stars, marks) := marks.partition (·.1 == star)
  let patterns : List (Terminal × Nat) :=
    [(.leaf .integer, integerLength t), (.leaf .float, floatLength t),
      (.conversion, (conversionLength? t).getD 0)] ++
    ((extra? t).map fun (k, n) => (.leaf k, n)).toList
  stars ++ marks ++ patterns.map fun (p, n) => (l.number p, n)

/-- The longest candidate of those that may come, the first of several. -/
def longest (may : Nat → Bool) (cs : List (Nat × Nat)) : Option (Nat × Nat) :=
  cs.foldl
    (fun best (n, length) =>
      if length != 0 && may n && best.all (fun b => b.2 < length) then some (n, length) else best)
    none

/-- The parts of a format specifier. -/
def formatText? (t : Text) : Option (Nat × Nat) :=
  let breaks := (t.takeWhile (· == '\n')).length
  let n := ((t.drop breaks).takeWhile fun c =>
    c != '\x7b' && c != '\x7d' && c != '\n' && c != '\x00').length
  if n = 0 then none else some (breaks, breaks + n)

/-- The ordinary token at the front of a text, of those that may come by `may`. -/
def lex (l : Lexicon) (may : Nat → Bool) (t : Text) : Option Lexed :=
  let can (t : Terminal) : Bool := may (l.number t)
  let inside : Option Lexed :=
    (if can .formatText then formatText? t else none).map
        (fun (a, b) => .token (l.number .formatText) a b) <|>
      match t with
      | '\\' :: r =>
        (if can .escape then escapedLength? r else none).map
            (fun n => .token (l.number .escape) 0 (n + 1)) <|>
          if can .backslash then
            match r with
            | '\n' :: _ => some (.token (l.number (.leaf .lineContinuation)) 0 2)
            | '\r' :: '\n' :: _ => some (.token (l.number (.leaf .lineContinuation)) 0 3)
            | _ => some (.token (l.number .backslash) 0 1)
          else none
      | _ => none
  inside <|>
    let skipped := (t.takeWhile isSeparator).length
    let t := t.drop skipped
    let word := Text.word t
    if t.isEmpty then some (.token (l.number .stop) skipped skipped)
    else if !word.isEmpty then some (.word skipped (skipped + word.length))
    else (longest may (candidates l t)).map fun (n, length) =>
      .token n skipped (skipped + length)

/-- Where the next token would start, if there were one, and how far reading came in it. -/
def failure (t : Text) : Nat × Nat :=
  let skipped := (t.takeWhile isSeparator).length
  let read := match t.drop skipped with
    | '!' :: _ => 1
    | '\\' :: '\r' :: _ => 2
    | '\\' :: _ => 1
    | _ => 0
  (skipped, skipped + read)

end PointMutation.Repair
