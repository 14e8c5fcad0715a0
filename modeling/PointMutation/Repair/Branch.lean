import PointMutation.Grammar.Compact
import PointMutation.Repair.Lexer

/-!
# Branches

A branch is a part of a tree under repair: a token, a phrase, or a stretch of text that fits
nowhere. It knows what it costs. Text that fits nowhere costs by its length and by the nodes that
were already made of it, and so does every token that is missing. Of two branches for the same
stretch of text the cheaper one is better, then the heavier one.
-/

namespace PointMutation.Repair

open PointMutation.Grammar

/-! ## Costs -/

/-- A stretch of text that fits nowhere. -/
def faultCost : Nat := 500

/-- A token that is missing. -/
def missingCost : Nat := 110 + faultCost

/-- A node that fits nowhere. -/
def nodeCost : Nat := 100

/-- A byte that fits nowhere. -/
def byteCost : Nat := 1

/-- A line that fits nowhere. -/
def lineCost : Nat := 30

/-! ## Texts -/

/-- A text with the text behind each place, and the number of bytes and of line ends in front of
it. -/
structure Site where
  rests : Array Text
  bytes : Array Nat
  rows : Array Nat

namespace Site

def ofText (t : Text) : Site :=
  let step (s : Site) (c : Char) : Site :=
    { rests := s.rests.push ((s.rests.back?.getD []).drop 1)
      bytes := s.bytes.push (s.bytes.back?.getD 0 + Text.width c)
      rows := s.rows.push (s.rows.back?.getD 0 + if c = '\n' then 1 else 0) }
  t.foldl step ⟨#[t], #[0], #[0]⟩

/-- The text behind a place. -/
def rest (s : Site) (place : Nat) : Text := s.rests.getD place []

/-- The number of bytes between two places. -/
def size (s : Site) (start stop : Nat) : Nat := s.bytes.getD stop 0 - s.bytes.getD start 0

/-- The number of line ends between two places. -/
def breaks (s : Site) (start stop : Nat) : Nat := s.rows.getD stop 0 - s.rows.getD start 0

/-- What it costs to leave out the text between two places. -/
def cost (s : Site) (start stop : Nat) : Nat :=
  byteCost * s.size start stop + lineCost * s.breaks start stop

end Site

/-! ## Branches -/

/-- What a branch is. A run of faults is text that fits nowhere, to which more may be added. -/
inductive Label
  | terminal (t : Nat)
  | phrase (p : Nat)
  | fault
  | faultRun
  deriving DecidableEq, Repr

/-- What is known of a branch without its parts. -/
structure Summary where
  label : Label
  /-- How the parts are shown. -/
  traces : List Trace := []
  /-- Where the blanks in front of the branch start. -/
  lead : Nat
  start : Nat
  stop : Nat
  /-- Whether the branch is one that may stand anywhere. -/
  extra : Bool := false
  missing : Bool := false
  /-- Whether the branch was read as a word that may also be a keyword. -/
  keyword : Bool := false
  weight : Int := 0
  cost : Nat := 0
  /-- Whether the branch is a node by itself. -/
  shown : Bool
  /-- The number of nodes right below the branch, seen from the nearest node above. -/
  shownParts : Nat := 0
  /-- The number of all nodes below. -/
  shownBelow : Nat := 0
  /-- What is open behind the last token that could change it. -/
  opened : Option Opened := none
  /-- Whether a token changed what is open. -/
  moved : Bool := false
  deriving Repr

inductive Branch
  | node (summary : Summary) (parts : List Branch)
  deriving Repr

namespace Branch

def summary : Branch → Summary
  | node s _ => s

def parts : Branch → List Branch
  | node _ ps => ps

def label (b : Branch) : Label := b.summary.label

def cost (b : Branch) : Nat := if b.summary.missing then missingCost else b.summary.cost

def isExtra (b : Branch) : Bool := b.summary.extra

def isFault (b : Branch) : Bool := b.label == .fault

/-- How many nodes a branch adds to what is read. -/
def count (b : Branch) : Nat :=
  b.summary.shownBelow + (if b.summary.shown then 1 else 0) +
    if b.label == .faultRun then 1 else 0

def asExtra : Branch → Branch
  | node s ps => node { s with extra := true } ps

def addWeight (n : Int) : Branch → Branch
  | node s ps => node { s with weight := s.weight + n } ps

end Branch

/-! ## Making branches -/

/-- Whether a token is a node by itself. -/
def isShownTerminal : Terminal → Bool
  | .formatText | .backslash | .newline | .indent | .dedent | .content | .stop => false
  | _ => true

/-- Whether a branch is a node by itself. -/
def Label.isShown (g : Grammar) : Label → Bool
  | .terminal t => isShownTerminal (g.terminals.getD t .stop)
  | .phrase p => g.standing p == .node
  | .fault => true
  | .faultRun => false

/-- The number of the end of a text. -/
def stopNumber (g : Grammar) : Nat := g.terminals.size - 1

/-- Counts in the next part of a branch, whose traces are `traces` from here on. -/
def addPart (g : Grammar) (s : Summary) (traces : List Trace) (b : Branch) : Summary :=
  let p := b.summary
  let faulty := s.label == .fault || s.label == .faultRun
  let loss :=
    if faulty && !p.extra && !(p.label == .fault && b.parts.isEmpty) then
      if p.shown then nodeCost else nodeCost * p.shownParts
    else 0
  let disguised := !p.extra && (traces.head?.any (·.guise.isSome)) &&
    p.label != .terminal (stopNumber g)
  let own := if disguised || p.shown then 1 else 0
  { s with
    cost := s.cost + (if p.label == .faultRun then 0 else b.cost) + loss
    weight := s.weight + p.weight
    shownBelow := s.shownBelow + p.shownBelow + own
    shownParts := s.shownParts + if own = 1 then 1 else p.shownParts
    opened := p.opened <|> s.opened
    moved := s.moved || p.moved }

/-- Counts in all parts of a branch. -/
def addParts (g : Grammar) : Summary → List Trace → List Branch → Summary
  | s, _, [] => s
  | s, traces, b :: bs =>
    addParts g (addPart g s traces b) (if b.isExtra then traces else traces.drop 1) bs

/-- The branch with some parts, at a place if there are none. -/
def Branch.make (g : Grammar) (site : Site) (label : Label) (traces : List Trace)
    (parts : List Branch) (place : Nat) : Branch :=
  let lead := (parts.head?.map (·.summary.lead)).getD place
  let start := (parts.head?.map (·.summary.start)).getD place
  let stop := (parts.getLast?.map (·.summary.stop)).getD place
  let s : Summary := { label, traces, lead, start, stop, shown := label.isShown g }
  let s := addParts g s traces parts
  let own := match label with
    | .fault | .faultRun => faultCost + site.cost start stop
    | _ => 0
  .node { s with cost := s.cost + own } parts

/-! ## Comparing branches -/

/-- The order of labels. -/
def Label.order (g : Grammar) (name : Nat) : Label → Nat
  | .terminal t => if t = stopNumber g then 0 else if t = name then 1 else t + 2
  | .phrase p => g.terminals.size + 2 + p
  | .fault => g.terminals.size + g.phrases.size + 2
  | .faultRun => g.terminals.size + g.phrases.size + 3

mutual

/-- The order of branches with the same cost and weight. -/
def Branch.compare (g : Grammar) (name : Nat) : Branch → Branch → Ordering
  | .node s ps, .node t qs =>
    (Ord.compare (s.label.order g name) (t.label.order g name)).then <|
      (Ord.compare ps.length qs.length).then (compareParts g name ps qs)

/-- The order of as many branches. -/
def compareParts (g : Grammar) (name : Nat) : List Branch → List Branch → Ordering
  | b :: bs, c :: cs => (Branch.compare g name b c).then (compareParts g name bs cs)
  | _, _ => .eq

end

/-- Whether the second of two branches for the same text goes before the first. -/
def prefersSecond (g : Grammar) (name : Nat) (a b : Branch) : Bool :=
  if b.cost < a.cost then true
  else if a.cost < b.cost then false
  else if a.summary.weight < b.summary.weight then true
  else if b.summary.weight < a.summary.weight then false
  else 0 < a.cost || a.compare g name b == .gt

/-- What is open behind a token. -/
def Branch.tokenOpened (b : Branch) : Option Opened :=
  if b.parts.isEmpty then b.summary.opened else none

/-- Whether two branches need not be told apart in what follows them. -/
def interchangeable (site : Site) (a b : Branch) : Bool :=
  let s := a.summary
  let t := b.summary
  s.label == t.label &&
    ((0 < a.cost && 0 < b.cost) ||
      (site.size s.lead s.start == site.size t.lead t.start &&
        site.size s.start s.stop == site.size t.start t.stop &&
        a.parts.length == b.parts.length && s.extra == t.extra &&
        a.tokenOpened == b.tokenOpened))

end PointMutation.Repair
