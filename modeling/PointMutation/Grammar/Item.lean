import PointMutation.Grammar.Production
import Std.Data.HashMap

/-!
# Items

An item is a production that has been read up to some point. Of what lies behind the point it only
remembers what the finished phrase shows of it, so that productions that agree in the rest share
their items. Items are numbered in an order of their own; competing productions are tried in that
order.
-/

namespace PointMutation.Grammar

/-- What a phrase shows of one of its parts: as what, in which role, and whether the roles of what
lies within the part show through. -/
structure Trace where
  guise : Option Guise := none
  role : Option String := none
  through : Option Nat := none
  deriving DecidableEq, Repr, Hashable

/-- A production read up to some point, with the rank and the side of the part before it. -/
structure Item where
  phrase : Nat
  behind : List Trace
  rank : Option Int
  side : Option Side
  ahead : List Step
  weight : Int
  deriving DecidableEq, Repr, Hashable

namespace Grammar

/-- Whether a phrase is no node, so that its parts show in the phrase above it. -/
def isFlat (g : Grammar) (p : Nat) : Bool :=
  match g.standing p with
  | .hidden | .repetition => true
  | .node | .family => false

/-- Whether the steps give a role, directly or through flat phrases of which `known` says it. -/
def givesRole (g : Grammar) (known : Array Bool) (steps : List Step) : Bool :=
  steps.any fun s => s.role.isSome ||
    match s.symbol with
    | .phrase p => g.isFlat p && known.getD p false
    | .terminal _ => false

/-- Which phrases give a role to some part. -/
def roleGivers (g : Grammar) : Nat → Array Bool → Array Bool
  | 0, known => known
  | n + 1, known =>
    let next := g.productions.map fun ps => ps.any fun p => g.givesRole known p.steps
    if next == known then known else roleGivers g n next

/-- What is remembered of a step once it is read. -/
def trace (g : Grammar) (givers : Array Bool) (s : Step) : Trace :=
  { guise := s.guise
    role := s.role
    through := match s.symbol with
      | .phrase p =>
        if s.role.isNone && g.isFlat p && givers.getD p false then some p else none
      | .terminal _ => none }

end Grammar

namespace Item

/-- The start of a production. -/
def ofProduction (p : Production) : Item := ⟨p.phrase, [], none, none, p.steps, p.weight⟩

/-- The item behind the next part. -/
def advance (g : Grammar) (givers : Array Bool) (i : Item) : Option Item :=
  match i.ahead with
  | [] => none
  | s :: ss =>
    some { i with
      behind := i.behind ++ [g.trace givers s]
      rank := s.rank
      side := s.side
      ahead := ss }

/-- The item and all that follow it. -/
def run (g : Grammar) (givers : Array Bool) : Nat → Item → List Item
  | 0, i => [i]
  | n + 1, i =>
    match i.advance g givers with
    | some j => i :: run g givers n j
    | none => [i]

/-- The order of sides. -/
def sideOrder : Option Side → Nat
  | none => 0
  | some .left => 1
  | some .right => 2

/-- The order of symbols: tokens that depend on what is open, ordinary tokens, phrases. -/
def symbolOrder (g : Grammar) : Symbol → Nat × Nat
  | .terminal t => if t + 1 + contextual.length < g.terminals.size then (1, t) else (0, t)
  | .phrase p => (2, p)

/-- The order of what lies ahead. -/
def compareSteps (g : Grammar) : List Step → List Step → Ordering
  | s :: ss, t :: ts =>
    let (a, i) := symbolOrder g s.symbol
    let (b, j) := symbolOrder g t.symbol
    (compare a b).then <| (compare i j).then <| (compare s.rank t.rank).then <|
      (compare (sideOrder s.side) (sideOrder t.side)).then (compareSteps g ss ts)
  | _, _ => .eq

/-- The order of items. -/
def compareItems (g : Grammar) (i j : Item) : Ordering :=
  (compare i.behind.length j.behind.length).then <| (compare i.phrase j.phrase).then <|
    (compare i.weight j.weight).then <| (compare i.ahead.length j.ahead.length).then <|
    (compare i.rank j.rank).then <| (compare (sideOrder i.side) (sideOrder j.side)).then
      (compareSteps g i.ahead j.ahead)

end Item

/-- All items of a grammar in their order, and the number of each. -/
structure Items where
  all : Array Item
  number : Std.HashMap Item Nat
  /-- The item behind the next part, by number; the item itself if it is finished. -/
  next : Array Nat
  /-- The items that start a phrase. -/
  starts : Array (List Nat)

/-- The items without repetition, in the order of their first occurrence. -/
def distinct (items : List Item) : List Item :=
  (items.foldl
    (fun (done : List Item × Std.HashMap Item Unit) i =>
      if done.2.contains i then done else (i :: done.1, done.2.insert i ()))
    ([], {})).1.reverse

/-- The items of a grammar. -/
def Items.ofGrammar (g : Grammar) : Items :=
  let givers := g.roleGivers g.phrases.size (g.productions.map fun _ => false)
  let whole : Production := { phrase := g.start, steps := [{ symbol := .phrase 0 }] }
  let productions := g.productions.toList.flatten ++ [whole]
  let items := distinct (productions.flatMap fun p =>
    Item.run g givers p.steps.length (.ofProduction p))
  let all := (items.mergeSort fun i j => (Item.compareItems g i j).isLE).toArray
  let number : Std.HashMap Item Nat := all.toList.zipIdx.foldl (fun m (i, n) => m.insert i n) {}
  let starts := (g.productions.map fun ps =>
    ps.map fun p => number.getD (.ofProduction p) 0).push [number.getD (.ofProduction whole) 0]
  { all
    number
    next := all.map fun i => ((i.advance g givers).bind number.get?).getD (number.getD i 0)
    starts }

end PointMutation.Grammar
