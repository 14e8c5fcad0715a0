import PointMutation.Grammar.Item

/-!
# The automaton of a grammar

A state of the automaton is a set of items, each with the tokens that may come behind its phrase.
What to do on a token follows from the items: take the token, finish a phrase, or both where ranks
and sides leave the matter open. In that case both readings are followed up.
-/

namespace PointMutation.Grammar

/-- A set of tokens, one bit for each. -/
abbrev TokenSet := Nat

namespace TokenSet

def single (t : Nat) : TokenSet := 1 <<< t

def mem (s : TokenSet) (t : Nat) : Bool := s.testBit t

end TokenSet

/-- A phrase of so many parts is finished. -/
structure Reduction where
  phrase : Nat
  parts : List Trace
  weight : Int
  deriving DecidableEq, Repr

/-- What to do on a token. -/
inductive Action
  /-- Take it and go to a state. If `repeated` is set, finishing what is there and taking the token
  then would come to the same. -/
  | shift (state : Nat) (repeated : Bool)
  | reduce (r : Reduction)
  | accept
  /-- Take it without changing the state. -/
  | pass
  /-- Look for a way to go on. -/
  | recover
  deriving DecidableEq, Repr

/-! ## Tokens that may come next -/

/-- Tables for finding all items of a state. -/
structure Closures where
  grammar : Grammar
  items : Items
  /-- The tokens with which each phrase may start. -/
  first : Array TokenSet
  /-- For each phrase the items that reading it starts, each with tokens that may come behind it;
  where the flag is set, also those that may come behind the phrase. -/
  starts : Array (List (Nat × TokenSet × Bool))

/-- The tokens with which a symbol may start, given those of the phrases. -/
def firstOf (first : Array TokenSet) : Symbol → TokenSet
  | .terminal t => .single t
  | .phrase p => first.getD p 0

/-- The tokens with which phrases may start. -/
def firsts (g : Grammar) : Nat → Array TokenSet → Array TokenSet
  | 0, first => first
  | n + 1, first =>
    let next := g.productions.map fun ps => ps.foldl
      (fun set p => match p.steps with
        | s :: _ => set ||| firstOf first s.symbol
        | [] => set)
      (0 : TokenSet)
    if next == first then first else firsts g n next

/-- Collects the phrases with which a phrase may start, with the tokens that may come behind each.
The flag tells whether what follows the whole may follow it too. -/
def spread (g : Grammar) (first : Array TokenSet) :
    Nat → List (Nat × TokenSet × Bool) → Array (Option (TokenSet × Bool)) →
      Array (Option (TokenSet × Bool))
  | 0, _, known => known
  | _, [], known => known
  | n + 1, (p, set, final) :: todo, known =>
    let old := known.getD p none
    let (oldSet, oldFinal) := old.getD (0, false)
    let now := (oldSet ||| set, oldFinal || final)
    if old == some now then spread g first n todo known
    else
      let more := (g.productions.getD p []).filterMap fun q =>
        match q.steps with
        | ⟨.phrase p', _, _, _, _⟩ :: rest =>
          match rest with
          | [] => some (p', now)
          | s :: _ => some (p', firstOf first s.symbol, false)
        | _ => none
      spread g first n (more ++ todo) (known.setIfInBounds p (some now))

/-- The tables of a grammar. -/
def Closures.ofGrammar (g : Grammar) : Closures :=
  let items := Items.ofGrammar g
  let first := firsts g g.phrases.size (g.productions.map fun _ => 0)
  let bound := g.phrases.size * g.phrases.size * (g.terminals.size + 2) * 64
  let starts := g.phrases.mapIdx fun p _ =>
    let known := spread g first bound [(p, 0, true)] (g.phrases.map fun _ => none)
    known.toList.zipIdx.flatMap fun (k, q) =>
      match k with
      | some (set, final) => (items.starts.getD q []).map fun i => (i, set, final)
      | none => []
  ⟨g, items, first, starts⟩

namespace Closures

/-- The number of tokens. -/
def width (c : Closures) : Nat := c.grammar.terminals.size

def item (c : Closures) (i : Nat) : Item := c.items.all.getD i ⟨0, [], none, none, [], 0⟩

/-- What each item of a state may be followed by, given its first items; nothing for items that
are not in it. -/
def close (c : Closures) (kernel : List (Nat × TokenSet)) : Array TokenSet :=
  kernel.foldl
    (fun sets (i, set) =>
      let sets := sets.modify i (· ||| set)
      match (c.item i).ahead with
      | ⟨.phrase p, _, _, _, _⟩ :: rest =>
        let behind := match rest with
          | s :: _ => firstOf c.first s.symbol
          | [] => set
        (c.starts.getD p []).foldl
          (fun sets (j, own, final) => sets.modify j (· ||| (if final then own ||| behind else own)))
          sets
      | _ => sets)
    (Array.replicate c.items.all.size 0)

end Closures

/-! ## Contests -/

/-- Phrases that could be finished on one token, with the rank of the last that counts and the
sides of all. -/
structure Contest where
  actions : List Action := []
  rank : Int := 0
  left : Bool := false
  right : Bool := false
  neither : Bool := false

namespace Contest

/-- Enters a finished item. Only those of the highest rank count. -/
def enter (c : Contest) (i : Item) (a : Action) : Contest :=
  let rank := i.rank.getD 0
  let count (c : Contest) : Contest :=
    { c with
      actions := c.actions ++ [a]
      rank
      left := c.left || i.side == some .left
      right := c.right || i.side == some .right
      neither := c.neither || i.side.isNone }
  if c.actions.isEmpty then count c
  else if c.rank < rank then count {}
  else if rank < c.rank then c
  else count c

/-- Decides between finishing a phrase and taking the token, which items of the given ranks would
do. The higher rank wins; of equal ranks the side decides, and leaves it open if there is none. -/
def decide (c : Contest) (ranks : List Int) (shift : Action) : List Action :=
  let more := ranks.any (c.rank < ·)
  let less := ranks.any (· < c.rank)
  if more && !less then [shift]
  else if less && !more then c.actions
  else if more then c.actions ++ [shift]
  else if c.left && !c.neither && !c.right then c.actions
  else if c.right && !c.neither && !c.left then [shift]
  else c.actions ++ [shift]

end Contest

/-! ## States -/

/-- A state: what to do on each token, and where to go behind each phrase. -/
structure State where
  actions : Array (List Action)
  gotos : Array Nat
  /-- States that only differ in what may follow their items have the same core. -/
  core : Nat
  deriving Inhabited

/-- States under construction. State 0 is the one that nothing leads to. -/
structure Builder where
  kernels : Array (List (Nat × TokenSet)) := #[[]]
  cores : Array Nat := #[0]
  number : Std.HashMap (List (Nat × TokenSet)) Nat := {}
  core : Std.HashMap (List Nat) Nat := {}

/-- The number of the state with some first items. -/
def Builder.place (b : Builder) (kernel : List (Nat × TokenSet)) : Nat × Builder :=
  match b.number.get? kernel with
  | some n => (n, b)
  | none =>
    let items := kernel.map (·.1)
    let n := b.kernels.size
    let core := b.core.getD items (b.core.size + 1)
    (n, { kernels := b.kernels.push kernel
          cores := b.cores.push core
          number := b.number.insert kernel n
          core := b.core.insert items core })

/-- Adds tokens behind an item to a sorted list of items. -/
def insertItem (i : Nat) (set : TokenSet) : List (Nat × TokenSet) → List (Nat × TokenSet)
  | [] => [(i, set)]
  | (j, set') :: rest =>
    if i < j then (i, set) :: (j, set') :: rest
    else if i = j then (j, set' ||| set) :: rest
    else (j, set') :: insertItem i set rest

namespace Closures

/-- The place of a symbol in the order in which states are found. -/
def place (c : Closures) : Symbol → Nat
  | .terminal t =>
    let ordinary := c.width - 1 - contextual.length
    if t < ordinary then t + contextual.length else if t + 1 < c.width then t - ordinary else t
  | .phrase p => c.width + p

/-- The first items behind each symbol, by its place. -/
def successors (c : Closures) (sets : Array TokenSet) : Array (List (Nat × TokenSet)) :=
  sets.size.fold
    (fun i _ cells =>
      let set := sets.getD i 0
      if set = 0 then cells
      else match (c.item i).ahead with
        | s :: _ => cells.modify (c.place s.symbol) (insertItem (c.items.next.getD i 0) set)
        | [] => cells)
    (Array.replicate (c.width + c.grammar.phrases.size) [])

/-- What to do on a token, given the items of a state that are finished, those that are not, and
where taking the token leads. -/
def actionsOn (c : Closures) (finished : List (Item × TokenSet)) (open' : List Item)
    (t : Nat) (target : Option Nat) : List Action :=
  let finished := finished.filter fun (_, set) => set.mem t
  let contest := finished.foldl
    (fun (contest : Contest) (i, _) => contest.enter i
      (if i.phrase = c.grammar.start then .accept
        else .reduce ⟨i.phrase, i.behind, i.weight⟩)) {}
  match target with
  | none => contest.actions
  | some n =>
    if contest.actions.isEmpty then [.shift n false]
    else
      let takers := open'.filter fun i =>
        match i.behind, i.ahead with
        | _ :: _, s :: _ => (firstOf c.first s.symbol).mem t
        | _, _ => false
      let phrases := ((finished.map (·.1)) ++ takers).map (·.phrase)
      match phrases.filter (· != c.grammar.start) with
      | p :: ps =>
        if c.grammar.standing p = .repetition && ps.all (· == p) then
          contest.actions ++ [.shift n true]
        else contest.decide (takers.map fun i => i.rank.getD 0) (.shift n false)
      | [] => contest.decide (takers.map fun i => i.rank.getD 0) (.shift n false)

/-- The tokens that may stand anywhere. -/
def isExtra : Terminal → Bool
  | .leaf .comment | .leaf .lineContinuation => true
  | _ => false

/-- The state with some first items, and the states that it leads to. -/
def state (c : Closures) (b : Builder) (kernel : List (Nat × TokenSet)) (core : Nat) :
    State × Builder :=
  let sets := c.close kernel
  let cells := c.successors sets
  let (targets, b) := cells.foldl
    (fun (done : Array (Option Nat) × Builder) cell =>
      if cell.isEmpty then (done.1.push none, done.2)
      else
        let (n, b) := done.2.place cell
        (done.1.push (some n), b))
    (#[], b)
  let present := (List.range sets.size).filterMap fun i =>
    let set := sets.getD i 0
    if set = 0 then none else some (c.item i, set)
  let (finished, open') := present.partition fun (i, _) => i.ahead.isEmpty
  let waiting := open'.map (·.1)
  let actions := c.grammar.terminals.mapIdx fun t terminal =>
    match c.actionsOn finished waiting t (targets.getD (c.place (.terminal t)) none) with
    | [] => if isExtra terminal then [.pass] else []
    | as => as
  let gotos := c.grammar.phrases.mapIdx fun p _ =>
    (targets.getD (c.place (.phrase p)) none).getD 0
  (⟨actions, gotos, core⟩, b)

/-- Finds all states. -/
def states (c : Closures) : Nat → Nat → Builder → Array State → Array State
  | 0, _, _, found => found
  | n + 1, i, b, found =>
    if i < b.kernels.size then
      let (s, b) := c.state b (b.kernels.getD i []) (b.cores.getD i 0)
      states c n (i + 1) b (found.push s)
    else found

end Closures

/-- The state in which a text is read on after an error: tokens that may stand anywhere are passed,
and any other starts a search for a way to go on. -/
def faultState (c : Closures) (excluded : Terminal → Bool) : State :=
  { actions := c.grammar.terminals.map fun t =>
      if Closures.isExtra t then [.pass] else if excluded t then [] else [.recover]
    gotos := c.grammar.phrases.map fun _ => 0
    core := 0 }

/-- More states than any grammar here has. -/
def stateLimit : Nat := 100000

/-- The states of a grammar: that after an error, that at the start of a text, and all others. -/
def automaton (g : Grammar) (excluded : Terminal → Bool) : Array State :=
  let c := Closures.ofGrammar g
  let start := ((c.items.starts.getD g.start []).headD 0, TokenSet.single (c.width - 1))
  let (_, b) := ({} : Builder).place [start]
  c.states stateLimit 1 b #[faultState c excluded]

end PointMutation.Grammar
