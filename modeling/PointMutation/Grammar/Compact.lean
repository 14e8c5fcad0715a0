import PointMutation.Grammar.Automaton

/-!
# Compact automata

States with the same core are made one where this changes nothing on a text of the language. A
text with an error may be read on a little further in the compact automaton, since more tokens may
come in its states. Two states stay apart if they act differently on a token, if they lead to
states that stay apart, or if one would let a token come that the lexer could confuse with one
that may come in the other.
-/

namespace PointMutation.Grammar

/-! ## Tokens that can be confused -/

/-- Tokens that decide what counts as layout, or depend on what is open, never become possible in
a state by merging. -/
def Terminal.isBound : Terminal → Bool
  | .leaf .comment => true
  | .written w => ["]", ")", "\x7d", "except"].contains w
  | t => contextual.contains t

/-- Whether a token, where it is possible, could keep the lexer from finding another. -/
def confused : Terminal → Terminal → Bool
  | .formatText, t => t != .formatText
  | .written w, .written v =>
    [("assert", "as"), ("async", "as"), (":=", ":"), ("**", "*"), ("**=", "*")].contains (w, v)
  | .exceptStar, t => t == .written "*" || t == .formatText
  | .escape, t => t == .backslash || t == .formatText || t == .leaf .lineContinuation
  | .leaf .ellipsis, t => t == .written "."
  | .leaf .float, t => t == .leaf .integer
  | .leaf .lineContinuation, t => t == .backslash
  | _, _ => false

/-- Tokens that are not looked for after an error, since they would take in all others. -/
def isGreedy (t : Terminal) : Bool := t == .formatText

/-! ## Groups of states -/

/-- A division of the states into groups. -/
structure Division where
  groups : Array (List Nat)
  groupOf : Array Nat

namespace Division

/-- The division by cores. -/
def ofCores (states : Array State) : Division :=
  let count := states.foldl (fun n s => max n (s.core + 1)) 0
  let groups := states.toList.zipIdx.foldr
    (fun (s, i) (groups : Array (List Nat)) => groups.modify s.core (i :: ·))
    (Array.replicate count [])
  ⟨groups, states.map (·.core)⟩

/-- Takes out of a list what differs from a member in front of it that stays. -/
def separate (differ : Nat → Nat → Bool) (ids : List Nat) : List Nat × List Nat :=
  let (kept, taken) := ids.foldl
    (fun (kept, taken) i =>
      if kept.any (differ · i) then (kept, i :: taken) else (kept ++ [i], taken))
    (([], []) : List Nat × List Nat)
  (kept, taken.reverse)

/-- Divides each group, from the `i`-th on, into members that do not differ. What is taken out of
a group is a group of its own, to be divided in its turn. -/
def refine (differ : Division → Nat → Nat → Bool) : Nat → Nat → Division → Division
  | 0, _, d => d
  | n + 1, i, d =>
    if i < d.groups.size then
      match separate (differ d) (d.groups.getD i []) with
      | (_, []) => refine differ n (i + 1) d
      | (kept, taken) =>
        refine differ n (i + 1)
          { groups := (d.groups.setIfInBounds i kept).push taken
            groupOf := taken.foldl (fun g s => g.setIfInBounds s d.groups.size) d.groupOf }
    else d

/-- Refines a division until nothing changes. -/
def settle (differ : Division → Nat → Nat → Bool) : Nat → Division → Division
  | 0, d => d
  | n + 1, d =>
    let d' := refine differ stateLimit 0 d
    if d'.groups.size = d.groups.size then d else settle differ n d'

end Division

/-! ## Differences between states -/

/-- States together with the tokens that may come in each, and the tokens that each token can be
confused with. -/
structure States where
  all : Array State
  tokens : Array TokenSet
  bound : Array Bool
  confusions : Array TokenSet

namespace States

def ofArray (g : Grammar) (states : Array State) : States :=
  let union (keep : Nat → Bool) : TokenSet :=
    g.terminals.size.fold (fun t _ set => if keep t then set ||| .single t else set) 0
  let terminal (t : Nat) : Terminal := g.terminals.getD t .stop
  { all := states
    tokens := states.map fun s => union fun t => !(s.actions.getD t []).isEmpty
    bound := g.terminals.map Terminal.isBound
    confusions := g.terminals.map fun t => union fun u => confused t (terminal u) }

def actions (s : States) (i t : Nat) : List Action :=
  match s.all[i]? with
  | some state => state.actions.getD t []
  | none => []

def goto (s : States) (i p : Nat) : Nat :=
  match s.all[i]? with
  | some state => state.gotos.getD p 0
  | none => 0

/-- Whether a token must not become possible next to others. -/
def excludes (s : States) (others : TokenSet) (t : Nat) : Bool :=
  s.bound.getD t false || (s.confusions.getD t 0 &&& others) != 0

/-- Whether two actions are the same as far as the groups tell. -/
def sameAction (d : Division) : Action → Action → Bool
  | .shift i r, .shift j r' => r == r' && d.groupOf.getD i 0 == d.groupOf.getD j 0
  | a, b => a == b

/-- Whether two lists of actions are the same as far as the groups tell. -/
def sameActions (d : Division) : List Action → List Action → Bool
  | [], [] => true
  | a :: as, b :: bs => sameAction d a b && sameActions d as bs
  | _, _ => false

/-- Whether two states act differently on a token, or could confuse tokens if they were one. -/
def conflict (s : States) (d : Division) (i j : Nat) : Bool :=
  s.bound.size.any fun t _ =>
    match s.actions i t, s.actions j t with
    | [], [] => false
    | _, [] => s.excludes (s.tokens.getD j 0) t
    | [], _ => s.excludes (s.tokens.getD i 0) t
    | as, bs => !sameActions d as bs

/-- Where taking a token leads. -/
def target (s : States) (i t : Nat) : Option Nat :=
  match (s.actions i t).getLast? with
  | some (.shift n _) => some n
  | _ => none

/-- Whether two states lead to different groups on some token or behind some phrase. -/
def diverge (s : States) (phrases : Nat) (d : Division) (i j : Nat) : Bool :=
  (s.bound.size.any fun t _ =>
    match s.target i t, s.target j t with
    | some m, some n => d.groupOf.getD m 0 != d.groupOf.getD n 0
    | _, _ => false) ||
  phrases.any fun p _ =>
    let m := s.goto i p
    let n := s.goto j p
    m != 0 && n != 0 && d.groupOf.getD m 0 != d.groupOf.getD n 0

end States

/-! ## Phrases without a trace -/

/-- The states with their groups merged. Where the members of a group act at all, they act
alike. -/
def merge (g : Grammar) (s : States) (d : Division) : Array State :=
  let group (n : Nat) : Nat := d.groupOf.getD n 0
  d.groups.mapIdx fun core ids =>
    { actions := g.terminals.mapIdx fun t _ =>
        ((ids.map (s.actions · t)).find? (!·.isEmpty)).getD [] |>.map fun a =>
          match a with
          | .shift n r => .shift (group n) r
          | a => a
      gotos := g.phrases.mapIdx fun p _ =>
        ((ids.map (s.goto · p)).find? (· != 0)).elim 0 group
      core }

/-- The phrases that are shown as something else somewhere. -/
def disguised (g : Grammar) : List Nat :=
  (g.productions.toList.flatten.flatMap fun p => p.steps.filterMap fun s =>
    match s.symbol, s.guise with
    | .phrase q, some _ => some q
    | _, _ => none).eraseDups

/-- The phrase that a state only finishes, if it consists of one part and leaves no trace in the
tree. -/
def soleReduction (g : Grammar) (disguised : List Nat) (s : State) : Option Nat :=
  let phrases := (s.actions.toList.flatten.filter (· != .pass)).map fun a =>
    match a with
    | .reduce ⟨p, [part], 0⟩ =>
      if part = {} && g.isFlat p && !disguised.contains p then some p else none
    | _ => none
  match phrases with
  | some p :: rest => if rest.all (· == some p) then some p else none
  | _ => none

/-- Leads past states that only finish phrases without a trace. -/
def bypass (sole : Array (Option Nat)) (gotos : Array Nat) : Nat → Nat → Nat
  | 0, n => n
  | k + 1, n =>
    match sole.getD n none with
    | some p =>
      let m := gotos.getD p 0
      if m = 0 then n else bypass sole gotos k m
    | none => n

/-- More states than can be bypassed in a row. -/
def bypassLimit : Nat := 50

/-! ## The whole -/

/-- An automaton, with the state at the start of a text. State 0 is the one after an error. -/
structure Automaton where
  states : Array State
  start : Nat

/-- The compact automaton of a grammar. -/
def Automaton.ofGrammar (g : Grammar) : Automaton :=
  let s := States.ofArray g (automaton g isGreedy)
  let d := Division.refine s.conflict stateLimit 0 (.ofCores s.all)
  let d := Division.settle (s.diverge g.phrases.size) stateLimit d
  let merged := merge g s d
  let disguised := disguised g
  let sole := merged.map (soleReduction g disguised)
  { states := merged.map fun state =>
      let past := bypass sole state.gotos bypassLimit
      { state with
        actions := state.actions.map fun as => as.map fun a =>
          match a with
          | .shift n r => .shift (past n) r
          | a => a
        gotos := state.gotos.map fun n => if n = 0 then 0 else past n }
    start := d.groupOf.getD 1 0 }

end PointMutation.Grammar
