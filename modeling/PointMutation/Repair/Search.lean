import PointMutation.Grammar.Language
import PointMutation.Repair.Stack

/-!
# Repairing a text

All readings of a text are followed token by token. A reading that cannot take a token pauses, and
if no other is left, it is repaired: by a token that is missing, by giving up a part of what was
read, or by leaving out the token. Repairs compete by their costs. The tree that is found in the
end is the cheapest that the search came across; it is free of faults if the text is one of the
language.
-/

namespace PointMutation.Repair

open PointMutation.Grammar PointMutation.Syntax

/-! ## Readers -/

/-- What is needed to read any text of a language. -/
structure Reader where
  grammar : Grammar
  automaton : Automaton
  lexicon : Lexicon
  /-- The tokens that may come in each state. -/
  tokens : Array TokenSet

namespace Reader

def ofRules (rules : List Rule) : Reader :=
  let g := Grammar.ofRules rules
  let a := Automaton.ofGrammar g
  { grammar := g
    automaton := a
    lexicon := .ofGrammar g
    tokens := a.states.map fun s =>
      s.actions.size.fold
        (fun t _ set => if (s.actions.getD t []).isEmpty then set else set ||| .single t) 0 }

/-- The reader of the language, made when it is first needed. -/
def standard : Thunk Reader := Thunk.mk fun _ => ofRules language

end Reader

/-- A reader in front of a text. -/
structure Task where
  reader : Reader
  site : Site
  /-- More steps than reading takes. -/
  bound : Nat

namespace Task

def grammar (c : Task) : Grammar := c.reader.grammar

/-- The number of names among the tokens. -/
def name (c : Task) : Nat := c.reader.lexicon.number (.leaf .identifier)

/-- The number of the end of the text among the tokens. -/
def stop (c : Task) : Nat := stopNumber c.grammar

def actions (c : Task) (state t : Nat) : List Action :=
  match c.reader.automaton.states[state]? with
  | some s => s.actions.getD t []
  | none => []

/-- Whether a token may come in a state. -/
def may (c : Task) (state t : Nat) : Bool := (c.reader.tokens.getD state 0).mem t

/-- What to do on a branch that was read as a token. Nothing takes text that fits nowhere. -/
def actionsOn (c : Task) (state : Nat) (b : Branch) : List Action :=
  match b.label with
  | .terminal t => c.actions state t
  | _ => []

def goto (c : Task) (state p : Nat) : Nat :=
  match c.reader.automaton.states[state]? with
  | some s => s.gotos.getD p 0
  | none => 0

/-- The state behind a token, the state after an error if the token may not come. -/
def next (c : Task) (state t : Nat) : Nat :=
  match (c.actions state t).getLast? with
  | some (.shift n _) => n
  | some .pass => state
  | _ => 0

def make (c : Task) (label : Label) (traces : List Trace) (parts : List Branch) (place : Nat) :
    Branch :=
  .make c.grammar c.site label traces parts place

/-! ## Tokens -/

/-- A token as a branch. -/
def leaf (c : Task) (t lead start stop : Nat) : Summary :=
  { label := .terminal t, lead, start, stop
    shown := Label.isShown c.grammar (.terminal t)
    extra := t = c.stop }

/-- What a word is in a state: a keyword if that may come there or the word is reserved and a name
might come, else a name. -/
def word (c : Task) (state lead start stop : Nat) : Branch :=
  let w := (c.site.rest start).take (stop - start)
  match c.reader.lexicon.word? w with
  | none => .node (c.leaf c.name lead start stop) []
  | some k =>
    let t := if c.may state k || (isReserved w && c.may state c.name) then k else c.name
    .node { c.leaf t lead start stop with keyword := true } []

/-- The token at a place, of those that may come in the state `mode`, for a reading in another
state. A token without width that changes nothing counts only if the reading has come on since its
last error, and would come to another state. -/
def tokenAt (c : Task) (state mode : Nat) (progressed : Bool) (opened : Option Opened)
    (lead place : Nat) : Option Branch :=
  let t := c.site.rest place
  let l := c.reader.lexicon
  let before := opened.getD {}
  let scanned := match scan (fun t => c.may mode (l.number t)) before t with
    | none => none
    | some s =>
      let n := l.number s.token
      let moved := s.opened != before
      let counts := s.stop != 0 || moved || (mode != 0 && progressed && c.next state n != state)
      if counts then
        some (.node { c.leaf n lead (place + s.start) (place + s.stop) with
          opened := some s.opened
          moved } [])
      else none
  scanned <|>
    match lex l (c.may mode) t with
    | some (.token n start stop) => some (.node (c.leaf n lead (place + start) (place + stop)) [])
    | some (.word start stop) => some (c.word state lead (place + start) (place + stop))
    | none => none

/-- The next token for a reading. Where none of those may come that the state knows, any may; where
there is none at all, the text up to the next is one that fits nowhere. -/
def findToken (c : Task) (state : Nat) (progressed : Bool) (opened : Option Opened) (lead : Nat) :
    Nat → Nat → Nat → Option (Nat × Nat) → Option Branch
  | 0, _, _, _ => none
  | n + 1, mode, place, skipped =>
    let size := c.site.rests.size - 1
    let fault (span : Nat × Nat) : Branch :=
      .node { label := .fault, lead, start := span.1, stop := span.2, shown := true } []
    match c.tokenAt state mode progressed opened lead place with
    | some b => some ((skipped.map fault).getD b)
    | none =>
      if mode != 0 then findToken c state progressed opened lead n 0 lead skipped
      else
        let (start, stop) := failure (c.site.rest place)
        let (first, last) := skipped.getD (place + start, place + start)
        if place + stop = last then
          if size ≤ last then some (fault (first, last))
          else findToken c state progressed opened lead n 0 (last + 1) (some (first, last + 1))
        else findToken c state progressed opened lead n 0 (place + stop) (some (first, place + stop))

/-- Whether a reading has come on since its last error, seen along the first ways down. -/
def progressed (c : Task) (h : Head) : Nat → Nat → Search Bool
  | 0, _ => pure false
  | n + 1, i => do
    let v ← vertex i
    match v.links with
    | ⟨below, some b⟩ :: _ =>
      if 0 < c.site.size b.summary.lead b.summary.stop then pure true
      else if h.countAtError < v.count && b.cost = 0 then progressed c h n below
      else pure false
    | _ => pure false

/-- The next token for a reading. -/
def nextToken (c : Task) (i : Nat) : Search Branch := do
  let h ← head i
  let v ← vertex h.vertex
  let progressed ← if v.cost = 0 then pure true else c.progressed h c.bound h.vertex
  let none' : Branch := .node (c.leaf c.stop v.place v.place v.place) []
  pure ((c.findToken v.state progressed h.opened v.place c.bound v.state v.place none).getD none')

/-! ## Phrases -/

/-- The branches that may stand anywhere at the end of a list, and those in front of them. -/
def splitExtras (bs : List Branch) : List Branch × List Branch :=
  let extras := (bs.reverse.takeWhile Branch.isExtra).reverse
  (bs.take (bs.length - extras.length), extras)

/-- Finishes a phrase on one of several ways. -/
def finish (c : Task) (r : Reduction) (place : Nat) :
    List (List Branch) → Option (Branch × List Branch)
  | [] => none
  | parts :: rest =>
    let make (parts : List Branch) : Branch × List Branch :=
      let (parts, extras) := splitExtras parts
      (c.make (.phrase r.phrase) r.parts parts place, extras)
    some <| rest.foldl
      (fun best parts =>
        let other := make parts
        if prefersSecond c.grammar c.name best.1 other.1 then other else best)
      (make parts)

/-- Tries to make a reading part of one of those in front of it. -/
def mergeInto (c : Task) (i : Nat) (others : List Nat) : Search Bool :=
  others.anyM fun j => mergeHeads c.site j i

/-- Puts a finished phrase on one of the new readings. Tells whether the reading was given up. -/
def place (c : Task) (i halted : Nat) (r : Reduction) (j : Nat) (ways : List (List Branch)) :
    Search Bool := do
  if headLimit + overflowLimit + halted < j then
    removeHead j
    pure true
  else
    let v ← top j
    match c.finish r v.place ways with
    | none => pure false
    | some (b, extras) =>
      let state := c.goto v.state r.phrase
      push j (some (b.addWeight r.weight)) state
      pushExtras j state extras
      c.mergeInto j ((List.range j).filter (· != i))

/-- Puts a finished phrase on each of the new readings, of which some were given up already. -/
def placeAll (c : Task) (i halted : Nat) (r : Reduction) :
    Nat → List (Nat × List (List Branch)) → Search Unit
  | _, [] => pure ()
  | removed, (n, ways) :: groups => do
    let gone ← c.place i halted r (n - removed) ways
    placeAll c i halted r (if gone then removed + 1 else removed) groups

/-- Finishes a phrase, which may lead to several new readings. The number of the first is given,
if there are any. -/
def reduce (c : Task) (i : Nat) (r : Reduction) : Search (Option Nat) := do
  let before ← headCount
  let groups ← pop i r.parts.length
  let halted := ((← get).heads.filter (·.status == .halted)).size
  c.placeAll i halted r 0 groups
  pure (if before < (← headCount) then some before else none)

/-- Finishes several phrases one after the other. What the last one gives is given. -/
def reduceEach (c : Task) (i : Nat) : Option Nat → List Reduction → Search (Option Nat)
  | last, [] => pure last
  | _, r :: rs => do
    let last ← c.reduce i r
    reduceEach c i last rs

/-- The phrases that can be finished on some of the tokens, and whether one of the tokens can be
taken. -/
def options (c : Task) (state : Nat) (tokens : List Nat) : List Reduction × Bool :=
  let all := tokens.flatMap (c.actions state)
  let taken := all.any fun a =>
    match a with
    | .shift _ repeated => !repeated
    | .recover => true
    | _ => false
  let reductions := all.foldl
    (fun (rs : List Reduction) a =>
      match a with
      | .reduce r =>
        if r.parts.isEmpty ||
            rs.any (fun r' => r'.phrase == r.phrase && r'.parts.length == r.parts.length) then rs
        else rs ++ [r]
      | _ => rs)
    []
  (reductions, taken)

/-- The tokens in the order in which they are tried, names first. -/
def allTokens (c : Task) : List Nat :=
  c.name :: (List.range c.stop).filter (· != c.name)

/-- Finishes all phrases that can be finished, on a token or on any if none is given. From the
`first`-th on, readings that cannot take the token are given up. The result tells whether one is
left that can. -/
def reduceAll (c : Task) (token : Option Nat) (start first : Nat) :
    Nat → Nat → Nat → Bool → Search Bool
  | 0, _, _, can => pure can
  | n + 1, round, i, can => do
    let count ← headCount
    if count ≤ i then return can
    let earlier := (List.range (i - first)).map (· + first)
    if ← c.mergeInto i earlier then reduceAll c token start first n (round + 1) i can
    else
      let state := (← top i).state
      let (reductions, taken) := c.options state ((token.map ([·])).getD c.allTokens)
      let last ← c.reduceEach i none reductions
      let following := if i = start then count else i + 1
      match taken, last with
      | true, _ => reduceAll c token start first n (round + 1) following true
      | false, some j =>
        if round < headLimit then
          replaceHead j i
          reduceAll c token start first n (round + 1) i can
        else
          if token.isSome then removeHead i
          reduceAll c token start first n (round + 1) following can
      | false, none =>
        if token.isSome then removeHead i
        reduceAll c token start first n (round + 1) following can

/-! ## Whole trees -/

/-- The tree of a stack: the branch that is no extra takes in those around it. -/
def root (c : Task) (bs : List Branch) : Option Branch :=
  let (front, extras) := splitExtras bs
  match front.getLast? with
  | none => none
  | some (.node s parts) =>
    some (c.make s.label s.traces (front.dropLast ++ parts ++ extras) s.lead)

/-- Keeps the tree of a stack if it is the best so far. -/
def offer (c : Task) (bs : List Branch) : Search Unit :=
  match c.root bs with
  | none => pure ()
  | some tree =>
    modify fun s => { s with
      found := s.found + 1
      best := match s.best with
        | none => some tree
        | some old => if prefersSecond c.grammar c.name old tree then some tree else some old }

/-- Ends a reading with the end of the text. -/
def accept (c : Task) (i : Nat) (b : Branch) : Search Unit := do
  push i (some b.asExtra) c.reader.automaton.start
  let groups ← popAll i
  groups.forM fun (_, ways) => ways.forM c.offer
  match groups with
  | (n, _) :: _ => removeHead n
  | [] => pure ()
  setStatus i .halted

/-! ## Repairs -/

/-- Whether some reading, or the best tree, is better than what a reading would become at a
cost. -/
def isBeaten (i cost : Nat) : Search Bool := do
  let s ← get
  if s.best.any (·.cost ≤ cost) then return true
  let v ← top i
  let own : Merit := ⟨cost, ← countSinceError i, v.weight, false⟩
  (List.range s.heads.size).anyM fun j => do
    let h ← head j
    let w ← vertex h.vertex
    if j = i || h.status != .active || w.place < v.place then pure false
    else
      match own.compare (← merit j) with
      | .takesSecond => pure true
      | .prefersSecond => canMerge j i
      | _ => pure false

/-- Takes a stretch of text that fits nowhere off the top of a reading. Its parts are given. -/
def takeFault (n : Nat) : Search (List Branch) := do
  match ← popFault n with
  | (m, bs) :: _ => do
    replaceHead m n
    pure (((bs.headD []).head?.map Branch.parts).getD [])
  | [] => pure []

/-- What was taken off a reading fits nowhere, if the reading has come back to the state `goal`. -/
def recoverAt (c : Task) (goal n : Nat) (ways : List (List Branch)) : Search Bool := do
  let v ← top n
  if v.state != goal then
    setStatus n .halted
    pure false
  else
    let fault ← if v.links.any fun l => l.branch.any (·.isFault) then takeFault n else pure []
    let (parts, extras) := splitExtras (fault ++ ways.headD [])
    if !parts.isEmpty then
      push n (some (c.make .fault [] parts v.place).asExtra) goal
    pushExtras n goal extras
    pure true

/-- The same for several readings. Tells whether one of them has come back to the state. -/
def recoverEach (c : Task) (goal : Nat) :
    Bool → List (Nat × List (List Branch)) → Search Bool
  | any, [] => pure any
  | any, (n, ways) :: groups => do
    let back ← c.recoverAt goal n ways
    recoverEach c goal (any || back) groups

/-- Takes a reading back to a state so many parts down. What was read since fits nowhere. -/
def recoverTo (c : Task) (i depth goal : Nat) : Search Bool := do
  c.recoverEach goal false (← pop i depth)

/-- Looks for a state further down in which a token may come, as long as going back to it is worth
it. -/
def goBack (c : Task) (i t : Nat) (made cost place readings : Nat) :
    List Descent → Search Bool
  | [] => pure false
  | d :: ds => do
    if d.state = 0 || d.place = place then goBack c i t made cost place readings ds
    else
      let taken ← (List.range readings).anyM fun j => do
        let v ← top j
        pure (v.state = d.state && v.place = place)
      if taken then goBack c i t made cost place readings ds
      else if ← isBeaten i (cost + d.depth * nodeCost + c.site.cost d.place place) then pure false
      else
        let depth := if 0 < made then d.depth + 1 else d.depth
        if c.may d.state t then
          if ← c.recoverTo i depth d.state then return true
        goBack c i t made cost place readings ds

/-- Looks for a state further down for a branch, if it is a token and the states are known. -/
def comeBack (c : Task) (i : Nat) (b : Branch) (made cost place readings : Nat)
    (descents : Option (List Descent)) : Search Bool :=
  match descents, b.label with
  | some ds, .terminal t => c.goBack i t made cost place readings ds
  | _, _ => pure false

/-- Adds text that fits nowhere to what was read before it. -/
def addToRun (c : Task) (i : Nat) (run : Branch) (lead : Nat) : Search Branch := do
  match ← pop i 1 with
  | (n, ways) :: rest => do
    if 1 < ways.length || !rest.isEmpty then
      modify fun s => { s with heads := s.heads.extract 0 (n + 1) }
    replaceHead n i
    pure (c.make .faultRun [] (ways.headD [] ++ [run]) lead)
  | [] => pure run

/-- A token that is left out. It is marked if it is one that may stand anywhere. -/
def leftOut (c : Task) (b : Branch) : Branch :=
  match (c.actionsOn c.reader.automaton.start b).getLast? with
  | some .pass => b.asExtra
  | _ => b

/-- Leaves out a token. -/
def leaveOut (c : Task) (i : Nat) (b : Branch) (made : Nat) : Search Unit := do
  let b := c.leftOut b
  let run := c.make .faultRun [] [b] b.summary.lead
  let run ← if 0 < made then c.addToRun i run b.summary.lead else pure run
  push i (some run) 0
  if b.summary.opened.isSome then changeHead i fun h => { h with opened := b.summary.opened }

/-- Repairs a reading that cannot take a token. -/
def recover (c : Task) (i : Nat) (b : Branch) : Search Unit := do
  let before ← headCount
  let h ← head i
  let place := (← vertex h.vertex).place
  let made ← countSinceError i
  let cost ← headCost i
  let back ← c.comeBack i b made cost place before h.descents
  modify fun s => { s with
    heads := s.heads.extract 0 before ++
      (s.heads.extract before s.heads.size).filter (·.status == .active) }
  if b.label == .terminal c.stop then
    push i (some (c.make .fault [] [] place)) c.reader.automaton.start
    c.accept i b
  else if back && (headLimit < (← headCount) || b.summary.moved) then setStatus i .halted
  else
    let loss := nodeCost + c.site.cost b.summary.lead b.summary.stop
    if ← isBeaten i (cost + loss) then setStatus i .halted
    else c.leaveOut i b made

/-- Tries to go on with one token missing, before a token that then ends a phrase. -/
def insertMissing (c : Task) (i : Nat) (t : Nat) : List Nat → Search Bool
  | [] => pure false
  | m :: ms => do
    let h ← head i
    let v ← vertex h.vertex
    let n := c.next v.state m
    match n = 0 || n = v.state, c.actions n t with
    | false, .reduce _ :: _ =>
      let j ← headCount
      modify fun s => { s with heads := s.heads.push { h with descents := none, lookahead := none } }
      let missing := { c.leaf m v.place v.place v.place with missing := true, extra := false }
      push j (some (.node missing [])) n
      if ← c.reduceAll (some t) j (j + 1) c.bound 0 j false then pure true
      else insertMissing c i t ms
    | _, _ => insertMissing c i t ms

/-- Breaks off the readings from the `i`-th on, after trying for each whether one token is
missing. -/
def breakOff (c : Task) (b : Branch) (first : Nat) (inserted : Bool) : List Nat → Search Unit
  | [] => pure ()
  | i :: is => do
    let inserted ← match inserted, b.label with
      | false, .terminal t => c.insertMissing i t c.allTokens
      | done, _ => pure done
    push i none 0
    breakOff c b first inserted is

/-- Starts to repair a reading that paused at a token. -/
def handle (c : Task) (i : Nat) (b : Branch) : Search Unit := do
  let before ← headCount
  let _ ← c.reduceAll none i before c.bound 0 i false
  let after ← headCount
  c.breakOff b before false (i :: (List.range (after - before)).map (· + before))
  mergeFollowing c.site i before (after - before)
  let ds ← descents i
  changeHead i fun h => { h with descents := some ds }
  c.recover i b

/-! ## Reading -/

/-- What comes of trying the actions on a token: the reading went on, or some phrases were
finished, which may have led to new readings. -/
inductive Progress
  | done
  | reduced (last : Option Nat)
  | stuck

/-- Takes a token. -/
def takeToken (i : Nat) (b : Branch) (state : Nat) : Search Unit := do
  push i (some b) state
  if b.summary.opened.isSome then changeHead i fun h => { h with opened := b.summary.opened }

/-- Tries the actions on a token. -/
def act (c : Task) (i : Nat) (state : Nat) (b : Branch) : Progress → List Action → Search Progress
  | p, [] => pure p
  | p, a :: as =>
    match a with
    | .shift _ true => act c i state b p as
    | .shift n false => do
      takeToken i b n
      pure .done
    | .pass => do
      takeToken i b.asExtra state
      pure .done
    | .reduce r => do
      let first ← c.reduce i r
      let last := match p with
        | .reduced last => first <|> last
        | _ => first
      act c i state b (.reduced last) as
    | .accept => do
      c.accept i b
      pure .done
    | .recover => do
      c.recover i b
      pure .done

/-- A word read as a name where it is no keyword. -/
def asName (c : Task) (b : Branch) : Branch :=
  match b with
  | .node s ps =>
    .node { s with
      label := .terminal c.name
      shown := Label.isShown c.grammar (.terminal c.name) } ps

/-- Whether a keyword may be read as a name in a state. -/
def mayBeName (c : Task) (state : Nat) (b : Branch) : Bool :=
  match b.label with
  | .terminal t =>
    let w := (c.site.rest b.summary.start).take (b.summary.stop - b.summary.start)
    b.summary.keyword && t != c.name && c.may state c.name && !isReserved w
  | _ => false

/-- Brings a reading past a token, or pauses it there. -/
def advanceOn (c : Task) (i : Nat) : Nat → Branch → Search Unit
  | 0, _ => setStatus i .halted
  | n + 1, b => do
    let state := (← top i).state
    match ← c.act i state b .stuck (c.actionsOn state b) with
    | .done => pure ()
    | .reduced (some j) => do
      replaceHead j i
      advanceOn c i n b
    | .reduced none => setStatus i .halted
    | .stuck =>
      if c.mayBeName state b then advanceOn c i n (c.asName b)
      else if state = 0 then c.recover i b
      else
        let count := (← top i).count
        changeHead i fun h => { h with
          status := .paused
          lookahead := some b
          countAtError := count }

/-- Brings a reading past the next token. -/
def advance (c : Task) (i : Nat) : Search Unit := do
  c.advanceOn i c.bound (← c.nextToken i)

/-- Brings a reading on until it is further than any was before. -/
def advanceFurther (c : Task) (i : Nat) : Nat → Nat → Search Nat
  | 0, last => pure last
  | n + 1, last => do
    if (← head i).status != .active then return last
    c.advance i
    let place := (← top i).place
    if last < place || (0 < i && place = last) then pure place
    else advanceFurther c i n last

/-- Brings all readings on, from the `i`-th on. -/
def advanceAll (c : Task) : Nat → Nat → Nat → Search Nat
  | 0, _, last => pure last
  | n + 1, i, last => do
    if i < (← headCount) then
      let last ← c.advanceFurther i c.bound last
      advanceAll c n (i + 1) last
    else pure last

/-- Compares the reading `i`, of a merit, with those in front of it. Gives where the reading is
then. -/
def contest (c : Task) (m : Merit) : Nat → Nat → Nat → Search Nat
  | 0, i, _ => pure i
  | n + 1, i, j => do
    if i ≤ j then return i
    match (← merit j).compare m with
    | .takesFirst => do
      removeHead i
      pure (i - 1)
    | .takesSecond => do
      removeHead j
      contest c m n (i - 1) j
    | .prefersSecond =>
      if ← mergeHeads c.site j i then pure (i - 1)
      else do
        swapHeads i j
        contest c m n i (j + 1)
    | _ =>
      if ← mergeHeads c.site j i then pure (i - 1)
      else contest c m n i (j + 1)

/-- Gives up readings that ended or are beaten, the better ones in front. The result is the least
cost of those without an error. -/
def weed (c : Task) : Nat → Nat → Option Nat → Search (Option Nat)
  | 0, _, least => pure least
  | n + 1, i, least => do
    if (← headCount) ≤ i then return least
    if (← head i).status == .halted then
      removeHead i
      weed c n i least
    else
      let m ← merit i
      let least := if m.faulty then least else some ((least.map (min m.cost)).getD m.cost)
      let i ← c.contest m ((← headCount) + 1) i 0
      weed c n (i + 1) least

/-- Repairs the first reading that paused if none goes on, and gives up the others that paused. -/
def resume (c : Task) : Nat → Nat → Nat → Bool → Option Nat → Search (Option Nat)
  | 0, _, _, _, least => pure least
  | n + 1, i, count, going, least => do
    if count ≤ i then return least
    let h ← head i
    if h.status != .paused then resume c n (i + 1) count true least
    else if !going && (← get).found < headLimit then
      let cost ← headCost i
      changeHead i fun h => { h with status := .active, lookahead := none }
      match h.lookahead with
      | some b => c.handle i b
      | none => pure ()
      resume c n (i + 1) count true (some cost)
    else
      removeHead i
      resume c n i (count - 1) going least

/-- Orders the readings and gives up those that are not worth following. -/
def condense (c : Task) : Search (Option Nat) := do
  let least ← c.weed c.bound 0 none
  modify fun s => { s with heads := s.heads.extract 0 headLimit }
  let count ← headCount
  c.resume (count + 1) 0 count false least

/-- Follows all readings to their ends. -/
def run (c : Task) : Nat → Nat → Search Unit
  | 0, _ => pure ()
  | n + 1, last => do
    let last ← c.advanceAll c.bound 0 last
    let least ← c.condense
    let s ← get
    let finished := s.best.any fun b => least.all (b.cost < ·)
    if finished || s.heads.isEmpty then pure () else run c n last

/-- The best tree of a text. -/
def best (c : Task) : Option Branch :=
  let start : Session :=
    { vertices := #[{ state := c.reader.automaton.start }], heads := #[{ vertex := 0 }] }
  ((c.run c.bound 0).run start).2.best

end Task

/-- A reader in front of a text. -/
def Reader.task (r : Reader) (t : Text) : Task := ⟨r, .ofText t, 1000 * (t.length + 100)⟩

end PointMutation.Repair
