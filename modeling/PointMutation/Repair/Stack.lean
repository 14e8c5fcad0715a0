import PointMutation.Repair.Branch

/-!
# Stacks that share their lower parts

Several readings of a text are followed at once. Each has a stack of states with the branches read
between them, and the stacks are paths down in one graph: a reading is a head, which knows its top
vertex. Readings that reach the same state at the same place become one, and may part again further
down.
-/

namespace PointMutation.Repair

open PointMutation.Grammar

/-- A way down from a vertex, over a branch or over a place where reading broke off. -/
structure Link where
  target : Nat
  branch : Option Branch

/-- A state on a stack, with what was read up to it: how far, at what cost, with what weight, and
how many nodes it made. -/
structure Vertex where
  state : Nat
  links : List Link := []
  place : Nat := 0
  cost : Nat := 0
  weight : Int := 0
  count : Nat := 0

/-- What becomes of a reading: it is read on, waits for a repair, or ends. -/
inductive Status
  | active | paused | halted
  deriving DecidableEq, Repr

/-- A state further down a stack, so many parts below its top. -/
structure Descent where
  place : Nat
  depth : Nat
  state : Nat

/-- A reading. -/
structure Head where
  vertex : Nat
  opened : Option Opened := none
  status : Status := .active
  /-- The number of nodes at the last error. -/
  countAtError : Nat := 0
  /-- The states to which it could go back after an error. -/
  descents : Option (List Descent) := none
  /-- The token at which it paused. -/
  lookahead : Option Branch := none

/-- All readings, and the best tree so far. -/
structure Session where
  vertices : Array Vertex
  heads : Array Head
  best : Option Branch := none
  /-- How many trees were found. -/
  found : Nat := 0

/-- Changes the readings and gives a result. -/
abbrev Search := StateM Session

/-! ## Limits -/

/-- How many readings are followed at once. -/
def headLimit : Nat := 6

/-- How many more there may be for a moment. -/
def overflowLimit : Nat := 4

/-- How many ways down a vertex may have. -/
def linkLimit : Nat := 8

/-- How many ways down are followed at once. -/
def pathLimit : Nat := 64

/-- How deep a reading goes back after an error. -/
def descentLimit : Nat := 16

/-- By how much more than another a reading may cost for each node that the other made. -/
def costLimit : Nat := 1800

/-! ## Vertices -/

def vertex (i : Nat) : Search Vertex := do
  pure ((← get).vertices.getD i { state := 0 })

def changeVertex (i : Nat) (f : Vertex → Vertex) : Search Unit :=
  modify fun s => { s with vertices := s.vertices.modify i f }

/-- The weight and the number of nodes that a link adds. -/
def Link.weight (l : Link) : Int := (l.branch.map (·.summary.weight)).getD 0

def Link.count (l : Link) : Nat := (l.branch.map Branch.count).getD 0

/-- A new vertex on top of another. -/
def grow (below : Nat) (branch : Option Branch) (state : Nat) : Search Nat := do
  let v ← vertex below
  let l : Link := ⟨below, branch⟩
  let n := (← get).vertices.size
  let above : Vertex :=
    { state
      links := [l]
      place := max v.place ((branch.map (·.summary.stop)).getD 0)
      cost := v.cost + (branch.map Branch.cost).getD 0
      weight := v.weight + l.weight
      count := v.count + l.count }
  modify fun s => { s with vertices := s.vertices.push above }
  pure n

/-- Whether what two links lead over need not be told apart. -/
def sameBranch (site : Site) (a b : Option Branch) : Bool :=
  match a, b with
  | some a, some b => interchangeable site a b
  | none, none => true
  | _, _ => false

/-- Gives a vertex another way down. Where there is one like it already, the two become one: the
heavier branch is kept, or the lower vertices become one. -/
def join (site : Site) : Nat → Nat → Link → Search Unit
  | 0, _, _ => pure ()
  | n + 1, self, link => do
    if link.target = self then return
    let v ← vertex self
    let below ← vertex link.target
    let like ← v.links.zipIdx.filterM fun (l, _) => do
      let other ← vertex l.target
      pure (sameBranch site l.branch link.branch && (l.target = link.target ||
        (other.state = below.state && other.place = below.place && other.cost = below.cost)))
    match like with
    | (l, i) :: _ =>
      if l.target = link.target then
        if l.weight < link.weight then
          changeVertex self fun v => { v with
            links := v.links.set i link
            weight := below.weight + link.weight }
      else
        below.links.forM (join site n l.target)
        changeVertex self fun v => { v with weight := max v.weight (below.weight + link.weight) }
    | [] =>
      if v.links.length < linkLimit then
        changeVertex self fun v => { v with
          links := v.links ++ [link]
          count := max v.count (below.count + link.count)
          weight := max v.weight (below.weight + link.weight) }

/-! ## Heads -/

def head (i : Nat) : Search Head := do
  pure ((← get).heads.getD i { vertex := 0, status := .halted })

def changeHead (i : Nat) (f : Head → Head) : Search Unit :=
  modify fun s => { s with heads := s.heads.modify i f }

def setStatus (i : Nat) (status : Status) : Search Unit :=
  changeHead i fun h => { h with status }

def removeHead (i : Nat) : Search Unit :=
  modify fun s => { s with heads := s.heads.eraseIdxIfInBounds i }

def headCount : Search Nat := do pure (← get).heads.size

/-- The vertex on top of a reading. -/
def top (i : Nat) : Search Vertex := do vertex (← head i).vertex

/-- Adds a branch to a reading, or a place where it broke off. -/
def push (i : Nat) (branch : Option Branch) (state : Nat) : Search Unit := do
  let n ← grow (← head i).vertex branch state
  let count := (← vertex n).count
  changeHead i fun h => { h with
    vertex := n
    countAtError := if branch.isNone then count else h.countAtError }

/-- Adds branches that may stand anywhere. -/
def pushExtras (i : Nat) (state : Nat) : List Branch → Search Unit
  | [] => pure ()
  | b :: bs => do
    push i (some b) state
    pushExtras i state bs

/-- A new reading like another, from a vertex further down. -/
def addHead (i : Nat) (vertex : Nat) : Search Nat := do
  let h ← head i
  let n ← headCount
  let new : Head := { vertex, opened := h.opened, countAtError := h.countAtError }
  modify fun s => { s with heads := s.heads.push new }
  pure n

/-- Puts a reading in the place of another. -/
def replaceHead (i j : Nat) : Search Unit := do
  if i = j then return
  let h ← head i
  let old ← head j
  changeHead j fun _ => { h with descents := h.descents <|> old.descents }
  removeHead i

def swapHeads (i j : Nat) : Search Unit := do
  let h ← head i
  let h' ← head j
  changeHead i fun _ => h'
  changeHead j fun _ => h

/-- Whether two readings are at the same place in the same state. -/
def canMerge (i j : Nat) : Search Bool := do
  let h ← head i
  let h' ← head j
  let v ← vertex h.vertex
  let v' ← vertex h'.vertex
  pure (h.status == .active && h'.status == .active && v.state == v'.state &&
    v.place == v'.place && v.cost == v'.cost && h.opened == h'.opened)

/-- Makes the second reading part of the first, if they are at the same place in the same state. -/
def mergeHeads (site : Site) (i j : Nat) : Search Bool := do
  if ← canMerge i j then
    let self := (← head i).vertex
    let other ← top j
    let fuel := (← get).vertices.size + 1
    other.links.forM (join site fuel self)
    let v ← vertex self
    if v.state = 0 then changeHead i fun h => { h with countAtError := v.count }
    removeHead j
    pure true
  else pure false

/-- Makes the readings from the `j`-th on part of the `i`-th where they are like it. -/
def mergeFollowing (site : Site) (i j : Nat) : Nat → Search Unit
  | 0 => pure ()
  | n + 1 => do
    let _ ← mergeHeads site i j
    mergeFollowing site i j n

/-! ## Ways down -/

/-- A way down that has come to a vertex: the branches on it, the lowest first, and their number
without those that may stand anywhere. -/
structure Path where
  vertex : Nat
  branches : List Branch
  count : Nat

/-- What to do with a way down: whether it is one that is looked for, and whether it ends here. -/
structure Verdict where
  found : Bool := false
  ends : Bool := false

/-- The way down over a link. -/
def Path.follow (p : Path) (l : Link) : Path :=
  match l.branch with
  | some b => ⟨l.target, b :: p.branches, if b.isExtra then p.count else p.count + 1⟩
  | none => ⟨l.target, p.branches, p.count + 1⟩

/-- Ways down under search: those found, those that go on in place, and those that branched off. -/
structure Walk (σ : Type) where
  memory : σ
  found : List Path
  kept : List Path := []
  added : List Path := []

/-- Takes ways down one vertex further. -/
def walkLevel {σ : Type} (vertices : Array Vertex) (judge : σ → Path → σ × Verdict) :
    List Path → Walk σ → Walk σ
  | [], w => w
  | p :: ps, w =>
    let (memory, verdict) := judge w.memory p
    let w := { w with
      memory
      found := if verdict.found then w.found ++ [p] else w.found }
    match (vertices.getD p.vertex { state := 0 }).links, verdict.ends with
    | l :: ls, false =>
      let room := pathLimit - (w.kept.length + 1 + ps.length + w.added.length)
      walkLevel vertices judge ps { w with
        kept := w.kept ++ [p.follow l]
        added := w.added ++ (ls.take room).map p.follow }
    | _, _ => walkLevel vertices judge ps w

/-- Takes ways down as far as they go. -/
def walk {σ : Type} (vertices : Array Vertex) (judge : σ → Path → σ × Verdict) :
    Nat → List Path → Walk σ → Walk σ
  | 0, _, w => w
  | _, [], w => w
  | n + 1, ps, w =>
    let w := walkLevel vertices judge ps { w with kept := [], added := [] }
    walk vertices judge n (w.kept ++ w.added) w

/-- The ways down from a reading that `judge` looks for, and what it remembers in the end. -/
def waysDown {σ : Type} (i : Nat) (memory : σ) (judge : σ → Path → σ × Verdict) :
    Search (List Path × σ) := do
  let h ← head i
  let s ← get
  let w := walk s.vertices judge (s.vertices.size + 1) [⟨h.vertex, [], 0⟩]
    { memory, found := [] }
  pure (w.found, w.memory)

/-- Groups ways down by the vertices to which they lead. -/
def groupPaths (ps : List Path) : List (Nat × List (List Branch)) :=
  ps.foldl
    (fun (groups : List (Nat × List (List Branch))) p =>
      if groups.any (·.1 == p.vertex) then
        groups.map fun (v, bs) => if v = p.vertex then (v, bs ++ [p.branches]) else (v, bs)
      else groups ++ [(p.vertex, [p.branches])])
    []

/-- New readings from the vertices to which ways down lead, each with the branches on its ways. -/
def headsAt (i : Nat) : List (Nat × List (List Branch)) → Search (List (Nat × List (List Branch)))
  | [] => pure []
  | (v, bs) :: rest => do
    let n ← addHead i v
    pure ((n, bs) :: (← headsAt i rest))

/-- Takes `n` parts off a reading. -/
def pop (i n : Nat) : Search (List (Nat × List (List Branch))) := do
  let (ps, _) ← waysDown i () fun _ p =>
    ((), if p.count = n then { found := true, ends := true } else {})
  headsAt i (groupPaths ps)

/-- Takes everything off a reading. -/
def popAll (i : Nat) : Search (List (Nat × List (List Branch))) := do
  let vertices := (← get).vertices
  let (ps, _) ← waysDown i () fun _ p =>
    ((), { found := (vertices.getD p.vertex { state := 0 }).links.isEmpty })
  headsAt i (groupPaths ps)

/-- Takes the stretch of text that fits nowhere off the top of a reading. -/
def popFault (i : Nat) : Search (List (Nat × List (List Branch))) := do
  let (ps, _) ← waysDown i false fun seen p =>
    match p.branches with
    | [] => (seen, {})
    | b :: _ => if !seen && b.isFault then (true, { found := true, ends := true })
      else (seen, { ends := true })
  headsAt i (groupPaths ps)

/-- The states to which a reading could go back. -/
def descents (i : Nat) : Search (List Descent) := do
  let vertices := (← get).vertices
  let (_, found) ← waysDown i ([] : List Descent) fun found p =>
    let v := vertices.getD p.vertex { state := 0 }
    if descentLimit < p.count then (found, { ends := true })
    else if (found.takeWhile fun d => p.count ≤ d.depth).any fun d =>
        d.depth == p.count && d.state == v.state then (found, {})
    else (⟨v.place, p.count, v.state⟩ :: found, {})
  pure found.reverse

/-! ## Comparing readings -/

/-- How many nodes a reading made since its last error. -/
def countSinceError (i : Nat) : Search Nat := do
  let h ← head i
  let v ← vertex h.vertex
  let c := min v.count h.countAtError
  changeHead i fun h => { h with countAtError := c }
  pure (v.count - c)

/-- What a reading costs. One that waits for a repair, or just broke off, has an error to come. -/
def headCost (i : Nat) : Search Nat := do
  let h ← head i
  let v ← vertex h.vertex
  let broken := v.state == 0 && (v.links.head?.any (·.branch.isNone))
  pure (v.cost + if h.status == .paused || broken then faultCost else 0)

/-- How good a reading is. -/
structure Merit where
  cost : Nat
  count : Nat
  weight : Int
  faulty : Bool

def merit (i : Nat) : Search Merit := do
  let cost ← headCost i
  let count ← countSinceError i
  let h ← head i
  let v ← vertex h.vertex
  let paused := h.status == .paused
  pure ⟨cost + (if paused then nodeCost else 0), count, v.weight, paused || v.state == 0⟩

/-- Which of two readings is better, and whether the other is to be given up. -/
inductive Preference
  | takesFirst | prefersFirst | neither | prefersSecond | takesSecond
  deriving DecidableEq, Repr

/-- Compares two readings. -/
def Merit.compare (a b : Merit) : Preference :=
  if !a.faulty && b.faulty then if a.cost < b.cost then .takesFirst else .prefersFirst
  else if a.faulty && !b.faulty then if b.cost < a.cost then .takesSecond else .prefersSecond
  else if a.cost < b.cost then
    if costLimit < (b.cost - a.cost) * (1 + a.count) then .takesFirst else .prefersFirst
  else if b.cost < a.cost then
    if costLimit < (a.cost - b.cost) * (1 + b.count) then .takesSecond else .prefersSecond
  else if b.weight < a.weight then .prefersFirst
  else if a.weight < b.weight then .prefersSecond
  else .neither

end PointMutation.Repair
