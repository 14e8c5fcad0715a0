import PointMutation.Proofs.Walk.Invariant

/-!
# What a walk tells its fold

A fold that writes down what it is told shows the protocol of its hooks. A walk through an outline
has a score, which is all that it tells the fold as long as no hook fails. If one fails, the walk
has come to some place in the score, and from then on only closes the values and the compound
statements that are open there (`Fold.Performs`, `Fold.edits_noting`).

What is open at some place in the score is found by reading the score from its beginning
(`Fold.follow`). Reading it fails where something is left that is not what was entered last, and
where something is entered that may not stand there.
-/

namespace PointMutation

namespace Fold

/-! ## Events -/

/-- What a walk enters and leaves. -/
inductive Bracket
  | compound (kind : Kind)
  | line (kinds : List Kind) (docstring : Bool)
  | value (site : Site)
  deriving DecidableEq, Repr

namespace Bracket

def isCompound : Bracket → Bool
  | compound _ => true
  | _ => false

def isLine : Bracket → Bool
  | line _ _ => true
  | _ => false

def isValue : Bracket → Bool
  | value _ => true
  | _ => false

end Bracket

/-- What a fold is told or asked. -/
inductive Event
  | enter (b : Bracket)
  | leave (b : Bracket)
  | expression (kind : Kind)
  deriving DecidableEq, Repr

/-- An event, and whether the fold failed there. -/
structure Call where
  event : Event
  failed : Bool
  deriving DecidableEq, Repr

section

variable {σ α : Type}

/-- Writes down what the fold is told. -/
def noteTold (e : Event) (act : StateM σ Unit) : StateM (σ × List Call) Unit := fun (s, log) =>
  ((), ((act s).2, log ++ [⟨e, false⟩]))

/-- Writes down what the fold is asked. -/
def noteAsked (e : Event) (act : ExceptT Fault (StateM σ) α) :
    ExceptT Fault (StateM (σ × List Call)) α := fun (s, log) =>
  let (answer, s) := act s
  (answer, (s, log ++ [⟨e, !answer.isOk⟩]))

/-- A fold that does the same, and writes down what it is told and asked. -/
def noting (f : Fold σ) : Fold (σ × List Call) where
  enterCompound kind := noteTold (.enter (.compound kind)) (f.enterCompound kind)
  leaveCompound kind := noteTold (.leave (.compound kind)) (f.leaveCompound kind)
  enterLine l := noteTold (.enter (.line l.kinds l.docstring)) (f.enterLine l)
  leaveLine l := noteAsked (.leave (.line l.kinds l.docstring)) (f.leaveLine l)
  enterValue site := noteTold (.enter (.value site)) (f.enterValue site)
  leaveValue site := noteTold (.leave (.value site)) (f.leaveValue site)
  leaveExpression e := noteAsked (.expression e.kind) (f.leaveExpression e)

end

/-! ## Scores -/

/-- Where an outline is among outlines, read from the inside: which of the outlines around it it is,
which of the outlines around those these are in, and so on. -/
abbrev Address := List Nat

/-- An event at an outline. -/
structure Note where
  address : Address
  event : Event
  deriving DecidableEq, Repr

mutual

/-- What a walk through the outline at an address tells the fold. -/
def score (a : Address) : Outline → List Note
  | .expression kind _ _ inner => scoreFrom a 0 inner ++ [⟨a, .expression kind⟩]
  | .value site inner =>
    ⟨a, .enter (.value site)⟩ :: (score (0 :: a) inner ++ [⟨a, .leave (.value site)⟩])
  | .line kinds docstring _ _ inner =>
    ⟨a, .enter (.line kinds docstring)⟩ ::
      (scoreFrom a 0 inner ++ [⟨a, .leave (.line kinds docstring)⟩])
  | .compound kind inner =>
    ⟨a, .enter (.compound kind)⟩ :: (scoreFrom a 0 inner ++ [⟨a, .leave (.compound kind)⟩])
  | .block items => scoreFrom a 0 items
  | .group inner => scoreFrom a 0 inner

/-- What a walk tells the fold that goes through the outlines from the `i`th one at an address. -/
def scoreFrom (a : Address) (i : Nat) : List Outline → List Note
  | [] => []
  | o :: os => score (i :: a) o ++ scoreFrom a (i + 1) os

end

/-! ## Reading a score -/

/-- What may come where a walk is: statements, what a line holds, or expressions only. -/
inductive Scope
  | statements | phrases | expressions
  deriving DecidableEq, Repr

/-- What is open, the innermost first. -/
abbrev Opened := List (Address × Bracket)

/-- What may come where something is open: expressions in a value, values and expressions in a
line, and everything in compound statements. -/
def scope : Opened → Scope
  | [] => .statements
  | (_, .compound _) :: st => scope st
  | (_, .line _ _) :: st => if scope st = .expressions then .expressions else .phrases
  | (_, .value _) :: _ => .expressions

/-- Whether something may be entered. -/
def admits (st : Opened) : Bracket → Bool
  | .value _ => scope st != .expressions
  | _ => scope st == .statements

/-- What is open behind an event. Only what was entered last can be left. -/
def follow (st : Opened) (n : Note) : Option Opened :=
  match n.event, st with
  | .enter b, st => if admits st b then some ((n.address, b) :: st) else none
  | .leave b, o :: st => if o = (n.address, b) then some st else none
  | .leave _, [] => none
  | .expression _, st => some st

/-- Reading some events, from what is open in front of them to what is open behind them. -/
def Opens (st : Opened) (ns : List Note) (st' : Opened) : Prop := ns.foldlM follow st = some st'

/-- How that what is open is closed behind a failure. Lines are not left any more. -/
def closing (st : Opened) : List Note :=
  (st.filter fun o => !o.2.isLine).map fun o => ⟨o.1, .leave o.2⟩

namespace Opens

variable {st st' st'' : Opened} {ns ns' : List Note} {a : Address} {b : Bracket}

theorem nil (st : Opened) : Opens st [] st := rfl

theorem append (h : Opens st ns st') (h' : Opens st' ns' st'') : Opens st (ns ++ ns') st'' := by
  rw [Opens, List.foldlM_append, h]
  exact h'

theorem cons {n : Note} (h : follow st n = some st') (h' : Opens st' ns st'') :
    Opens st (n :: ns) st'' := by
  rw [Opens, List.foldlM_cons, h]
  exact h'

theorem enter (h : admits st b = true) : Opens st [⟨a, .enter b⟩] ((a, b) :: st) :=
  cons (if_pos h) (nil _)

theorem leave : Opens ((a, b) :: st) [⟨a, .leave b⟩] st := cons (if_pos rfl) (nil _)

theorem expression (kind : Kind) : Opens st [⟨a, .expression kind⟩] st := cons rfl (nil _)

/-- Something that is entered, and left behind some events. -/
theorem bracket (h : admits st b = true) (hns : Opens ((a, b) :: st) ns ((a, b) :: st)) :
    Opens st (⟨a, .enter b⟩ :: (ns ++ [⟨a, .leave b⟩])) st :=
  (enter h).append (hns.append leave)

end Opens

/-! ## What may stand in an outline -/

mutual

/-- A value has only expressions inside, and a line has values and expressions. -/
def Fits : Scope → Outline → Prop
  | _, .expression _ _ _ inner => FitsAll .expressions inner
  | sc, .value _ inner => sc ≠ .expressions ∧ Fits .expressions inner
  | sc, .line _ _ _ _ inner => sc = .statements ∧ FitsAll .phrases inner
  | sc, .compound _ inner => sc = .statements ∧ FitsAll .statements inner
  | sc, .block items => FitsAll sc items
  | sc, .group inner => FitsAll sc inner

def FitsAll : Scope → List Outline → Prop
  | _, [] => True
  | sc, o :: os => Fits sc o ∧ FitsAll sc os

end

mutual

/-- What fits into a value fits anywhere. -/
theorem Fits.anywhere {o : Outline} (h : Fits .expressions o) (sc : Scope) : Fits sc o := by
  cases o with
  | expression kind start stop inner => exact h
  | value site inner => exact absurd rfl h.1
  | line kinds docstring start stop inner => cases h.1
  | compound kind inner => cases h.1
  | block items =>
    rw [Fits] at h ⊢
    exact FitsAll.anywhere h sc
  | group inner =>
    rw [Fits] at h ⊢
    exact FitsAll.anywhere h sc

theorem FitsAll.anywhere {os : List Outline} (h : FitsAll .expressions os) (sc : Scope) :
    FitsAll sc os := by
  cases os with
  | nil => trivial
  | cons o os => exact ⟨h.1.anywhere sc, h.2.anywhere sc⟩

end

theorem FitsAll.append {sc : Scope} {os ps : List Outline} (h : FitsAll sc os)
    (h' : FitsAll sc ps) : FitsAll sc (os ++ ps) := by
  induction os with
  | nil => exact h'
  | cons o os ih => exact ⟨h.1, ih h.2⟩

mutual

/-- A score closes all that it opens. -/
theorem opens_score {st : Opened} (a : Address) {o : Outline} (h : Fits (scope st) o) :
    Opens st (score a o) st := by
  cases o with
  | expression kind start stop inner =>
    rw [score]
    exact (opens_scoreFrom a 0 (FitsAll.anywhere h _)).append (.expression kind)
  | value site inner =>
    rw [score]
    refine .bracket (bne_iff_ne.mpr h.1) (opens_score (0 :: a) ?_)
    exact h.2
  | line kinds docstring start stop inner =>
    obtain ⟨hscope, hinner⟩ := h
    rw [score]
    refine .bracket (beq_iff_eq.mpr hscope) (opens_scoreFrom a 0 ?_)
    simpa [scope, hscope] using hinner
  | compound kind inner =>
    obtain ⟨hscope, hinner⟩ := h
    rw [score]
    refine .bracket (beq_iff_eq.mpr hscope) (opens_scoreFrom a 0 ?_)
    rwa [scope, hscope]
  | block items =>
    rw [score]
    exact opens_scoreFrom a 0 h
  | group inner =>
    rw [score]
    exact opens_scoreFrom a 0 h

theorem opens_scoreFrom {st : Opened} (a : Address) (i : Nat) {os : List Outline}
    (h : FitsAll (scope st) os) : Opens st (scoreFrom a i os) st := by
  cases os with
  | nil =>
    rw [scoreFrom]
    exact .nil st
  | cons o os =>
    rw [scoreFrom]
    exact (opens_score (i :: a) h.1).append (opens_scoreFrom a (i + 1) h.2)

end

/-! ## The walk -/

/-- Some events at which the fold did not fail. -/
def calls (ns : List Note) : List Call := ns.map fun n => ⟨n.event, false⟩

/-- How a part of a walk ends that goes through a score where `st` is open. If the fold fails, it
has heard the score up to the event where it failed, and then that what was opened on top of `base`
is closed. -/
inductive Heard (st base : Opened) (plan : List Note) {α : Type} :
    Except Fault α → List Call → Prop
  | ok (a : α) : Heard st base plan (.ok a) (calls plan)
  | error {e : Fault} {done : List Note} {n : Note} {opened : Opened}
    (hplan : done ++ [n] <+: plan) (hopens : Opens st (done ++ [n]) (opened ++ base)) :
    Heard st base plan (.error e) (calls done ++ ⟨n.event, true⟩ :: calls (closing opened))

section

variable {σ α β : Type}

/-- The progress of a fold that writes down what it hears. -/
def Progress.noted (p : Progress σ) (log : List Call) : Progress (σ × List Call) :=
  ⟨(p.state, log), p.edits⟩

/-- A part of a walk of the fold that writes down what it hears does the same as the part of the
walk of the fold itself, and hears a score. -/
def Performs (st base : Opened) (plan : List Note) (w : Walk (σ × List Call) α)
    (w' : Walk σ α) : Prop :=
  ∀ p log, ∃ heard, w (p.noted log) = ((w' p).1, (w' p).2.noted (log ++ heard)) ∧
    Heard st base plan (w' p).1 heard

namespace Performs

variable {st st' base : Opened} {plan plan' : List Note} {w : Walk (σ × List Call) α}
  {w' : Walk σ α} {k : α → Walk (σ × List Call) β} {k' : α → Walk σ β}

/-- A part of a walk in which the fold hears nothing and that does not fail. -/
theorem quiet
    (h : ∀ p, ∃ a p', w' p = (.ok a, p') ∧ ∀ log, w (p.noted log) = (.ok a, p'.noted log)) :
    Performs st base [] w w' := by
  intro p log
  obtain ⟨a, p', hw', hw⟩ := h p
  refine ⟨[], ?_, ?_⟩
  · rw [hw, hw', List.append_nil]
  · rw [hw']
    exact .ok a

theorem pure (a : α) :
    Performs st base [] (Pure.pure a : Walk (σ × List Call) α) (Pure.pure a : Walk σ α) :=
  quiet fun p => ⟨a, p, rfl, fun _ => rfl⟩

theorem shown (source : Text) (start stop : Nat) :
    Performs st base [] (Fold.shown source start stop : Walk (σ × List Call) _)
      (Fold.shown source start stop) :=
  quiet fun p => ⟨_, p, rfl, fun _ => rfl⟩

theorem edit (e : Edit) :
    Performs st base [] (Fold.edit e : Walk (σ × List Call) _) (Fold.edit e) :=
  quiet fun _ => ⟨(), _, rfl, fun _ => rfl⟩

theorem bind (h : Performs st base plan w w') (hst : Opens st plan st')
    (hk : ∀ a, Performs st' base plan' (k a) (k' a)) :
    Performs st base (plan ++ plan') (w >>= k) (w' >>= k') := by
  intro p log
  obtain ⟨heard, hw, hheard⟩ := h p log
  rw [bind_apply, bind_apply, hw]
  generalize w' p = answer at hheard
  obtain ⟨answer, p'⟩ := answer
  cases hheard with
  | ok a =>
    obtain ⟨heard', hk, hheard'⟩ := hk a p' (log ++ calls plan)
    refine ⟨calls plan ++ heard', ?_, ?_⟩
    · rw [← List.append_assoc]
      exact hk
    · dsimp only
      generalize k' a p' = answer at hheard'
      obtain ⟨answer, p''⟩ := answer
      cases hheard' with
      | ok b =>
        rw [calls, calls, ← List.map_append]
        exact .ok b
      | @error e done n opened hplan hopens =>
        have hfront : plan ++ done ++ [n] <+: plan ++ plan' := by
          rw [List.append_assoc]
          exact (List.prefix_append_right_inj plan).mpr hplan
        have hopens' : Opens st (plan ++ done ++ [n]) (opened ++ base) := by
          rw [List.append_assoc]
          exact hst.append hopens
        rw [← List.append_assoc, calls, calls, ← List.map_append]
        exact .error hfront hopens'
  | error hplan hopens =>
    exact ⟨_, rfl, .error (hplan.trans (List.prefix_append plan plan')) hopens⟩

/-- A part of a walk behind which the fold hears nothing more. -/
theorem bindQuiet (h : Performs st base plan w w') (hst : Opens st plan st')
    (hk : ∀ a, Performs st' base [] (k a) (k' a)) :
    Performs st base plan (w >>= k) (w' >>= k') := by
  have hbind := h.bind hst hk
  rwa [List.append_nil] at hbind

theorem enter {act : StateM σ Unit} {b : Bracket} (a : Address) :
    Performs st base [⟨a, .enter b⟩] (Fold.tell (noteTold (.enter b) act)) (Fold.tell act) :=
  fun _ _ => ⟨[⟨.enter b, false⟩], rfl, .ok ()⟩

/-- Something is left behind a part of a walk, also if the fold has failed in it. -/
theorem andLeave {act : StateM σ Unit} {a : Address} {b : Bracket} (hb : b.isLine = false)
    (h : Performs st ((a, b) :: base) plan w w') :
    Performs st base (plan ++ [⟨a, .leave b⟩]) (Fold.andTell w (noteTold (.leave b) act))
      (Fold.andTell w' act) := by
  intro p log
  obtain ⟨heard, hw, hheard⟩ := h p log
  refine ⟨heard ++ [⟨.leave b, false⟩], ?_, ?_⟩
  · simp only [Fold.andTell, hw, ← List.append_assoc]
    rfl
  · simp only [Fold.andTell]
    generalize w' p = answer at hheard
    obtain ⟨answer, p'⟩ := answer
    cases hheard with
    | ok x =>
      have hcalls : calls plan ++ [⟨.leave b, false⟩] = calls (plan ++ [⟨a, .leave b⟩]) := by
        simp [calls]
      rw [hcalls]
      exact .ok x
    | @error e done n opened hplan hopens =>
      have hclosing : calls (closing (opened ++ [(a, b)])) =
          calls (closing opened) ++ [⟨.leave b, false⟩] := by
        simp [calls, closing, hb]
      rw [List.append_assoc, List.cons_append, ← hclosing]
      refine .error (hplan.trans (List.prefix_append _ _)) ?_
      rwa [List.append_assoc]

/-- A line that was entered is not left if the fold fails in it. -/
theorem inLine {o : Address × Bracket} (ho : o.2.isLine = true)
    (h : Performs st (o :: base) plan w w') : Performs st base plan w w' := by
  intro p log
  obtain ⟨heard, hw, hheard⟩ := h p log
  refine ⟨heard, hw, ?_⟩
  generalize w' p = answer at hheard
  obtain ⟨answer, p'⟩ := answer
  cases hheard with
  | ok x => exact .ok x
  | @error e done n opened hplan hopens =>
    have hclosing : closing opened = closing (opened ++ [o]) := by simp [closing, ho]
    rw [hclosing]
    refine .error hplan ?_
    rwa [List.append_assoc]

/-- A question at which the fold may fail. -/
theorem ask {act : ExceptT Fault (StateM σ) α} {n : Note} (h : Opens st [n] base) :
    Performs st base [n] (Fold.ask (noteAsked n.event act)) (Fold.ask act) := by
  intro p log
  refine ⟨[⟨n.event, !(act p.state).1.isOk⟩], rfl, ?_⟩
  simp only [Fold.ask]
  generalize act p.state = answer
  obtain ⟨answer, s⟩ := answer
  cases answer with
  | ok x => exact .ok x
  | error e =>
    have hopens : Opens st ([] ++ [n]) ([] ++ base) := h
    have hheard : Heard st base [n] (.error e : Except Fault α) _ :=
      .error (List.prefix_refl ([] ++ [n])) hopens
    exact hheard

theorem settle (source newline : Text) (start stop : Nat) (answer : Replacement) :
    Performs st base [] (Fold.settle source newline start stop answer : Walk (σ × List Call) _)
      (Fold.settle source newline start stop answer) := by
  unfold Fold.settle
  split
  · exact pure none
  · exact (edit _).bindQuiet (.nil _) fun _ => pure none
  · exact (edit _).bindQuiet (.nil _) fun _ => pure _

end Performs

variable (f : Fold σ) (source newline : Text)

mutual

/-- A walk tells the fold the score of the outline. -/
theorem walk_performs {st : Opened} (a : Address) {o : Outline} (h : Fits (scope st) o) :
    Performs st st (score a o) (walk (noting f) source newline o) (walk f source newline o) := by
  cases o with
  | expression kind start stop inner =>
    have hinner : FitsAll (scope st) inner := FitsAll.anywhere h _
    rw [walk, walk, score]
    refine (walkAll_performs a 0 hinner).bind (opens_scoreFrom a 0 hinner) fun _ => ?_
    refine (Performs.shown source start stop).bind (.nil st) fun shown => ?_
    refine (Performs.ask (n := ⟨a, .expression kind⟩) (.expression kind)).bindQuiet
      (.expression kind) fun answer => ?_
    cases answer with
    | none => exact (Performs.pure ()).bindQuiet (.nil _) fun _ => .pure none
    | some text => exact (Performs.edit _).bindQuiet (.nil _) fun _ => .pure none
  | value site inner =>
    obtain ⟨hscope, hinner⟩ := h
    have hinner : Fits (scope ((a, .value site) :: st)) inner := hinner
    have hopens : Opens ((a, .value site) :: st)
        (score (0 :: a) inner ++ [⟨a, .leave (.value site)⟩]) st :=
      (opens_score (0 :: a) hinner).append .leave
    rw [walk, walk, score]
    refine (Performs.enter a).bind (.enter (bne_iff_ne.mpr hscope)) fun _ => ?_
    exact ((walk_performs (0 :: a) hinner).andLeave rfl).bindQuiet hopens fun _ => .pure none
  | line kinds docstring start stop inner =>
    obtain ⟨hscope, hinner⟩ := h
    have hinner : FitsAll (scope ((a, .line kinds docstring) :: st)) inner := by
      simpa [scope, hscope] using hinner
    have hopens := opens_scoreFrom a 0 hinner
    rw [walk, walk, score]
    refine (Performs.shown source start stop).bind (.nil st) fun shown => ?_
    refine (Performs.enter a).bind (.enter (beq_iff_eq.mpr hscope)) fun _ => ?_
    refine ((walkAll_performs a 0 hinner).inLine rfl).bind hopens fun _ => ?_
    refine (Performs.shown source start stop).bind (.nil _) fun shown => ?_
    exact (Performs.ask (n := ⟨a, .leave (.line kinds docstring)⟩) .leave).bindQuiet .leave
      fun answer => .settle source newline start stop answer
  | compound kind inner =>
    obtain ⟨hscope, hinner⟩ := h
    have hinner : FitsAll (scope ((a, .compound kind) :: st)) inner := by
      rwa [scope, hscope]
    have hopens : Opens ((a, .compound kind) :: st)
        (scoreFrom a 0 inner ++ [⟨a, .leave (.compound kind)⟩]) st :=
      (opens_scoreFrom a 0 hinner).append .leave
    rw [walk, walk, score]
    refine (Performs.enter a).bind (.enter (beq_iff_eq.mpr hscope)) fun _ => ?_
    exact ((walkAll_performs a 0 hinner).andLeave rfl).bindQuiet hopens fun _ => .pure none
  | block items =>
    have hitems : FitsAll (scope st) items := h
    rw [walk, walk, score]
    refine (walkAll_performs a 0 hitems).bindQuiet (opens_scoreFrom a 0 hitems) fun es => ?_
    cases allGone es with
    | none => exact (Performs.pure ()).bindQuiet (.nil st) fun _ => .pure none
    | some pass => exact (Performs.edit pass).bindQuiet (.nil st) fun _ => .pure none
  | group inner =>
    have hinner : FitsAll (scope st) inner := h
    rw [walk, walk, score]
    exact (walkAll_performs a 0 hinner).bindQuiet (opens_scoreFrom a 0 hinner) fun _ => .pure none

theorem walkAll_performs {st : Opened} (a : Address) (i : Nat) {os : List Outline}
    (h : FitsAll (scope st) os) :
    Performs st st (scoreFrom a i os) (walkAll (noting f) source newline os)
      (walkAll f source newline os) := by
  cases os with
  | nil =>
    rw [walkAll, walkAll, scoreFrom]
    exact .pure []
  | cons o os =>
    rw [walkAll, walkAll, scoreFrom]
    refine (walk_performs (i :: a) h.1).bind (opens_score (i :: a) h.1) fun e => ?_
    refine (walkAll_performs a (i + 1) h.2).bindQuiet (opens_scoreFrom a (i + 1) h.2) fun es => ?_
    exact .pure (e :: es)

end

/-- A fold that writes down what it hears makes the same edits as the fold itself and comes to the
same state, and hears the score of the outlines. -/
theorem edits_noting (m : σ) {os : List Outline} (h : FitsAll .statements os) :
    ∃ heard, edits (noting f) source newline os (m, []) =
        ((edits f source newline os m).1, ((edits f source newline os m).2, heard)) ∧
      Heard [] [] (scoreFrom [] 0 os) (edits f source newline os m).1 heard := by
  have h : FitsAll (scope []) os := h
  obtain ⟨heard, hwalk, hheard⟩ := walkAll_performs f source newline [] 0 h ⟨m, []⟩ []
  refine ⟨heard, ?_, ?_⟩
  · have hwalk : walkAll (noting f) source newline os ⟨(m, []), []⟩ = _ := hwalk
    simp only [edits, hwalk, List.nil_append]
    rfl
  · simp only [edits]
    generalize walkAll f source newline os ⟨m, []⟩ = answer at hheard
    obtain ⟨answer, p⟩ := answer
    cases hheard with
    | ok a => exact .ok _
    | error hplan hopens => exact .error hplan hopens

end

end Fold

end PointMutation
