import PointMutation.Engine
import PointMutation.Proofs.Mutator.Attempts

/-!
# The records of an engine

The records that an engine keeps are the history of the source. Each of them stands for a selection
that came to an end (`Engine.Selects`), and these link the source at hand to the one that comes out
(`Engine.Trail`). A selection that fails is the last one of a call and leaves no record
(`Engine.transform_records`). Nothing is assumed of the machines.
-/

namespace PointMutation

/-- A selection that came to an end: the mutator as it was selected, the source that it was run
over, and what came of that. -/
structure Link (τ : Type) where
  mutator : Mutator τ
  before : Source
  outcome : Outcome

/-- The record of a selection. -/
def Link.record {τ : Type} (label : Option String) (l : Link τ) : Record :=
  ⟨label, l.mutator.name, l.mutator.categories, l.outcome.attempts, l.outcome.worked⟩

/-- Links lead from one source to another if each begins with what the one before it came to. -/
def Connects {τ : Type} : Source → List (Link τ) → Source → Prop
  | s, [], last => s = last
  | s, l :: ls, last => l.before = s ∧ Connects l.outcome.source ls last

namespace Engine

variable {τ : Type} [Machine τ]

/-! ## One selection -/

/-- A selection that comes to an end: a mutator is chosen by the weights and run, and a record is
added. -/
structure Selects (label : Option String) (e : Engine τ) (s : Source) (l : Link τ)
    (e' : Engine τ) : Prop where
  before : l.before = s
  chosen : ∃ i r state, e.random.weighted e.weights = (.ok i, r) ∧
    e.registry.mutators[i]? = some l.mutator ∧
    Machine.run e.config.maxAttempts s l.mutator.state = (.ok l.outcome, state) ∧
    e' = { e with
      registry := e.registry.setState i state
      random := r
      records := e.records ++ [l.record label] }

/-- A selection that fails: no mutator can be chosen, or the one that is chosen fails. -/
structure Breaks (label : Option String) (e : Engine τ) (s : Source) (fault : Fault)
    (e' : Engine τ) : Prop where
  answer : e.step label s = (.error fault, e')
  config : e'.config = e.config
  records : e'.records = e.records

/-- What a selection can do. -/
theorem step_cases (e : Engine τ) (label : Option String) (s : Source) :
    (∃ l e', Selects label e s l e' ∧ e.step label s = (.ok l.outcome.source, e')) ∨
      ∃ fault e', Breaks label e s fault e' := by
  cases hweighted : e.random.weighted e.weights with
  | mk choice r =>
    cases choice with
    | error fault =>
      have hstep : e.step label s = (.error fault, { e with random := r }) := by
        rw [step, hweighted]
      exact .inr ⟨fault, _, hstep, rfl, rfl⟩
    | ok i =>
      have hstep : e.step label s = runAt { e with random := r } label i s := by
        rw [step, hweighted]
      cases hmutator : e.registry.mutators[i]? with
      | none =>
        simp only [runAt, hmutator] at hstep
        exact .inr ⟨_, _, hstep, rfl, rfl⟩
      | some m =>
        cases hrun : Machine.run e.config.maxAttempts s m.state with
        | mk outcome state =>
          simp only [runAt, hmutator, hrun] at hstep
          cases outcome with
          | error fault => exact .inr ⟨fault, _, hstep, rfl, rfl⟩
          | ok o =>
            exact .inl ⟨⟨m, s, o⟩, _, ⟨rfl, i, r, state, hweighted, hmutator, hrun, rfl⟩, hstep⟩

/-! ## A call -/

/-- Selections that come to an end, one after the other. -/
inductive Trail (label : Option String) :
    Engine τ → Source → List (Link τ) → Engine τ → Source → Prop
  | nil (e : Engine τ) (s : Source) : Trail label e s [] e s
  | cons {e e' e'' : Engine τ} {s s' : Source} {l : Link τ} {ls : List (Link τ)}
    (h : Selects label e s l e') (hrest : Trail label e' l.outcome.source ls e'' s') :
    Trail label e s (l :: ls) e'' s'

namespace Trail

variable {label : Option String} {e e' : Engine τ} {s s' : Source} {ls : List (Link τ)}

theorem config (h : Trail label e s ls e' s') : e'.config = e.config := by
  induction h with
  | nil e s => rfl
  | cons h _ ih =>
    obtain ⟨-, i, r, state, -, -, -, rfl⟩ := h
    exact ih

/-- Each link leaves a record, in their order. -/
theorem records (h : Trail label e s ls e' s') :
    e'.records = e.records ++ ls.map (Link.record label) := by
  induction h with
  | nil e s => simp
  | cons h _ ih =>
    obtain ⟨-, i, r, state, -, -, -, rfl⟩ := h
    simp [ih]

theorem connects (h : Trail label e s ls e' s') : Connects s ls s' := by
  induction h with
  | nil e s => exact rfl
  | cons h _ ih => exact ⟨h.before, ih⟩

/-- The outcome of each link is true to what its mutator has done. -/
theorem isTrue (h : Trail label e s ls e' s') :
    ∀ l ∈ ls, Machine.IsTrue e.config.maxAttempts l.before l.mutator.state l.outcome := by
  induction h with
  | nil e s => simp
  | cons h _ ih =>
    obtain ⟨rfl, i, r, state, -, -, hrun, rfl⟩ := h
    intro l hl
    rcases List.mem_cons.mp hl with rfl | hl
    · exact Machine.isTrue_of_run hrun
    · exact ih l hl

end Trail

/-- Several steps make a trail, which is complete unless a selection at its end fails. -/
theorem steps_trail (label : Option String) (n : Nat) (e : Engine τ) (s : Source) :
    ∃ ls e' s', Trail label e s ls e' s' ∧
      (ls.length = n ∧ steps label n e s = (.ok s', e') ∨
        ls.length < n ∧ ∃ fault e'', Breaks label e' s' fault e'' ∧
          steps label n e s = (.error fault, e'')) := by
  induction n generalizing e s with
  | zero => exact ⟨[], e, s, .nil e s, .inl ⟨rfl, rfl⟩⟩
  | succ n ih =>
    rcases step_cases e label s with ⟨l, e₁, hselects, hstep⟩ | ⟨fault, e₁, hbreaks⟩
    · obtain ⟨ls, e', s', htrail, hend⟩ := ih e₁ l.outcome.source
      have hsteps : steps label (n + 1) e s = steps label n e₁ l.outcome.source := by
        rw [steps, hstep]
      refine ⟨l :: ls, e', s', .cons hselects htrail, ?_⟩
      rw [hsteps, List.length_cons]
      rcases hend with ⟨hlength, hanswer⟩ | ⟨hlength, hanswer⟩
      · exact .inl ⟨by rw [hlength], hanswer⟩
      · exact .inr ⟨Nat.succ_lt_succ hlength, hanswer⟩
    · refine ⟨[], e, s, .nil e s, .inr ⟨Nat.succ_pos n, fault, e₁, hbreaks, ?_⟩⟩
      rw [steps, hbreaks.answer]

/-! ## Labels -/

/-- A label shows in the record of a selection only. -/
theorem step_label (e : Engine τ) (records : List Record) (label label' : Option String)
    (s : Source) : ∃ records', step { e with records := records } label' s =
      ((e.step label s).1, { (e.step label s).2 with records := records' }) := by
  rw [step, step]
  cases e.random.weighted e.weights with
  | mk choice r =>
    cases choice with
    | error fault => exact ⟨records, rfl⟩
    | ok i =>
      simp only [runAt]
      cases e.registry.mutators[i]? with
      | none => exact ⟨records, rfl⟩
      | some m =>
        dsimp only
        cases Machine.run e.config.maxAttempts s m.state with
        | mk outcome state =>
          cases outcome with
          | error fault => exact ⟨records, rfl⟩
          | ok o => exact ⟨_, rfl⟩

theorem steps_label (n : Nat) (e : Engine τ) (records : List Record)
    (label label' : Option String) (s : Source) :
    (steps label' n { e with records := records } s).1 = (steps label n e s).1 := by
  induction n generalizing e records s with
  | zero => rfl
  | succ n ih =>
    obtain ⟨records', hstep⟩ := step_label e records label label' s
    rw [steps, steps, hstep]
    cases e.step label s with
    | mk answer e' =>
      cases answer with
      | error fault => rfl
      | ok s' => exact ih e' records' s'

/-- What a call comes to does not depend on its label. -/
theorem transform_label (e : Engine τ) (label label' : Option String) (s : Source) :
    (e.transform label s).1 = (e.transform label' s).1 :=
  steps_label e.config.transformations e e.records label' label s

/-! ## Several calls -/

/-- The engine behind some calls, each over a source of its own, whether or not they fail. -/
def transforms (cs : List (Option String × Source)) (e : Engine τ) : Engine τ :=
  cs.foldl (fun e c => (e.transform c.1 c.2).2) e

/-- What is left of an engine that has made a call: its configuration, and the records as far as
they were made. -/
theorem transform_keeps (e : Engine τ) (label : Option String) (s : Source) :
    (e.transform label s).2.config = e.config ∧ e.records <+: (e.transform label s).2.records := by
  obtain ⟨ls, e', s', htrail, hend⟩ := steps_trail label e.config.transformations e s
  rw [transform]
  rcases hend with ⟨-, hanswer⟩ | ⟨-, fault, e'', hbreaks, hanswer⟩
  · rw [hanswer]
    exact ⟨htrail.config, by simp [htrail.records]⟩
  · rw [hanswer]
    exact ⟨hbreaks.config.trans htrail.config, by simp [hbreaks.records, htrail.records]⟩

theorem transforms_keeps (cs : List (Option String × Source)) (e : Engine τ) :
    (e.transforms cs).config = e.config ∧ e.records <+: (e.transforms cs).records := by
  induction cs generalizing e with
  | nil => exact ⟨rfl, List.prefix_rfl⟩
  | cons c cs ih =>
    obtain ⟨hconfig, hgrows⟩ := transform_keeps e c.1 c.2
    obtain ⟨hconfig', hgrows'⟩ := ih (e.transform c.1 c.2).2
    exact ⟨hconfig'.trans hconfig, hgrows.trans hgrows'⟩

/-- The records of an engine only grow, and tell what each call has made of its source: there is one
for each selection that came to an end, in their order and with the label of the call, and the
selections lead from the source to the one that is given. If the call fails, they lead to the one at
which a further selection fails. -/
theorem transform_records (e : Engine τ) (cs : List (Option String × Source))
    (label : Option String) (s : Source) :
    e.records <+: (e.transforms cs).records ∧
    ∃ (ls : List (Link τ)) (e' : Engine τ) (last : Source),
      Trail label (e.transforms cs) s ls e' last ∧ Connects s ls last ∧
      ((e.transforms cs).transform label s).2.records =
        (e.transforms cs).records ++ ls.map (Link.record label) ∧
      (∀ l ∈ ls, Machine.IsTrue e.config.maxAttempts l.before l.mutator.state l.outcome) ∧
      match ((e.transforms cs).transform label s).1 with
      | .ok s' => ls.length = e.config.transformations ∧ s' = last ∧ Source.read s'.text = .ok s'
      | .error fault => ls.length < e.config.transformations ∧
          Breaks label e' last fault ((e.transforms cs).transform label s).2 := by
  obtain ⟨hconfig, hgrows⟩ := transforms_keeps cs e
  obtain ⟨ls, e', last, htrail, hend⟩ :=
    steps_trail label (e.transforms cs).config.transformations (e.transforms cs) s
  refine ⟨hgrows, ls, e', last, htrail, htrail.connects, ?_⟩
  rw [← hconfig, transform]
  rcases hend with ⟨hlength, hanswer⟩ | ⟨hlength, fault, e'', hbreaks, hanswer⟩
  · rw [hanswer]
    exact ⟨htrail.records, htrail.isTrue, hlength, rfl, last.read_text⟩
  · rw [hanswer]
    exact ⟨hbreaks.records.trans htrail.records, htrail.isTrue, hlength, hbreaks⟩

end Engine

end PointMutation
