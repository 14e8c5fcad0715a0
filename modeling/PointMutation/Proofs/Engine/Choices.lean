import PointMutation.Proofs.Engine.Selection

/-!
# What is selected does not depend on sources

An engine draws its choices from a source of its own, which no mutator draws from. So the names of
the mutators that it selects are those that the weights choose one after the other
(`Engine.choices`), and a call records as many of them as come to an end
(`Engine.transform_choices`). Two engines that choose from the same names with the same weights and
the same random source select alike, whatever their machines are and whatever sources they are given
(`Engine.choices_independent`).
-/

namespace PointMutation

namespace Engine

/-- The names that weights choose one after the other, up to the first choice that comes to nothing,
and the random source behind the choices. -/
def choices (names : List String) (weights : List UInt32) :
    Nat → RandomSource → List String × RandomSource
  | 0, r => ([], r)
  | n + 1, r =>
    match r.weighted weights with
    | (.error _, r) => ([], r)
    | (.ok i, r) =>
      match names[i]? with
      | none => ([], r)
      | some name => ((choices names weights n r).1.cons name, (choices names weights n r).2)

section

variable {τ : Type} [Machine τ] {label : Option String} {e e' : Engine τ} {s s' : Source}

/-- A selection takes the name that the weights choose. -/
theorem Selects.choices_eq {l : Link τ} (h : Selects label e s l e') (n : Nat) :
    choices e.registry.names e.weights (n + 1) e.random =
      (l.mutator.name :: (choices e.registry.names e.weights n e'.random).1,
        (choices e.registry.names e.weights n e'.random).2) := by
  obtain ⟨-, i, r, state, hweighted, hmutator, -, rfl⟩ := h
  have hname : e.registry.names[i]? = some l.mutator.name := by
    simp [Registry.names, hmutator]
  rw [choices, hweighted]
  simp only [hname]

/-- The names along a trail are the choices up to its end, where more choices go on. -/
theorem Trail.choices_eq {ls : List (Link τ)} (h : Trail label e s ls e' s') (n : Nat) :
    choices e.registry.names e.weights (ls.length + n) e.random =
      (ls.map (·.mutator.name) ++ (choices e.registry.names e.weights n e'.random).1,
        (choices e.registry.names e.weights n e'.random).2) := by
  induction h with
  | nil e s => simp
  | @cons e e₁ e' s s' l ls h _ ih =>
    obtain ⟨-, hmatches⟩ := h.isSelectable
    rw [hmatches.names, hmatches.weights] at ih
    rw [List.length_cons, show ls.length + 1 + n = ls.length + n + 1 by omega, h.choices_eq, ih]
    rfl

/-- The names that a call adds to the records are the first ones that the weights choose: as many as
the engine is to select if the call comes to an end, which leaves the random source behind them, and
fewer otherwise. -/
theorem transform_choices (e : Engine τ) (label : Option String) (s : Source) :
    ∃ added, (e.transform label s).2.records = e.records ++ added ∧
      added.map (·.mutator) <+:
        (choices e.registry.names e.weights e.config.transformations e.random).1 ∧
      ∀ s', (e.transform label s).1 = .ok s' →
        (added.map (·.mutator), (e.transform label s).2.random) =
          choices e.registry.names e.weights e.config.transformations e.random := by
  obtain ⟨ls, e', last, htrail, hend⟩ := steps_trail label e.config.transformations e s
  have hnames : (ls.map (Link.record label)).map (·.mutator) = ls.map (·.mutator.name) := by
    simp [Link.record]
  refine ⟨ls.map (Link.record label), ?_⟩
  rw [transform, hnames]
  rcases hend with ⟨hlength, hanswer⟩ | ⟨hlength, fault, e'', hbreaks, hanswer⟩
  · have hchoices := htrail.choices_eq 0
    rw [Nat.add_zero, hlength, choices, List.append_nil] at hchoices
    rw [hanswer, hchoices]
    exact ⟨htrail.records, List.prefix_rfl, fun _ _ => rfl⟩
  · have hchoices := htrail.choices_eq (e.config.transformations - ls.length)
    rw [show ls.length + (e.config.transformations - ls.length) = e.config.transformations by
      omega] at hchoices
    rw [hanswer, hchoices]
    refine ⟨hbreaks.records.trans htrail.records, List.prefix_append _ _, fun s' hs' => ?_⟩
    cases hs'

/-- That a call comes to an end can be computed from the text of the source. -/
theorem exists_transform (label : Option String) {t : Text}
    (h : ((Source.read t).toOption.map fun s => (e.transform label s).1.toOption.isSome) =
      some true) :
    ∃ s : Source, s.text = t ∧ ∃ s', (e.transform label s).1 = .ok s' := by
  obtain ⟨s, hs, hsome⟩ := Source.exists_of_map h
  cases hanswer : (e.transform label s).1 with
  | error _ =>
    rw [hanswer] at hsome
    cases hsome
  | ok s' => exact ⟨s, hs, s', hanswer⟩

end

section

variable {τ τ' : Type} [Machine τ] [Machine τ']

/-- Two engines with the same names, weights, random source and number of selections to make add the
same names to their records and leave the same random source if both calls come to an end. Otherwise
the names that one of them adds are the first ones that the other adds. Their machines, the passes
that these may make, the labels and the sources do not matter. -/
theorem choices_independent {e : Engine τ} {e' : Engine τ'}
    (hnames : e'.registry.names = e.registry.names) (hweights : e'.weights = e.weights)
    (hrandom : e'.random = e.random)
    (hcount : e'.config.transformations = e.config.transformations)
    (label label' : Option String) (s s' : Source) :
    ∃ added added', (e.transform label s).2.records = e.records ++ added ∧
      (e'.transform label' s').2.records = e'.records ++ added' ∧
      (added.map (·.mutator) <+: added'.map (·.mutator) ∨
        added'.map (·.mutator) <+: added.map (·.mutator)) ∧
      ∀ t t', (e.transform label s).1 = .ok t → (e'.transform label' s').1 = .ok t' →
        added'.map (·.mutator) = added.map (·.mutator) ∧
          (e'.transform label' s').2.random = (e.transform label s).2.random := by
  obtain ⟨added, hadded, hprefix, hall⟩ := transform_choices e label s
  obtain ⟨added', hadded', hprefix', hall'⟩ := transform_choices e' label' s'
  rw [hnames, hweights, hrandom, hcount] at hprefix' hall'
  refine ⟨added, added', hadded, hadded', List.prefix_or_prefix_of_prefix hprefix hprefix', ?_⟩
  intro t t' ht ht'
  exact Prod.ext_iff.mp ((hall' t' ht').trans (hall t ht).symm)

/-- Engines with different machines, one of which may make three passes where the other makes one,
over an assignment and over nothing. -/
theorem choices_independent_pair :
    ∃ (e e' : Engine Builtin) (s s' : Source), e'.registry.names = e.registry.names ∧
      e'.weights = e.weights ∧ e'.random = e.random ∧
      e'.config.transformations = e.config.transformations ∧ e'.registry ≠ e.registry ∧
      e'.config.maxAttempts ≠ e.config.maxAttempts ∧ s.text = "x = 1\n".toList ∧ s'.text = [] ∧
      ∃ added added', (e.transform none s).2.records = e.records ++ added ∧
        (e'.transform (some "second") s').2.records = e'.records ++ added' ∧
        added'.map (·.mutator) = added.map (·.mutator) ∧
        (e'.transform (some "second") s').2.random = (e.transform none s).2.random := by
  let e : Engine Builtin :=
    ⟨Registry.both {} (.seeded 1), { transformations := 2, maxAttempts := 1 }, .seeded 0, [1, 1], []⟩
  let e' : Engine Builtin :=
    ⟨Registry.both {} (.seeded 2), { transformations := 2, maxAttempts := 3 }, .seeded 0, [1, 1], []⟩
  obtain ⟨s, hs, t, ht⟩ := exists_transform (e := e) none (t := "x = 1\n".toList)
    (by decide +kernel)
  obtain ⟨s', hs', t', ht'⟩ := exists_transform (e := e') (some "second") (t := [])
    (by decide +kernel)
  have hnames : e'.registry.names = e.registry.names := rfl
  obtain ⟨added, added', hadded, hadded', -, hall⟩ :=
    choices_independent hnames rfl rfl rfl none (some "second") s s'
  have hregistry : e'.registry ≠ e.registry := fun h => by
    have hstates := congrArg (·.mutators.map (·.state)) h
    revert hstates
    decide +kernel
  exact ⟨e, e', s, s', hnames, rfl, rfl, rfl, hregistry, by decide, hs, hs', added, added', hadded,
    hadded', hall t t' ht ht'⟩

end

end Engine

end PointMutation
