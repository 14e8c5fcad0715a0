import PointMutation.Proofs.Engine.Standard
import PointMutation.Proofs.Engine.Trail

/-!
# What an engine selects

The weights of an engine stand beside the names of its registry, one for each, and one of them is
not zero (`Engine.Balanced`). This holds of every engine that is set up with a registry of mutators
registered one after the other, and remains so whatever sources the engine transforms and whatever
distributions it is given, accepted or not (`Engine.balanced_uses`). So each selection finds a
mutator, and none finds one whose weight is zero (`Engine.selections_weighted`).

Nothing is assumed of the machines.
-/

namespace PointMutation

/-! ## Registries -/

namespace Registry

variable {τ : Type} {g g' : Registry τ}

/-- A registry of mutators that were registered one after the other. -/
inductive Built : Registry τ → Prop
  | empty : Built empty
  | register {g g' : Registry τ} (h : Built g) (m : Mutator τ) (hm : g.register m = .ok g') :
    Built g'

theorem size_eq (g : Registry τ) : g.size = g.names.length := by simp [size, names]

@[simp] theorem names_setState (g : Registry τ) (i : Nat) (state : τ) :
    (g.setState i state).names = g.names := by
  apply List.ext_getElem?
  intro j
  simp only [names, setState, List.getElem?_map, List.getElem?_modify]
  cases g.mutators[j]? with
  | none => rfl
  | some m => by_cases hij : i = j <;> simp [hij]

theorem names_of_register {m : Mutator τ} (h : g.register m = .ok g') :
    g'.names = g.names ++ [m.name] ∧ m.name ∉ g.names := by
  rw [register] at h
  split at h
  · cases h
  · next hnew =>
    cases h
    exact ⟨by simp [names], by simpa using hnew⟩

/-- No two mutators have the same name. -/
theorem Built.nodup (h : Built g) : g.names.Nodup := by
  induction h with
  | empty => exact List.nodup_nil
  | register _ m hm ih =>
    obtain ⟨hnames, hnew⟩ := names_of_register hm
    rw [hnames]
    exact List.nodup_append.mpr
      ⟨ih, by simp, fun a ha b hb heq => hnew (List.mem_singleton.mp hb ▸ heq ▸ ha)⟩

end Registry

/-! ## Weights beside names -/

namespace Engine

variable {τ : Type} {e e' : Engine τ}

/-- The weights that a distribution gives some names: zero if it does not have them. -/
def weightsOf (d : Distribution) (names : List String) : List UInt32 :=
  names.map fun n => (d.weight? n).getD 0

/-- The weights stand beside the names, and some mutator can be selected by them. -/
structure Balanced (e : Engine τ) : Prop where
  names : e.registry.names.Nodup
  length : e.weights.length = e.registry.size
  positive : ∃ w ∈ e.weights, w ≠ 0

/-- A name that has a weight other than zero. -/
def IsSelectable (e : Engine τ) (name : String) : Prop :=
  ∃ (i : Nat) (w : UInt32), e.registry.names[i]? = some name ∧ e.weights[i]? = some w ∧ w ≠ 0

/-- What is chosen by the weights is registered. -/
theorem Balanced.chosen (h : e.Balanced) {r r' : RandomSource} {i : Nat}
    (hi : r.weighted e.weights = (.ok i, r')) : i < e.registry.size := by
  obtain ⟨w, hw, -⟩ := RandomSource.weighted_positive hi
  obtain ⟨hlt, -⟩ := List.getElem?_eq_some_iff.mp hw
  exact h.length ▸ hlt

/-! ## Distributions -/

/-- A distribution that is accepted changes the weights and nothing else. -/
theorem setDistribution_eq {d : Distribution} (h : e.setDistribution d = .ok e') :
    e' = { e with weights := weightsOf d e.registry.names } ∧ ∃ w ∈ e'.weights, w ≠ 0 := by
  unfold setDistribution at h
  split at h
  · cases h
  · dsimp only at h
    split at h
    · cases h
    · next hpositive =>
      cases h
      exact ⟨rfl, by simpa [List.all_eq_true] using hpositive⟩

theorem Balanced.setDistribution (h : e.Balanced) {d : Distribution}
    (hd : e.setDistribution d = .ok e') : e'.Balanced := by
  obtain ⟨rfl, hpositive⟩ := setDistribution_eq hd
  exact ⟨h.names, by simp [weightsOf, Registry.size_eq], hpositive⟩

/-- A distribution is turned down exactly if it has a name that is not registered, or gives no
registered name a weight. -/
theorem setDistribution_error_iff (e : Engine τ) (d : Distribution) :
    (∃ fault, e.setDistribution d = .error fault) ↔
      (∃ n ∈ d.names, n ∉ e.registry.names) ∨
        ∀ n ∈ e.registry.names, (d.weight? n).getD 0 = 0 := by
  have hnot : (∃ fault, e.setDistribution d = .error fault) ↔
      ¬ ∃ e', e.setDistribution d = .ok e' := by
    cases e.setDistribution d <;> simp
  rw [hnot, setDistribution_iff]
  push Not
  refine ⟨fun h => ?_, fun h hknown => ?_⟩
  · by_cases hknown : ∀ n ∈ d.names, n ∈ e.registry.names
    · exact .inr (h hknown)
    · push Not at hknown
      exact .inl hknown
  · rcases h with ⟨n, hn, hunknown⟩ | h
    · exact absurd (hknown n hn) hunknown
    · exact h

/-- An engine that is set up selects by its distribution, and evenly if that is empty. -/
theorem ofConfig_eq {g : Registry τ} {c : EngineConfig} {r : RandomSource}
    (h : ofConfig g c r = .ok e) :
    e = ⟨g, c, r, if c.distribution.isEmpty then g.names.map fun _ => 1
      else weightsOf c.distribution g.names, []⟩ ∧ ∃ w ∈ e.weights, w ≠ 0 := by
  unfold ofConfig at h
  cases hc : c.validate with
  | error fault =>
    rw [hc] at h
    cases h
  | ok _ =>
    rw [hc] at h
    cases hg : g.isEmpty with
    | true =>
      simp only [hg, bind, Except.bind, if_true] at h
      cases h
    | false =>
      simp only [hg, bind, Except.bind, Bool.false_eq_true, if_false] at h
      split at h
      · next hempty =>
        cases h
        refine ⟨by rw [if_pos hempty], 1, ?_, by decide⟩
        obtain ⟨m, ms, hms⟩ := List.exists_cons_of_ne_nil
          (show g.mutators ≠ [] by simpa [Registry.isEmpty] using hg)
        simp [Registry.names, hms]
      · next hempty =>
        obtain ⟨rfl, hpositive⟩ := setDistribution_eq h
        exact ⟨by rw [if_neg hempty], hpositive⟩

theorem balanced_ofConfig {g : Registry τ} (hg : g.Built) {c : EngineConfig} {r : RandomSource}
    (h : ofConfig g c r = .ok e) : e.Balanced := by
  obtain ⟨rfl, hpositive⟩ := ofConfig_eq h
  refine ⟨hg.nodup, ?_, hpositive⟩
  dsimp only
  split <;> simp [weightsOf, Registry.size_eq]

/-! ## Selections -/

/-- Two engines that select alike: from the same names by the same weights. -/
structure Matches (e e' : Engine τ) : Prop where
  names : e'.registry.names = e.registry.names
  weights : e'.weights = e.weights

theorem Matches.refl (e : Engine τ) : Matches e e := ⟨rfl, rfl⟩

theorem Matches.trans {e'' : Engine τ} (h : Matches e e') (h' : Matches e' e'') :
    Matches e e'' :=
  ⟨h'.names.trans h.names, h'.weights.trans h.weights⟩

theorem Matches.balanced (h : Matches e e') (hb : e.Balanced) : e'.Balanced where
  names := h.names ▸ hb.names
  length := by rw [h.weights, hb.length, Registry.size_eq, Registry.size_eq, h.names]
  positive := h.weights ▸ hb.positive

theorem Matches.isSelectable {name : String} (h : Matches e e') (hn : e'.IsSelectable name) :
    e.IsSelectable name := by
  obtain ⟨i, w, hname, hw, hne⟩ := hn
  exact ⟨i, w, h.names ▸ hname, h.weights ▸ hw, hne⟩

variable [Machine τ]

/-- A step selects as the one before it, whether it fails or not. -/
theorem step_matches (e : Engine τ) (label : Option String) (s : Source) :
    Matches e (e.step label s).2 := by
  rw [step]
  cases e.random.weighted e.weights with
  | mk choice r =>
    cases choice with
    | error fault => exact ⟨rfl, rfl⟩
    | ok i =>
      dsimp only
      rw [runAt]
      split
      · exact ⟨rfl, rfl⟩
      · dsimp only
        split <;> exact ⟨Registry.names_setState _ _ _, rfl⟩

theorem steps_matches (label : Option String) (n : Nat) (e : Engine τ) (s : Source) :
    Matches e (steps label n e s).2 := by
  induction n generalizing e s with
  | zero => exact .refl e
  | succ n ih =>
    have hstep := step_matches e label s
    rw [steps]
    generalize e.step label s = done at hstep
    obtain ⟨answer, e'⟩ := done
    cases answer with
    | error fault => exact hstep
    | ok s' => exact hstep.trans (ih e' s')

/-- What is selected has a weight other than zero. -/
theorem Selects.isSelectable {label : Option String} {s : Source} {l : Link τ}
    (h : Selects label e s l e') : e.IsSelectable l.mutator.name ∧ Matches e e' := by
  obtain ⟨-, i, r, state, hweighted, hmutator, -, rfl⟩ := h
  obtain ⟨w, hw, hne⟩ := RandomSource.weighted_positive hweighted
  exact ⟨⟨i, w, by simp [Registry.names, hmutator], hw, hne⟩, Registry.names_setState _ _ _, rfl⟩

theorem Trail.isSelectable {label : Option String} {s s' : Source} {ls : List (Link τ)}
    (h : Trail label e s ls e' s') : ∀ l ∈ ls, e.IsSelectable l.mutator.name := by
  induction h with
  | nil e s => simp
  | cons h _ ih =>
    obtain ⟨hselectable, hmatches⟩ := h.isSelectable
    intro l hl
    rcases List.mem_cons.mp hl with rfl | hl
    · exact hselectable
    · exact hmatches.isSelectable (ih l hl)

/-- A call adds records of mutators only that have a weight other than zero. -/
theorem transform_selectable (e : Engine τ) (label : Option String) (s : Source) :
    ∃ added, (e.transform label s).2.records = e.records ++ added ∧
      ∀ x ∈ added, e.IsSelectable x.mutator := by
  obtain ⟨ls, e', s', htrail, hend⟩ := steps_trail label e.config.transformations e s
  refine ⟨ls.map (Link.record label), ?_, ?_⟩
  · rw [transform]
    rcases hend with ⟨-, hanswer⟩ | ⟨-, fault, e'', hbreaks, hanswer⟩
    · rw [hanswer]
      exact htrail.records
    · rw [hanswer]
      exact hbreaks.records.trans htrail.records
  · intro x hx
    obtain ⟨l, hl, rfl⟩ := List.mem_map.mp hx
    exact htrail.isSelectable l hl

/-! ## Whatever is done with an engine -/

/-- What an engine is asked to do. -/
inductive Use
  | transform (label : Option String) (s : Source)
  | distribution (d : Distribution)

/-- The engine behind a use. One that fails may have done a part of its work, but a distribution
that is turned down has done nothing. -/
def use (e : Engine τ) : Use → Engine τ
  | .transform label s => (e.transform label s).2
  | .distribution d =>
    match e.setDistribution d with
    | .ok e' => e'
    | .error _ => e

/-- The engine behind several uses. -/
def uses (e : Engine τ) (us : List Use) : Engine τ := us.foldl use e

theorem use_balanced (h : e.Balanced) (u : Use) :
    (e.use u).Balanced ∧ (e.use u).registry.names = e.registry.names := by
  cases u with
  | transform label s =>
    have hmatches := steps_matches label e.config.transformations e s
    exact ⟨hmatches.balanced h, hmatches.names⟩
  | distribution d =>
    rw [use]
    split
    · next e' hd =>
      refine ⟨h.setDistribution hd, ?_⟩
      obtain ⟨rfl, -⟩ := setDistribution_eq hd
      rfl
    · exact ⟨h, rfl⟩

theorem balanced_uses (h : e.Balanced) (us : List Use) :
    (e.uses us).Balanced ∧ (e.uses us).registry.names = e.registry.names := by
  induction us generalizing e with
  | nil => exact ⟨h, rfl⟩
  | cons u us ih =>
    obtain ⟨hbalanced, hnames⟩ := use_balanced h u
    obtain ⟨hbalanced', hnames'⟩ := ih hbalanced
    exact ⟨hbalanced', hnames'.trans hnames⟩

/-- Whatever is done with an engine, the names of its registry stay as they were and are different
from each other, and there is one weight for each of them, not all zero, so that what is chosen by
them is registered. A distribution is turned down exactly if it has a name that is not registered or
gives no registered name a weight, and then changes nothing; one that is accepted changes the
weights to its own and nothing else. A call adds records only of mutators whose weight is not
zero. -/
theorem selections_weighted {g : Registry τ} (hg : g.Built) {c : EngineConfig} {r : RandomSource}
    {start : Engine τ} (hstart : ofConfig g c r = .ok start) (us : List Use) :
    (start.uses us).registry.names = g.names ∧ g.names.Nodup ∧
    (start.uses us).weights.length = g.size ∧ (∃ w ∈ (start.uses us).weights, w ≠ 0) ∧
    (∀ r r' i, RandomSource.weighted (start.uses us).weights r = (.ok i, r') →
      i < (start.uses us).registry.mutators.length) ∧
    (∀ d, ((∃ fault, (start.uses us).setDistribution d = .error fault) ↔
        (∃ n ∈ d.names, n ∉ g.names) ∨ ∀ n ∈ g.names, (d.weight? n).getD 0 = 0) ∧
      match (start.uses us).setDistribution d with
      | .error _ => start.uses (us ++ [.distribution d]) = start.uses us
      | .ok e' => start.uses (us ++ [.distribution d]) = e' ∧
          e' = { start.uses us with weights := weightsOf d g.names }) ∧
    ∀ label s, ∃ added,
      (start.uses (us ++ [.transform label s])).records = (start.uses us).records ++ added ∧
      ∀ x ∈ added, (start.uses us).IsSelectable x.mutator := by
  obtain ⟨hbalanced, hnames⟩ := balanced_uses (balanced_ofConfig hg hstart) us
  have hstart : start.registry = g := by
    obtain ⟨rfl, -⟩ := ofConfig_eq hstart
    rfl
  rw [hstart] at hnames
  have hsnoc : ∀ u, start.uses (us ++ [u]) = (start.uses us).use u := fun u => by
    simp [uses, List.foldl_append]
  refine ⟨hnames, hg.nodup, ?_, hbalanced.positive, fun r r' i => hbalanced.chosen,
    fun d => ⟨?_, ?_⟩, fun label s => ?_⟩
  · rw [hbalanced.length, Registry.size_eq, hnames, ← Registry.size_eq]
  · rw [setDistribution_error_iff, hnames]
  · rw [hsnoc, use]
    split
    · next hd => simp only [hd]
    · next e' hd =>
      simp only [hd, true_and]
      obtain ⟨he', -⟩ := setDistribution_eq hd
      rw [he', hnames]
  · rw [hsnoc]
    exact transform_selectable _ label s

/-- A registry with one mutator, to which a name that is not registered does nothing and a weight of
three gives that weight. -/
theorem selections_weighted_single :
    ∃ (g : Registry Builtin) (start : Engine Builtin), g.Built ∧ g.names = [Wrapping.name] ∧
      ofConfig g {} (.seeded 0) = .ok start ∧
      start.uses [.distribution (.ofList [("other", 1)])] = start ∧
      (start.uses [.distribution (.ofList [(Wrapping.name, 3)])]).weights = [3] := by
  let g : Registry Builtin := ⟨[(Builtin.wrapping ⟨LiteralKind.wrappable, {}, 0, 0⟩).mutator]⟩
  have hg : g.Built := .register .empty (Builtin.wrapping ⟨_, {}, 0, 0⟩).mutator rfl
  obtain ⟨start, hstart⟩ : ∃ e, ofConfig g {} (.seeded 0) = .ok e := ⟨_, rfl⟩
  obtain ⟨-, -, -, -, -, hset, -⟩ := selections_weighted hg hstart []
  refine ⟨g, start, hg, rfl, hstart, ?_, ?_⟩
  · obtain ⟨hiff, hanswer⟩ := hset (.ofList [("other", 1)])
    obtain ⟨fault, hfault⟩ := hiff.mpr (.inl ⟨"other", by decide, by decide⟩)
    simp only [hfault] at hanswer
    exact hanswer
  · obtain ⟨hiff, hanswer⟩ := hset (.ofList [(Wrapping.name, 3)])
    cases hd : (start.uses []).setDistribution (.ofList [(Wrapping.name, 3)]) with
    | error fault =>
      rcases hiff.mp ⟨fault, hd⟩ with ⟨n, hn, hunknown⟩ | hzero
      · exact absurd (show n ∈ [Wrapping.name] from hn) hunknown
      · exact absurd (hzero Wrapping.name (by decide)) (by decide)
    | ok e' =>
      simp only [hd] at hanswer
      obtain ⟨huses, he'⟩ := hanswer
      rw [show start.uses [.distribution _] = e' from huses, he']
      show weightsOf (.ofList [(Wrapping.name, 3)]) [Wrapping.name] = [3]
      decide

end Engine

end PointMutation
