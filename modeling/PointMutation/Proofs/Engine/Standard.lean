import PointMutation.Proofs.Engine.Faults

/-!
# Setting up an engine

The engine with both mutators can be set up exactly if its configuration is accepted and its
distribution names no other mutators (`Engine.standard_iff`). Whatever sources it has transformed
since, and whatever distributions it was given (`Engine.Reachable`), it complains of its
configuration exactly if there is a mutator to choose and the weights sum up to more than a word
holds (`Engine.faults_of_setup`).
-/

namespace PointMutation

namespace Distribution

/-- A name has the weight that stands by it. -/
theorem weight_of_mem {d : Distribution} {name : String} {weight : UInt32}
    (h : (name, weight) ∈ d.entries) : d.weight? name = some weight := by
  have hsorted := d.sorted
  show d.entries.lookup name = some weight
  generalize d.entries = es at h hsorted
  induction es with
  | nil => cases h
  | cons e es ih =>
    obtain ⟨hfirst, hrest⟩ := List.pairwise_cons.mp hsorted
    rcases List.mem_cons.mp h with rfl | h
    · simp
    · have hne : name ≠ e.1 := fun heq => String.lt_irrefl _ (heq ▸ hfirst _ h)
      have hbeq : (name == e.1) = false := by simpa using hne
      rw [List.lookup_cons, hbeq]
      exact ih h hrest

theorem mem_of_weight {d : Distribution} {name : String} {weight : UInt32}
    (h : d.weight? name = some weight) : (name, weight) ∈ d.entries := by
  obtain ⟨front, behind, hsplit, -⟩ := List.lookup_eq_some_iff.mp h
  simp [hsplit]

end Distribution

/-! ## Configurations -/

theorem Config.validate_iff (c : Config) :
    c.validate = .ok () ↔
      c.engine.validate = .ok () ∧ c.insertion.validate = .ok () ∧ c.wrapping.validate = .ok () := by
  unfold Config.validate
  cases c.engine.validate <;> cases c.insertion.validate <;> cases c.wrapping.validate <;>
    simp [Bind.bind, Except.bind]

theorem EngineConfig.attempts_of_validate {c : EngineConfig} (h : c.validate = .ok ()) :
    0 < c.maxAttempts := by
  unfold EngineConfig.validate at h
  split at h
  · cases h
  · omega

theorem EngineConfig.positive_of_validate {c : EngineConfig} (h : c.validate = .ok ())
    (hne : c.distribution.isEmpty = false) :
    ∃ name weight, (name, weight) ∈ c.distribution.entries ∧ weight ≠ 0 := by
  unfold EngineConfig.validate at h
  rw [hne] at h
  split at h
  · cases h
  · split at h
    · cases h
    · rename_i hweights
      obtain ⟨w, hw, hpositive⟩ : ∃ w ∈ c.distribution.weights, w ≠ 0 := by
        simpa [List.all_eq_true] using hweights
      obtain ⟨⟨name, weight⟩, hmem, rfl⟩ := List.mem_map.mp hw
      exact ⟨name, weight, hmem, hpositive⟩

namespace Engine

/-- A distribution is accepted exactly if all its names are known and some known name has a weight
other than zero. -/
theorem setDistribution_iff {τ : Type} (e : Engine τ) (d : Distribution) :
    (∃ e', e.setDistribution d = .ok e') ↔
      (∀ n ∈ d.names, n ∈ e.registry.names) ∧
        ∃ n ∈ e.registry.names, (d.weight? n).getD 0 ≠ 0 := by
  unfold Engine.setDistribution
  split
  · rename_i n hfind
    have hn := List.find?_some hfind
    refine iff_of_false (by simp) fun h => ?_
    simp [h.1 n (List.mem_of_find?_eq_some hfind)] at hn
  · rename_i hfind
    have hknown : ∀ n ∈ d.names, n ∈ e.registry.names := by
      intro n hn
      simpa using List.find?_eq_none.mp hfind n hn
    dsimp only
    split
    · rename_i hzero
      refine iff_of_false (by simp) fun h => ?_
      obtain ⟨n, hn, hpositive⟩ := h.2
      have hweight := List.all_eq_true.mp hzero _ (List.mem_map_of_mem hn)
      exact hpositive (by simpa using hweight)
    · rename_i hpositive
      refine iff_of_true ⟨_, rfl⟩ ⟨hknown, ?_⟩
      simpa [List.all_eq_true] using hpositive

/-- With an accepted configuration and at least one mutator, only names can be wrong. -/
theorem ofConfig_iff {τ : Type} {registry : Registry τ} {c : EngineConfig} (r : RandomSource)
    (hc : c.validate = .ok ()) (hregistry : registry.isEmpty = false) :
    (∃ e, Engine.ofConfig registry c r = .ok e) ↔
      ∀ n ∈ c.distribution.names, n ∈ registry.names := by
  have hconfig : Engine.ofConfig registry c r =
      if c.distribution.isEmpty then .ok ⟨registry, c, r, registry.names.map fun _ => 1, []⟩
      else setDistribution ⟨registry, c, r, registry.names.map fun _ => 1, []⟩ c.distribution := by
    unfold Engine.ofConfig
    rw [hc, hregistry]
    rfl
  rw [hconfig]
  cases hempty : c.distribution.isEmpty with
  | true =>
    have hnames : c.distribution.names = [] := by
      rw [Distribution.isEmpty, List.isEmpty_iff] at hempty
      rw [Distribution.names, hempty, List.map_nil]
    exact iff_of_true ⟨_, rfl⟩ (by simp [hnames])
  | false =>
    rw [if_neg (by decide), setDistribution_iff]
    refine ⟨fun h => h.1, fun h => ⟨h, ?_⟩⟩
    obtain ⟨name, weight, hmem, hpositive⟩ := EngineConfig.positive_of_validate hc hempty
    refine ⟨name, h name (List.mem_map_of_mem hmem), ?_⟩
    rwa [Distribution.weight_of_mem hmem]

end Engine

/-! ## Both mutators together -/

/-- Both mutators as they are set up. -/
def Registry.both (c : Config) (own : RandomSource) : Registry Builtin :=
  ⟨[(Builtin.insertion ⟨c.insertion.probability,
      ⟨c.insertion.nameLength, c.insertion.kinds.1, c.insertion.annotated⟩, own, {}, 0⟩).mutator,
    (Builtin.wrapping ⟨c.wrapping.kinds.1, {}, 0, 0⟩).mutator]⟩

theorem Registry.names_both (c : Config) (own : RandomSource) :
    (Registry.both c own).names = [Insertion.name, Wrapping.name] := rfl

theorem Registry.standard_eq {c : Config} (h : c.validate = .ok ()) (r : RandomSource) :
    Registry.standard c r = .ok (Registry.both c r.fork.1, r.fork.2) := by
  obtain ⟨-, hinsertion, hwrapping⟩ := c.validate_iff.mp h
  unfold Registry.standard
  generalize r.fork = drawn
  obtain ⟨own, r'⟩ := drawn
  simp only [Insertion.ofConfig, hinsertion, Wrapping.ofConfig, hwrapping]
  rfl

namespace Engine

theorem standard_eq {c : Config} (h : c.validate = .ok ()) (r : RandomSource) :
    Engine.standard c r = Engine.ofConfig (Registry.both c r.fork.1) c.engine r.fork.2 := by
  unfold Engine.standard
  rw [h, Registry.standard_eq h]
  rfl

theorem standard_iff (c : Config) (r : RandomSource) :
    (∃ e, Engine.standard c r = .ok e) ↔
      c.validate = .ok () ∧
        ∀ n ∈ c.engine.distribution.names, n = Insertion.name ∨ n = Wrapping.name := by
  cases hc : c.validate with
  | error fault =>
    refine iff_of_false ?_ (by simp)
    rintro ⟨e, he⟩
    unfold Engine.standard at he
    rw [hc] at he
    cases he
  | ok _ =>
    have hengine := (c.validate_iff.mp hc).1
    rw [standard_eq hc, ofConfig_iff r.fork.2 hengine rfl, Registry.names_both]
    simp

/-! ## Whatever an engine has done -/

theorem sound_of_standard {c : Config} {r : RandomSource} {e : Engine Builtin}
    (h : Engine.standard c r = .ok e) : e.Sound := by
  have hc := ((standard_iff c r).mp ⟨e, h⟩).1
  have hinsertion := (c.validate_iff.mp hc).2.1
  have hdeclares := Insertion.declares_of_nameLength
    (p := ⟨c.insertion.nameLength, c.insertion.kinds.1, c.insertion.annotated⟩)
    (Insertion.nameLength_of_validate hinsertion)
  have hstart : Sound ⟨Registry.both c r.fork.1, c.engine, r.fork.2, [1, 1], []⟩ := by
    refine ⟨rfl, ⟨1, by simp, by decide⟩, fun m hm => ?_⟩
    simp only [Registry.both, List.mem_cons, List.not_mem_nil, or_false] at hm
    rcases hm with rfl | rfl
    · exact hdeclares
    · exact trivial
  rw [standard_eq hc] at h
  unfold Engine.ofConfig at h
  rw [(c.validate_iff.mp hc).1] at h
  have h : (if c.engine.distribution.isEmpty then
      .ok ⟨Registry.both c r.fork.1, c.engine, r.fork.2, [1, 1], []⟩
    else setDistribution ⟨Registry.both c r.fork.1, c.engine, r.fork.2, [1, 1], []⟩
      c.engine.distribution) = Except.ok e := h
  split at h
  · cases h
    exact hstart
  · exact hstart.setDistribution h

/-- An engine that was set up with both mutators, and has transformed sources and accepted
distributions since. -/
inductive Reachable (c : Config) (r : RandomSource) : Engine Builtin → Prop
  | start {e : Engine Builtin} (h : Engine.standard c r = .ok e) : Reachable c r e
  | transform {e : Engine Builtin} (h : Reachable c r e) (label : Option String) (s : Source) :
      Reachable c r (e.transform label s).2
  | distribution {e e' : Engine Builtin} (h : Reachable c r e) (d : Distribution)
      (hd : e.setDistribution d = .ok e') : Reachable c r e'

theorem Reachable.sound {c : Config} {r : RandomSource} {e : Engine Builtin}
    (h : Reachable c r e) : e.Sound := by
  induction h with
  | start h => exact sound_of_standard h
  | transform _ label s ih => exact (ih.steps label _ s).1
  | distribution _ d hd ih => exact ih.setDistribution hd

/-- An engine can be set up exactly if its configuration is accepted and names no other mutators.
From then on it complains of how it was set up exactly if there is a mutator to choose and the
weights sum up to more than a word holds. -/
theorem faults_of_setup (c : Config) (r : RandomSource) :
    ((∃ e, Engine.standard c r = .ok e) ↔
      c.validate = .ok () ∧
        ∀ n ∈ c.engine.distribution.names, n = Insertion.name ∨ n = Wrapping.name) ∧
    ∀ e, Reachable c r e → ∀ label s,
      (∃ fault, (e.transform label s).1 = .error fault ∧ fault.IsSetup) ↔
        0 < e.config.transformations ∧ UInt32.size ≤ RandomSource.total e.weights :=
  ⟨standard_iff c r, fun _ he label s => (he.sound.steps label _ s).2.2⟩

/-- Without a configuration there is nothing to complain of. -/
theorem faults_of_setup_default :
    ∃ (e : Engine Builtin) (s : Source), Engine.standard {} (.seeded 0) = .ok e ∧
      Reachable {} (.seeded 0) e ∧ s.text = [] ∧
      ¬ ∃ fault, (e.transform none s).1 = .error fault ∧ fault.IsSetup := by
  have hfaults := faults_of_setup {} (.seeded 0)
  have hvalidate : Config.validate {} = .ok () := by decide +kernel
  obtain ⟨e, he⟩ := hfaults.1.mpr ⟨hvalidate, by decide⟩
  obtain ⟨s, hs⟩ := Source.exists_of_isOk (t := []) (by decide +kernel)
  have hweights : e.weights = [1, 1] := by
    rw [standard_eq hvalidate] at he
    cases he
    rfl
  refine ⟨e, s, he, .start he, hs, fun h => ?_⟩
  have hle := ((hfaults.2 e (.start he) none s).mp h).2
  rw [hweights] at hle
  exact absurd hle (by decide)

/-- Two weights that sum up to too much are accepted, and complained of by the first step. -/
theorem faults_of_setup_overflow :
    ∃ (c : Config) (e : Engine Builtin) (s : Source), c.validate = .ok () ∧
      c.engine.distribution.entries = [(Insertion.name, 4294967295), (Wrapping.name, 1)] ∧
      Engine.standard c (.seeded 0) = .ok e ∧ s.text = [] ∧
      (e.transform none s).1 =
        .error (.configuration "invalid distribution: Overflow when summing weights") := by
  let c : Config :=
    { engine := { distribution := .ofList [(Insertion.name, 4294967295), (Wrapping.name, 1)] } }
  have hvalidate : c.validate = .ok () := by decide +kernel
  obtain ⟨e, he⟩ := (standard_iff c (.seeded 0)).mpr ⟨hvalidate, by decide +kernel⟩
  obtain ⟨s, hs⟩ := Source.exists_of_isOk (t := []) (by decide +kernel)
  have hweights : e.weights = [4294967295, 1] := by
    rw [standard_eq hvalidate] at he
    cases he
    decide +kernel
  have hconfig : e.config = c.engine := by
    rw [standard_eq hvalidate] at he
    cases he
    rfl
  refine ⟨c, e, s, hvalidate, by decide +kernel, he, hs, ?_⟩
  have hoverflow : UInt32.size ≤ RandomSource.total e.weights := by
    rw [hweights]
    decide
  rw [Engine.transform, hconfig]
  show (Engine.steps none 1 e s).1 = _
  rw [Engine.steps, step_overflow hoverflow]

end Engine

end PointMutation
