import PointMutation.Engine
import PointMutation.Proofs.Insertion.Setup
import PointMutation.Proofs.Random.Weighted
import PointMutation.Proofs.Wrapping.Pass

/-!
# Faults of engines

An engine with both mutators can be set up exactly if its configuration is accepted and names no
other mutators (`Engine.standard_isOk`). From then on the mutators complain of nothing but edits
that cannot be read. Only the choice of a mutator can still complain of a configuration, and it
does exactly if the weights sum up to more than a word holds (`Engine.Reachable.transform`).
-/

namespace PointMutation

/-- Whether a fault is about how something was set up. -/
def Fault.IsSetup : Fault → Prop
  | .configuration _ | .invalidLength _ => True
  | _ => False

/-- Whether a fault is about an edit that cannot be read. -/
def Fault.IsMismatch : Fault → Prop
  | .mismatch _ _ => True
  | _ => False

theorem Fault.IsMismatch.not_isSetup {e : Fault} (h : e.IsMismatch) : ¬ e.IsSetup := by
  cases e <;> first | exact id | exact h.elim

/-! ## Machines -/

theorem Fold.isMismatch_of_rewritten {s : Source} {es : List Edit} {e : Fault}
    (h : Fold.rewritten s es = .error e) : e.IsMismatch := by
  unfold Fold.rewritten at h
  split at h
  · cases h
  · split at h
    · cases h
    · cases h
      trivial

namespace Builtin

/-- A machine that draws nothing but declarations. -/
def Draws : Builtin → Prop
  | insertion m => Insertion.Declares m.pattern
  | wrapping _ => True

theorem keeps_draws : Machine.Keeps Builtin Draws Fault.IsMismatch where
  pass s m hm hworked := by
    cases m with
    | insertion m =>
      have hpattern := Insertion.pass_pattern hm hworked s
      obtain ⟨found, p, -, -, hpass⟩ := Insertion.pass_eq hm hworked s
      refine ⟨?_, fun e he => ?_⟩
      · show Insertion.Declares (Machine.pass s m).2.pattern
        rw [hpattern]
        exact hm
      · have he : (Machine.pass s m).1 = .error e := he
        rw [hpass] at he
        exact Fold.isMismatch_of_rewritten he
    | wrapping m =>
      refine ⟨trivial, fun e he => ?_⟩
      have he : (Machine.pass s m).1 = .error e := he
      rw [(Wrapping.pass_eq s hworked).1] at he
      exact Fold.isMismatch_of_rewritten he
  reset m hm := by cases m <;> exact ⟨hm, rfl⟩
  acknowledge m hm := by cases m <;> exact hm

end Builtin

/-! ## Steps of an engine -/

namespace Engine

/-- An engine from whose weights a mutator can be chosen, all of whose machines draw nothing but
declarations. -/
structure Sound (e : Engine Builtin) : Prop where
  weights : e.weights.length = e.registry.mutators.length
  positive : ∃ w ∈ e.weights, w ≠ 0
  machines : ∀ m ∈ e.registry.mutators, m.state.Draws

/-- The same weights and as many steps to make. -/
structure Alike (e e' : Engine Builtin) : Prop where
  weights : e'.weights = e.weights
  config : e'.config = e.config

theorem mem_setState {τ : Type} {r : Registry τ} {i : Nat} {state : τ} {m : Mutator τ}
    (h : m ∈ (r.setState i state).mutators) : m ∈ r.mutators ∨ m.state = state := by
  obtain ⟨j, hj⟩ := List.mem_iff_getElem?.mp h
  simp only [Registry.setState, List.getElem?_modify] at hj
  cases hm : r.mutators[j]? with
  | none => simp [hm] at hj
  | some m' =>
    by_cases hij : i = j
    · right
      simp only [hm, hij, if_true, Option.map_eq_map, Option.map_some, Option.some.injEq] at hj
      rw [← hj]
    · left
      simp only [hm, hij, if_false, Option.map_eq_map, Option.map_some, Option.some.injEq] at hj
      rw [← hj]
      exact List.mem_of_getElem? hm

/-- Running a mutator leaves the weights as they are and complains of edits only. -/
theorem Sound.runAt {e : Engine Builtin} (h : e.Sound) (label : Option String) (s : Source)
    {i : Nat} (hi : i < e.registry.mutators.length) :
    (e.runAt label i s).2.Sound ∧ Alike e (e.runAt label i s).2 ∧
      ∀ fault, (e.runAt label i s).1 = .error fault → fault.IsMismatch := by
  have hget := List.getElem?_eq_getElem hi
  have hdraws := h.machines _ (List.getElem_mem hi)
  obtain ⟨hstate, hfault⟩ := Builtin.keeps_draws.run e.config.maxAttempts s hdraws
  rw [Engine.runAt, hget]
  dsimp only
  cases hrun : Machine.run e.config.maxAttempts s e.registry.mutators[i].state with
  | mk outcome state =>
    rw [hrun] at hstate hfault
    have hsound : ∀ records, Sound { e with
        registry := e.registry.setState i state, records := records } := by
      intro records
      refine ⟨?_, h.positive, fun m hm => ?_⟩
      · simpa [Registry.setState] using h.weights
      · rcases mem_setState hm with hm | rfl
        · exact h.machines m hm
        · exact hstate
    cases outcome with
    | error fault =>
      refine ⟨hsound e.records, ⟨rfl, rfl⟩, fun fault' hfault' => ?_⟩
      cases hfault'
      exact hfault fault rfl
    | ok o =>
      refine ⟨hsound _, ⟨rfl, rfl⟩, fun fault hfault => ?_⟩
      cases hfault

theorem Sound.withRandom {e : Engine Builtin} (h : e.Sound) (r : RandomSource) :
    Sound { e with random := r } :=
  ⟨h.weights, h.positive, h.machines⟩

/-- Weights that sum up to too much stop every step. -/
theorem step_overflow {e : Engine Builtin} (h : UInt32.size ≤ RandomSource.total e.weights)
    (label : Option String) (s : Source) :
    e.step label s =
      (.error (.configuration "invalid distribution: Overflow when summing weights"), e) := by
  rw [Engine.step, RandomSource.weighted_overflow h]

/-- A step complains of how the engine was set up if the weights sum up to too much, and else of
edits only. -/
theorem Sound.step {e : Engine Builtin} (h : e.Sound) (label : Option String) (s : Source) :
    (e.step label s).2.Sound ∧ Alike e (e.step label s).2 ∧
      (RandomSource.total e.weights < UInt32.size →
        ∀ fault, (e.step label s).1 = .error fault → fault.IsMismatch) := by
  by_cases htotal : RandomSource.total e.weights < UInt32.size
  · obtain ⟨i, r, hweighted, hi⟩ := RandomSource.weighted_ok h.positive htotal e.random
    rw [h.weights] at hi
    rw [Engine.step, hweighted]
    obtain ⟨hsound, halike, hfault⟩ := (h.withRandom r).runAt label s hi
    exact ⟨hsound, ⟨halike.weights, halike.config⟩, fun _ => hfault⟩
  · rw [step_overflow (Nat.not_lt.mp htotal)]
    exact ⟨h, ⟨rfl, rfl⟩, fun hlt => absurd hlt htotal⟩

/-- Several steps complain of how the engine was set up exactly if there is any step and the weights
sum up to too much. -/
theorem Sound.steps {e : Engine Builtin} (h : e.Sound) (label : Option String) (n : Nat)
    (s : Source) :
    (steps label n e s).2.Sound ∧ Alike e (steps label n e s).2 ∧
      ((∃ fault, (steps label n e s).1 = .error fault ∧ fault.IsSetup) ↔
        0 < n ∧ UInt32.size ≤ RandomSource.total e.weights) := by
  induction n generalizing e s with
  | zero =>
    refine ⟨h, ⟨rfl, rfl⟩, ⟨?_, fun hn => absurd hn.1 (Nat.lt_irrefl 0)⟩⟩
    rintro ⟨fault, hfault, -⟩
    cases hfault
  | succ n ih =>
    obtain ⟨hsound, halike, hmismatch⟩ := h.step label s
    rw [Engine.steps]
    by_cases htotal : RandomSource.total e.weights < UInt32.size
    · have hmismatch := hmismatch htotal
      have hnot : ¬ (0 < n + 1 ∧ UInt32.size ≤ RandomSource.total e.weights) :=
        fun h => absurd h.2 (Nat.not_le.mpr htotal)
      cases hstep : e.step label s with
      | mk answer e' =>
        rw [hstep] at hsound halike hmismatch
        cases answer with
        | error fault =>
          refine ⟨hsound, halike, iff_of_false ?_ hnot⟩
          rintro ⟨fault', hfault', hsetup⟩
          cases hfault'
          exact (hmismatch fault rfl).not_isSetup hsetup
        | ok s' =>
          obtain ⟨hsound', halike', hiff⟩ := ih hsound s'
          refine ⟨hsound', ⟨?_, ?_⟩, iff_of_false (fun hfault => ?_) hnot⟩
          · rw [halike'.weights, halike.weights]
          · rw [halike'.config, halike.config]
          · have hle := (hiff.mp hfault).2
            rw [halike.weights] at hle
            exact absurd hle (Nat.not_le.mpr htotal)
    · have hle := Nat.not_lt.mp htotal
      rw [step_overflow hle]
      exact ⟨h, ⟨rfl, rfl⟩, iff_of_true ⟨_, rfl, trivial⟩ ⟨Nat.succ_pos n, hle⟩⟩

/-- A distribution that is accepted gives weights from which a mutator can be chosen. -/
theorem Sound.setDistribution {e e' : Engine Builtin} (h : e.Sound) {d : Distribution}
    (hd : e.setDistribution d = .ok e') : e'.Sound := by
  unfold Engine.setDistribution at hd
  split at hd
  · cases hd
  · dsimp only at hd
    split at hd
    · cases hd
    · rename_i hpositive
      cases hd
      refine ⟨by simp [Registry.names], ?_, h.machines⟩
      simpa [List.all_eq_true] using hpositive

end Engine

end PointMutation
