import PointMutation.Proofs.Engine.Standard
import PointMutation.Proofs.Wrapping.Rounds

/-!
# Engines that only wrap

An engine whose only weight belongs to the wrapping of literals makes a round in each step. So it
puts as many wraps around the first literal as it makes steps, as long as the wrapped texts can be
read and the literal stays the first one (`Engine.wraps_accumulate`).
-/

namespace PointMutation

namespace Builtin

/-- Both machines together make the passes of the one that wraps. -/
theorem passes_wrapping (s : Source) (made budget : Nat) (m : Wrapping) :
    Machine.passes s made budget (wrapping m) =
      ((Machine.passes s made budget m).1, wrapping (Machine.passes s made budget m).2) := by
  induction budget generalizing made m with
  | zero => rfl
  | succ budget ih =>
    rw [Machine.passes, Machine.passes]
    have hpass : Machine.pass s (wrapping m) =
        ((Machine.pass s m).1, wrapping (Machine.pass s m).2) := rfl
    rw [hpass]
    cases Machine.pass s m with
    | mk answer m' =>
      cases answer with
      | error fault => rfl
      | ok s' =>
        show (if Machine.worked m' then _ else _) = _
        cases hworked : Machine.worked m' with
        | true =>
          simp only [hworked, if_true]
          rfl
        | false =>
          simp only [hworked, Bool.false_eq_true, if_false]
          exact ih (made + 1) m'

end Builtin

namespace Engine

open Wrapping (FirstAt Accumulates nested nested_zero run_nested rounds_nested)

/-- An engine that selects only the wrapping of literals. -/
structure OnlyWraps (kinds : List LiteralKind) (e : Engine Builtin) : Prop where
  weights : ∃ w, e.weights = [0, w] ∧ w ≠ 0
  attempts : 0 < e.config.maxAttempts
  mutator : ∃ mu m, e.registry.mutators[1]? = some mu ∧ mu.state = .wrapping m ∧ m.kinds = kinds

theorem OnlyWraps.weighted {kinds : List LiteralKind} {e : Engine Builtin} (h : e.OnlyWraps kinds) :
    ∃ r, e.random.weighted e.weights = (.ok 1, r) := by
  obtain ⟨w, hw, hne⟩ := h.weights
  have htotal : RandomSource.total e.weights < UInt32.size := by
    rw [hw]
    have := w.toNat_lt
    simpa [RandomSource.total] using this
  obtain ⟨j, r, hweighted, -⟩ :=
    RandomSource.weighted_ok ⟨w, by simp [hw], hne⟩ htotal e.random
  obtain ⟨w', hw', hne'⟩ := RandomSource.weighted_positive hweighted
  rw [hw] at hw'
  rcases j with - | - | j
  · exact absurd (Option.some.inj hw').symm hne'
  · exact ⟨r, hweighted⟩
  · cases hw'

/-- A step of the engine is a round. -/
theorem OnlyWraps.step {kinds : List LiteralKind} {e : Engine Builtin} (h : e.OnlyWraps kinds)
    (label : Option String) {t : Text} {s s' : Source} {start stop i : Nat} (hstart : start ≤ stop)
    (hstop : stop ≤ t.length) (hs : s.text = nested t start stop i)
    (hfirst : FirstAt kinds s (start + 9 * i) (stop + 9 * i))
    (hs' : s'.text = nested t start stop (i + 1)) :
    (e.step label s).1 = .ok s' ∧ (e.step label s).2.OnlyWraps kinds := by
  obtain ⟨r, hweighted⟩ := h.weighted
  obtain ⟨⟨name, categories, state⟩, m, hmu, rfl, rfl⟩ := h.mutator
  obtain ⟨n, hn⟩ : ∃ n, e.config.maxAttempts = n + 1 := Nat.exists_eq_succ_of_ne_zero h.attempts.ne'
  obtain ⟨hrun, hkinds⟩ := run_nested n hstart hstop hs hfirst hs'
  have hboth : Machine.run e.config.maxAttempts s (Builtin.wrapping m) =
      (.ok ⟨s', true, 1⟩, .wrapping (Machine.run (n + 1) s m).2) := by
    rw [hn, ← hrun]
    exact Builtin.passes_wrapping s 0 (n + 1) (Machine.reset m)
  rw [Engine.step, hweighted]
  simp only [Engine.runAt, hmu, hboth]
  refine ⟨trivial, h.weights, h.attempts,
    ⟨name, categories, .wrapping (Machine.run (n + 1) s m).2⟩, _, ?_, rfl, hkinds⟩
  simp [Registry.setState, hmu]

/-- As many steps put as many wraps around the literal. -/
theorem OnlyWraps.steps {kinds : List LiteralKind} {e : Engine Builtin} (h : e.OnlyWraps kinds)
    (label : Option String) {t : Text} {s : Source} {start stop : Nat} (i k : Nat)
    (hstart : start ≤ stop) (hstop : stop ≤ t.length)
    (ha : Accumulates kinds t start stop (i + k)) (hs : s.text = nested t start stop i) :
    ∃ s', (Engine.steps label k e s).1 = .ok s' ∧ s'.text = nested t start stop (i + k) := by
  induction k generalizing i e s with
  | zero => exact ⟨s, rfl, hs⟩
  | succ k ih =>
    obtain ⟨s₂, hs₂, hfirst⟩ := ha.source_succ hs
    obtain ⟨hstep, hwraps⟩ := h.step label hstart hstop hs hfirst hs₂
    have hshift : i + 1 + k = i + (k + 1) := by omega
    obtain ⟨s', hsteps, hs'⟩ := ih hwraps (i + 1) (by rwa [hshift]) hs₂
    rw [hshift] at hs'
    refine ⟨s', ?_, hs'⟩
    rw [Engine.steps]
    cases he : e.step label s with
    | mk answer e' =>
      rw [he] at hstep hsteps
      obtain rfl : answer = .ok s₂ := hstep
      exact hsteps

/-- An engine whose distribution has no weight but that of the wrapping selects only this. -/
theorem onlyWraps_of_standard {c : Config} {r : RandomSource} {e : Engine Builtin}
    (h : Engine.standard c r = .ok e) (hne : c.engine.distribution.isEmpty = false)
    (honly : ∀ n w, (n, w) ∈ c.engine.distribution.entries → w ≠ 0 → n = Wrapping.name) :
    e.OnlyWraps c.wrapping.kinds.1 ∧ e.config = c.engine := by
  have hc := ((standard_iff c r).mp ⟨e, h⟩).1
  have hengine := (c.validate_iff.mp hc).1
  rw [standard_eq hc, Engine.ofConfig, hengine] at h
  have h : setDistribution ⟨Registry.both c r.fork.1, c.engine, r.fork.2, [1, 1], []⟩
      c.engine.distribution = .ok e := by
    have hif : (if c.engine.distribution.isEmpty then
        .ok ⟨Registry.both c r.fork.1, c.engine, r.fork.2, [1, 1], []⟩
      else setDistribution ⟨Registry.both c r.fork.1, c.engine, r.fork.2, [1, 1], []⟩
        c.engine.distribution) = Except.ok e := h
    rwa [hne] at hif
  rw [setDistribution] at h
  split at h
  · cases h
  · dsimp only at h
    split at h
    · cases h
    · next hpositive =>
      cases h
      have hinsertion : (c.engine.distribution.weight? Insertion.name).getD 0 = 0 := by
        cases hw : c.engine.distribution.weight? Insertion.name with
        | none => rfl
        | some w =>
          by_contra hne
          exact absurd (honly _ w (Distribution.mem_of_weight hw) hne) (by decide)
      have hweights : (Registry.both c r.fork.1).names.map
          (fun n => (c.engine.distribution.weight? n).getD 0) =
          [0, (c.engine.distribution.weight? Wrapping.name).getD 0] := by
        rw [Registry.names_both, List.map_cons, hinsertion]
        rfl
      rw [hweights] at hpositive ⊢
      refine ⟨⟨⟨_, rfl, fun hzero => hpositive ?_⟩, EngineConfig.attempts_of_validate hengine,
        ⟨_, _, rfl, rfl, rfl⟩⟩, rfl⟩
      rw [hzero]
      rfl

-- A quotation may start a line of a bracket whatever its indentation, but a wrap may not.
example : (Syntax.readTree "if a:\n    x = [b +\n\"s\"]\n".toList).isSome ∧
    Syntax.readTree (nested "if a:\n    x = [b +\n\"s\"]\n".toList 19 22 1) = none := by
  decide +kernel

end Engine

end PointMutation
