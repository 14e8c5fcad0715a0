import PointMutation.Mutator.Run

/-!
# How runs end

A run makes passes that neither fail nor work (`Machine.Idle`) until one of them fails, one of them
works, or none is left. There is no other way for it to end (`Machine.run_ends`).
-/

namespace PointMutation

namespace Machine

variable {τ : Type} [Machine τ]

/-- Some passes over a source that neither fail nor work lead from one state to another. -/
inductive Idle (s : Source) : Nat → τ → τ → Prop
  | none (m : τ) : Idle s 0 m m
  | more {k : Nat} {m m' m'' : τ} {s' : Source} (hpass : pass s m = (.ok s', m'))
    (hworked : worked m' = false) (hrest : Idle s k m' m'') : Idle s (k + 1) m m''

/-- How up to `budget` passes over a source end from a state on, after `made` others. -/
inductive Ends (s : Source) (made budget : Nat) (m : τ) : Except Fault Outcome × τ → Prop
  /-- All of them were in vain. -/
  | spent {m' : τ} (h : Idle s budget m m') :
    Ends s made budget m (.ok ⟨s, false, made + budget⟩, m')
  /-- One of them works. -/
  | worked {k : Nat} {m₁ m' : τ} {s' : Source} (hk : k < budget) (h : Idle s k m m₁)
    (hpass : pass s m₁ = (.ok s', m')) (hworked : worked m' = true) :
    Ends s made budget m (.ok ⟨s', true, made + (k + 1)⟩, acknowledge m')
  /-- One of them fails. -/
  | failed {k : Nat} {m₁ m' : τ} {e : Fault} (hk : k < budget) (h : Idle s k m m₁)
    (hpass : pass s m₁ = (.error e, m')) : Ends s made budget m (.error e, m')

/-- One more pass in vain before the others. -/
theorem Ends.after {s s' : Source} {made budget : Nat} {m m' : τ} {r : Except Fault Outcome × τ}
    (hpass : pass s m = (.ok s', m')) (hworked : Machine.worked m' = false)
    (h : Ends s (made + 1) budget m' r) : Ends s made (budget + 1) m r := by
  have hmade : ∀ k, made + 1 + k = made + (k + 1) := fun k => by omega
  cases h with
  | spent h =>
    rw [hmade]
    exact .spent (.more hpass hworked h)
  | worked hk h hpass' hworked' =>
    rw [hmade]
    exact .worked (Nat.succ_lt_succ hk) (.more hpass hworked h) hpass' hworked'
  | failed hk h hpass' => exact .failed (Nat.succ_lt_succ hk) (.more hpass hworked h) hpass'

theorem passes_ends (s : Source) (made budget : Nat) (m : τ) :
    Ends s made budget m (passes s made budget m) := by
  induction budget generalizing made m with
  | zero => exact .spent (.none m)
  | succ budget ih =>
    rw [passes]
    cases hpass : pass s m with
    | mk answer m' =>
      cases answer with
      | error e => exact .failed (Nat.succ_pos budget) (.none m) hpass
      | ok s' =>
        dsimp only
        cases hworked : worked m' with
        | true => exact .worked (Nat.succ_pos budget) (.none m) hpass hworked
        | false => exact (ih (made + 1) m').after hpass hworked

/-- The pass that works is one of those that are made. -/
theorem lt_attempts_of_passes {s : Source} {made budget : Nat} {m m' : τ} {o : Outcome}
    (h : passes s made budget m = (.ok o, m')) (ho : o.worked = true) : made < o.attempts := by
  have hends := passes_ends s made budget m
  rw [h] at hends
  cases hends with
  | spent _ => cases ho
  | worked _ _ _ _ => exact Nat.lt_add_of_pos_right (Nat.succ_pos _)

/-- A run ends in one of three ways. -/
theorem run_ends (n : Nat) (s : Source) (m : τ) : Ends s 0 n (reset m) (run n s m) :=
  passes_ends s 0 n (reset m)

/-- What the outcome of a run tells: one that is not said to have worked has made all its passes and
gives the source back, any other gives what the last of its passes gave. -/
structure IsTrue (n : Nat) (s : Source) (m : τ) (o : Outcome) : Prop where
  idle : o.worked = false → o.attempts = n ∧ o.source = s
  worked : o.worked = true → 1 ≤ o.attempts ∧ o.attempts ≤ n ∧
    ∃ m₁ m', Idle s (o.attempts - 1) (reset m) m₁ ∧ pass s m₁ = (.ok o.source, m') ∧
      Machine.worked m' = true

/-- The outcome of a run is true to what the run has done. -/
theorem isTrue_of_run {n : Nat} {s : Source} {m m' : τ} {o : Outcome}
    (h : run n s m = (.ok o, m')) : IsTrue n s m o := by
  have hends := run_ends n s m
  rw [h] at hends
  cases hends with
  | spent _ => exact ⟨fun _ => ⟨Nat.zero_add n, rfl⟩, fun hworked => by cases hworked⟩
  | worked hk hidle hpass hworked =>
    rw [Nat.zero_add]
    refine ⟨fun hworked => (by cases hworked), fun _ => ⟨Nat.succ_pos _, hk, ?_⟩⟩
    exact ⟨_, _, hidle, hpass, hworked⟩

end Machine

end PointMutation
