import PointMutation.Mutator.Basic

/-!
# Runs

A run resets a machine and lets it make passes over the same source until one of them works, but
no more than a given number. A pass that fails ends the run.
-/

namespace PointMutation

/-- What a run comes to. -/
structure Outcome where
  source : Source
  worked : Bool
  attempts : Nat
  deriving DecidableEq

namespace Machine

variable {τ : Type} [Machine τ]

/-- Up to `budget` passes after `made` others. -/
def passes (s : Source) (made : Nat) : Nat → τ → Except Fault Outcome × τ
  | 0, m => (.ok ⟨s, false, made⟩, m)
  | budget + 1, m =>
    match pass s m with
    | (.error e, m) => (.error e, m)
    | (.ok s', m) =>
      if worked m then (.ok ⟨s', true, made + 1⟩, acknowledge m)
      else passes s (made + 1) budget m

/-- A run of up to `maxAttempts` passes. -/
def run (maxAttempts : Nat) (s : Source) (m : τ) : Except Fault Outcome × τ :=
  passes s 0 maxAttempts (reset m)

end Machine

end PointMutation
