import PointMutation.Proofs.Mutator.Attempts
import PointMutation.Proofs.Mutator.Calls

/-!
# What a run asks of its machine

Whatever a machine does, a run over a source resets it and lets it make passes over that source, one
after the other, up to the first one that decides (`Machine.Decides`): one that fails, or one behind
which the machine says that it has worked. There are three ways in which it closes
(`Machine.Closes`), and only the one behind a pass that worked tells the machine to take note
(`Machine.run_calls`).
-/

namespace PointMutation

namespace Machine

variable {τ : Type} [Machine τ]

/-! ## Passes by their numbers -/

/-- A machine behind some passes over a source, whatever came of them. -/
def behind (s : Source) (m : τ) : Nat → τ
  | 0 => m
  | k + 1 => behind s (pass s m).2 k

/-- What the pass with a number gives. The first one has the number zero. -/
def answerAt (s : Source) (m : τ) (k : Nat) : Except Fault Source := (pass s (behind s m k)).1

/-- Whether the pass with a number is one to stop at: it fails, or the machine says behind it that it
has worked. -/
def Decides (s : Source) (m : τ) (k : Nat) : Prop :=
  (∃ e, answerAt s m k = .error e) ∨ worked (behind s m (k + 1)) = true

variable {s : Source} {m m' : τ} {k : Nat}

/-- The state behind one more pass is the one that the last pass leaves. -/
theorem behind_succ (s : Source) (m : τ) (k : Nat) :
    behind s m (k + 1) = (pass s (behind s m k)).2 := by
  induction k generalizing m with
  | zero => rfl
  | succ k ih => exact ih (pass s m).2

/-- Passes in vain are those none of which is one to stop at. -/
theorem Idle.behind (h : Idle s k m m') :
    m' = Machine.behind s m k ∧ ∀ j < k, ¬ Decides s m j := by
  induction h with
  | none m => exact ⟨rfl, fun j hj => absurd hj (Nat.not_lt_zero j)⟩
  | @more k m m₁ m' s' hpass hworked _ ih =>
    obtain ⟨hstate, hvain⟩ := ih
    have hnext : m₁ = (pass s m).2 := by rw [hpass]
    rw [hnext] at hstate hvain hworked
    refine ⟨hstate, fun j hj => ?_⟩
    cases j with
    | zero =>
      rintro (⟨e, he⟩ | hdone)
      · have hok : answerAt s m 0 = .ok s' := congrArg Prod.fst hpass
        rw [hok] at he
        cases he
      · exact absurd (hworked.symm.trans hdone) (by decide)
    | succ j => exact hvain j (Nat.lt_of_succ_lt_succ hj)

/-! ## How a run closes -/

/-- How a run of up to `n` passes over a source closes behind `k` of them, where `m` is the machine
behind its reset: what the machine is told then, what the run comes to, and the machine that it
leaves. -/
inductive Closes (n : Nat) (s : Source) (m : τ) :
    Nat → List Event → Except Fault Outcome → τ → Prop
  /-- The last pass fails. -/
  | failed {k : Nat} {e : Fault} (hlast : answerAt s m k = .error e) :
    Closes n s m (k + 1) [] (.error e) (behind s m (k + 1))
  /-- The last pass works. -/
  | worked {k : Nat} {s' : Source} (hlast : answerAt s m k = .ok s')
    (hworked : worked (behind s m (k + 1)) = true) :
    Closes n s m (k + 1) [.acknowledge] (.ok ⟨s', true, k + 1⟩) (acknowledge (behind s m (k + 1)))
  /-- None of the passes is one to stop at. -/
  | spent (hvain : ∀ j < n, ¬ Decides s m j) :
    Closes n s m n [] (.ok ⟨s, false, n⟩) (behind s m n)

/-- There is no other way for a run to close, and no pass before its last one is one to stop at. -/
theorem run_closes (n : Nat) (s : Source) (m : τ) :
    ∃ k ≤ n, ∃ told, (∀ j, j + 1 < k → ¬ Decides s (reset m) j) ∧
      Closes n s (reset m) k told (run n s m).1 (run n s m).2 := by
  have hends := run_ends n s m
  generalize run n s m = done at hends ⊢
  cases hends with
  | spent hidle =>
    obtain ⟨rfl, hvain⟩ := hidle.behind
    rw [Nat.zero_add]
    exact ⟨n, Nat.le_refl n, [], fun j hj => hvain j (by omega), .spent hvain⟩
  | @worked k m₁ m' s' hk hidle hpass hworked =>
    obtain ⟨rfl, hvain⟩ := hidle.behind
    have hlast : m' = behind s (reset m) (k + 1) := by rw [behind_succ, hpass]
    rw [hlast] at hworked ⊢
    rw [Nat.zero_add]
    exact ⟨k + 1, hk, [.acknowledge], fun j hj => hvain j (by omega),
      .worked (congrArg Prod.fst hpass) hworked⟩
  | @failed k m₁ m' e hk hidle hpass =>
    obtain ⟨rfl, hvain⟩ := hidle.behind
    have hlast : m' = behind s (reset m) (k + 1) := by rw [behind_succ, hpass]
    rw [hlast]
    exact ⟨k + 1, hk, [], fun j hj => hvain j (by omega), .failed (congrArg Prod.fst hpass)⟩

/-! ## A machine that writes down what it is told -/

namespace Logged

theorem behind_eq (s : Source) (l : Logged τ) (k : Nat) :
    behind s l k = ⟨behind s l.machine k, l.log ++ List.replicate k (.pass s)⟩ := by
  induction k generalizing l with
  | zero => simp [behind]
  | succ k ih =>
    have hpass : (pass s l).2 = ⟨(pass s l.machine).2, l.log ++ [.pass s]⟩ := rfl
    rw [behind, ih, hpass, List.replicate_succ]
    simp [behind]

theorem answerAt_eq (s : Source) (l : Logged τ) (k : Nat) :
    answerAt s l k = answerAt s l.machine k := by
  rw [answerAt, behind_eq]
  rfl

theorem decides_iff (s : Source) (l : Logged τ) (k : Nat) :
    Decides s l k ↔ Decides s l.machine k := by
  rw [Decides, answerAt_eq, behind_eq]
  rfl

/-- A run closes as that of the machine itself does, with its passes and what is told then written
down. -/
theorem closes {n : Nat} {l l' : Logged τ} {told : List Event} {answer : Except Fault Outcome}
    (h : Closes n s l k told answer l') :
    Closes n s l.machine k told answer l'.machine ∧
      l'.log = l.log ++ List.replicate k (.pass s) ++ told := by
  cases h with
  | failed hlast =>
    rw [answerAt_eq] at hlast
    rw [behind_eq, List.append_nil]
    exact ⟨.failed hlast, rfl⟩
  | worked hlast hworked =>
    rw [answerAt_eq] at hlast
    rw [behind_eq] at hworked ⊢
    exact ⟨.worked hlast hworked, rfl⟩
  | spent hvain =>
    simp only [decides_iff] at hvain
    rw [behind_eq, List.append_nil]
    exact ⟨.spent hvain, rfl⟩

end Logged

/-- A run of up to `n` passes resets the machine before anything else, and then lets it make `k`
passes over the source itself, none of which but the last one fails or works. It closes because the
last one fails, with its fault, because the last one works, with what that gives and one note of it,
or because there are `n` of them, all in vain, with the source itself. -/
theorem run_calls (n : Nat) (s : Source) (l : Logged τ) :
    ∃ k ≤ n, ∃ told,
      (run n s l).2.log = l.log ++ .reset :: List.replicate k (.pass s) ++ told ∧
      (∀ j, j + 1 < k → ¬ Decides s (reset l.machine) j) ∧
      Closes n s (reset l.machine) k told (run n s l.machine).1 (run n s l.machine).2 := by
  obtain ⟨k, hk, told, hvain, hcloses⟩ := run_closes n s l
  obtain ⟨hmachine, hlog⟩ := Logged.closes hcloses
  obtain ⟨_, _, hlogged⟩ := run_logged n s l
  have hreset : reset l = ⟨reset l.machine, l.log ++ [.reset]⟩ := rfl
  simp only [Logged.decides_iff, hreset] at hvain hmachine hlog
  refine ⟨k, hk, told, ?_, hvain, ?_⟩
  · rw [hlog, List.append_assoc l.log]
    rfl
  · rw [hlogged] at hmachine
    exact hmachine

end Machine

end PointMutation
