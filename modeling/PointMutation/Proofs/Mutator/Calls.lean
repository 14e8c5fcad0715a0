import PointMutation.Proofs.Mutator.Passes

/-!
# Histories of machines

A machine is told to make a pass, to start anew, to take note of a pass that worked, or to make a
run. A machine that writes down what it is told (`Machine.Logged`) shows what a run is made of: one
reset, the passes, and a note at the end if and only if the last pass worked (`run_logged`).
-/

namespace PointMutation

namespace Machine

variable {τ : Type}

/-- What a machine is told to do. -/
inductive Event
  | pass (s : Source)
  | reset
  | acknowledge
  deriving DecidableEq

/-- A machine with all that it has been told. -/
structure Logged (τ : Type) where
  machine : τ
  log : List Event

namespace Logged

/-- A machine that has been told nothing yet. -/
def start (m : τ) : Logged τ := ⟨m, []⟩

/-- How often a machine was told to take note of a pass that worked. -/
def notes (l : Logged τ) : Nat := l.log.count .acknowledge

variable [Machine τ]

instance : Machine (Logged τ) where
  pass s l := ((Machine.pass s l.machine).1, ⟨(Machine.pass s l.machine).2, l.log ++ [.pass s]⟩)
  reset l := ⟨Machine.reset l.machine, l.log ++ [.reset]⟩
  worked l := Machine.worked l.machine
  acknowledge l := ⟨Machine.acknowledge l.machine, l.log ++ [.acknowledge]⟩

@[simp]
theorem notes_pass (s : Source) (l : Logged τ) : (Machine.pass s l).2.notes = l.notes :=
  List.count_append.trans (by simp [notes])

@[simp]
theorem notes_reset (l : Logged τ) : (Machine.reset l).notes = l.notes :=
  List.count_append.trans (by simp [notes])

@[simp]
theorem notes_acknowledge (l : Logged τ) : (Machine.acknowledge l).notes = l.notes + 1 :=
  List.count_append.trans (by simp [notes])

end Logged

/-- Whether a run has ended with a pass that worked. -/
def succeeds : Except Fault Outcome → Bool
  | .ok o => o.worked
  | .error _ => false

/-- What a machine is told behind the passes of a run. -/
def note (answer : Except Fault Outcome) : List Event :=
  if succeeds answer then [.acknowledge] else []

variable [Machine τ]

/-- A machine that writes down what it is told makes the passes of the machine itself. -/
theorem passes_logged (s : Source) (made budget : Nat) (l : Logged τ) :
    ∃ k ≤ budget, passes s made budget l =
      ((passes s made budget l.machine).1,
        ⟨(passes s made budget l.machine).2,
          l.log ++ List.replicate k (.pass s) ++ note (passes s made budget l.machine).1⟩) := by
  induction budget generalizing made l with
  | zero => exact ⟨0, Nat.le_refl 0, by simp [passes, note, succeeds]⟩
  | succ budget ih =>
    rw [passes, passes]
    have hpass : pass s l =
        ((pass s l.machine).1, ⟨(pass s l.machine).2, l.log ++ [.pass s]⟩) := rfl
    rw [hpass]
    cases hm : pass s l.machine with
    | mk answer m =>
      cases answer with
      | error e => exact ⟨1, Nat.succ_pos budget, by simp [note, succeeds]⟩
      | ok s' =>
        have hlogged : worked (⟨m, l.log ++ [.pass s]⟩ : Logged τ) = worked m := rfl
        dsimp only
        rw [hlogged]
        cases hworked : worked m with
        | true =>
          refine ⟨1, Nat.succ_pos budget, ?_⟩
          simp only [if_true, note, succeeds]
          rfl
        | false =>
          obtain ⟨k, hk, hpasses⟩ := ih (made + 1) ⟨m, l.log ++ [.pass s]⟩
          refine ⟨k + 1, Nat.succ_le_succ hk, ?_⟩
          simp only [Bool.false_eq_true, if_false, hpasses]
          simp [List.replicate_succ]

/-- A run is one reset, some passes over the source, and a note of the last one if it worked. -/
theorem run_logged (n : Nat) (s : Source) (l : Logged τ) :
    ∃ k ≤ n, run n s l =
      ((run n s l.machine).1,
        ⟨(run n s l.machine).2,
          l.log ++ .reset :: List.replicate k (.pass s) ++ note (run n s l.machine).1⟩) := by
  obtain ⟨k, hk, hpasses⟩ := passes_logged s 0 n (reset l)
  refine ⟨k, hk, ?_⟩
  have hlog : (reset l).log = l.log ++ [.reset] := rfl
  have hmachine : (reset l).machine = reset l.machine := rfl
  rw [run, hpasses, hlog, hmachine, List.append_assoc l.log]
  rfl

/-- A run takes note once if it succeeds, and else never. -/
theorem notes_run (n : Nat) (s : Source) (l : Logged τ) :
    (run n s l).2.notes = l.notes + if succeeds (run n s l.machine).1 then 1 else 0 := by
  obtain ⟨k, -, hrun⟩ := run_logged n s l
  rw [hrun]
  simp only [Logged.notes, note, List.count_append, List.count_cons, List.count_replicate]
  cases succeeds (run n s l.machine).1 <;> simp

/-! ## Calls from outside -/

/-- What a machine is asked for, which may be a whole run. -/
inductive Call
  | pass (s : Source)
  | reset
  | acknowledge
  | run (maxAttempts : Nat) (s : Source)

/-- The machine behind a call, whether or not it has failed. -/
def call (m : τ) : Call → τ
  | .pass s => (pass s m).2
  | .reset => reset m
  | .acknowledge => acknowledge m
  | .run n s => (run n s m).2

/-- The machine behind some calls. -/
def calls (cs : List Call) (m : τ) : τ := cs.foldl call m

/-- What a machine keeps to whatever it is told, it keeps to through any calls. -/
theorem Keeps.calls {I : τ → Prop} {P : Fault → Prop} (h : Keeps τ I P)
    (hpass : ∀ s m, I m → I (Machine.pass s m).2) (cs : List Call) {m : τ} (hm : I m) :
    I (Machine.calls cs m) := by
  induction cs generalizing m with
  | nil => exact hm
  | cons c cs ih =>
    refine ih ?_
    cases c with
    | pass s => exact hpass s m hm
    | reset => exact (h.reset m hm).1
    | acknowledge => exact h.acknowledge m hm
    | run n s => exact (h.run n s hm).1

/-- A machine that writes down what it is told goes through the states of the machine itself. -/
theorem calls_logged (cs : List Call) (l : Logged τ) :
    (calls cs l).machine = calls cs l.machine := by
  induction cs generalizing l with
  | nil => rfl
  | cons c cs ih =>
    have hcall : (call l c).machine = call l.machine c := by
      cases c with
      | pass s => rfl
      | reset => rfl
      | acknowledge => rfl
      | run n s =>
        obtain ⟨k, -, hrun⟩ := run_logged n s l
        exact congrArg (·.2.machine) hrun
    show (calls cs (call l c)).machine = calls cs (call l.machine c)
    rw [ih, hcall]

end Machine

end PointMutation
