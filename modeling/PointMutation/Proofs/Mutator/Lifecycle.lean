import PointMutation.Proofs.Engine.Faults
import PointMutation.Proofs.Mutator.Calls
import PointMutation.Proofs.Walk.Invariant
import PointMutation.Proofs.Wrapping.Rounds

/-!
# Machines and what they were told before

Whatever the two machines are told, in whatever order and over whatever sources, and whether or not
some of it fails: a pass works if and only if it gives another source, after a pass that worked all
others are idle until the machine is reset, and the machine counts the passes that it has taken note
of (`Builtin.lifecycle`).
-/

namespace PointMutation

theorem Source.length_newline_pos (s : Source) : 0 < s.newline.length := by
  rcases s.newline_eq with ⟨h, -⟩ | ⟨h, -⟩ <;> simp [h]

namespace Insertion

open Outline (Spot)

/-- An insertion makes the text longer. -/
theorem ne_of_insertedAt {s s' : Source} {d : Declaration} {x : Spot}
    (h : insertedAt s d x = .ok s') : s' ≠ s := by
  rintro rfl
  have hlength := congrArg List.length (Source.text_of_mapError h)
  have := s'.length_newline_pos
  simp only [inserted, List.length_append, List.length_take, List.length_drop] at hlength
  omega

/-- A pass works if and only if it gives another source. -/
theorem worked_iff {m : Insertion} (hd : Declares m.pattern) (hworked : m.traversal.worked = false)
    {s s' : Source} (h : (Machine.pass s m).1 = .ok s') :
    Machine.worked (Machine.pass s m).2 = true ↔ s' ≠ s := by
  obtain ⟨found, -, hfound, hpass⟩ := pass_of_declares hd hworked s
  rw [hfound]
  rw [h] at hpass
  cases found with
  | none =>
    cases hpass
    simp
  | some y =>
    obtain ⟨d, x⟩ := y
    simpa using ne_of_insertedAt hpass.symm

/-- A pass draws from the same pattern, and takes note of nothing. -/
theorem keeps_count {pattern : Declaration.Pattern} (hd : Declares pattern) (n : Nat) :
    fold.Keeps fun m => m.pattern = pattern ∧ m.applications = n where
  enterCompound _ _ hm := hm
  leaveCompound _ _ hm := hm
  enterLine _ _ hm := hm
  leaveLine l m hm := by
    show (settle l m).2.pattern = pattern ∧ (settle l m).2.applications = n
    cases hworked : m.traversal.worked with
    | true =>
      rw [settle_of_worked l hworked]
      exact hm
    | false =>
      cases hl : isLeading l with
      | true =>
        rw [settle_of_isLeading hworked hl]
        exact hm
      | false =>
        obtain ⟨d, r, hdraw, hsnippet, -⟩ := hd m.random
        rw [← hm.1] at hdraw
        rw [settle_of_draw hworked hl hdraw hsnippet]
        split
        · exact hm
        · exact hm
  enterValue _ _ hm := hm
  leaveValue _ _ hm := hm
  leaveExpression _ _ hm := hm

/-- A machine that has worked leaves everything as it is, and draws nothing. -/
theorem idles (r : RandomSource) :
    fold.Idles fun m => m.traversal.worked = true ∧ m.random = r where
  keeps :=
    { enterCompound := fun _ _ hm => hm
      leaveCompound := fun _ _ hm => hm
      enterLine := fun _ _ hm => hm
      leaveLine := fun l m hm => by
        show (settle l m).2.traversal.worked = true ∧ (settle l m).2.random = r
        rw [settle_of_worked l hm.1]
        exact hm
      enterValue := fun _ _ hm => hm
      leaveValue := fun _ _ hm => hm
      leaveExpression := fun _ _ hm => hm }
  leaveLine l m hm := congrArg Prod.fst (settle_of_worked l hm.1)
  leaveExpression _ _ _ := rfl

end Insertion

namespace Wrapping

/-- A wrap makes the text longer. -/
theorem ne_of_wrappedAt {s s' : Source} {e : Tree} (he : e.start ≤ e.stop)
    (h : wrappedAt s e = .ok s') : s' ≠ s := by
  rintro rfl
  have hlength := congrArg List.length (Source.text_of_mapError h)
  simp only [wrapped, List.length_append, List.length_take, List.length_drop,
    Text.slice] at hlength
  have : "(lambda: ".toList.length = 9 := by decide
  omega

/-- A pass works if and only if it gives another source. -/
theorem worked_iff {m : Wrapping} (hworked : m.traversal.worked = false) {s s' : Source}
    (h : (Machine.pass s m).1 = .ok s') :
    Machine.worked (Machine.pass s m).2 = true ↔ s' ≠ s := by
  obtain ⟨hpass, -, hfound⟩ := pass_eq s hworked
  rw [hfound]
  rw [h] at hpass
  cases hfirst : first m.kinds s with
  | none =>
    rw [hfirst] at hpass
    cases hpass
    simp
  | some x =>
    obtain ⟨e, rfl, he, -⟩ := first_of_some hfirst
    have hwrapped : Fold.rewritten s ((some (Outline.placeOf e)).map (wrapping s.text)).toList =
        wrappedAt s e := rewritten_wrapping he.bounds
    rw [hfirst, hwrapped] at hpass
    simpa using ne_of_wrappedAt he.le hpass.symm

/-- What is done at an expression, in either case. -/
theorem settle_cases (e : Expression) (m : Wrapping) :
    settle e m = (.ok none, m) ∨
      m.traversal.worked = false ∧
        settle e m =
          (.ok (some e.identityLambda), { m with traversal := m.traversal.visit.work }) := by
  cases hworked : m.traversal.worked with
  | true => exact .inl (settle_of_not_isEligible (.inl hworked))
  | false =>
    cases he : m.isEligible e with
    | false => exact .inl (settle_of_not_isEligible (.inr he))
    | true => exact .inr ⟨rfl, settle_of_isEligible hworked he⟩

/-- A pass takes note of nothing. -/
theorem keeps_count (n : Nat) : fold.Keeps fun m => m.applications = n where
  enterCompound _ _ hm := hm
  leaveCompound _ _ hm := hm
  enterLine _ _ hm := hm
  leaveLine _ _ hm := hm
  enterValue _ _ hm := hm
  leaveValue _ _ hm := hm
  leaveExpression e m hm := by
    show (settle e m).2.applications = n
    rcases settle_cases e m with h | ⟨-, h⟩
    · rw [h]
      exact hm
    · rw [h]
      exact hm

/-- A machine that has worked leaves everything as it is. -/
theorem idles : fold.Idles fun m => m.traversal.worked = true where
  keeps :=
    { enterCompound := fun _ _ hm => hm
      leaveCompound := fun _ _ hm => hm
      enterLine := fun _ _ hm => hm
      leaveLine := fun _ _ hm => hm
      enterValue := fun _ _ hm => hm
      leaveValue := fun _ _ hm => hm
      leaveExpression := fun e m hm => by
        show (settle e m).2.traversal.worked = true
        rw [settle_of_not_isEligible (.inl hm)]
        exact hm }
  leaveLine _ _ _ := rfl
  leaveExpression e m hm := congrArg Prod.fst (settle_of_not_isEligible (.inl hm))

end Wrapping

namespace Builtin

open Machine (Call Logged calls succeeds)

/-- A machine as it is set up with a configuration. -/
inductive IsNew : Builtin → Prop
  | insertion {c : InsertionConfig} {r : RandomSource} {m : Insertion}
    (h : Insertion.ofConfig c r = .ok m) : IsNew (insertion m)
  | wrapping {c : WrappingConfig} {m : Wrapping} (h : Wrapping.ofConfig c = .ok m) :
    IsNew (wrapping m)

/-- How many passes that worked a machine has taken note of. -/
def applications : Builtin → Nat
  | insertion m => m.applications
  | wrapping m => m.applications

/-- What a machine draws from. One that wraps literals draws nothing. -/
def random? : Builtin → Option RandomSource
  | insertion m => some m.random
  | wrapping _ => none

theorem IsNew.draws {b : Builtin} (h : b.IsNew) : b.Draws ∧ b.applications = 0 := by
  cases h with
  | @insertion c r m h =>
    rw [Insertion.ofConfig] at h
    cases hc : c.validate with
    | error e =>
      rw [hc] at h
      cases h
    | ok _ =>
      rw [hc] at h
      cases h
      exact ⟨Insertion.declares_of_nameLength (Insertion.nameLength_of_validate hc), rfl⟩
  | @wrapping c m h =>
    rw [Wrapping.ofConfig] at h
    cases hc : c.validate with
    | error e =>
      rw [hc] at h
      cases h
    | ok _ =>
      rw [hc] at h
      cases h
      exact ⟨trivial, rfl⟩

/-! ## Single passes -/

/-- A pass changes neither what is drawn nor what has been taken note of. -/
theorem pass_draws {b : Builtin} (h : b.Draws) (s : Source) :
    (Machine.pass s b).2.Draws ∧ (Machine.pass s b).2.applications = b.applications := by
  cases b with
  | insertion m =>
    have hkeeps := (Insertion.keeps_count h m.applications).run s (m := m) ⟨rfl, rfl⟩
    refine ⟨?_, hkeeps.2⟩
    show Insertion.Declares (Insertion.fold.run s m).2.pattern
    rw [hkeeps.1]
    exact h
  | wrapping m =>
    exact ⟨trivial,
      (Wrapping.keeps_count m.applications).run s (m := { m with valueDepth := 0 }) rfl⟩

/-- A pass of a machine that has worked leaves everything as it is, and draws nothing. -/
theorem pass_of_worked {b : Builtin} (h : Machine.worked b = true) (s : Source) :
    (Machine.pass s b).1 = .ok s ∧ Machine.worked (Machine.pass s b).2 = true ∧
      (Machine.pass s b).2.random? = b.random? := by
  cases b with
  | insertion m =>
    obtain ⟨hpass, hworked, hrandom⟩ := (Insertion.idles m.random).run s (m := m) ⟨h, rfl⟩
    exact ⟨hpass, hworked, congrArg some hrandom⟩
  | wrapping m =>
    obtain ⟨hpass, hworked⟩ := Wrapping.idles.run s (m := { m with valueDepth := 0 }) h
    exact ⟨hpass, hworked, rfl⟩

/-- Any other pass works if and only if it gives another source. -/
theorem worked_iff {b : Builtin} (h : b.Draws) (hworked : Machine.worked b = false) {s s' : Source}
    (hpass : (Machine.pass s b).1 = .ok s') :
    Machine.worked (Machine.pass s b).2 = true ↔ s' ≠ s := by
  cases b with
  | insertion m => exact Insertion.worked_iff h hworked hpass
  | wrapping m => exact Wrapping.worked_iff hworked hpass

theorem worked_reset (b : Builtin) : Machine.worked (Machine.reset b) = false := by
  cases b <;> rfl

theorem worked_acknowledge (b : Builtin) : Machine.worked (Machine.acknowledge b) = false := by
  cases b <;> rfl

theorem applications_reset (b : Builtin) : (Machine.reset b).applications = b.applications := by
  cases b <;> rfl

theorem applications_acknowledge (b : Builtin) :
    (Machine.acknowledge b).applications = b.applications + 1 := by
  cases b <;> rfl

/-! ## Histories -/

/-- A machine that has counted the notes that it was told to take. -/
structure Counts (l : Logged Builtin) : Prop where
  draws : l.machine.Draws
  applications : l.machine.applications = l.notes

theorem Counts.pass {l : Logged Builtin} (h : Counts l) (s : Source) :
    Counts (Machine.pass s l).2 := by
  obtain ⟨hdraws, happlications⟩ := pass_draws h.draws s
  refine ⟨hdraws, ?_⟩
  rw [Logged.notes_pass, ← h.applications]
  exact happlications

theorem keeps_counts : Machine.Keeps (Logged Builtin) Counts fun _ => True where
  pass s l hl _ := ⟨hl.pass s, fun _ _ => trivial⟩
  reset l hl := by
    refine ⟨⟨(keeps_draws.reset l.machine hl.draws).1, ?_⟩, worked_reset l.machine⟩
    rw [Logged.notes_reset, ← hl.applications]
    exact applications_reset l.machine
  acknowledge l hl := by
    refine ⟨keeps_draws.acknowledge l.machine hl.draws, ?_⟩
    rw [Logged.notes_acknowledge, ← hl.applications]
    exact applications_acknowledge l.machine

/-- What a machine does next, with all that it was told before. -/
structure Lifecycle (l : Logged Builtin) : Prop where
  idle : Machine.worked l.machine = true → ∀ s, (Machine.pass s l.machine).1 = .ok s ∧
    Machine.worked (Machine.pass s l.machine).2 = true ∧
    (Machine.pass s l.machine).2.random? = l.machine.random?
  changes : Machine.worked l.machine = false → ∀ s s', (Machine.pass s l.machine).1 = .ok s' →
    (Machine.worked (Machine.pass s l.machine).2 = true ↔ s' ≠ s)
  reset : Machine.worked (Machine.reset l.machine) = false
  acknowledge : Machine.worked (Machine.acknowledge l.machine) = false
  applications : l.machine.applications = l.notes
  run : ∀ n s, (Machine.run n s l).2.notes =
    l.notes + if succeeds (Machine.run n s l.machine).1 then 1 else 0

/-- Whatever a machine was told since it was set up, its passes work if and only if they change the
source, they are idle behind one that worked, and it has counted one note for each run that
succeeded and for each time that it was told to take one. -/
theorem lifecycle {b : Builtin} (h : b.IsNew) (cs : List Call) :
    (calls cs (Logged.start b)).machine = calls cs b ∧ Lifecycle (calls cs (Logged.start b)) := by
  have hstart : Counts (Logged.start b) := ⟨h.draws.1, h.draws.2⟩
  have hcounts := keeps_counts.calls (fun s l hl => hl.pass s) cs hstart
  refine ⟨Machine.calls_logged cs (Logged.start b), ?_⟩
  exact
    { idle := fun hworked s => pass_of_worked hworked s
      changes := fun hworked s s' hpass => worked_iff hcounts.draws hworked hpass
      reset := worked_reset _
      acknowledge := worked_acknowledge _
      applications := hcounts.applications
      run := fun n s => Machine.notes_run n s _ }

/-- A run that inserts a declaration in front of an assignment, a note on demand, and a run without
passes. -/
theorem lifecycle_of_runs :
    ∃ (b : Builtin) (s : Source) (cs : List Call), b.IsNew ∧ s.text = "x = 1\n".toList ∧
      cs = [.run 1 s, .acknowledge, .run 0 s] ∧ succeeds (Machine.run 1 s b).1 = true ∧
      (calls cs b).applications = 2 ∧ Lifecycle (calls cs (Logged.start b)) := by
  let c : InsertionConfig := ⟨.ofInt 1, false, .ofList [.int], 1⟩
  let m : Insertion := ⟨.ofInt 1, ⟨1, [.int], false⟩, .seeded 0, {}, 0⟩
  have hnew : IsNew (insertion m) := .insertion (c := c) (r := .seeded 0) (by decide +kernel)
  obtain ⟨s, s', hs, -, hworked, hpass⟩ := Machine.exists_of_trial_ok
    (m := Machine.reset (insertion m)) (t := "x = 1\n".toList) (u := "u = 774\nx = 1\n".toList)
    (b := true) (by decide +kernel)
  have hrun : succeeds (Machine.run 1 s (insertion m)).1 = true := by
    rw [Machine.run, Machine.passes]
    cases h : Machine.pass s (Machine.reset (insertion m)) with
    | mk answer m' =>
      rw [h] at hworked hpass
      obtain rfl : answer = .ok s' := hpass
      simp only at hworked
      simp only [hworked, if_true]
      rfl
  let cs : List Call := [.run 1 s, .acknowledge, .run 0 s]
  obtain ⟨hmachine, hlifecycle⟩ := lifecycle hnew cs
  refine ⟨insertion m, s, cs, hnew, hs, rfl, hrun, ?_, hlifecycle⟩
  let l := (Machine.run 1 s (Logged.start (insertion m))).2
  have hl : l.notes = 1 := by
    rw [Machine.notes_run, Logged.start, hrun]
    rfl
  have hcalls : calls cs (Logged.start (insertion m)) =
      (Machine.run 0 s (Machine.acknowledge l)).2 := rfl
  rw [← hmachine, hlifecycle.applications, hcalls, Machine.notes_run, Logged.notes_acknowledge, hl]
  rfl

end Builtin

end PointMutation
