import PointMutation.Proofs.Batch.Accounts
import PointMutation.Proofs.Mutator.Passes

/-!
# What a program does with a batch

The program does its jobs in some schedule, writes the report, and complains if there were jobs and
all of them have failed. Behind the jobs nothing is written but the report (`Request.run_accounts`).
-/

namespace PointMutation

open FileTree

/-! ## Reports -/

namespace Report

/-- The records of a job, none if it has failed. -/
def recordsOf : Except BatchFault Processed → List Record
  | .ok p => p.records
  | .error _ => []

theorem length_done (rs : List (Except BatchFault Processed)) :
    (rs.filterMap (·.toOption)).length + rs.countP (!·.isOk) = rs.length := by
  induction rs with
  | nil => rfl
  | cons r rs ih =>
    cases r with
    | error e =>
      rw [List.filterMap_cons_none rfl, List.countP_cons_of_pos rfl, List.length_cons]
      omega
    | ok p =>
      have hdone : (Except.ok p :: rs).filterMap (·.toOption) = p :: rs.filterMap (·.toOption) :=
        rfl
      rw [hdone, List.countP_cons_of_neg Bool.false_ne_true, List.length_cons, List.length_cons]
      omega

/-- A report counts the jobs and those that failed, and holds the records in the order of the
jobs. -/
theorem ofOutcomes_eq (seed : UInt64) (rs : List (Except BatchFault Processed)) :
    ofOutcomes seed rs = ⟨seed, rs.length, rs.countP (!·.isOk), rs.flatMap recordsOf⟩ := by
  have hlength := length_done rs
  have hrecords : (rs.filterMap (·.toOption)).flatMap (·.records) = rs.flatMap recordsOf := by
    clear hlength
    induction rs with
    | nil => rfl
    | cons r rs ih =>
      cases r with
      | error e =>
        rw [List.filterMap_cons_none rfl, ih, List.flatMap_cons, recordsOf, List.nil_append]
      | ok p =>
        have hdone : (Except.ok p :: rs).filterMap (·.toOption) = p :: rs.filterMap (·.toOption) :=
          rfl
        rw [hdone, List.flatMap_cons, ih, List.flatMap_cons, recordsOf]
  rw [ofOutcomes, Report.mk.injEq]
  exact ⟨rfl, rfl, by omega, hrecords⟩

/-- All jobs have failed if as many have as there were. -/
theorem failures_eq_iff (seed : UInt64) (rs : List (Except BatchFault Processed)) :
    (ofOutcomes seed rs).failures = rs.length ↔ ∀ r ∈ rs, r.isOk = false := by
  rw [ofOutcomes_eq, List.countP_eq_length]
  simp

/-- The report of jobs that have all failed has a form as a file. -/
theorem write_of_failed (seed : UInt64) {rs : List (Except BatchFault Processed)}
    (hcount : rs.length ≤ ConfigFile.greatest) (h : ∀ r ∈ rs, r.isOk = false) :
    ∃ s, (ofOutcomes seed rs).write = .ok s := by
  have hrecords : rs.flatMap recordsOf = [] := by
    refine List.flatMap_eq_nil_iff.mpr fun r hr => ?_
    have := h r hr
    cases r with
    | error e => rfl
    | ok p => cases this
  have hfailures : rs.countP (!·.isOk) ≤ ConfigFile.greatest := List.countP_le_length.trans hcount
  rw [ofOutcomes_eq, hrecords, write]
  exact ⟨_, if_pos (by simp [hcount, hfailures])⟩

end Report

/-! ## Requests -/

namespace Request

/-- What holds of a program that has found `t`, has had the outcomes `rs` and the tree `v` behind
its jobs, and ends as `answer` tells. -/
structure Account (r : Request) (c : Config) (seed : UInt64) (t : FileTree) (o : Location)
    (js : List Job) (rs : List (Except BatchFault Processed)) (v : FileTree)
    (answer : Ending × FileTree) : Prop where
  length : rs.length = js.length
  jobs : ∀ (i : Nat) (j : Job), js[i]? = some j →
    ∃ x, rs[i]? = some x ∧ j.Accounted c (seed + .ofNat i) t o v x
  report : Report.ofOutcomes seed rs =
    ⟨seed, js.length, rs.countP (!·.isOk), rs.flatMap Report.recordsOf⟩
  complaint : answer.1.complaint = some .nothingMutated ↔ js ≠ [] ∧ ∀ x ∈ rs, x.isOk = false
  kept : ∀ l, (∀ p, r.report = some p → v.locateNew p ≠ some l) →
    answer.2.contents? l = v.contents? l

variable {r : Request} {c : Config} {t u v : FileTree} {o : Location} {js : List Job}
  {rs : List (Except BatchFault Processed)}

theorem writeReport_of_ok {report : Report} {w : FileTree}
    (h : r.writeReport report v = .ok w) {l : Location}
    (hl : ∀ p, r.report = some p → v.locateNew p ≠ some l) : w.contents? l = v.contents? l := by
  rw [writeReport] at h
  split at h
  · cases h
    rfl
  · next p hp =>
    split at h
    · cases h
    · next s _ =>
      rw [writeText] at h
      cases hnew : v.locateNew p with
      | none =>
        rw [hnew] at h
        cases h
      | some m =>
        rw [hnew] at h
        cases h
        have hne : l ≠ m := fun he => hl p hp (he ▸ hnew)
        exact (setText_contents v m s l).trans (if_neg hne)

/-- A report can fail to be written only for what it says if there is a place for it. -/
theorem writeReport_of_error {report : Report} {e : Complaint}
    (hplace : ∀ p, r.report = some p → (v.locateNew p).isSome = true)
    (h : r.writeReport report v = .error e) : ∃ e', report.write = .error e' ∧ e = .batch e' := by
  rw [writeReport] at h
  split at h
  · cases h
  · next p hp =>
    split at h
    · next e' he' =>
      cases h
      exact ⟨e', he', rfl⟩
    · next s _ =>
      obtain ⟨m, hm⟩ := Option.isSome_iff_exists.mp (hplace p hp)
      rw [writeText, hm] at h
      cases h

/-- The program complains that no file could be mutated if and only if all of its jobs failed. -/
theorem conclude_complaint (hcount : rs.length ≤ ConfigFile.greatest)
    (hplace : ∀ p, r.report = some p → (v.locateNew p).isSome = true) (colour : Bool)
    (seed : UInt64) :
    (r.conclude colour seed rs v).1.complaint = some .nothingMutated ↔
      rs ≠ [] ∧ ∀ x ∈ rs, x.isOk = false := by
  rw [conclude]
  cases hreport : r.writeReport (Report.ofOutcomes seed rs) v with
  | error e =>
    obtain ⟨e', hwrite, rfl⟩ := writeReport_of_error hplace hreport
    refine iff_of_false (by simp) fun h => ?_
    obtain ⟨s, hs⟩ := Report.write_of_failed seed hcount h.2
    rw [hwrite] at hs
    cases hs
  | ok w =>
    rw [← Report.failures_eq_iff seed rs]
    simp

theorem conclude_kept {l : Location} (hl : ∀ p, r.report = some p → v.locateNew p ≠ some l)
    (colour : Bool) (seed : UInt64) :
    (r.conclude colour seed rs v).2.contents? l = v.contents? l := by
  rw [conclude]
  cases hreport : r.writeReport (Report.ofOutcomes seed rs) v with
  | error e => rfl
  | ok w => exact writeReport_of_ok hreport hl

/-- A program that can be set up does its jobs in some schedule. However they are scheduled, each of
them has its account as long as no input lies in the output folder and all that is written can be
written; the report tells how many there were, how many failed, and the records of the others, and
the program complains that no file could be mutated if and only if there were jobs and all of them
failed. The bound is that of signed 64-bit numbers, which no list in memory exceeds and which a
report cannot write beyond. -/
theorem run_accounts (ht : t.Sound) (hn : t.Named) (hc : r.setting t = .ok c)
    (hj : Job.discover t r.inputs = .ok js) (hu : t.makeFolders r.out = some u)
    (ho : u.reach r.out = some o)
    (hoff : ∀ j ∈ js, ∀ l, t.locate j.input = some l → ¬ o <+: l)
    (hcount : js.length ≤ ConfigFile.greatest) (chosen : UInt64) (colour : Bool) :
    (∃ rs v, Batch.Completes c r.out (c.seed.getD chosen) js u rs v ∧
      r.run colour chosen t = r.conclude colour (c.seed.getD chosen) rs v) ∧
    ∀ rs v, Batch.Completes c r.out (c.seed.getD chosen) js u rs v →
      (∀ e, .error e ∈ rs → e.isWriting = false) →
      (∀ p, r.report = some p → (v.locateNew p).isSome = true) →
      r.Account c (c.seed.getD chosen) t o js rs v
        (r.conclude colour (c.seed.getD chosen) rs v) := by
  constructor
  · refine ⟨_, _, Batch.completes_processAll c r.out (c.seed.getD chosen) js u, ?_⟩
    simp only [run, hc, hj, hu]
  intro rs v hdone hwrite hplace
  obtain ⟨hfound, hdistinct⟩ := Job.discover_spec ht hn hj
  obtain ⟨hsound, hgrows, hfiles, o', ho', hfolder⟩ := makeFolders_spec ht hu
  obtain rfl : o' = o := Option.some.inj (ho'.symm.trans ho)
  have hcontents : ∀ l, u.contents? l = t.contents? l := fun l => by
    rw [contents?, contents?, hfiles]
  have hlocate : ∀ j ∈ js, u.locate j.input = t.locate j.input := fun j hj => by
    obtain ⟨l, hl, -⟩ := (hfound j hj).located
    rw [hl, hgrows.locate hl]
  have hread : ∀ j ∈ js, u.readText j.input = t.readText j.input := fun j hj => by
    rw [readText, readText, hlocate j hj]
    simp only [hcontents]
  have hfound' : ∀ j ∈ js, j.Found u := by
    intro j hj
    obtain ⟨⟨l, hl, hfile⟩, hnames⟩ := hfound j hj
    exact ⟨⟨l, hgrows.locate hl, hgrows.file l hfile⟩, hnames⟩
  obtain ⟨hlength, hjobs⟩ := Batch.accounted_of_completes hsound ho hfolder hfound'
    (fun j hj => hlocate j hj ▸ hoff j hj) hdistinct hdone hwrite
  refine ⟨hlength, fun i j hij => ?_, ?_, ?_, fun l hl => conclude_kept hl colour _⟩
  · -- Making the output folder has changed no file.
    obtain ⟨x, hx, haccount⟩ := hjobs i j hij
    have hmem := List.mem_of_getElem? hij
    obtain ⟨hsucceeds, houtput, hspared, hrecords⟩ := haccount
    rw [hread j hmem] at hsucceeds houtput hrecords
    rw [hcontents] at hspared
    exact ⟨x, hx, hsucceeds, houtput, hspared, hrecords⟩
  · rw [Report.ofOutcomes_eq, hlength]
  · rw [conclude_complaint (hlength ▸ hcount) hplace]
    have hne : rs ≠ [] ↔ js ≠ [] := by
      rw [← List.length_pos_iff, ← List.length_pos_iff, hlength]
    rw [hne]

/-- A folder with a file that is no text and a source. -/
def mixed : FileTree :=
  .ofLists [] [] [(["d".toList, "a.py".toList], .binary),
    (["d".toList, "b.py".toList], .text "x = 1\n".toList)]

def mixedJobs : List Job :=
  [⟨"d/a.py".toList, "a.py".toList⟩, ⟨"d/b.py".toList, "b.py".toList⟩]

/-- One transformation of each file, with a report. -/
def mixedRequest : Request :=
  { inputs := ["d".toList], out := "o".toList, seed := some 1, transformations := some 1
    report := some "r.toml".toList }

/-- The first file fails and the other one is mutated. -/
theorem run_accounts_mixed :
    ∃ c rs v, mixedRequest.setting mixed = .ok c ∧ rs.map Except.isOk = [false, true] ∧
      mixedRequest.Account c 1 mixed ["o".toList] mixedJobs rs v
        (mixedRequest.run false 0 mixed) := by
  let c : Config := { seed := some 1, engine := { transformations := 1 } }
  let u : FileTree := mixed.addFolder ["o".toList]
  have hc : mixedRequest.setting mixed = .ok c := by decide +kernel
  have hj : Job.discover mixed mixedRequest.inputs = .ok mixedJobs :=
    Job.discover_folder [["a.py".toList], ["b.py".toList]] (l := ["d".toList])
      (by decide) (by decide) (by decide) (by decide) (by decide)
  have hu : mixed.makeFolders mixedRequest.out = some u := by decide
  have hoff : ∀ j ∈ mixedJobs, ∀ l, mixed.locate j.input = some l → ¬ ["o".toList] <+: l := by
    have hall : ∀ j ∈ mixedJobs, ¬ ["o".toList] <+: (mixed.locate j.input).getD [] := by decide
    intro j hj l hl
    have := hall j hj
    rwa [hl] at this
  obtain ⟨-, haccount⟩ := run_accounts (r := mixedRequest)
    (sound_of_lists (by decide) (by decide) (by decide)) (named_of_list (by decide)) hc hj hu
    (o := ["o".toList]) (by decide) hoff (by decide) 0 false
  have hwrite : (Job.processAll c mixedRequest.out 1 mixedJobs u).1.all (fun x =>
      match x with
      | .error e => !e.isWriting
      | .ok _ => true) = true := by decide +kernel
  have hrun : mixedRequest.run false 0 mixed = mixedRequest.conclude false 1
      (Job.processAll c mixedRequest.out 1 mixedJobs u).1
      (Job.processAll c mixedRequest.out 1 mixedJobs u).2 := by
    simp only [run, hc, hj, hu]
    rfl
  rw [hrun]
  refine ⟨c, _, _, hc, ?_, haccount _ _
    (Batch.completes_processAll c mixedRequest.out 1 mixedJobs u) (fun e he => ?_) fun p hp => ?_⟩
  · decide +kernel
  · simpa using List.all_eq_true.mp hwrite _ he
  · obtain rfl := Option.some.inj hp
    decide +kernel

end Request

end PointMutation
