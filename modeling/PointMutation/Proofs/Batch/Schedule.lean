import PointMutation.Proofs.Batch.Discovery
import PointMutation.Proofs.Files.Writing
import Mathlib.Data.List.Perm.Basic

/-!
# Schedules

Jobs side by side come to the same as jobs one after the other, provided that no job writes what
another one reads and no output is a folder around another one. The invariant compares the tree
with the one before all jobs: what the jobs that are done have written is there, with the folders
around it, and nothing else has changed. So every job reads what was there before all of them, and
finds its way free or blocked as it was.
-/

namespace PointMutation

open FileTree

variable {c : Config} {out : Text} {t u v : FileTree} {o l : Location}

namespace Job

/-- Where the output of a job lies below the output folder. -/
def target (o : Location) (j : Job) : Location := o ++ Path.parts j.relative

/-- A job does not write what another one reads, nor where another one needs a folder. -/
def Spares (t : FileTree) (o : Location) (a b : Job) : Prop :=
  t.locate b.input ≠ some (a.target o) ∧ ¬ a.target o <+: b.target o

instance (t : FileTree) (o : Location) (a b : Job) : Decidable (Spares t o a b) :=
  inferInstanceAs (Decidable (_ ∧ _))

/-- Different jobs spare each other. -/
def Separate (t : FileTree) (out : Text) (js : List Job) : Prop :=
  ∀ o, t.reach out = some o → ∀ a ∈ js, ∀ b ∈ js, a ≠ b → Spares t o a b

theorem separate_of_reach {js : List Job} (h : t.reach out = some o)
    (hs : ∀ a ∈ js, ∀ b ∈ js, a ≠ b → Spares t o a b) : Separate t out js := by
  intro o' h'
  obtain rfl := Option.some.inj (h.symm.trans h')
  exact hs

theorem deliver_of_error {j : Job} {d : Draft} {e : BatchFault}
    (h : write t (Path.join out j.relative) d.result = (.error e, u)) :
    j.deliver out d t = (.error e, u) := by
  simp only [deliver, h]

theorem deliver_of_ok {j : Job} {d : Draft}
    (h : write t (Path.join out j.relative) d.result = (.ok (), u)) :
    j.deliver out d t =
      (.ok ⟨j.input, Path.join out j.relative, d.original, d.result, d.records⟩, u) := by
  simp only [deliver, h]

end Job

/-- How often a job has gone on. -/
def Stage.number : Stage → Nat
  | .waiting => 0
  | .drafted _ => 1
  | .done _ => 2

namespace Task

/-- A task that has not begun. -/
def reset (k : Task) : Task := { k with stage := .waiting }

/-- A task that is done as if its job were alone. -/
def alone (c : Config) (out : Text) (t : FileTree) (k : Task) : Task :=
  { k with stage := .done (k.job.process c k.seed out t).1 }

/-- What has been read and what has come of it is the same as if the job were alone. -/
def Agrees (c : Config) (out : Text) (t : FileTree) (k : Task) : Prop :=
  match k.stage with
  | .waiting => True
  | .drafted d => d = k.job.draft c k.seed t
  | .done r => r = (k.job.process c k.seed out t).1

/-- A task has written a text. -/
def Wrote (k : Task) (s : Text) : Prop := ∃ p : Processed, k.stage = .done (.ok p) ∧ p.mutated = s

theorem not_wrote {k : Task} (h : ∀ p, k.stage ≠ .done (.ok p)) (s : Text) : ¬ k.Wrote s := by
  rintro ⟨p, hp, -⟩
  exact h p hp

end Task

namespace Batch

/-- Tasks and the tree they have come to. -/
structure Tracks (c : Config) (out : Text) (o : Location) (t : FileTree) (ks : List Task)
    (u : FileTree) : Prop where
  found : ∀ k ∈ ks, k.job.Found t
  spares : ks.Pairwise fun k h => k.job.Spares t o h.job ∧ h.job.Spares t o k.job
  agrees : ∀ k ∈ ks, k.Agrees c out t
  sound : u.Sound
  grows : Grows t u
  written : ∀ k ∈ ks, ∀ s, k.Wrote s → u.contents? (k.job.target o) = some (.text s)
  kept : ∀ l, (∀ k ∈ ks, ∀ s, k.Wrote s → k.job.target o ≠ l) → u.contents? l = t.contents? l
  folders : ∀ l, u.isFolderAt l = true ↔ t.isFolderAt l = true ∨
    ∃ k ∈ ks, (∃ s, k.Wrote s) ∧ l <+: k.job.target o ∧ l ≠ k.job.target o

namespace Tracks

variable {ks hs : List Task} {k : Task}

theorem perm (h : Tracks c out o t ks u) (hp : ks.Perm hs) : Tracks c out o t hs u where
  found x hx := h.found x (hp.mem_iff.mpr hx)
  spares := (hp.pairwise_iff fun hxy => hxy.symm).mp h.spares
  agrees x hx := h.agrees x (hp.mem_iff.mpr hx)
  sound := h.sound
  grows := h.grows
  written x hx := h.written x (hp.mem_iff.mpr hx)
  kept l hl := h.kept l fun x hx => hl x (hp.mem_iff.mp hx)
  folders l := by simpa only [hp.mem_iff] using h.folders l

/-- The tasks determine the tree. -/
theorem unique (h : Tracks c out o t ks u) (h' : Tracks c out o t ks v) (l : Location) :
    u.contents? l = v.contents? l ∧ u.isFolderAt l = v.isFolderAt l := by
  constructor
  · by_cases hl : ∃ k ∈ ks, ∃ s, k.Wrote s ∧ k.job.target o = l
    · obtain ⟨k, hk, s, hs, rfl⟩ := hl
      rw [h.written k hk s hs, h'.written k hk s hs]
    · have hl' : ∀ k ∈ ks, ∀ s, k.Wrote s → k.job.target o ≠ l :=
        fun k hk s hs he => hl ⟨k, hk, s, hs, he⟩
      rw [h.kept l hl', h'.kept l hl']
  · rw [Bool.eq_iff_iff, h.folders l, h'.folders l]

/-! ## One step -/

/-- A task that changes its stage without writing leaves the rest as it is. -/
theorem cons_of_not_wrote {k' : Task} (h : Tracks c out o t (k :: ks) u) (hjob : k'.job = k.job)
    (hk : ∀ s, ¬ k.Wrote s) (hk' : ∀ s, ¬ k'.Wrote s) (ha : k'.Agrees c out t) :
    Tracks c out o t (k' :: ks) u where
  found x hx := by
    rcases List.mem_cons.mp hx with rfl | hx
    · exact hjob ▸ h.found k List.mem_cons_self
    · exact h.found x (List.mem_cons_of_mem k hx)
  spares := by
    obtain ⟨hhead, htail⟩ := List.pairwise_cons.mp h.spares
    exact .cons (hjob ▸ hhead) htail
  agrees x hx := by
    rcases List.mem_cons.mp hx with rfl | hx
    · exact ha
    · exact h.agrees x (List.mem_cons_of_mem k hx)
  sound := h.sound
  grows := h.grows
  written x hx s hs := by
    rcases List.mem_cons.mp hx with rfl | hx
    · exact absurd hs (hk' s)
    · exact h.written x (List.mem_cons_of_mem k hx) s hs
  kept l hl := h.kept l fun x hx s hs => by
    rcases List.mem_cons.mp hx with rfl | hx
    · exact absurd hs (hk s)
    · exact hl x (List.mem_cons_of_mem k' hx) s hs
  folders l := by
    rw [h.folders l]
    simp only [List.mem_cons, exists_eq_or_imp, hk, hk', exists_false, false_and, false_or]

/-- A job that has written nothing yet reads what was there before all jobs. -/
theorem readText_eq (h : Tracks c out o t (k :: ks) u) (hk : ∀ s, ¬ k.Wrote s) :
    u.readText k.job.input = t.readText k.job.input := by
  obtain ⟨l, hl, -⟩ := (h.found k List.mem_cons_self).located
  have hcontents : u.contents? l = t.contents? l := h.kept l fun x hx s hs => by
    rcases List.mem_cons.mp hx with rfl | hx
    · exact absurd hs (hk s)
    · rintro rfl
      exact ((List.pairwise_cons.mp h.spares).1 x hx).2.1 hl
  rw [readText, readText, hl, h.grows.locate hl]
  simp only [hcontents]

/-- A job that has written nothing yet finds the same files on the way to its output. -/
theorem isFileAt_eq (h : Tracks c out o t (k :: ks) u) (hk : ∀ s, ¬ k.Wrote s)
    (hl : l <+: k.job.target o) : u.isFileAt l = t.isFileAt l := by
  have hcontents : u.contents? l = t.contents? l := h.kept l fun x hx s hs => by
    rcases List.mem_cons.mp hx with rfl | hx
    · exact absurd hs (hk s)
    · rintro rfl
      exact ((List.pairwise_cons.mp h.spares).1 x hx).2.2 hl
  rw [isFileAt, isFileAt, hcontents]

theorem isBlocked_eq (h : Tracks c out o t (k :: ks) u) (hk : ∀ s, ¬ k.Wrote s) :
    u.isBlocked o (Path.parts k.job.relative).dropLast =
      t.isBlocked o (Path.parts k.job.relative).dropLast := by
  rw [Bool.eq_iff_iff, isBlocked_iff, isBlocked_iff]
  refine exists_congr fun m => and_congr_right fun _ => and_congr_right fun hm => ?_
  rw [h.isFileAt_eq hk]
  exact (List.prefix_append_right_inj o).mpr (hm.trans (List.dropLast_prefix _))

theorem isFolderAt_eq (h : Tracks c out o t (k :: ks) u) (hk : ∀ s, ¬ k.Wrote s) :
    u.isFolderAt (k.job.target o) = t.isFolderAt (k.job.target o) := by
  rw [Bool.eq_iff_iff, h.folders]
  refine ⟨fun hor => hor.resolve_right ?_, .inl⟩
  rintro ⟨x, hx, ⟨s, hs⟩, hpre, -⟩
  rcases List.mem_cons.mp hx with rfl | hx
  · exact hk s hs
  · exact ((List.pairwise_cons.mp h.spares).1 x hx).1.2 hpre

/-- A task that writes adds its output and the folders around it. -/
theorem cons_of_wrote {k' : Task} {s : Text} (h : Tracks c out o t (k :: ks) u)
    (hf : u.isFolderAt o = true) (hjob : k'.job = k.job) (hk : ∀ s, ¬ k.Wrote s)
    (hk' : ∀ s', k'.Wrote s' ↔ s' = s) (ha : k'.Agrees c out t)
    (hblock : u.isBlocked o (Path.parts k.job.relative).dropLast = false)
    (hnew : u.isFolderAt (k.job.target o) = false) :
    Tracks c out o t (k' :: ks) (u.deliver o (Path.parts k.job.relative) s) where
  found x hx := by
    rcases List.mem_cons.mp hx with rfl | hx
    · exact hjob ▸ h.found k List.mem_cons_self
    · exact h.found x (List.mem_cons_of_mem k hx)
  spares := by
    obtain ⟨hhead, htail⟩ := List.pairwise_cons.mp h.spares
    exact .cons (hjob ▸ hhead) htail
  agrees x hx := by
    rcases List.mem_cons.mp hx with rfl | hx
    · exact ha
    · exact h.agrees x (List.mem_cons_of_mem k hx)
  sound := h.sound.deliver hf (Path.parts_ne_nil _) (h.found k List.mem_cons_self).names hblock
    hnew s
  grows := h.grows.trans (grows_deliver h.sound hf (Path.parts_ne_nil _) s)
  written x hx s' hs := by
    rw [deliver_contents, ← Job.target]
    rcases List.mem_cons.mp hx with rfl | hx
    · rw [hjob, if_pos rfl, (hk' s').mp hs]
    · have hne : x.job.target o ≠ k.job.target o := fun he =>
        ((List.pairwise_cons.mp h.spares).1 x hx).1.2 (he ▸ List.prefix_rfl)
      rw [if_neg hne]
      exact h.written x (List.mem_cons_of_mem k hx) s' hs
  kept l hl := by
    have hne : l ≠ o ++ Path.parts k.job.relative := fun he =>
      hl k' List.mem_cons_self s ((hk' s).mpr rfl) (hjob ▸ he.symm)
    rw [deliver_contents, if_neg hne]
    refine h.kept l fun x hx s' hs => ?_
    rcases List.mem_cons.mp hx with rfl | hx
    · exact absurd hs (hk s')
    · exact hl x (List.mem_cons_of_mem k' hx) s' hs
  folders l := by
    rw [deliver_folder h.sound hf (Path.parts_ne_nil _), h.folders l]
    simp only [List.mem_cons, exists_eq_or_imp, hk, hk', hjob, exists_false, false_and, false_or,
      exists_eq, true_and, Job.target]
    exact or_assoc.trans (or_congr_right or_comm)

/-- A job that has written nothing yet can write if and only if it could without the others. -/
theorem write_cases (h : Tracks c out o t (k :: ks) u) (ht : t.Sound) (ho : t.reach out = some o)
    (hf : t.isFolderAt o = true) (hk : ∀ s, ¬ k.Wrote s) (s : Text) :
    (∃ e, Job.write t (Path.join out k.job.relative) s = (.error e, t) ∧
        Job.write u (Path.join out k.job.relative) s = (.error e, u)) ∨
      (u.isBlocked o (Path.parts k.job.relative).dropLast = false ∧
        u.isFolderAt (k.job.target o) = false ∧
        Job.write t (Path.join out k.job.relative) s =
          (.ok (), t.deliver o (Path.parts k.job.relative) s) ∧
        Job.write u (Path.join out k.job.relative) s =
          (.ok (), u.deliver o (Path.parts k.job.relative) s)) := by
  have hnames := (h.found k List.mem_cons_self).names
  have hne := Path.parts_ne_nil k.job.relative
  have halone := Job.write_eq (s := s) ht ho hf hne hnames
  have hbeside := Job.write_eq (s := s) h.sound (h.grows.reach ho) (h.grows.folder o hf) hne hnames
  rw [Path.ofParts_parts, ← Job.target] at halone hbeside
  rw [h.isBlocked_eq hk, h.isFolderAt_eq hk] at hbeside ⊢
  cases hblock : t.isBlocked o (Path.parts k.job.relative).dropLast with
  | true =>
    rw [hblock] at halone hbeside
    exact .inl ⟨_, halone, hbeside⟩
  | false =>
    cases hnew : t.isFolderAt (k.job.target o) with
    | true =>
      rw [hblock, hnew] at halone hbeside
      exact .inl ⟨_, halone, hbeside⟩
    | false =>
      rw [hblock, hnew] at halone hbeside
      exact .inr ⟨rfl, rfl, halone, hbeside⟩

/-- Ending a job comes to the same as without the others, and keeps track. -/
theorem finish (h : Tracks c out o t (k :: ks) u) (ht : t.Sound) (ho : t.reach out = some o)
    (hf : t.isFolderAt o = true) (hk : ∀ s, ¬ k.Wrote s) :
    Tracks c out o t (k.alone c out t :: ks)
        (k.job.finish out (k.job.draft c k.seed t) u).2 ∧
      (k.job.finish out (k.job.draft c k.seed t) u).1 = (k.job.process c k.seed out t).1 := by
  -- A job that fails leaves the tree as it is.
  have hfail (e : BatchFault) (he : (k.job.process c k.seed out t).1 = .error e) :
      Tracks c out o t (k.alone c out t :: ks) u :=
    h.cons_of_not_wrote rfl hk (fun s ⟨p, hp, _⟩ => nomatch he.symm.trans (Stage.done.inj hp)) rfl
  have hprocess : k.job.process c k.seed out t =
      k.job.finish out (k.job.draft c k.seed t) t := rfl
  cases hd : k.job.draft c k.seed t with
  | error e =>
    rw [hd] at hprocess
    exact ⟨hfail e (by rw [hprocess]; rfl), by rw [hprocess]; rfl⟩
  | ok d =>
    rw [hd] at hprocess
    change _ = k.job.deliver out d t at hprocess
    change Tracks c out o t _ (k.job.deliver out d u).2 ∧ (k.job.deliver out d u).1 = _
    obtain ⟨e, halone, hbeside⟩ | ⟨hblock, hnew, halone, hbeside⟩ :=
      h.write_cases ht ho hf hk d.result
    · rw [Job.deliver_of_error halone] at hprocess
      rw [Job.deliver_of_error hbeside]
      exact ⟨hfail e (by rw [hprocess]), by rw [hprocess]⟩
    · rw [Job.deliver_of_ok halone] at hprocess
      rw [Job.deliver_of_ok hbeside]
      refine ⟨h.cons_of_wrote (h.grows.folder o hf) rfl hk (fun s => ?_) rfl hblock hnew,
        by rw [hprocess]⟩
      simp only [Task.Wrote, Task.alone, hprocess, Stage.done.injEq, Except.ok.injEq,
        exists_eq_left']
      exact eq_comm

/-- The draft of a job that has not begun is the same as without the others. -/
theorem draft_eq (h : Tracks c out o t (k :: ks) u) (hk : ∀ s, ¬ k.Wrote s) (seed : UInt64) :
    k.job.draft c seed u = k.job.draft c seed t := by
  rw [Job.draft, Job.draft, h.readText_eq hk]

theorem advance (h : Tracks c out o t (k :: ks) u) (ht : t.Sound) (ho : t.reach out = some o)
    (hf : t.isFolderAt o = true) :
    Tracks c out o t ((k.advance c out u).1 :: ks) (k.advance c out u).2 := by
  have hagrees := h.agrees k List.mem_cons_self
  rw [Task.Agrees] at hagrees
  rw [Task.advance]
  cases hstage : k.stage with
  | waiting =>
    have hk : ∀ s, ¬ k.Wrote s := Task.not_wrote (by simp [hstage])
    exact h.cons_of_not_wrote rfl hk (Task.not_wrote (by simp)) (h.draft_eq hk k.seed)
  | drafted d =>
    have hk : ∀ s, ¬ k.Wrote s := Task.not_wrote (by simp [hstage])
    rw [hstage] at hagrees
    obtain ⟨htracks, hout⟩ := h.finish ht ho hf hk
    rw [← hagrees] at htracks hout
    simp only [hout]
    exact htracks
  | done r => exact h

end Tracks

/-! ## A run -/

theorem exists_split {ks : List Task} {i : Nat} {k : Task} (h : ks[i]? = some k) :
    ∃ hs gs, ks = hs ++ k :: gs ∧ ∀ k', ks.set i k' = hs ++ k' :: gs := by
  induction ks generalizing i with
  | nil => exact absurd h nofun
  | cons x ks ih =>
    cases i with
    | zero =>
      obtain rfl : x = k := by simpa using h
      exact ⟨[], ks, rfl, fun _ => rfl⟩
    | succ i =>
      obtain ⟨hs, gs, rfl, hset⟩ := ih (by simpa using h)
      exact ⟨x :: hs, gs, rfl, fun k' => by simp [hset k']⟩

/-- A job that goes on keeps track. -/
theorem tracks_advance {b : Batch} (h : Tracks c out o t b.tasks b.tree) (ht : t.Sound)
    (ho : t.reach out = some o) (hf : t.isFolderAt o = true) (i : Nat) :
    Tracks c out o t (b.advance c out i).tasks (b.advance c out i).tree := by
  rw [Batch.advance]
  split
  · exact h
  · next k hk =>
    obtain ⟨hs, gs, hks, hset⟩ := exists_split hk
    simp only [hset]
    rw [hks] at h
    exact ((h.perm List.perm_middle).advance ht ho hf).perm List.perm_middle.symm

theorem tracks_run {b : Batch} (h : Tracks c out o t b.tasks b.tree) (ht : t.Sound)
    (ho : t.reach out = some o) (hf : t.isFolderAt o = true) (schedule : List Nat) :
    Tracks c out o t (b.run c out schedule).tasks (b.run c out schedule).tree := by
  induction schedule generalizing b with
  | nil => exact h
  | cons i schedule ih => exact ih (tracks_advance h ht ho hf i)

/-! ### Which jobs are done -/

theorem reset_advance (k : Task) (u : FileTree) : (k.advance c out u).1.reset = k.reset := by
  rw [Task.advance]
  cases k.stage <;> rfl

/-- A run keeps the jobs and their seeds. -/
theorem reset_run (c : Config) (out : Text) (b : Batch) (schedule : List Nat) :
    (b.run c out schedule).tasks.map Task.reset = b.tasks.map Task.reset := by
  induction schedule generalizing b with
  | nil => rfl
  | cons i schedule ih =>
    refine (ih _).trans ?_
    rw [Batch.advance]
    split
    · rfl
    · next k hk =>
      obtain ⟨hs, gs, hks, hset⟩ := exists_split hk
      simp only [hset]
      rw [hks]
      simp only [List.map_append, List.map_cons, reset_advance]

theorem number_le (g : Stage) : g.number ≤ 2 := by
  cases g <;> simp [Stage.number]

theorem number_advance (k : Task) (u : FileTree) :
    (k.advance c out u).1.stage.number = min 2 (k.stage.number + 1) := by
  obtain ⟨j, seed, stage⟩ := k
  cases stage <;> rfl

/-- A job goes on as often as its number comes in the schedule, until it is done. -/
theorem number_run (c : Config) (out : Text) (b : Batch) (schedule : List Nat) (i : Nat) :
    (b.run c out schedule).tasks[i]?.map (·.stage.number) =
      b.tasks[i]?.map fun k => min 2 (k.stage.number + schedule.count i) := by
  induction schedule generalizing b with
  | nil => simp [run, number_le]
  | cons j schedule ih =>
    refine (ih (b.advance c out j)).trans ?_
    rw [Batch.advance]
    split
    · next hj =>
      by_cases hij : j = i
      · rw [← hij, hj]
        rfl
      · simp [List.count_cons_of_ne hij]
    · next k hj =>
      by_cases hij : j = i
      · subst hij
        have hlt : j < b.tasks.length := (List.getElem?_eq_some_iff.mp hj).1
        simp only [List.getElem?_set_self hlt, hj, Option.map_some, number_advance,
          List.count_cons_self, Option.some.injEq]
        omega
      · simp only [List.getElem?_set_ne hij, List.count_cons_of_ne hij]

/-- A task that is done is as if its job were alone. -/
theorem alone_of_agrees {k : Task} (h : k.Agrees c out t) (hk : k.stage.number = 2) :
    k.reset.alone c out t = k := by
  obtain ⟨j, seed, stage⟩ := k
  cases stage with
  | waiting => exact absurd hk nofun
  | drafted d => exact absurd hk nofun
  | done r =>
    obtain rfl : r = (j.process c seed out t).1 := h
    rfl

/-- When every job has gone on twice, all are done. -/
theorem number_of_count {b : Batch} {schedule : List Nat}
    (hall : ∀ i < b.tasks.length, 2 ≤ schedule.count i) :
    ∀ k ∈ (b.run c out schedule).tasks, k.stage.number = 2 := by
  intro k hk
  obtain ⟨i, hi⟩ := List.mem_iff_getElem?.mp hk
  have hnumber := number_run c out b schedule i
  rw [hi] at hnumber
  obtain ⟨k₀, hk₀, hnumber⟩ := Option.map_eq_some_iff.mp hnumber.symm
  have hcount := hall i (List.getElem?_eq_some_iff.mp hk₀).1
  change min 2 _ = k.stage.number at hnumber
  omega

/-- When every job has gone on twice, all are done as if each were alone. -/
theorem tasks_run {b : Batch} (h : Tracks c out o t b.tasks b.tree) (ht : t.Sound)
    (ho : t.reach out = some o) (hf : t.isFolderAt o = true) {schedule : List Nat}
    (hall : ∀ i < b.tasks.length, 2 ≤ schedule.count i) :
    (b.run c out schedule).tasks = (b.tasks.map Task.reset).map (Task.alone c out t) := by
  have htracks := tracks_run h ht ho hf schedule
  have hsame : ∀ k ∈ (b.run c out schedule).tasks, (Task.alone c out t ∘ Task.reset) k = k :=
    fun k hk => alone_of_agrees (htracks.agrees k hk) (number_of_count hall k hk)
  rw [← reset_run c out b schedule, List.map_map, List.map_congr_left hsame, List.map_id']

/-! ### One after the other -/

/-- The schedule in which jobs are done one after the other. -/
def inOrder (first count : Nat) : List Nat := (List.range' first count).flatMap fun i => [i, i]

theorem inOrder_succ (first count : Nat) :
    inOrder first (count + 1) = first :: first :: inOrder (first + 1) count := rfl

theorem two_le_count_inOrder {first count i : Nat} (h : first ≤ i) (h' : i < first + count) :
    2 ≤ (inOrder first count).count i := by
  induction count generalizing first with
  | zero => omega
  | succ count ih =>
    rw [inOrder_succ]
    rcases eq_or_ne first i with rfl | hne
    · rw [List.count_cons_self, List.count_cons_self]
      omega
    · rw [List.count_cons_of_ne hne, List.count_cons_of_ne hne]
      exact ih (by omega) (by omega)

theorem waiting_length (seed : UInt64) (js : List Job) : (waiting seed js).length = js.length := by
  induction js generalizing seed with
  | nil => rfl
  | cons j js ih => rw [waiting, List.length_cons, List.length_cons, ih]

/-- A job that goes on twice in a row is done. -/
theorem advance_twice (done : List Task) (j : Job) (seed : UInt64) (ks : List Task)
    (t : FileTree) :
    ((⟨t, done ++ ⟨j, seed, .waiting⟩ :: ks⟩ : Batch).advance c out done.length).advance c out
        done.length =
      ⟨(j.process c seed out t).2, done ++ ⟨j, seed, .done (j.process c seed out t).1⟩ :: ks⟩ := by
  simp [Batch.advance, Task.advance, Job.process]

/-- Jobs one after the other follow a schedule. -/
theorem run_inOrder (c : Config) (out : Text) (done : List Task) (seed : UInt64) (js : List Job)
    (t : FileTree) :
    ∃ ks, (⟨t, done ++ waiting seed js⟩ : Batch).run c out (inOrder done.length js.length) =
        ⟨(Job.processAll c out seed js t).2, done ++ ks⟩ ∧
      ks.map Task.outcome? = (Job.processAll c out seed js t).1.map some := by
  induction js generalizing done seed t with
  | nil => exact ⟨[], rfl, rfl⟩
  | cons j js ih =>
    obtain ⟨ks, hrun, hout⟩ :=
      ih (done ++ [⟨j, seed, .done (j.process c seed out t).1⟩]) (seed + 1)
        (j.process c seed out t).2
    refine ⟨⟨j, seed, .done (j.process c seed out t).1⟩ :: ks, ?_, ?_⟩
    · rw [List.length_cons, inOrder_succ, waiting, run, List.foldl_cons, List.foldl_cons,
        advance_twice, Job.processAll]
      rw [List.length_append, List.length_singleton, List.append_assoc, List.append_assoc] at hrun
      exact hrun
    · rw [Job.processAll, List.map_cons, List.map_cons, hout]
      rfl

/-! ## The theorem -/

theorem reset_waiting (seed : UInt64) (js : List Job) :
    (waiting seed js).map Task.reset = waiting seed js := by
  induction js generalizing seed with
  | nil => rfl
  | cons j js ih =>
    rw [waiting, List.map_cons, ih]
    rfl

theorem job_waiting (seed : UInt64) (js : List Job) : (waiting seed js).map (·.job) = js := by
  induction js generalizing seed with
  | nil => rfl
  | cons j js ih => rw [waiting, List.map_cons, ih]

theorem stage_waiting {seed : UInt64} {js : List Job} {k : Task} (h : k ∈ waiting seed js) :
    k.stage = .waiting := by
  induction js generalizing seed with
  | nil => exact absurd h List.not_mem_nil
  | cons j js ih =>
    rcases List.mem_cons.mp h with rfl | h
    · rfl
    · exact ih h

/-- Before anything is done there is nothing to track. -/
theorem tracks_waiting {js : List Job} (ht : t.Sound) (hfound : ∀ j ∈ js, j.Found t)
    (hspares : js.Pairwise fun a b => a.Spares t o b ∧ b.Spares t o a) (seed : UInt64) :
    Tracks c out o t (waiting seed js) t := by
  have hwrote : ∀ {k : Task}, k ∈ waiting seed js → ∀ s, ¬ k.Wrote s := fun hk =>
    Task.not_wrote (by simp [stage_waiting hk])
  exact {
    found := fun k hk => hfound k.job (by
      rw [← job_waiting seed js]
      exact List.mem_map_of_mem hk)
    spares := List.pairwise_map.mp (by rwa [job_waiting seed])
    agrees := fun k hk => by simp [Task.Agrees, stage_waiting hk]
    sound := ht
    grows := .refl t
    written := fun k hk s hs => absurd hs (hwrote hk s)
    kept := fun l _ => rfl
    folders := fun l => ⟨.inl, fun h => h.resolve_right fun ⟨k, hk, ⟨s, hs⟩, _⟩ => hwrote hk s hs⟩ }

/-- Side by side, jobs come to what they come to one after the other, however they are scheduled,
and leave the same folders and files, if no job writes what another one reads and no output is a
folder around another one. -/
theorem run_eq_processAll {t u : FileTree} {inputs : List Text} {out : Text} {js : List Job}
    (ht : t.Sound) (hn : t.Named) (hj : Job.discover t inputs = .ok js)
    (ho : t.makeFolders out = some u) (hs : Job.Separate u out js) (c : Config) (seed : UInt64)
    {schedule : List Nat} (hall : ∀ i < js.length, 2 ≤ schedule.count i) :
    ((⟨u, waiting seed js⟩ : Batch).run c out schedule).tasks.map Task.outcome? =
        (Job.processAll c out seed js u).1.map some ∧
      ∀ l, ((⟨u, waiting seed js⟩ : Batch).run c out schedule).tree.contents? l =
          (Job.processAll c out seed js u).2.contents? l ∧
        ((⟨u, waiting seed js⟩ : Batch).run c out schedule).tree.isFolderAt l =
          (Job.processAll c out seed js u).2.isFolderAt l := by
  obtain ⟨hfound, hdistinct⟩ := Job.discover_spec ht hn hj
  obtain ⟨hu, hgrow, hfiles, o, hreach, hf⟩ := makeFolders_spec ht ho
  have hspares : js.Pairwise fun a b => a.Spares u o b ∧ b.Spares u o a := by
    refine hdistinct.imp_of_mem fun ha hb hne => ?_
    have hab : _ ≠ _ := fun h => hne (congrArg Job.relative h)
    exact ⟨hs o hreach _ ha _ hb hab, hs o hreach _ hb _ ha hab.symm⟩
  have hfound' : ∀ j ∈ js, j.Found u := fun j hj =>
    have ⟨⟨l, hl, hfile⟩, hnames⟩ := hfound j hj
    ⟨⟨l, hgrow.locate hl, hgrow.file l hfile⟩, hnames⟩
  have hstart : Tracks c out o u (waiting seed js) u := tracks_waiting hu hfound' hspares seed
  -- One after the other is a schedule, too, and all schedules come to the same.
  obtain ⟨ks, hrun, hout⟩ := run_inOrder c out [] seed js u
  have hinOrder : ∀ i < (waiting seed js).length, 2 ≤ (inOrder 0 js.length).count i :=
    fun i hi => two_le_count_inOrder (Nat.zero_le i) (by rwa [Nat.zero_add, ← waiting_length])
  have hschedule : ∀ i < (waiting seed js).length, 2 ≤ schedule.count i := by
    rwa [waiting_length]
  have htasks := tasks_run (b := ⟨u, waiting seed js⟩) hstart hu hreach hf hschedule
  have htasks' := tasks_run (b := ⟨u, waiting seed js⟩) hstart hu hreach hf hinOrder
  have htracks := tracks_run (b := ⟨u, waiting seed js⟩) hstart hu hreach hf schedule
  have htracks' := tracks_run (b := ⟨u, waiting seed js⟩) hstart hu hreach hf (inOrder 0 js.length)
  rw [List.nil_append, List.length_nil] at hrun
  rw [hrun] at htasks' htracks'
  rw [List.nil_append] at htasks' htracks'
  have hsame := htasks.trans htasks'.symm
  rw [hsame] at htracks ⊢
  exact ⟨hout, fun l => htracks.unique htracks' l⟩

/-- Wrapping only, and only once. -/
def wrapOnce : Config :=
  { engine := { transformations := 1, distribution := .ofList [("lambda_identity", 1)] } }

/-- Two files in one folder. -/
def pair : FileTree :=
  .ofLists [] [] [(["d".toList, "a.py".toList], .text "x = 1\n".toList),
    (["d".toList, "b.py".toList], .text "y = 2\n".toList)]

def pairJobs : List Job :=
  [⟨"d/a.py".toList, "a.py".toList⟩, ⟨"d/b.py".toList, "b.py".toList⟩]

theorem discover_pair : Job.discover pair ["d".toList] = .ok pairJobs :=
  Job.discover_folder [["a.py".toList], ["b.py".toList]] (l := ["d".toList])
    (by decide) (by decide) (by decide) (by decide) (by decide)

/-- Each of them is read before the other one is written. -/
theorem run_eq_processAll_pair :
    ((⟨pair.addFolder ["o".toList], waiting 0 pairJobs⟩ : Batch).run wrapOnce "o".toList
        [1, 0, 0, 1]).tasks.map Task.outcome? =
      (Job.processAll wrapOnce "o".toList 0 pairJobs (pair.addFolder ["o".toList])).1.map some :=
  (run_eq_processAll (sound_of_lists (by decide) (by decide) (by decide))
    (named_of_list (by decide)) discover_pair (by decide)
    (Job.separate_of_reach (o := ["o".toList]) (by decide) (by decide)) wrapOnce 0 (by decide)).1

/-- A folder whose files are mutated into a folder inside it, where one of them is. -/
def nested : FileTree :=
  .ofLists [] [] [(["d".toList, "a.py".toList], .text "x = 1\n".toList),
    (["d".toList, "b".toList, "a.py".toList], .text "y = 2\n".toList)]

def nestedJobs : List Job :=
  [⟨"d/a.py".toList, "a.py".toList⟩, ⟨"d/b/a.py".toList, "b/a.py".toList⟩]

/-- If a job writes what another one reads then their order matters. -/
theorem order_matters :
    Job.discover nested ["d".toList] = .ok nestedJobs ∧
      nested.makeFolders "d/b".toList = some nested ∧
      ((⟨nested, waiting 0 nestedJobs⟩ : Batch).run wrapOnce "d/b".toList
          [0, 0, 1, 1]).tree.contents? ["d".toList, "b".toList, "b".toList, "a.py".toList] =
        some (.text "x = (lambda: (lambda: 1)())()\n".toList) ∧
      ((⟨nested, waiting 0 nestedJobs⟩ : Batch).run wrapOnce "d/b".toList
          [1, 1, 0, 0]).tree.contents? ["d".toList, "b".toList, "b".toList, "a.py".toList] =
        some (.text "y = (lambda: 2)()\n".toList) := by
  refine ⟨?_, by decide, by decide +kernel, by decide +kernel⟩
  exact Job.discover_folder [["a.py".toList], ["b".toList, "a.py".toList]] (l := ["d".toList])
    (by decide) (by decide) (by decide) (by decide) (by decide)

end Batch

end PointMutation
