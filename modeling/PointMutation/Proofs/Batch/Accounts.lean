import PointMutation.CommandLine
import PointMutation.Proofs.Batch.Schedule
import PointMutation.Proofs.Engine.Trail

/-!
# The accounts of a batch

A job succeeds if and only if its text can be read and mutated alone, with the seed of the batch
plus the number of the job; then its output is what comes of that, and else nothing is written. The
report counts the jobs and those that failed, and holds the records of the others in their order.
This does not depend on the other jobs nor on the schedule, as long as no input lies in the output
folder and every job that writes can write. The invariant is `Batch.Accounts`: what the jobs that
are done have written is there, and all other files are as they were. Unlike in `Batch.Tracks`, an
output may stand in the way of another one, but then a job fails in writing.
-/

namespace PointMutation

open FileTree

variable {c : Config} {out : Text} {t u v : FileTree} {o : Location}

/-! ## Mutating a text alone -/

/-- The seed of a configuration is no part of what an engine is set up with. -/
theorem Engine.standard_seed (c : Config) (seed : Option UInt64) (r : RandomSource) :
    Engine.standard { c with seed := seed } r = Engine.standard c r := rfl

/-- A job makes of a text what the same configuration makes of it with the seed of the job. -/
theorem Job.mutated_eq_mutate (j : Job) (c : Config) (seed : UInt64) (s : Text) :
    (j.mutated c seed s).toOption.map Prod.fst =
      (mutate { c with seed := some seed } s).toOption := by
  rw [Job.mutated, mutate]
  cases Source.read s with
  | error e => rfl
  | ok source =>
    simp only [Except.mapError, bind, Except.bind, Option.getD_some, Engine.standard_seed]
    cases Engine.standard c (.seeded seed) with
    | error e => rfl
    | ok engine =>
      dsimp only
      rw [engine.transform_label none (some (String.ofList j.input)) source]
      cases engine.transform (some (String.ofList j.input)) source with
      | mk answer engine' => cases answer <;> rfl

theorem Job.exists_mutated_iff {j : Job} {c : Config} {seed : UInt64} {s s' : Text} :
    (∃ records, j.mutated c seed s = .ok (s', records)) ↔
      mutate { c with seed := some seed } s = .ok s' := by
  have hequal := j.mutated_eq_mutate c seed s
  cases hm : j.mutated c seed s with
  | error e =>
    cases hmutate : mutate { c with seed := some seed } s with
    | error e' => simp
    | ok x =>
      rw [hm, hmutate] at hequal
      cases hequal
  | ok x =>
    cases hmutate : mutate { c with seed := some seed } s with
    | error e' =>
      rw [hm, hmutate] at hequal
      cases hequal
    | ok x' =>
      rw [hm, hmutate] at hequal
      obtain rfl : x.1 = x' := Option.some.inj hequal
      simp [Prod.ext_iff]

/-! ## Outcomes -/

/-- Whether a job has failed in writing its output. -/
def BatchFault.isWriting : BatchFault → Bool
  | noFolder _ | unwritten _ => true
  | _ => false

namespace Task

/-- What a job comes to if it can write its output. -/
def expected (c : Config) (out : Text) (t : FileTree) (k : Task) : Except BatchFault Processed :=
  (k.job.draft c k.seed t).map fun d =>
    ⟨k.job.input, Path.join out k.job.relative, d.original, d.result, d.records⟩

/-- What has been read and what has come of it is as expected. -/
def IsExpected (c : Config) (out : Text) (t : FileTree) (k : Task) : Prop :=
  match k.stage with
  | .waiting => True
  | .drafted d => d = k.job.draft c k.seed t
  | .done r => r = k.expected c out t

/-- A job has failed in writing. -/
def Broken (k : Task) : Prop := ∃ e : BatchFault, k.stage = .done (.error e) ∧ e.isWriting = true

end Task

namespace Batch

/-- Tasks none of which has failed in writing, and the tree they have come to. -/
structure Accounts (c : Config) (out : Text) (o : Location) (t : FileTree) (ks : List Task)
    (u : FileTree) : Prop where
  found : ∀ k ∈ ks, k.job.Found t
  outside : ∀ k ∈ ks, ∀ l, t.locate k.job.input = some l → ¬ o <+: l
  distinct : ks.Pairwise fun k h => k.job.target o ≠ h.job.target o
  expected : ∀ k ∈ ks, k.IsExpected c out t
  sound : u.Sound
  grows : Grows t u
  written : ∀ k ∈ ks, ∀ s, k.Wrote s → u.contents? (k.job.target o) = some (.text s)
  kept : ∀ l, (∀ k ∈ ks, ∀ s, k.Wrote s → k.job.target o ≠ l) → u.contents? l = t.contents? l

namespace Accounts

variable {ks hs : List Task} {k k' : Task}

theorem perm (h : Accounts c out o t ks u) (hp : ks.Perm hs) : Accounts c out o t hs u where
  found x hx := h.found x (hp.mem_iff.mpr hx)
  outside x hx := h.outside x (hp.mem_iff.mpr hx)
  distinct := (hp.pairwise_iff fun hxy => hxy.symm).mp h.distinct
  expected x hx := h.expected x (hp.mem_iff.mpr hx)
  sound := h.sound
  grows := h.grows
  written x hx := h.written x (hp.mem_iff.mpr hx)
  kept l hl := h.kept l fun x hx => hl x (hp.mem_iff.mp hx)

/-- A job reads what was there before all jobs. -/
theorem draft_eq (h : Accounts c out o t (k :: ks) u) (seed : UInt64) :
    k.job.draft c seed u = k.job.draft c seed t := by
  obtain ⟨l, hl, -⟩ := (h.found k List.mem_cons_self).located
  have hoff := h.outside k List.mem_cons_self l hl
  have hcontents : u.contents? l = t.contents? l := h.kept l fun x _ s _ he =>
    hoff (he ▸ List.prefix_append o _)
  rw [Job.draft, Job.draft, readText, readText, hl, h.grows.locate hl]
  simp only [hcontents]

/-- The first task changes its stage, and the tree may hold its output. -/
theorem cons (h : Accounts c out o t (k :: ks) u) (hjob : k'.job = k.job)
    (hk : ∀ s, ¬ k.Wrote s) (hexpected : k'.IsExpected c out t) (hsound : v.Sound)
    (hgrows : Grows u v)
    (hwritten : ∀ s, k'.Wrote s → v.contents? (k.job.target o) = some (.text s))
    (hkept : ∀ l, (l = k.job.target o → ∀ s, ¬ k'.Wrote s) → v.contents? l = u.contents? l) :
    Accounts c out o t (k' :: ks) v where
  found x hx := by
    rcases List.mem_cons.mp hx with rfl | hx
    · exact hjob ▸ h.found k List.mem_cons_self
    · exact h.found x (List.mem_cons_of_mem k hx)
  outside x hx := by
    rcases List.mem_cons.mp hx with rfl | hx
    · exact hjob ▸ h.outside k List.mem_cons_self
    · exact h.outside x (List.mem_cons_of_mem k hx)
  distinct := by
    obtain ⟨hhead, htail⟩ := List.pairwise_cons.mp h.distinct
    exact .cons (hjob ▸ hhead) htail
  expected x hx := by
    rcases List.mem_cons.mp hx with rfl | hx
    · exact hexpected
    · exact h.expected x (List.mem_cons_of_mem k hx)
  sound := hsound
  grows := h.grows.trans hgrows
  written x hx s hs := by
    rcases List.mem_cons.mp hx with rfl | hx
    · exact hjob ▸ hwritten s hs
    · have hne : x.job.target o ≠ k.job.target o :=
        ((List.pairwise_cons.mp h.distinct).1 x hx).symm
      rw [hkept _ fun he => absurd he hne]
      exact h.written x (List.mem_cons_of_mem k hx) s hs
  kept l hl := by
    rw [hkept l fun he s hs => hl k' List.mem_cons_self s hs (hjob ▸ he.symm)]
    refine h.kept l fun x hx s hs => ?_
    rcases List.mem_cons.mp hx with rfl | hx
    · exact absurd hs (hk s)
    · exact hl x (List.mem_cons_of_mem k' hx) s hs

/-- A task that changes its stage without writing leaves the tree as it is. -/
theorem cons_of_not_wrote (h : Accounts c out o t (k :: ks) u) (hjob : k'.job = k.job)
    (hk : ∀ s, ¬ k.Wrote s) (hk' : ∀ s, ¬ k'.Wrote s) (hexpected : k'.IsExpected c out t) :
    Accounts c out o t (k' :: ks) u :=
  h.cons hjob hk hexpected h.sound (.refl u) (fun s hs => absurd hs (hk' s)) fun _ _ => rfl

/-- A task that goes on does what is expected, or fails in writing. -/
theorem advance (h : Accounts c out o t (k :: ks) u) (ho : t.reach out = some o)
    (hf : t.isFolderAt o = true) :
    Accounts c out o t ((k.advance c out u).1 :: ks) (k.advance c out u).2 ∨
      (k.advance c out u).1.Broken := by
  have hexpected := h.expected k List.mem_cons_self
  rw [Task.IsExpected] at hexpected
  rw [Task.advance]
  cases hstage : k.stage with
  | waiting =>
    have hk : ∀ s, ¬ k.Wrote s := Task.not_wrote (by simp [hstage])
    exact .inl (h.cons_of_not_wrote rfl hk (Task.not_wrote (by simp)) (h.draft_eq k.seed))
  | done r => exact .inl h
  | drafted d =>
    have hk : ∀ s, ¬ k.Wrote s := Task.not_wrote (by simp [hstage])
    rw [hstage] at hexpected
    dsimp only at hexpected ⊢
    cases d with
    | error e =>
      refine .inl (h.cons_of_not_wrote rfl hk (Task.not_wrote (by simp [Job.finish])) ?_)
      show Except.error e = k.expected c out t
      rw [Task.expected, ← hexpected]
      rfl
    | ok d =>
      have hnames := (h.found k List.mem_cons_self).names
      have hfolder := h.grows.folder o hf
      have hne := Path.parts_ne_nil k.job.relative
      have hwrite := Job.write_eq (s := d.result) h.sound (h.grows.reach ho) hfolder hne hnames
      rw [Path.ofParts_parts, ← Job.target] at hwrite
      rw [Job.finish]
      cases hblock : u.isBlocked o (Path.parts k.job.relative).dropLast with
      | true =>
        rw [hblock, if_pos rfl] at hwrite
        rw [Job.deliver_of_error hwrite]
        exact .inr ⟨_, rfl, rfl⟩
      | false =>
        rw [hblock, if_neg (by decide)] at hwrite
        cases hnew : u.isFolderAt (k.job.target o) with
        | true =>
          rw [hnew, if_pos rfl] at hwrite
          rw [Job.deliver_of_error hwrite]
          exact .inr ⟨_, rfl, rfl⟩
        | false =>
          rw [hnew, if_neg (by decide)] at hwrite
          rw [Job.deliver_of_ok hwrite]
          refine .inl (h.cons rfl hk ?_ (h.sound.deliver hfolder hne hnames hblock hnew _)
            (grows_deliver h.sound hfolder hne _) ?_ ?_)
          · show Except.ok _ = k.expected c out t
            rw [Task.expected, ← hexpected]
            rfl
          · rintro s ⟨p, hp, rfl⟩
            cases hp
            rw [deliver_contents, Job.target, if_pos rfl]
          · intro l hl
            have hne' : l ≠ o ++ Path.parts k.job.relative := fun he => hl he _ ⟨_, rfl, rfl⟩
            rw [deliver_contents, if_neg hne']

end Accounts

/-! ## A run -/

/-- A batch in which no job has failed in writing and everything is as expected, or one in which a
job has. -/
def Stands (c : Config) (out : Text) (o : Location) (t : FileTree) (b : Batch) : Prop :=
  Accounts c out o t b.tasks b.tree ∨ ∃ k ∈ b.tasks, k.Broken

theorem stands_advance {b : Batch} (h : Stands c out o t b) (ho : t.reach out = some o)
    (hf : t.isFolderAt o = true) (i : Nat) : Stands c out o t (b.advance c out i) := by
  rw [Batch.advance]
  split
  · exact h
  · next k hk =>
    obtain ⟨hs, gs, hks, hset⟩ := exists_split hk
    rw [Stands, hks] at h
    simp only [Stands, hset]
    rcases h with h | ⟨x, hx, e, hstage, he⟩
    · rcases (h.perm List.perm_middle).advance ho hf with h | hbroken
      · exact .inl (h.perm List.perm_middle.symm)
      · exact .inr ⟨_, by simp, hbroken⟩
    · -- A job that is done stays as it is.
      refine .inr ⟨x, ?_, e, hstage, he⟩
      rw [List.mem_append, List.mem_cons] at hx ⊢
      rcases hx with hx | rfl | hx
      · exact .inl hx
      · exact .inr (.inl (by rw [Task.advance, hstage]))
      · exact .inr (.inr hx)

theorem stands_run {b : Batch} (h : Stands c out o t b) (ho : t.reach out = some o)
    (hf : t.isFolderAt o = true) (schedule : List Nat) :
    Stands c out o t (b.run c out schedule) := by
  induction schedule generalizing b with
  | nil => exact h
  | cons i schedule ih => exact ih (stands_advance h ho hf i)

theorem accounts_waiting {js : List Job} (ht : t.Sound) (hfound : ∀ j ∈ js, j.Found t)
    (hoff : ∀ j ∈ js, ∀ l, t.locate j.input = some l → ¬ o <+: l)
    (hdistinct : js.Pairwise fun a b => a.target o ≠ b.target o) (seed : UInt64) :
    Accounts c out o t (waiting seed js) t := by
  have hwrote : ∀ {k : Task}, k ∈ waiting seed js → ∀ s, ¬ k.Wrote s := fun hk =>
    Task.not_wrote (by simp [stage_waiting hk])
  have hjob {k : Task} (hk : k ∈ waiting seed js) : k.job ∈ js := by
    rw [← job_waiting seed js]
    exact List.mem_map_of_mem hk
  exact {
    found := fun k hk => hfound k.job (hjob hk)
    outside := fun k hk => hoff k.job (hjob hk)
    distinct := by
      rwa [← job_waiting seed js, List.pairwise_map] at hdistinct
    expected := fun k hk => by simp [Task.IsExpected, stage_waiting hk]
    sound := ht
    grows := .refl t
    written := fun k hk s hs => absurd hs (hwrote hk s)
    kept := fun l _ => rfl }

theorem waiting_getElem? (seed : UInt64) (js : List Job) (i : Nat) :
    (waiting seed js)[i]? = js[i]?.map fun j => ⟨j, seed + .ofNat i, .waiting⟩ := by
  induction js generalizing seed i with
  | nil => rfl
  | cons j js ih =>
    cases i with
    | zero => simp [waiting]
    | succ i =>
      have hseed : seed + 1 + .ofNat i = seed + .ofNat (i + 1) := by
        rw [UInt64.add_assoc, UInt64.ofNat_add, UInt64.add_comm (UInt64.ofNat i)]
        rfl
      rw [waiting, List.getElem?_cons_succ, List.getElem?_cons_succ, ih, hseed]

/-- What jobs come to in some schedule that gets all of them done. -/
def Completes (c : Config) (out : Text) (seed : UInt64) (js : List Job) (t : FileTree)
    (rs : List (Except BatchFault Processed)) (v : FileTree) : Prop :=
  ∃ schedule : List Nat, (∀ i < js.length, 2 ≤ schedule.count i) ∧
    ((⟨t, waiting seed js⟩ : Batch).run c out schedule).tasks.map Task.outcome? = rs.map some ∧
    ((⟨t, waiting seed js⟩ : Batch).run c out schedule).tree = v

/-- One after the other is such a schedule. -/
theorem completes_processAll (c : Config) (out : Text) (seed : UInt64) (js : List Job)
    (t : FileTree) : Completes c out seed js t (Job.processAll c out seed js t).1
      (Job.processAll c out seed js t).2 := by
  obtain ⟨ks, hrun, hout⟩ := run_inOrder c out [] seed js t
  rw [List.nil_append, List.nil_append, List.length_nil] at hrun
  refine ⟨inOrder 0 js.length, fun i hi => two_le_count_inOrder (Nat.zero_le i) (by omega), ?_, ?_⟩
  · rw [hrun]
    exact hout
  · rw [hrun]

end Batch

/-! ## The account of each job -/

namespace Job

/-- What holds of a job behind a batch that has found `t` and left `v`: whether it has succeeded,
what its output is, and what the records tell. -/
structure Accounted (c : Config) (seed : UInt64) (t : FileTree) (o : Location) (v : FileTree)
    (j : Job) (r : Except BatchFault Processed) : Prop where
  succeeds : r.isOk = true ↔
    ∃ s s', t.readText j.input = some s ∧ mutate { c with seed := some seed } s = .ok s'
  output : ∀ s s', t.readText j.input = some s → mutate { c with seed := some seed } s = .ok s' →
    v.contents? (j.target o) = some (.text s')
  spared : r.isOk = false → v.contents? (j.target o) = t.contents? (j.target o)
  records : ∀ p, r = .ok p →
    ∃ s, t.readText j.input = some s ∧ j.mutated c seed s = .ok (p.mutated, p.records)

theorem draft_eq_ok {j : Job} {seed : UInt64} {d : Draft} : j.draft c seed t = .ok d ↔
    t.readText j.input = some d.original ∧
      j.mutated c seed d.original = .ok (d.result, d.records) := by
  rw [draft]
  cases t.readText j.input with
  | none => simp
  | some s =>
    constructor
    · intro h
      cases hm : j.mutated c seed s with
      | error e => simp [hm] at h
      | ok x =>
        simp only [hm, Except.ok.injEq] at h
        subst h
        exact ⟨rfl, hm⟩
    · rintro ⟨hs, hm⟩
      obtain rfl := Option.some.inj hs
      simp [hm]

/-- A draft is made if and only if the text can be read and mutated alone. -/
theorem exists_draft_iff {j : Job} {seed : UInt64} {s' : Text} :
    (∃ d : Draft, j.draft c seed t = .ok d ∧ d.result = s') ↔
      ∃ s, t.readText j.input = some s ∧ mutate { c with seed := some seed } s = .ok s' := by
  constructor
  · rintro ⟨d, hd, rfl⟩
    obtain ⟨hread, hm⟩ := draft_eq_ok.mp hd
    exact ⟨d.original, hread, exists_mutated_iff.mp ⟨d.records, hm⟩⟩
  · rintro ⟨s, hread, hmutate⟩
    obtain ⟨records, hm⟩ := exists_mutated_iff.mpr hmutate
    exact ⟨⟨s, s', records⟩, draft_eq_ok.mpr ⟨hread, hm⟩, rfl⟩

/-- A job that is done in a batch without failures in writing has its account. -/
theorem accounted_of_accounts {ks : List Task} {k : Task} {r : Except BatchFault Processed}
    (h : Batch.Accounts c out o t (k :: ks) v) (hdone : k.stage = .done r) :
    k.job.Accounted c k.seed t o v r := by
  have hexpected : r = k.expected c out t := by
    have hk := h.expected k List.mem_cons_self
    rwa [Task.IsExpected, hdone] at hk
  have hok : ∀ p, r = .ok p ↔ ∃ d, k.job.draft c k.seed t = .ok d ∧
      ⟨k.job.input, Path.join out k.job.relative, d.original, d.result, d.records⟩ = p := by
    intro p
    rw [hexpected, Task.expected]
    cases k.job.draft c k.seed t <;> simp [Except.map]
  refine ⟨⟨fun hr => ?_, ?_⟩, fun s s' hread hmutate => ?_, fun hr => ?_, fun p hp => ?_⟩
  · cases r with
    | error e => cases hr
    | ok p =>
      obtain ⟨d, hd, -⟩ := (hok p).mp rfl
      obtain ⟨s, hs⟩ := exists_draft_iff.mp ⟨d, hd, rfl⟩
      exact ⟨s, d.result, hs⟩
  · rintro ⟨s, s', hs⟩
    obtain ⟨d, hd, -⟩ := exists_draft_iff.mpr ⟨s, hs⟩
    rw [(hok _).mpr ⟨d, hd, rfl⟩]
    rfl
  · obtain ⟨d, hd, rfl⟩ := exists_draft_iff.mpr ⟨s, hread, hmutate⟩
    have hr := (hok _).mpr ⟨d, hd, rfl⟩
    exact h.written k List.mem_cons_self d.result ⟨_, by rw [hdone, hr], rfl⟩
  · refine h.kept _ fun x hx s hs => ?_
    rcases List.mem_cons.mp hx with rfl | hx
    · obtain ⟨p, hp, -⟩ := hs
      rw [hdone] at hp
      obtain rfl := Stage.done.inj hp
      cases hr
    · exact ((List.pairwise_cons.mp h.distinct).1 x hx).symm
  · obtain ⟨d, hd, rfl⟩ := (hok p).mp hp
    obtain ⟨hread, hm⟩ := draft_eq_ok.mp hd
    exact ⟨d.original, hread, hm⟩

end Job

/-- Every job of a batch in which none has failed in writing has its account. -/
theorem Batch.accounted_of_completes {js : List Job} {seed : UInt64}
    {rs : List (Except BatchFault Processed)} (ht : t.Sound) (ho : t.reach out = some o)
    (hf : t.isFolderAt o = true) (hfound : ∀ j ∈ js, j.Found t)
    (hoff : ∀ j ∈ js, ∀ l, t.locate j.input = some l → ¬ o <+: l)
    (hdistinct : js.Pairwise fun a b => a.relative ≠ b.relative)
    (hdone : Completes c out seed js t rs v)
    (hwrite : ∀ e, .error e ∈ rs → e.isWriting = false) :
    rs.length = js.length ∧ ∀ (i : Nat) (j : Job), js[i]? = some j →
      ∃ r, rs[i]? = some r ∧ j.Accounted c (seed + .ofNat i) t o v r := by
  obtain ⟨schedule, hall, hout, htree⟩ := hdone
  have hreset := reset_run c out ⟨t, waiting seed js⟩ schedule
  have hnumber : ∀ k ∈ (Batch.run c out ⟨t, waiting seed js⟩ schedule).tasks,
      k.stage.number = 2 := number_of_count (by rwa [waiting_length])
  have hstart : Stands c out o t ⟨t, waiting seed js⟩ := by
    refine .inl (accounts_waiting ht hfound hoff (hdistinct.imp fun hne he => hne ?_) seed)
    exact Path.parts_injective (List.append_cancel_left he)
  have hstands := stands_run hstart ho hf schedule
  generalize (⟨t, waiting seed js⟩ : Batch).run c out schedule = b at *
  subst htree
  have hlength : rs.length = js.length := by
    have h := congrArg List.length hout
    have h' := congrArg List.length hreset
    simp only [List.length_map, waiting_length] at h h'
    omega
  rcases hstands with haccounts | ⟨k, hk, e, hstage, he⟩
  · refine ⟨hlength, fun i j hj => ?_⟩
    rw [reset_waiting] at hreset
    have hi := congrArg (·[i]?) hreset
    simp only [List.getElem?_map, waiting_getElem?, hj, Option.map_some] at hi
    obtain ⟨k, hk, hkreset⟩ := Option.map_eq_some_iff.mp hi
    obtain ⟨rfl, hseed⟩ : k.job = j ∧ k.seed = seed + .ofNat i := by
      rw [Task.reset, Task.mk.injEq] at hkreset
      exact ⟨hkreset.1, hkreset.2.1⟩
    have hmem := List.mem_of_getElem? hk
    obtain ⟨r, hr⟩ : ∃ r, k.stage = .done r := by
      have := hnumber k hmem
      cases hstage : k.stage with
      | waiting => simp [hstage, Stage.number] at this
      | drafted d => simp [hstage, Stage.number] at this
      | done r => exact ⟨r, rfl⟩
    have hri : rs[i]? = some r := by
      have h := congrArg (·[i]?) hout
      simp only [List.getElem?_map, hk, Option.map_some, Task.outcome?, hr] at h
      obtain ⟨x, hx, hsome⟩ := Option.map_eq_some_iff.mp h.symm
      rw [hx, Option.some.inj hsome]
    obtain ⟨hs, gs, hks, -⟩ := exists_split hk
    rw [hks] at haccounts
    rw [← hseed]
    exact ⟨r, hri, Job.accounted_of_accounts (haccounts.perm List.perm_middle) hr⟩
  · -- A job that has failed in writing is excluded.
    have hmem : some (Except.error e) ∈ rs.map some := by
      rw [← hout]
      exact List.mem_map.mpr ⟨k, hk, by rw [Task.outcome?, hstage]⟩
    rw [hwrite e (by simpa using hmem)] at he
    cases he

end PointMutation
