import PointMutation.Proofs.Batch.Discovery
import Mathlib.Data.List.Forall2
import Mathlib.Data.List.Dedup
import Mathlib.Data.List.Nodup
import Mathlib.Data.List.Lex
import Mathlib.Data.Char

/-!
# Finding the files of a batch

A walk through a folder comes by every file at any depth below it that is taken, and by each of them
once, whatever the order is in which folders are listed (`FileTree.Listing.mem_walk`,
`FileTree.Listing.nodup_walk`). Since the files are sorted then, the order makes no difference
(`Job.discoverListed_eq`). What is found is said without any walk or sorting by `Job.Expands`, and
there are jobs unless an input is neither a file nor a folder or two jobs have the same output
(`Job.discoverListed_spec`).
-/

namespace PointMutation

namespace FileTree

variable {t : FileTree} {l way : Location}

/-! ## What is below a folder -/

theorem mem_filesBelow : way ∈ t.filesBelow l ↔ way ≠ [] ∧ t.isFileAt (l ++ way) = true := by
  refine ⟨Job.exists_of_mem_filesBelow, fun ⟨hne, hfile⟩ => ?_⟩
  obtain ⟨f, hf, he⟩ := exists_of_isFileAt hfile
  refine List.mem_filterMap.mpr ⟨f, hf, ?_⟩
  rw [he, below?, if_pos ⟨by simpa using List.length_pos_iff.mpr hne, by simp⟩]
  simp

/-- No file is there twice. -/
def Distinct (t : FileTree) : Prop := (t.files.map (·.1)).Nodup

instance (t : FileTree) : Decidable t.Distinct := inferInstanceAs (Decidable (List.Nodup _))

theorem below?_eq_some {m : Location} (h : below? l m = some way) : m = l ++ way := by
  rw [below?] at h
  split at h
  · next hcut =>
    obtain rfl := Option.some.inj h
    conv_lhs => rw [← List.take_append_drop l.length m, hcut.2]
  · cases h

theorem Distinct.filesBelow (ht : t.Distinct) (l : Location) : (t.filesBelow l).Nodup := by
  have hmap : t.filesBelow l = (t.files.map (·.1)).filterMap (below? l) := by
    rw [List.filterMap_map]
    rfl
  rw [hmap]
  refine List.Nodup.filterMap (fun a b way ha hb => ?_) ht
  rw [below?_eq_some ha, below?_eq_some hb]

/-! ## Walks -/

/-- The name of what lies right in a folder, if it does. -/
def nameIn? (l m : Location) : Option Text := if m.dropLast = l then m.getLast? else none

theorem nameIn?_eq_some {m : Location} {p : Text} : nameIn? l m = some p ↔ m = l ++ [p] := by
  rw [nameIn?]
  rcases List.eq_nil_or_concat m with rfl | ⟨m, q, rfl⟩
  · simp
  · by_cases h : m = l
    · simp [h, eq_comm]
    · simp [h]

namespace Listing

/-- The order in which a tree has its folders and its files. -/
def ofTree (t : FileTree) : t.Listing where
  entries l := ((t.folders ++ t.files.map (·.1)).filterMap (nameIn? l)).dedup
  nodup l := List.nodup_dedup _
  mem_iff l p := by
    rw [List.mem_dedup, List.mem_filterMap]
    simp only [nameIn?_eq_some, exists_eq_right, List.mem_append, Bool.or_eq_true]
    have hfile : l ++ [p] ∈ t.files.map (·.1) ↔ t.isFileAt (l ++ [p]) = true := by
      refine ⟨fun h => ?_, fun h => ?_⟩
      · obtain ⟨f, hf, he⟩ := List.mem_map.mp h
        exact he ▸ Job.isFileAt_of_mem hf
      · obtain ⟨f, hf, he⟩ := exists_of_isFileAt h
        exact he ▸ List.mem_map_of_mem hf
    rw [hfile]
    simp [isFolderAt]

variable (s : t.Listing) (taken : Location → Bool)

theorem mem_walk (ht : t.Sound) (l way w : Location) : w ∈ s.walk taken l way ↔
    ∃ rest, rest ≠ [] ∧ w = way ++ rest ∧ t.isFileAt (l ++ w) = true ∧ taken w = true := by
  induction way using walk.induct (t := t) l with
  | _ way ih =>
    rw [walk, List.mem_flatMap]
    constructor
    · rintro ⟨p, hp, hw⟩
      split at hw
      · next hfolder =>
        obtain ⟨rest, -, rfl, hfile, htaken⟩ := (ih p hfolder).mp hw
        exact ⟨p :: rest, by simp, by simp, hfile, htaken⟩
      · next hfolder =>
        split at hw
        · next htaken =>
          obtain rfl := List.mem_singleton.mp hw
          have hthere := (s.mem_iff _ _).mp hp
          rw [List.append_assoc] at hthere
          exact ⟨[p], by simp, rfl, by simpa [hfolder] using hthere, htaken⟩
        · cases hw
    · rintro ⟨rest, hne, rfl, hfile, htaken⟩
      obtain ⟨p, rest, rfl⟩ := List.exists_cons_of_ne_nil hne
      have hcons : way ++ p :: rest = (way ++ [p]) ++ rest := by simp
      rcases eq_or_ne rest [] with rfl | hrest
      · have hfolder : ¬ t.isFolderAt (l ++ (way ++ [p])) = true := fun h => by
          simp [ht.apart _ h] at hfile
        refine ⟨p, (s.mem_iff _ _).mpr ?_, ?_⟩
        · simp [List.append_assoc, hfile]
        · simp [hfolder, htaken]
      · have hfolder : t.isFolderAt (l ++ (way ++ [p])) = true :=
          ht.folder_of_file_below hrest (by rwa [List.append_assoc, ← hcons])
        refine ⟨p, (s.mem_iff _ _).mpr ?_, ?_⟩
        · simp [List.append_assoc, hfolder]
        · rw [dif_pos hfolder]
          exact (ih p hfolder).mpr ⟨rest, hrest, hcons, hfile, htaken⟩

theorem prefix_of_mem_walk (ht : t.Sound) {l way w : Location} (h : w ∈ s.walk taken l way) :
    way <+: w := by
  obtain ⟨rest, -, rfl, -⟩ := (s.mem_walk taken ht l way w).mp h
  exact List.prefix_append way rest

theorem nodup_walk (ht : t.Sound) (l way : Location) : (s.walk taken l way).Nodup := by
  induction way using walk.induct (t := t) l with
  | _ way ih =>
    rw [walk, List.nodup_flatMap]
    refine ⟨fun p _ => ?_, (s.nodup _).imp fun {p q} hpq => ?_⟩
    · split
      · next hfolder => exact ih p hfolder
      · split <;> simp
    · -- What is found by way of one entry goes on with its name.
      have hleads : ∀ {p w}, w ∈ (if _h : t.isFolderAt (l ++ (way ++ [p])) = true then
          s.walk taken l (way ++ [p]) else if taken (way ++ [p]) then [way ++ [p]] else []) →
          way ++ [p] <+: w := by
        intro p w hw
        split at hw
        · exact s.prefix_of_mem_walk taken ht hw
        · split at hw
          · exact List.mem_singleton.mp hw ▸ List.prefix_rfl
          · cases hw
      intro w hp hq
      have hlen : (way ++ [p]).length = (way ++ [q]).length := by simp
      have heq := (List.prefix_of_prefix_length_le (hleads hp) (hleads hq) hlen.le).eq_of_length hlen
      exact hpq (by simpa using heq)

theorem walk_perm (ht : t.Sound) (hd : t.Distinct) (l : Location) :
    (s.walk taken l []).Perm ((t.filesBelow l).filter taken) := by
  rw [List.perm_ext_iff_of_nodup (s.nodup_walk taken ht l []) ((hd.filesBelow l).filter taken)]
  intro w
  rw [s.mem_walk taken ht, List.mem_filter, mem_filesBelow]
  refine ⟨fun ⟨rest, hne, he, hfile, htaken⟩ => ⟨⟨?_, hfile⟩, htaken⟩,
    fun ⟨⟨hne, hfile⟩, htaken⟩ => ⟨w, hne, rfl, hfile, htaken⟩⟩
  rwa [he]

end Listing

end FileTree

namespace Job

open FileTree

variable {t : FileTree} {l : Location} {input : Text} {js : List Job}

/-! ## The order of locations -/

theorem inOrder_iff (a b : Location) : inOrder a b = true ↔ a ≤ b := by
  have hparts : (fun p q : Text => List.lex p q fun c d => decide (c.toNat < d.toNat)) =
      fun p q => decide (p < q) := by
    funext p q
    rw [List.lex_eq_decide_lex, decide_eq_decide]
    simp only [decide_eq_true_eq]
    rfl
  rw [inOrder, hparts, List.lex_eq_decide_lex]
  simp only [decide_eq_true_eq, Bool.not_eq_true', decide_eq_false_iff_not, List.lex_lt, not_lt]

theorem sorted_mergeSort (ways : List Location) : (ways.mergeSort inOrder).Pairwise (· ≤ ·) := by
  have h : (ways.mergeSort inOrder).Pairwise fun a b => inOrder a b = true :=
    List.pairwise_mergeSort
      (fun a b c hab hbc => by
        rw [inOrder_iff] at hab hbc ⊢
        exact hab.trans hbc)
      (fun a b => by
        rw [Bool.or_eq_true, inOrder_iff, inOrder_iff]
        exact le_total a b) ways
  exact h.imp fun hab => (inOrder_iff _ _).mp hab

theorem mergeSort_congr {ways ways' : List Location} (h : ways.Perm ways') :
    ways.mergeSort inOrder = ways'.mergeSort inOrder :=
  List.Perm.eq_of_pairwise (fun _ _ _ _ => le_antisymm) (sorted_mergeSort ways)
    (sorted_mergeSort ways')
    ((List.mergeSort_perm _ _).trans (h.trans (List.mergeSort_perm _ _).symm))

/-! ## The jobs of an input -/

/-- The jobs that an input stands for. A file is a job of its own, and goes where its name says. A
folder stands for the files at any depth below it that are taken, each of them once and in
increasing order of the ways to them, and they go where these ways lead. -/
inductive Expands (t : FileTree) (input : Text) : List Job → Prop
  | file (h : t.isFile input = true) : Expands t input [⟨input, Path.lastPart input⟩]
  | folder {l : Location} {ways : List Location} (hl : t.locate input = some l)
    (hf : t.isFolderAt l = true) (hsorted : ways.Pairwise (· < ·))
    (hways : ∀ way, way ∈ ways ↔ t.isFileAt (l ++ way) = true ∧ isTaken way = true) :
    Expands t input (ways.map fun way => ⟨Path.join input (Path.ofParts way), Path.ofParts way⟩)

theorem ofWalk_eq (ht : t.Sound) (hd : t.Distinct) (input : Text) (s : t.Listing) :
    ofWalk input s = ofInput t input := by
  rw [ofWalk, ofInput]
  cases t.locate input with
  | none => rfl
  | some l =>
    dsimp only
    rw [mergeSort_congr (s.walk_perm isTaken ht hd l)]
    rfl

/-- An input that stands for jobs is a file or a folder. -/
theorem ofInput_cases (ht : t.Sound) (hd : t.Distinct) (input : Text) :
    (∃ js, ofInput t input = .ok js ∧ Expands t input js ∧
        (t.isFile input = true ∨ t.isFolder input = true)) ∨
      (∃ fault, ofInput t input = .error fault) ∧
        t.isFile input = false ∧ t.isFolder input = false := by
  cases hl : t.locate input with
  | none => exact .inr ⟨⟨_, by rw [ofInput, hl]⟩, by simp [isFile, hl], by simp [isFolder, hl]⟩
  | some l =>
    left
    cases hf : t.isFolderAt l with
    | true =>
      refine ⟨ofFolder t input l, by simp [ofInput, hl, hf], ?_, .inr (by simp [isFolder, hl, hf])⟩
      have hnodup := (List.mergeSort_perm _ inOrder).nodup_iff.mpr
        ((hd.filesBelow l).filter isTaken)
      refine .folder hl hf ?_ fun way => ?_
      · exact (sorted_mergeSort _).imp₂ (fun _ _ hle hne => lt_of_le_of_ne hle hne) hnodup
      · rw [List.mem_mergeSort, List.mem_filter, mem_filesBelow]
        refine ⟨fun h => ⟨h.1.2, h.2⟩, fun h => ⟨⟨?_, h.1⟩, h.2⟩⟩
        rintro rfl
        exact absurd h.2 (by decide)
    | false =>
      obtain ⟨l', hl', hfile⟩ := (found_ofFile ht hl hf).located
      have hisFile : t.isFile input = true := by
        rw [isFile, hl']
        exact hfile
      exact ⟨_, by simp [ofInput, hl, hf], .file hisFile, .inl hisFile⟩

/-- What an input stands for is determined. -/
theorem Expands.unique (ht : t.Sound) {js' : List Job} (h : Expands t input js)
    (h' : Expands t input js') : js = js' := by
  cases h with
  | file hfile =>
    cases h' with
    | file _ => rfl
    | folder hl hf _ _ => simp [isFile, hl, ht.apart _ hf] at hfile
  | folder hl hf hsorted hways =>
    cases h' with
    | file hfile => simp [isFile, hl, ht.apart _ hf] at hfile
    | folder hl' hf' hsorted' hways' =>
      obtain rfl := Option.some.inj (hl.symm.trans hl')
      have hperm := (List.perm_ext_iff_of_nodup (hsorted.imp ne_of_lt) (hsorted'.imp ne_of_lt)).mpr
        fun way => (hways way).trans (hways' way).symm
      rw [List.Perm.eq_of_pairwise (fun _ _ _ _ h h' => absurd h h'.asymm) hsorted hsorted' hperm]

/-! ## All inputs -/

theorem discoverListed_eq (ht : t.Sound) (hd : t.Distinct) (inputs : List (Text × t.Listing)) :
    discoverListed inputs = discover t (inputs.map (·.1)) := by
  have hwalks : inputs.mapM (fun i => ofWalk i.1 i.2) = (inputs.map (·.1)).mapM (ofInput t) := by
    rw [List.mapM_map]
    exact congrArg (List.mapM · inputs) (funext fun i => ofWalk_eq ht hd i.1 i.2)
  rw [discoverListed, hwalks, discover]

/-- The inputs stand for jobs if each of them is a file or a folder. -/
theorem mapM_ofInput_cases (ht : t.Sound) (hd : t.Distinct) (inputs : List Text) :
    (∃ jss, inputs.mapM (ofInput t) = .ok jss ∧ List.Forall₂ (Expands t) inputs jss ∧
        ∀ i ∈ inputs, t.isFile i = true ∨ t.isFolder i = true) ∨
      (∃ fault, inputs.mapM (ofInput t) = .error fault) ∧
        ∃ i ∈ inputs, t.isFile i = false ∧ t.isFolder i = false := by
  induction inputs with
  | nil => exact .inl ⟨[], rfl, .nil, by simp⟩
  | cons i is ih =>
    rw [List.mapM_cons]
    rcases ofInput_cases ht hd i with ⟨js, hi, hexpands, hthere⟩ | ⟨⟨fault, hi⟩, hmissing⟩
    · rcases ih with ⟨jss, his, hall, hthere'⟩ | ⟨⟨fault, his⟩, j, hj, hmissing⟩
      · rw [hi, his]
        exact .inl ⟨_, rfl, .cons hexpands hall, by simpa using ⟨hthere, hthere'⟩⟩
      · rw [hi, his]
        exact .inr ⟨⟨fault, rfl⟩, j, List.mem_cons_of_mem i hj, hmissing⟩
    · rw [hi]
      exact .inr ⟨⟨fault, rfl⟩, i, List.mem_cons_self, hmissing⟩

theorem collision?_eq_none_iff (seen js : List Job) : collision? seen js = none ↔
    (js.map (·.relative)).Nodup ∧ ∀ i ∈ seen, ∀ j ∈ js, i.relative ≠ j.relative := by
  refine ⟨fun h => ?_, fun h => ?_⟩
  · obtain ⟨hpairwise, hseen⟩ := pairwise_of_collision h
    exact ⟨List.pairwise_map.mpr hpairwise, hseen⟩
  · induction js generalizing seen with
    | nil => rfl
    | cons k js ih =>
      obtain ⟨hnodup, hseen⟩ := h
      rw [List.map_cons, List.nodup_cons] at hnodup
      have hnone : seen.find? (fun i => i.relative = k.relative) = none := by
        simpa using fun i hi => hseen i hi k List.mem_cons_self
      rw [collision?, hnone]
      refine ih (seen ++ [k]) ⟨hnodup.2, fun i hi j hj => ?_⟩
      rcases List.mem_append.mp hi with hi | hi
      · exact hseen i hi j (List.mem_cons_of_mem k hj)
      · rw [List.mem_singleton.mp hi]
        exact fun he => hnodup.1 (he ▸ List.mem_map_of_mem hj)

theorem Expands.unique_all (ht : t.Sound) {inputs : List Text} {jss jss' : List (List Job)}
    (h : List.Forall₂ (Expands t) inputs jss) (h' : List.Forall₂ (Expands t) inputs jss') :
    jss = jss' :=
  have hunique : Relator.RightUnique (Expands t) := fun _ _ _ h h' => h.unique ht h'
  hunique.forall₂ h h'

/-- The jobs that the inputs stand for are the jobs, unless two of them have the same output. -/
theorem discover_of_jobs {inputs : List Text} {jss : List (List Job)}
    (h : inputs.mapM (ofInput t) = .ok jss) :
    (jss.flatten.map (·.relative)).Nodup ∧ discover t inputs = .ok jss.flatten ∨
      ¬ (jss.flatten.map (·.relative)).Nodup ∧ ∃ fault, discover t inputs = .error fault := by
  have hcollision := collision?_eq_none_iff [] jss.flatten
  simp only [discover, h, bind, Except.bind]
  cases hc : collision? [] jss.flatten with
  | none => exact .inl ⟨(hcollision.mp hc).1, rfl⟩
  | some e =>
    refine .inr ⟨fun hnodup => ?_, e, rfl⟩
    simp [hcollision.mpr ⟨hnodup, by simp⟩] at hc

/-- Whatever the order is in which folders are listed, there are no jobs exactly if an input is
neither a file nor a folder or two jobs have the same output, and else the jobs are those that the
inputs stand for, in the order of the inputs. -/
theorem discoverListed_spec (ht : t.Sound) (hd : t.Distinct) (inputs : List (Text × t.Listing)) :
    discoverListed inputs = discover t (inputs.map (·.1)) ∧
    ((∃ fault, discoverListed inputs = .error fault) ↔
      (∃ i ∈ inputs, t.isFile i.1 = false ∧ t.isFolder i.1 = false) ∨
        ∃ jss, List.Forall₂ (Expands t) (inputs.map (·.1)) jss ∧
          ¬ (jss.flatten.map (·.relative)).Nodup) ∧
    ∀ js, discoverListed inputs = .ok js →
      (js.map (·.relative)).Nodup ∧
        ∃ jss, List.Forall₂ (Expands t) (inputs.map (·.1)) jss ∧ js = jss.flatten := by
  have heq := discoverListed_eq ht hd inputs
  refine ⟨heq, ?_⟩
  rw [heq]
  have hmissing : (∃ i ∈ inputs, t.isFile i.1 = false ∧ t.isFolder i.1 = false) ↔
      ∃ i ∈ inputs.map (·.1), t.isFile i = false ∧ t.isFolder i = false := by simp
  rw [hmissing]
  generalize inputs.map (·.1) = inputs
  rcases mapM_ofInput_cases ht hd inputs with ⟨jss, hjss, hall, hthere⟩ | ⟨⟨fault, hfault⟩, hnone⟩
  · rcases discover_of_jobs hjss with ⟨hnodup, hok⟩ | ⟨hdouble, fault, herror⟩
    · refine ⟨iff_of_false (by simp [hok]) ?_, fun js h => ?_⟩
      · rintro (⟨i, hi, hfile, hfolder⟩ | ⟨jss', hall', hdouble⟩)
        · simpa [hfile, hfolder] using hthere i hi
        · exact hdouble (Expands.unique_all ht hall hall' ▸ hnodup)
      · obtain rfl := Except.ok.inj (hok.symm.trans h)
        exact ⟨hnodup, jss, hall, rfl⟩
    · exact ⟨iff_of_true ⟨fault, herror⟩ (.inr ⟨jss, hall, hdouble⟩),
        fun js h => by simp [herror] at h⟩
  · have herror : discover t inputs = .error fault := by
      simp only [discover, hfault, bind, Except.bind]
    exact ⟨iff_of_true ⟨fault, herror⟩ (.inl hnone), fun js h => by simp [herror] at h⟩

/-- A folder below another one has the name of a file that would be taken, and a file has nothing in
front of the dot. -/
def mixed : FileTree :=
  .ofLists [] [] [(["d".toList, "x.py".toList, "a.py".toList], .text []),
    (["d".toList, "n.txt".toList], .text []), (["d".toList, ".py".toList], .text []),
    (["d".toList, "b.py".toList], .text [])]

def mixedJobs : List Job :=
  [⟨"d/b.py".toList, "b.py".toList⟩, ⟨"d/x.py/a.py".toList, "x.py/a.py".toList⟩]

theorem expands_mixed : Expands mixed "d".toList mixedJobs := by
  have hways : ∀ way, way ∈ [["b.py".toList], ["x.py".toList, "a.py".toList]] ↔
      mixed.isFileAt (["d".toList] ++ way) = true ∧ isTaken way = true := by
    refine fun way => ⟨fun h => ?_, fun ⟨hfile, htaken⟩ => ?_⟩
    · simp only [List.mem_cons, List.not_mem_nil, or_false] at h
      rcases h with rfl | rfl <;> decide
    · have hfiles : ∀ f ∈ mixed.files, isTaken f.1.tail = true →
          f.1.tail ∈ [["b.py".toList], ["x.py".toList, "a.py".toList]] := by decide
      obtain ⟨f, hf, he⟩ := exists_of_isFileAt hfile
      have hway : f.1.tail = way := by rw [he]; rfl
      exact hway ▸ hfiles f hf (hway.symm ▸ htaken)
  exact .folder (by decide) (by decide) (by decide) hways

/-- The other files become jobs in the order of their names, which is not the order of the tree. -/
theorem discoverListed_spec_mixed :
    discoverListed [("d".toList, Listing.ofTree mixed)] = .ok mixedJobs := by
  have ht : mixed.Sound := sound_of_lists (by decide) (by decide) (by decide)
  obtain ⟨-, hfails, hjobs⟩ :=
    discoverListed_spec ht (by decide) [("d".toList, Listing.ofTree mixed)]
  have hall : ∀ jss, List.Forall₂ (Expands mixed) ["d".toList] jss → jss = [mixedJobs] := by
    intro jss h
    cases h with
    | cons hd hnil =>
      cases hnil
      rw [hd.unique ht expands_mixed]
  cases hanswer : discoverListed [("d".toList, Listing.ofTree mixed)] with
  | error fault =>
    rcases hfails.mp ⟨fault, hanswer⟩ with ⟨i, hi, -, hfolder⟩ | ⟨jss, hjss, hdouble⟩
    · rw [List.mem_singleton.mp hi] at hfolder
      exact absurd hfolder (by decide)
    · exact absurd (hall jss hjss ▸ hdouble) (by decide)
  | ok js =>
    obtain ⟨-, jss, hjss, rfl⟩ := hjobs js hanswer
    rw [hall jss hjss]
    rfl

end Job

end PointMutation
