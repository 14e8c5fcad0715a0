import PointMutation.Batch.Job
import PointMutation.Proofs.Files.Tree

/-!
# The jobs of a batch

Every job that is found has a file as its input, and a place below the output folder that names
lead to. No two of them have the same place.
-/

namespace PointMutation.Job

open FileTree

variable {t : FileTree} {input : Text} {l : Location} {j : Job} {js : List Job}

/-- The input of a job is a file, and its output has names. -/
structure Found (t : FileTree) (j : Job) : Prop where
  located : ∃ l, t.locate j.input = some l ∧ t.isFileAt l = true
  names : ∀ p ∈ Path.parts j.relative, Path.IsName p

theorem isFileAt_of_mem {f : Location × Contents} (h : f ∈ t.files) : t.isFileAt f.1 = true := by
  obtain ⟨fs, gs, he⟩ := List.append_of_mem h
  rw [isFileAt, contents?, he, Option.isSome_iff_ne_none, ne_eq, List.lookup_eq_none_iff]
  intro hne
  simpa using hne f (by simp)

/-- What is below a folder. -/
theorem exists_of_mem_filesBelow {way : Location} (h : way ∈ t.filesBelow l) :
    way ≠ [] ∧ t.isFileAt (l ++ way) = true := by
  obtain ⟨f, hf, hway⟩ := List.mem_filterMap.mp h
  rw [below?] at hway
  split at hway
  · next hcut =>
    obtain rfl := Option.some.inj hway
    refine ⟨by simpa using hcut.1, ?_⟩
    have : l ++ f.1.drop l.length = f.1 := by
      conv_lhs => rw [← hcut.2]
      rw [List.length_take, Nat.min_eq_left hcut.1.le, List.take_append_drop]
    rw [this]
    exact isFileAt_of_mem hf
  · cases hway

theorem found_ofFolder (ht : t.Sound) (hn : t.Named) (hl : t.locate input = some l)
    (hf : t.isFolderAt l = true) (hj : j ∈ ofFolder t input l) : Found t j := by
  obtain ⟨way, hway, rfl⟩ := List.mem_map.mp hj
  obtain ⟨hne, hfile⟩ :=
    exists_of_mem_filesBelow (List.mem_filter.mp (List.mem_mergeSort.mp hway)).1
  have hnames : ∀ p ∈ way, Path.IsName p := fun p hp => hn _ hfile p (List.mem_append_right l hp)
  have hparts : Path.parts (Path.ofParts way) = way :=
    Path.parts_ofParts hne fun p hp => (hnames p hp).noSlash
  refine ⟨⟨l ++ way, ?_, hfile⟩, by rwa [hparts]⟩
  obtain ⟨front, hfront, hall⟩ := reach_join ht (locate_of_reach hl) hf hne hnames
  have hinput : Path.join input (Path.ofParts way) ≠ [] := by
    intro h
    obtain ⟨p, hp⟩ := List.exists_mem_of_ne_nil way hne
    have hmem : p ∈ Path.parts [] := by
      rw [← h, hfront]
      exact List.mem_append_right front hp
    exact (hnames p hp).ne_nil (List.mem_singleton.mp hmem)
  rw [locate_eq_reach hinput, reach, hfront, List.foldlM_append, hall]
  exact enterAll_names ht hnames (by simp [hfile])

theorem found_ofFile (ht : t.Sound) (hl : t.locate input = some l)
    (hf : t.isFolderAt l = false) : Found t ⟨input, Path.lastPart input⟩ := by
  have hreach := locate_of_reach hl
  obtain ⟨ini, p, hparts⟩ := (List.eq_nil_or_concat (Path.parts input)).resolve_left
    (Path.parts_ne_nil input)
  rw [List.concat_eq_append] at hparts
  rw [reach, hparts, List.foldlM_append] at hreach
  obtain ⟨k, -, hlast⟩ := Option.bind_eq_some_iff.mp hreach
  obtain ⟨m, hm, hml⟩ := Option.bind_eq_some_iff.mp hlast
  obtain rfl := Option.some.inj hml
  have hnoSlash : '/' ∉ p := Path.noSlash_of_mem_parts (by rw [hparts]; simp)
  have hpart : Path.lastPart input = p := by simp [Path.lastPart, hparts]
  rw [hpart]
  -- A last part that stays or goes up leads to a folder.
  obtain ⟨hk, ⟨-, rfl⟩ | ⟨-, rfl⟩ | ⟨hmoves, hup, rfl, hthere⟩⟩ := enter_cases hm
  · rw [hf] at hk
    cases hk
  · rw [ht.folder_dropLast hk] at hf
    cases hf
  · rw [hf, Bool.false_or] at hthere
    refine ⟨⟨k ++ [p], hl, hthere⟩, fun q hq => ?_⟩
    rw [Path.parts_of_noSlash hnoSlash] at hq
    obtain rfl := List.mem_singleton.mp hq
    exact ⟨hnoSlash, hmoves, hup⟩

theorem found_ofInput (ht : t.Sound) (hn : t.Named) (h : ofInput t input = .ok js) (hj : j ∈ js) :
    Found t j := by
  rw [ofInput] at h
  split at h
  · cases h
  · next l hl =>
    split at h
    · next hf =>
      obtain rfl := Except.ok.inj h
      exact found_ofFolder ht hn hl hf hj
    · next hf =>
      obtain rfl := Except.ok.inj h
      obtain rfl := List.mem_singleton.mp hj
      exact found_ofFile ht hl (by simpa using hf)

/-- Jobs without a collision have different outputs. -/
theorem pairwise_of_collision {seen js : List Job} (h : collision? seen js = none) :
    js.Pairwise (fun a b => a.relative ≠ b.relative) ∧
      ∀ i ∈ seen, ∀ j ∈ js, i.relative ≠ j.relative := by
  induction js generalizing seen with
  | nil => exact ⟨.nil, fun _ _ _ hj => absurd hj List.not_mem_nil⟩
  | cons k js ih =>
    rw [collision?] at h
    split at h
    · cases h
    · next hnone =>
      obtain ⟨hjs, hseen⟩ := ih h
      refine ⟨.cons (fun j hj => hseen k (by simp) j hj) hjs, fun i hi j hj => ?_⟩
      rcases List.mem_cons.mp hj with rfl | hj
      · simpa using List.find?_eq_none.mp hnone i hi
      · exact hseen i (List.mem_append_left _ hi) j hj

theorem found_mapM (ht : t.Sound) (hn : t.Named) {inputs : List Text} {jss : List (List Job)}
    (h : inputs.mapM (ofInput t) = .ok jss) : ∀ js ∈ jss, ∀ j ∈ js, Found t j := by
  induction inputs generalizing jss with
  | nil =>
    obtain rfl := Except.ok.inj h
    exact fun _ hjs => absurd hjs List.not_mem_nil
  | cons i is ih =>
    rw [List.mapM_cons] at h
    cases hi : ofInput t i with
    | error e =>
      rw [hi] at h
      cases h
    | ok js =>
      cases his : is.mapM (ofInput t) with
      | error e =>
        rw [hi, his] at h
        cases h
      | ok jss' =>
        rw [hi, his] at h
        obtain rfl := Except.ok.inj h
        intro ks hks
        rcases List.mem_cons.mp hks with rfl | hks
        · exact fun j hj => found_ofInput ht hn hi hj
        · exact ih his ks hks

/-- What is found has files as inputs and different outputs with names. -/
theorem discover_spec (ht : t.Sound) (hn : t.Named) {inputs : List Text}
    (h : discover t inputs = .ok js) :
    (∀ j ∈ js, Found t j) ∧ js.Pairwise fun a b => a.relative ≠ b.relative := by
  rw [discover] at h
  cases hm : inputs.mapM (ofInput t) with
  | error e =>
    rw [hm] at h
    cases h
  | ok jss =>
    rw [hm] at h
    cases hc : collision? [] jss.flatten with
    | some e =>
      simp only [bind, Except.bind, hc] at h
      cases h
    | none =>
      simp only [bind, Except.bind, hc] at h
      obtain rfl := Except.ok.inj h
      refine ⟨fun j hj => ?_, (pairwise_of_collision hc).1⟩
      obtain ⟨ks, hks, hj⟩ := List.mem_flatten.mp hj
      exact found_mapM ht hn hm ks hks j hj

/-- The jobs of a folder whose files are already in order. -/
theorem discover_folder (ways : List Location) (hl : t.locate input = some l)
    (hf : t.isFolderAt l = true) (hways : (t.filesBelow l).filter isTaken = ways)
    (hs : ways.Pairwise fun a b => inOrder a b = true)
    (hc : collision? [] (ways.map fun way => ⟨Path.join input (Path.ofParts way),
      Path.ofParts way⟩) = none) :
    discover t [input] =
      .ok (ways.map fun way => ⟨Path.join input (Path.ofParts way), Path.ofParts way⟩) := by
  have hfound : ofInput t input =
      .ok (ways.map fun way => ⟨Path.join input (Path.ofParts way), Path.ofParts way⟩) := by
    rw [ofInput, hl]
    simp only [hf, if_true, ofFolder, hways]
    rw [List.mergeSort_of_pairwise hs]
  rw [discover, List.mapM_cons, List.mapM_nil, hfound]
  simp only [bind, Except.bind, pure, Except.pure, List.flatten_cons, List.flatten_nil,
    List.append_nil, hc]

end PointMutation.Job
