import PointMutation.Batch.Process
import PointMutation.Proofs.Files.Tree

/-!
# Writing below a folder

A job writes below the output folder at the place that the names of its output lead to. The folders
on the way are made first, which fails where a file is in the way; writing itself fails only if the
place is a folder. Nothing but these folders and this file is touched.
-/

namespace PointMutation

namespace FileTree

variable {t u : FileTree} {l m o : Location} {p out s : Text} {ns way : List Text}

/-! ## The way of folders -/

theorem isBlocked_congr (h : u.files = t.files) (o : Location) (ns : List Text) :
    u.isBlocked o ns = t.isBlocked o ns := by
  induction ns generalizing o with
  | nil => rfl
  | cons p ns ih => rw [isBlocked, isBlocked, isFileAt_congr h, ih]

/-- A way is blocked by a file at one of its folders. -/
theorem isBlocked_iff : t.isBlocked o ns = true ↔
    ∃ m, m ≠ [] ∧ m <+: ns ∧ t.isFileAt (o ++ m) = true := by
  induction ns generalizing o with
  | nil => simp [isBlocked]
  | cons p ns ih =>
    rw [isBlocked, Bool.or_eq_true, ih]
    constructor
    · rintro (h | ⟨m, -, hm, h⟩)
      · exact ⟨[p], by simp, by simp, h⟩
      · exact ⟨p :: m, by simp, (List.prefix_cons_inj p).mpr hm, by simpa using h⟩
    · rintro ⟨m, hne, hm, h⟩
      obtain ⟨m, rfl, hm'⟩ := (List.prefix_cons_iff.mp hm).resolve_left hne
      rcases eq_or_ne m [] with rfl | hne
      · exact .inl h
      · exact .inr ⟨m, hne, hm', by simpa using h⟩

@[simp] theorem addBelow_start (t : FileTree) (o : Location) (ns : List Text) :
    (t.addBelow o ns).start = t.start := by
  induction ns generalizing t o with
  | nil => rfl
  | cons p ns ih => rw [addBelow, ih, addFolder_start]

@[simp] theorem addBelow_files (t : FileTree) (o : Location) (ns : List Text) :
    (t.addBelow o ns).files = t.files := by
  induction ns generalizing t o with
  | nil => rfl
  | cons p ns ih => rw [addBelow, ih, addFolder_files]

theorem addBelow_folder : (t.addBelow o ns).isFolderAt l = true ↔
    t.isFolderAt l = true ∨ ∃ m, m ≠ [] ∧ m <+: ns ∧ l = o ++ m := by
  induction ns generalizing t o with
  | nil => simp [addBelow]
  | cons p ns ih =>
    rw [addBelow, ih, addFolder_folder]
    constructor
    · rintro ((rfl | h) | ⟨m, -, hm, rfl⟩)
      · exact .inr ⟨[p], by simp, by simp, rfl⟩
      · exact .inl h
      · exact .inr ⟨p :: m, by simp, (List.prefix_cons_inj p).mpr hm, by simp⟩
    · rintro (h | ⟨m, hne, hm, rfl⟩)
      · exact .inl (.inr h)
      · obtain ⟨m, rfl, hm'⟩ := (List.prefix_cons_iff.mp hm).resolve_left hne
        rcases eq_or_ne m [] with rfl | hne
        · exact .inl (.inl rfl)
        · exact .inr ⟨m, hne, hm', by simp⟩

/-- No folder is added at a place behind the added ones. -/
theorem addBelow_end (t : FileTree) (o : Location) (ns : List Text) (p : Text) :
    (t.addBelow o ns).isFolderAt (o ++ (ns ++ [p])) = t.isFolderAt (o ++ (ns ++ [p])) := by
  rw [Bool.eq_iff_iff, addBelow_folder]
  refine ⟨fun h => h.resolve_right ?_, .inl⟩
  rintro ⟨m, -, hm, h⟩
  have hlength := hm.length_le
  rw [← List.append_cancel_left h, List.length_append, List.length_singleton] at hlength
  omega

theorem addBelow_of_folder (ht : t.Sound) (h : t.isFolderAt (o ++ ns) = true) :
    t.addBelow o ns = t := by
  induction ns generalizing o with
  | nil => rfl
  | cons p ns ih =>
    rw [List.append_cons] at h
    rw [addBelow, addFolder_of_folder (ht.folder_of_append h), ih h]

/-- Names are gone on by from a folder unless a file is in the way. -/
theorem makeAll_names (ho : t.isFolderAt o = true) (hns : ∀ p ∈ ns, Path.IsName p) :
    ns.foldlM enterMaking o t =
      if t.isBlocked o ns then none else some (o ++ ns, t.addBelow o ns) := by
  induction ns generalizing t o with
  | nil =>
    rw [List.append_nil]
    rfl
  | cons p ns ih =>
    have hp := hns p List.mem_cons_self
    rw [makeAll_cons, enterMaking_moves hp.moves hp.notUp, ho, isBlocked, addBelow]
    cases hfile : t.isFileAt (o ++ [p]) with
    | true => rfl
    | false =>
      have hnew := (addFolder_folder t (o ++ [p]) (o ++ [p])).mpr (.inl rfl)
      have hrest := ih hnew fun q hq => hns q (List.mem_cons_of_mem p hq)
      rw [isBlocked_congr (addFolder_files t (o ++ [p])), ← List.append_cons] at hrest
      exact hrest

/-! ## Making the folders of a path -/

theorem origin_of_parts {q : Text} {a b : List Text} (hp : Path.parts p = a ++ b)
    (hq : Path.parts q = a) (ha : a ≠ [[]]) : t.origin p = t.origin q := by
  have hiff : (∃ r, p = '/' :: r) ↔ ∃ r, q = '/' :: r := by
    rw [Path.exists_slash_iff, Path.exists_slash_iff, hp, hq]
    rcases a with _ | ⟨r, _ | ⟨s, a⟩⟩
    · exact absurd hq (Path.parts_ne_nil q)
    · have hr : r ≠ [] := fun h => ha (by rw [h])
      simp [hr]
    · simp
  have hother (x : Text) (h : ¬ ∃ r, x = '/' :: r) : t.origin x = t.start := by
    refine origin_of_noSlash fun hh => h ?_
    obtain ⟨r, hr⟩ := List.head?_eq_some_iff.mp hh
    exact ⟨r, hr⟩
  by_cases h : ∃ r, p = '/' :: r
  · obtain ⟨r, rfl⟩ := h
    obtain ⟨r', rfl⟩ := hiff.mp ⟨r, rfl⟩
    rfl
  · rw [hother p h, hother q fun h' => h (hiff.mpr h')]

theorem makeFolders_of_reached (hp : p ≠ []) (h : t.reach p = some l)
    (hl : t.isFolderAt l = true) : t.makeFolders p = some t := by
  have : t.isFolder p = true := by
    rw [isFolder, locate_eq_reach hp, h]
    exact hl
  rw [makeFolders, if_pos (by simp [this])]

theorem endsInDot_of_moves {ini : List Text} {q : Text} (hp : Path.parts p = ini ++ [q])
    (hq : Path.isStill q = false) : endsInDot p = false := by
  obtain ⟨hne, hhere⟩ : q ≠ [] ∧ q ≠ Path.here := by simpa [Path.isStill] using hq
  simp [endsInDot, hp, hne, hhere]

/-- The folders around a place are made by going through all parts of its path but the last. -/
theorem makeFolders_parent (ht : t.Sound) (p : Text) : t.makeFolders (Path.parent p) =
    ((Path.parts p).dropLast.foldlM enterMaking (t.origin p) t).map (·.2) := by
  obtain ⟨front, still, hparts, hstill, ⟨rfl, hparent⟩ | ⟨ini, q, hfront, hq, hparent⟩⟩ :=
    Path.parent_cases p
  · -- The place lies in the folder where the path starts.
    have hall := makeAll_of_reached ht (enterAll_still (ht.folder_origin p) hstill)
      (ht.folder_origin p)
    rw [hparts, List.nil_append, hall]
    obtain hempty | hhere | hroot := hparent
    · rw [hempty]
      rfl
    · rw [hhere]
      have hreach : t.reach Path.here = some t.start := enterAll_still ht.start (by decide)
      exact makeFolders_of_reached (by decide) hreach ht.start
    · rw [hroot]
      have hreach : t.reach ['/'] = some [] := enterAll_still t.isFolderAt_nil (by decide)
      exact makeFolders_of_reached (by decide) hreach t.isFolderAt_nil
  · have hfront' : front ≠ [[]] := by
      rintro rfl
      obtain rfl : [] = q := by simpa using congrArg List.getLast? hfront
      exact absurd hq (by decide)
    have hne : Path.parent p ≠ [] := by
      intro h
      rw [h] at hparent
      exact hfront' hparent.symm
    have horigin : t.origin p = t.origin (Path.parent p) := by
      refine origin_of_parts (b := still ++ [(Path.parts p).getLast (Path.parts_ne_nil p)])
        ?_ hparent hfront'
      rw [← List.append_assoc, ← hparts, List.dropLast_concat_getLast]
    -- Parts at the end that stay where they are make nothing.
    have hrest {m : Location} {u : FileTree} (hu : u.Sound) (hm : u.isFolderAt m = true) :
        still.foldlM enterMaking m u = some (m, u) :=
      makeAll_of_reached hu (enterAll_still hm hstill) hm
    rw [hparts, makeAll_append, horigin]
    cases hfolder : t.isFolder (Path.parent p) with
    | true =>
      obtain ⟨m, hm, hreach⟩ : ∃ m, t.isFolderAt m = true ∧ t.reach (Path.parent p) = some m := by
        rw [isFolder, locate_eq_reach hne] at hfolder
        split at hfolder
        · next m hm => exact ⟨m, hfolder, hm⟩
        · exact absurd hfolder nofun
      rw [makeFolders_of_reached hne hreach hm]
      rw [reach, hparent] at hreach
      rw [makeAll_of_reached ht hreach hm, Option.bind_some, hrest ht hm]
      rfl
    | false =>
      have hdot := endsInDot_of_moves (hparent.trans hfront) hq
      rw [makeFolders, if_neg (by simp [hne, hfolder]), hdot, hparent]
      cases hmake : front.foldlM enterMaking (t.origin (Path.parent p)) t with
      | none => rfl
      | some r =>
        obtain ⟨hu, -, -, hm, -⟩ := makeAll_spec ht (ht.folder_origin _) hmake
        rw [Option.bind_some, hrest hu hm]
        rfl

/-- A folder that could be made is there, and nothing else has changed. -/
theorem makeFolders_spec (ht : t.Sound) (h : t.makeFolders p = some u) :
    u.Sound ∧ Grows t u ∧ u.files = t.files ∧
      ∃ l, u.reach p = some l ∧ u.isFolderAt l = true := by
  rw [makeFolders] at h
  split at h
  · next hthere =>
    obtain rfl := Option.some.inj h
    refine ⟨ht, .refl _, rfl, ?_⟩
    rcases eq_or_ne p [] with rfl | hp
    · exact ⟨t.start, enterAll_empty ht.start, ht.start⟩
    · have hfolder : t.isFolder p = true := by simpa [hp] using hthere
      rw [isFolder, locate_eq_reach hp] at hfolder
      split at hfolder
      · next l hl => exact ⟨l, hl, hfolder⟩
      · exact absurd hfolder nofun
  · split at h
    · exact absurd h nofun
    · obtain ⟨⟨l, v⟩, hmake, rfl⟩ := Option.map_eq_some_iff.mp h
      obtain ⟨hu, hgrow, hfiles, hl, hall⟩ := makeAll_spec ht (ht.folder_origin p) hmake
      refine ⟨hu, hgrow, hfiles, l, ?_, hl⟩
      rw [reach, hgrow.origin]
      exact hall

/-! ## Writing -/

/-- Gives the file at a location a text. -/
def setText (t : FileTree) (l : Location) (s : Text) : FileTree :=
  { t with files := put l (.text s) t.files }

theorem lookup_cons_ite (f : Location × Contents) (fs : List (Location × Contents))
    (m : Location) : (f :: fs).lookup m = if m = f.1 then some f.2 else fs.lookup m := by
  rw [List.lookup_cons]
  by_cases h : m = f.1
  · rw [if_pos h, beq_iff_eq.mpr h]
  · rw [if_neg h, beq_false_of_ne h]

theorem lookup_put (l : Location) (c : Contents) (fs : List (Location × Contents)) (m : Location) :
    (put l c fs).lookup m = if m = l then some c else fs.lookup m := by
  induction fs with
  | nil => exact lookup_cons_ite (l, c) [] m
  | cons f fs ih =>
    rw [put]
    split
    · next hf =>
      subst hf
      rw [lookup_cons_ite, lookup_cons_ite]
      split <;> rfl
    · next hf =>
      rw [lookup_cons_ite, lookup_cons_ite, ih]
      by_cases h : m = f.1
      · rw [if_pos h, if_pos h, if_neg (h ▸ hf)]
      · rw [if_neg h, if_neg h]

@[simp] theorem setText_start (t : FileTree) (l : Location) (s : Text) :
    (t.setText l s).start = t.start := rfl

@[simp] theorem setText_folder (t : FileTree) (l : Location) (s : Text) (m : Location) :
    (t.setText l s).isFolderAt m = t.isFolderAt m := rfl

theorem setText_contents (t : FileTree) (l : Location) (s : Text) (m : Location) :
    (t.setText l s).contents? m = if m = l then some (.text s) else t.contents? m :=
  lookup_put l (.text s) t.files m

theorem setText_file (t : FileTree) (l : Location) (s : Text) (m : Location) :
    (t.setText l s).isFileAt m = (decide (m = l) || t.isFileAt m) := by
  rw [isFileAt, setText_contents]
  split <;> simp [isFileAt, *]

theorem Sound.setText (ht : t.Sound) (hl : t.isFolderAt l = true)
    (hnew : t.isFolderAt (l ++ [p]) = false) : (t.setText (l ++ [p]) s).Sound where
  start := ht.start
  folder k q h := ht.folder k q h
  file k q h := by
    rw [setText_file, Bool.or_eq_true, decide_eq_true_eq] at h
    rcases h with h | h
    · obtain ⟨rfl, -⟩ := List.append_inj' h rfl
      exact hl
    · exact ht.file k q h
  apart k h := by
    rw [setText_folder] at h
    have hk : k ≠ l ++ [p] := by
      rintro rfl
      rw [hnew] at h
      exact absurd h nofun
    rw [setText_file, ht.apart k h]
    simpa using hk

/-- The tree with a text at the end of a way from a folder, and folders along it. -/
def deliver (t : FileTree) (o : Location) (way : List Text) (s : Text) : FileTree :=
  (t.addBelow o way.dropLast).setText (o ++ way) s

theorem deliver_contents (l : Location) : (t.deliver o way s).contents? l =
    if l = o ++ way then some (.text s) else t.contents? l := by
  rw [deliver, setText_contents]
  simp only [contents?, addBelow_files]

theorem deliver_file (l : Location) :
    (t.deliver o way s).isFileAt l = (decide (l = o ++ way) || t.isFileAt l) := by
  rw [deliver, setText_file, isFileAt_congr (addBelow_files t o way.dropLast)]

/-- Along the way everything in front of its end is a folder. -/
theorem deliver_folder (ht : t.Sound) (ho : t.isFolderAt o = true) (hne : way ≠ []) :
    (t.deliver o way s).isFolderAt l = true ↔
      t.isFolderAt l = true ∨ (l <+: o ++ way ∧ l ≠ o ++ way) := by
  obtain ⟨ini, p, rfl⟩ := (List.eq_nil_or_concat way).resolve_left hne
  rw [deliver, setText_folder, addBelow_folder, List.concat_eq_append, List.dropLast_concat]
  constructor
  · rintro (h | ⟨m, -, hm, rfl⟩)
    · exact .inl h
    · refine .inr ⟨(List.prefix_append_right_inj o).mpr (hm.trans (List.prefix_append ini [p])), ?_⟩
      intro h
      have hlength := hm.length_le
      rw [List.append_cancel_left h, List.length_append, List.length_singleton] at hlength
      omega
  · rintro (h | ⟨hpre, hneq⟩)
    · exact .inl h
    · rw [← List.append_assoc] at hpre hneq
      have hini := (List.prefix_concat_iff.mp hpre).resolve_left hneq
      rcases List.prefix_or_prefix_of_prefix hini (List.prefix_append o ini) with ⟨r, rfl⟩ | ⟨m, rfl⟩
      · exact .inl (ht.folder_of_append ho)
      · rcases eq_or_ne m [] with rfl | hm
        · exact .inl (by simpa using ho)
        · exact .inr ⟨m, hm, (List.prefix_append_right_inj o).mp hini, rfl⟩

theorem grows_deliver (ht : t.Sound) (ho : t.isFolderAt o = true) (hne : way ≠ []) (s : Text) :
    Grows t (t.deliver o way s) where
  start := by simp [deliver]
  folder l hl := (deliver_folder ht ho hne).mpr (.inl hl)
  file l hl := by simp [deliver_file, hl]

theorem Sound.deliver (ht : t.Sound) (ho : t.isFolderAt o = true) (hne : way ≠ [])
    (hway : ∀ p ∈ way, Path.IsName p) (hblock : t.isBlocked o way.dropLast = false)
    (hnew : t.isFolderAt (o ++ way) = false) (s : Text) : (t.deliver o way s).Sound := by
  obtain ⟨ini, p, rfl⟩ := (List.eq_nil_or_concat way).resolve_left hne
  rw [List.concat_eq_append] at *
  rw [List.dropLast_concat] at hblock
  have hmake := makeAll_names ho fun q hq => hway q (List.mem_append_left [p] hq)
  rw [if_neg (by simp [hblock])] at hmake
  obtain ⟨hu, -, -, hfolder, -⟩ := makeAll_spec ht ho hmake
  rw [FileTree.deliver, List.dropLast_concat, ← List.append_assoc]
  exact hu.setText hfolder (by rw [List.append_assoc, addBelow_end, hnew])

end FileTree

namespace Job

open FileTree

/-- A job writes unless a file is in the way of a folder or a folder is in place of its file. -/
theorem write_eq {t : FileTree} {o : Location} {out s : Text} {way : List Text} (ht : t.Sound)
    (ho : t.reach out = some o) (hf : t.isFolderAt o = true) (hne : way ≠ [])
    (hway : ∀ p ∈ way, Path.IsName p) :
    write t (Path.join out (Path.ofParts way)) s =
      if t.isBlocked o way.dropLast then
        (.error (.noFolder (Path.parent (Path.join out (Path.ofParts way)))), t)
      else if t.isFolderAt (o ++ way) then
        (.error (.unwritten (Path.join out (Path.ofParts way))), t)
      else (.ok (), t.deliver o way s) := by
  obtain ⟨front, hparts, hfront⟩ := reach_join ht ho hf hne hway
  obtain ⟨ini, p, rfl⟩ := (List.eq_nil_or_concat way).resolve_left hne
  rw [List.concat_eq_append] at *
  generalize Path.join out (Path.ofParts (ini ++ [p])) = output at *
  have hp : Path.IsName p := hway p (by simp)
  rw [← List.append_assoc] at hparts
  have hmake : (Path.parts output).dropLast.foldlM enterMaking (t.origin output) t =
      if t.isBlocked o ini then none else some (o ++ ini, t.addBelow o ini) := by
    rw [hparts, List.dropLast_concat, makeAll_append, makeAll_of_reached ht hfront hf]
    exact makeAll_names hf fun q hq => hway q (List.mem_append_left [p] hq)
  rw [write, makeFolders_parent ht, hmake, List.dropLast_concat]
  cases hblock : t.isBlocked o ini with
  | true => rfl
  | false =>
    rw [hblock] at hmake
    obtain ⟨hu, hgrow, -, hfolder, hall⟩ := makeAll_spec ht (ht.folder_origin output) hmake
    have hlast : Path.lastPart output = p := by simp [Path.lastPart, hparts]
    have hnew : (t.addBelow o ini).locateNew output =
        if t.isFolderAt (o ++ (ini ++ [p])) then none else some (o ++ (ini ++ [p])) := by
      rw [locateNew, hlast, if_neg (by simp [hp.moves, hp.notUp]), hgrow.origin, hall]
      simp only [hfolder, Bool.true_and, List.append_assoc, addBelow_end]
      cases t.isFolderAt (o ++ (ini ++ [p])) <;> rfl
    simp only [Bool.false_eq_true, if_false, Option.map_some, writeText, hnew]
    cases h : t.isFolderAt (o ++ (ini ++ [p])) with
    | true =>
      have h' : t.isFolderAt (o ++ ini) = true := by
        rw [← List.append_assoc] at h
        exact ht.folder_of_append h
      rw [addBelow_of_folder ht h']
      rfl
    | false =>
      rw [FileTree.deliver, List.dropLast_concat]
      rfl

end Job

end PointMutation
