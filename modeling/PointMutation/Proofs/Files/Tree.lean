import PointMutation.Files.Tree
import PointMutation.Proofs.Files.Path
import Mathlib.Data.List.Induction

/-!
# Sound file trees

In a sound file tree everything lies in a folder and nothing is both a folder and a file. Making
folders and writing files keeps a tree sound and takes nothing away, so a path that leads somewhere
keeps leading there.
-/

namespace PointMutation.FileTree

variable {t u v : FileTree} {l m o : Location} {p : Text} {ns : List Text}

/-- Everything lies in a folder, and nothing is both a folder and a file. -/
structure Sound (t : FileTree) : Prop where
  start : t.isFolderAt t.start = true
  folder : ∀ l p, t.isFolderAt (l ++ [p]) = true → t.isFolderAt l = true
  file : ∀ l p, t.isFileAt (l ++ [p]) = true → t.isFolderAt l = true
  apart : ∀ l, t.isFolderAt l = true → t.isFileAt l = false

/-- The files and the folders around them have names. -/
def Named (t : FileTree) : Prop := ∀ l, t.isFileAt l = true → ∀ p ∈ l, Path.IsName p

/-- A tree has all that another one has. -/
structure Grows (t u : FileTree) : Prop where
  start : u.start = t.start
  folder : ∀ l, t.isFolderAt l = true → u.isFolderAt l = true
  file : ∀ l, t.isFileAt l = true → u.isFileAt l = true

theorem Grows.refl (t : FileTree) : Grows t t := ⟨rfl, fun _ h => h, fun _ h => h⟩

theorem Grows.trans (h : Grows t u) (k : Grows u v) : Grows t v :=
  ⟨k.start.trans h.start, fun l hl => k.folder l (h.folder l hl), fun l hl => k.file l (h.file l hl)⟩

@[simp] theorem isFolderAt_nil (t : FileTree) : t.isFolderAt [] = true := rfl

theorem isFileAt_congr (h : u.files = t.files) (l : Location) : u.isFileAt l = t.isFileAt l := by
  simp only [isFileAt, contents?, h]

theorem exists_of_isFileAt (h : t.isFileAt l = true) : ∃ f ∈ t.files, f.1 = l := by
  by_contra hnone
  have hlookup : t.contents? l = none :=
    List.lookup_eq_none_iff.mpr fun f hf => bne_iff_ne.mpr fun he => hnone ⟨f, hf, he.symm⟩
  simp [isFileAt, hlookup] at h

/-- Whether a tree is sound can be seen from its folders and files. -/
theorem sound_of_lists (hstart : t.isFolderAt t.start = true)
    (hfolders : ∀ l ∈ t.folders, t.isFolderAt l.dropLast = true)
    (hfiles : ∀ f ∈ t.files, t.isFolderAt f.1.dropLast = true ∧ t.isFolderAt f.1 = false) :
    t.Sound where
  start := hstart
  folder l p h := by
    have hmem : l ++ [p] ∈ t.folders := by simpa [isFolderAt] using h
    simpa using hfolders _ hmem
  file l p h := by
    obtain ⟨f, hf, he⟩ := exists_of_isFileAt h
    simpa [he] using (hfiles f hf).1
  apart l h := by
    rw [← Bool.not_eq_true]
    intro hfile
    obtain ⟨f, hf, rfl⟩ := exists_of_isFileAt hfile
    exact absurd (h.symm.trans (hfiles f hf).2) nofun

theorem named_of_list (h : ∀ f ∈ t.files, ∀ p ∈ f.1, Path.IsName p) : t.Named := by
  intro l hl
  obtain ⟨f, hf, rfl⟩ := exists_of_isFileAt hl
  exact h f hf

namespace Sound

theorem folder_of_append (ht : t.Sound) (h : t.isFolderAt (l ++ m) = true) :
    t.isFolderAt l = true := by
  induction m using List.reverseRecOn with
  | nil => simpa using h
  | append_singleton m p ih => exact ih (ht.folder (l ++ m) p (by simpa using h))

theorem folder_of_file_below (ht : t.Sound) (hm : m ≠ []) (h : t.isFileAt (l ++ m) = true) :
    t.isFolderAt l = true := by
  obtain ⟨m, p, rfl⟩ := (List.eq_nil_or_concat m).resolve_left hm
  exact ht.folder_of_append (ht.file (l ++ m) p (by simpa using h))

theorem folder_dropLast (ht : t.Sound) (h : t.isFolderAt l = true) :
    t.isFolderAt l.dropLast = true := by
  rcases List.eq_nil_or_concat l with rfl | ⟨l, p, rfl⟩
  · rfl
  · simpa using ht.folder l p (by simpa using h)

theorem folder_origin (ht : t.Sound) (p : Text) : t.isFolderAt (t.origin p) = true := by
  unfold origin
  split
  · rfl
  · exact ht.start

end Sound

/-! ## Going on -/

theorem enter_still (hl : t.isFolderAt l = true) (hp : Path.isStill p = true) :
    t.enter l p = some l := by
  simp [enter, hl, hp]

theorem enter_up (hl : t.isFolderAt l = true) : t.enter l Path.up = some l.dropLast := by
  simp [enter, hl, Path.not_isStill_up]

theorem enter_of_moves (hl : t.isFolderAt l = true) (hp : Path.isStill p = false)
    (hup : p ≠ Path.up) : t.enter l p =
      if t.isFolderAt (l ++ [p]) || t.isFileAt (l ++ [p]) then some (l ++ [p]) else none := by
  simp [enter, hl, hp, hup]

/-- Going on by one part starts from a folder, and stays there, goes up or goes down. -/
theorem enter_cases (h : t.enter l p = some m) : t.isFolderAt l = true ∧
    ((Path.isStill p = true ∧ m = l) ∨ (p = Path.up ∧ m = l.dropLast) ∨
      (Path.isStill p = false ∧ p ≠ Path.up ∧ m = l ++ [p] ∧
        (t.isFolderAt m || t.isFileAt m) = true)) := by
  cases hl : t.isFolderAt l with
  | false => simp [enter, hl] at h
  | true =>
    refine ⟨rfl, ?_⟩
    cases hp : Path.isStill p with
    | true =>
      rw [enter_still hl hp] at h
      exact .inl ⟨rfl, (Option.some.inj h).symm⟩
    | false =>
      by_cases hup : p = Path.up
      · rw [hup, enter_up hl] at h
        exact .inr (.inl ⟨hup, (Option.some.inj h).symm⟩)
      · rw [enter_of_moves hl hp hup] at h
        split at h
        · next hthere =>
          obtain rfl := Option.some.inj h
          exact .inr (.inr ⟨rfl, hup, rfl, hthere⟩)
        · exact absurd h nofun

theorem Grows.enter (hg : Grows t u) (h : t.enter l p = some m) : u.enter l p = some m := by
  obtain ⟨hl, ⟨hp, rfl⟩ | ⟨rfl, rfl⟩ | ⟨hp, hup, rfl, hthere⟩⟩ := enter_cases h
  · exact enter_still (hg.folder _ hl) hp
  · exact enter_up (hg.folder _ hl)
  · rw [enter_of_moves (hg.folder _ hl) hp hup, if_pos]
    rw [Bool.or_eq_true] at hthere ⊢
    exact hthere.imp (hg.folder _) (hg.file _)

theorem Grows.enterAll (hg : Grows t u) (h : ns.foldlM t.enter l = some m) :
    ns.foldlM u.enter l = some m := by
  induction ns generalizing l with
  | nil => exact h
  | cons p ns ih =>
    rw [List.foldlM_cons] at h ⊢
    obtain ⟨k, hk, h⟩ := Option.bind_eq_some_iff.mp h
    exact Option.bind_eq_some_iff.mpr ⟨k, hg.enter hk, ih h⟩

theorem origin_of_head {p q : Text} (h : p.head? = q.head?) : t.origin p = t.origin q := by
  cases p with
  | nil =>
    cases q with
    | nil => rfl
    | cons d q => exact absurd h nofun
  | cons c p =>
    cases q with
    | nil => exact absurd h nofun
    | cons d q =>
      obtain rfl : c = d := by simpa using h
      unfold origin
      split <;> split <;> simp_all

theorem origin_of_noSlash {p : Text} (h : p.head? ≠ some '/') : t.origin p = t.start := by
  unfold origin
  split
  · exact absurd rfl h
  · rfl

/-- Where the parts of a path lead. -/
def reach (t : FileTree) (p : Text) : Option Location :=
  (Path.parts p).foldlM t.enter (t.origin p)

theorem locate_eq_reach (h : p ≠ []) : t.locate p = t.reach p := by
  rw [locate, if_neg (by simpa using h), reach]

theorem locate_of_reach (h : t.locate p = some l) : t.reach p = some l := by
  rw [locate] at h
  split at h
  · exact absurd h nofun
  · exact h

theorem Grows.origin (hg : Grows t u) (p : Text) : u.origin p = t.origin p := by
  simp only [FileTree.origin, hg.start]

theorem Grows.reach (hg : Grows t u) (h : t.reach p = some l) : u.reach p = some l := by
  rw [FileTree.reach, hg.origin]
  exact hg.enterAll h

theorem Grows.locate (hg : Grows t u) (h : t.locate p = some l) : u.locate p = some l := by
  have hp : p ≠ [] := by
    rintro rfl
    exact absurd h nofun
  rw [locate_eq_reach hp]
  exact hg.reach (locate_of_reach h)

theorem enterAll_folder (h : ns.foldlM t.enter l = some m) (hm : t.isFolderAt m = true) :
    t.isFolderAt l = true := by
  cases ns with
  | nil =>
    obtain rfl := Option.some.inj h
    exact hm
  | cons p ns =>
    rw [List.foldlM_cons] at h
    obtain ⟨k, hk, -⟩ := Option.bind_eq_some_iff.mp h
    exact (enter_cases hk).1

theorem enterAll_still (hl : t.isFolderAt l = true) (h : ∀ p ∈ ns, Path.isStill p = true) :
    ns.foldlM t.enter l = some l := by
  induction ns with
  | nil => rfl
  | cons p ns ih =>
    rw [List.foldlM_cons, enter_still hl (h p List.mem_cons_self)]
    exact ih fun q hq => h q (List.mem_cons_of_mem p hq)

theorem enterAll_empty (hl : t.isFolderAt l = true) : [[]].foldlM t.enter l = some l :=
  enterAll_still hl fun p hp => by rw [List.mem_singleton.mp hp, Path.isStill_nil]

/-- Names lead from a folder to what lies below it. -/
theorem enterAll_names (ht : t.Sound) (hns : ∀ p ∈ ns, Path.IsName p)
    (h : (t.isFolderAt (o ++ ns) || t.isFileAt (o ++ ns)) = true) :
    ns.foldlM t.enter o = some (o ++ ns) := by
  induction ns generalizing o with
  | nil => simp
  | cons p ns ih =>
    have hp := hns p List.mem_cons_self
    rw [List.append_cons] at h ⊢
    have hthere : (t.isFolderAt (o ++ [p]) || t.isFileAt (o ++ [p])) = true := by
      rcases eq_or_ne ns [] with rfl | hne
      · simpa using h
      · rw [Bool.or_eq_true] at h ⊢
        exact .inl (h.elim ht.folder_of_append (ht.folder_of_file_below hne))
    have ho : t.isFolderAt o = true :=
      (Bool.or_eq_true _ _ ▸ hthere).elim (ht.folder o p) (ht.file o p)
    rw [List.foldlM_cons, enter_of_moves ho hp.moves hp.notUp, if_pos hthere]
    exact ih (fun q hq => hns q (List.mem_cons_of_mem p hq)) h

/-- What lies below a folder is reached by way of it. -/
theorem reach_join {folder : Text} {way : List Text} (ht : t.Sound) (hl : t.reach folder = some l)
    (hf : t.isFolderAt l = true) (hne : way ≠ []) (hway : ∀ p ∈ way, Path.IsName p) :
    ∃ front, Path.parts (Path.join folder (Path.ofParts way)) = front ++ way ∧
      front.foldlM t.enter (t.origin (Path.join folder (Path.ofParts way))) = some l := by
  obtain ⟨rfl, hjoin, hparts⟩ | ⟨front, hfront, hhead, hparts⟩ :=
    Path.parts_join folder hne fun p hp => (hway p hp).noSlash
  · refine ⟨[], hparts, ?_⟩
    have hstart : t.origin (Path.join [] (Path.ofParts way)) = t.start := by
      obtain ⟨p, ps, rfl⟩ := List.exists_cons_of_ne_nil hne
      have hp := hway p List.mem_cons_self
      rw [hjoin]
      refine origin_of_noSlash fun h => hp.noSlash ?_
      rw [Path.head?_ofParts hp.ne_nil] at h
      exact List.mem_of_mem_head? h
    have hempty : t.reach [] = some t.start := enterAll_empty ht.start
    rw [hstart, ← hl, hempty]
    rfl
  · refine ⟨front, hparts, ?_⟩
    rw [origin_of_head hhead]
    rw [reach] at hl
    rcases hfront with hfront | hfront
    · rwa [hfront] at hl
    · rw [hfront, List.foldlM_append] at hl
      obtain ⟨k, hk, hlast⟩ := Option.bind_eq_some_iff.mp hl
      rw [hk, ← hlast, enterAll_empty (enterAll_folder hlast hf)]

/-! ## Making folders -/

/-- Adds folders one below the other. -/
def addBelow (t : FileTree) (o : Location) : List Text → FileTree
  | [] => t
  | p :: ps => addBelow (t.addFolder (o ++ [p])) (o ++ [p]) ps

/-- Whether a file is in the way of folders one below the other. -/
def isBlocked (t : FileTree) (o : Location) : List Text → Bool
  | [] => false
  | p :: ps => t.isFileAt (o ++ [p]) || isBlocked t (o ++ [p]) ps

@[simp] theorem addFolder_start (t : FileTree) (l : Location) : (t.addFolder l).start = t.start := by
  unfold addFolder
  split <;> rfl

@[simp] theorem addFolder_files (t : FileTree) (l : Location) : (t.addFolder l).files = t.files := by
  unfold addFolder
  split <;> rfl

theorem addFolder_folder (t : FileTree) (l m : Location) :
    (t.addFolder l).isFolderAt m = true ↔ m = l ∨ t.isFolderAt m = true := by
  unfold addFolder
  split
  · next h => exact ⟨.inr, fun hm => hm.elim (fun e => e ▸ h) id⟩
  · simp only [isFolderAt, List.contains_append, Bool.or_eq_true, List.contains_cons,
      List.contains_nil, Bool.or_false, beq_iff_eq]
    tauto

theorem addFolder_of_folder (h : t.isFolderAt l = true) : t.addFolder l = t := if_pos h

theorem grows_addFolder (t : FileTree) (l : Location) : Grows t (t.addFolder l) where
  start := addFolder_start t l
  folder m h := (addFolder_folder t l m).mpr (.inr h)
  file m h := (isFileAt_congr (addFolder_files t l) m).trans h

theorem Sound.addFolder (ht : t.Sound) (hl : t.isFolderAt l = true)
    (hfile : t.isFileAt (l ++ [p]) = false) : (t.addFolder (l ++ [p])).Sound where
  start := by
    rw [addFolder_start]
    exact (grows_addFolder t _).folder _ ht.start
  folder k q h := by
    rcases (addFolder_folder t _ _).mp h with h | h
    · obtain ⟨rfl, -⟩ := List.append_inj' h rfl
      exact (grows_addFolder t _).folder _ hl
    · exact (grows_addFolder t _).folder _ (ht.folder k q h)
  file k q h := by
    rw [isFileAt_congr (addFolder_files t _)] at h
    exact (grows_addFolder t _).folder _ (ht.file k q h)
  apart k h := by
    rw [isFileAt_congr (addFolder_files t _)]
    rcases (addFolder_folder t _ _).mp h with rfl | h
    · exact hfile
    · exact ht.apart k h

/-- Going on by one part and making what is not there. -/
theorem enterMaking_still (h : (Path.isStill p || p = Path.up) = true) :
    enterMaking l p t = (t.enter l p).map (·, t) := by
  rw [enterMaking, if_pos h]

theorem enterMaking_moves (hp : Path.isStill p = false) (hup : p ≠ Path.up) :
    enterMaking l p t =
      if !t.isFolderAt l || t.isFileAt (l ++ [p]) then none
      else some (l ++ [p], t.addFolder (l ++ [p])) := by
  rw [enterMaking, if_neg (by simp [hp, hup])]

theorem makeAll_cons (l : Location) (p : Text) (ns : List Text) (t : FileTree) :
    (p :: ns).foldlM enterMaking l t =
      (enterMaking l p t).bind fun r => ns.foldlM enterMaking r.1 r.2 := by
  rw [List.foldlM_cons]
  rfl

theorem makeAll_append (l : Location) (ns ms : List Text) (t : FileTree) :
    (ns ++ ms).foldlM enterMaking l t =
      (ns.foldlM enterMaking l t).bind fun r => ms.foldlM enterMaking r.1 r.2 := by
  rw [List.foldlM_append]
  rfl

/-- Nothing is made on a way that leads to a folder. -/
theorem makeAll_of_reached (ht : t.Sound) (h : ns.foldlM t.enter l = some m)
    (hm : t.isFolderAt m = true) : ns.foldlM enterMaking l t = some (m, t) := by
  induction ns generalizing l with
  | nil =>
    obtain rfl := Option.some.inj h
    rfl
  | cons p ns ih =>
    rw [List.foldlM_cons] at h
    obtain ⟨k, hk, h⟩ := Option.bind_eq_some_iff.mp h
    have hfolder := enterAll_folder h hm
    have hstep : enterMaking l p t = some (k, t) := by
      obtain ⟨hl, ⟨hp, -⟩ | ⟨hp, -⟩ | ⟨hp, hup, rfl, -⟩⟩ := enter_cases hk
      · rw [enterMaking_still (by simp [hp]), hk]
        rfl
      · rw [enterMaking_still (by simp [hp]), hk]
        rfl
      · rw [enterMaking_moves hp hup, hl, ht.apart _ hfolder, addFolder_of_folder hfolder]
        rfl
    rw [makeAll_cons, hstep]
    exact ih h

/-- What is made is a sound tree with the same files, and the way leads to a folder in it. -/
theorem makeAll_spec (ht : t.Sound) (hl : t.isFolderAt l = true)
    (h : ns.foldlM enterMaking l t = some (m, u)) :
    u.Sound ∧ Grows t u ∧ u.files = t.files ∧ u.isFolderAt m = true ∧
      ns.foldlM u.enter l = some m := by
  induction ns generalizing l t with
  | nil =>
    obtain ⟨rfl, rfl⟩ := Prod.mk.inj (Option.some.inj h)
    exact ⟨ht, .refl _, rfl, hl, rfl⟩
  | cons p ns ih =>
    rw [makeAll_cons] at h
    obtain ⟨⟨k, v⟩, hstep, h⟩ := Option.bind_eq_some_iff.mp h
    obtain ⟨hv, hgrow, hfiles, hk, henter⟩ : v.Sound ∧ Grows t v ∧ v.files = t.files ∧
        v.isFolderAt k = true ∧ v.enter l p = some k := by
      by_cases hp : (Path.isStill p || p = Path.up) = true
      · rw [enterMaking_still hp] at hstep
        obtain ⟨k', hk, he⟩ := Option.map_eq_some_iff.mp hstep
        obtain ⟨rfl, rfl⟩ := Prod.mk.inj he
        refine ⟨ht, .refl _, rfl, ?_, hk⟩
        obtain ⟨-, ⟨-, rfl⟩ | ⟨-, rfl⟩ | ⟨hp', hup, -⟩⟩ := enter_cases hk
        · exact hl
        · exact ht.folder_dropLast hl
        · simp [hp', hup] at hp
      · obtain ⟨hp, hup⟩ : Path.isStill p = false ∧ p ≠ Path.up := by simpa using hp
        rw [enterMaking_moves hp hup, hl] at hstep
        split at hstep
        · exact absurd hstep nofun
        · next hfile =>
          obtain ⟨rfl, rfl⟩ := Prod.mk.inj (Option.some.inj hstep)
          have hnew := (addFolder_folder t (l ++ [p]) (l ++ [p])).mpr (.inl rfl)
          refine ⟨ht.addFolder hl (by simpa using hfile), grows_addFolder t _,
            addFolder_files t _, hnew, ?_⟩
          rw [enter_of_moves ((grows_addFolder t _).folder l hl) hp hup, hnew]
          rfl
    obtain ⟨hu, hgrow', hfiles', hm, hall⟩ := ih hv hk h
    refine ⟨hu, hgrow.trans hgrow', hfiles'.trans hfiles, hm, ?_⟩
    rw [List.foldlM_cons, hgrow'.enter henter]
    exact hall

end PointMutation.FileTree
