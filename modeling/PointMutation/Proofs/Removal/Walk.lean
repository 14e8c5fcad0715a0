import PointMutation.Proofs.Removal.Places
import PointMutation.Proofs.Removal.Reference
import Mathlib.Data.List.Forall2

/-!
# A walk that removes lines

The edits of a walk whose fold only removes lines cut out the lines that the fold removes when it is
shown the source, one edit for each line, and put `pass` where a body has lost all its lines
(`walk_removes`). The edits made before lie in front of what the walk is at, so that it shows the
source there, and the cuts do not meet, since each line begins and ends with a character that is no
white space.
-/

namespace PointMutation

namespace Outline

mutual

/-- The lines of an outline lie where the outline lies. -/
theorem Within.bounds {a b : Nat} {o : Outline} {x : Spot} (h : o.Within a b)
    (hx : x ∈ spots o) : a ≤ x.start ∧ x.stop ≤ b := by
  cases o with
  | expression kind start stop inner =>
    rw [spots] at hx
    have hinner := WithinAll.bounds h.2.1 hx
    exact ⟨h.1.trans hinner.1, hinner.2.trans h.2.2⟩
  | value site inner =>
    rw [spots] at hx
    rw [Within] at h
    exact Within.bounds h hx
  | line kinds docstring start stop inner =>
    rw [spots, List.mem_append, List.mem_singleton] at hx
    rcases hx with hx | rfl
    · have hinner := WithinAll.bounds h.2.1 hx
      exact ⟨h.1.trans hinner.1, hinner.2.trans h.2.2⟩
    · exact ⟨h.1, h.2.2⟩
  | compound kind inner =>
    rw [spots] at hx
    rw [Within] at h
    exact WithinAll.bounds h hx
  | block items =>
    rw [spots] at hx
    rw [Within] at h
    exact WithinAll.bounds h hx
  | group inner =>
    rw [spots] at hx
    rw [Within] at h
    exact WithinAll.bounds h hx

theorem WithinAll.bounds {a b : Nat} {os : List Outline} {x : Spot} (h : WithinAll a b os)
    (hx : x ∈ spotsAll os) : a ≤ x.start ∧ x.stop ≤ b := by
  cases os with
  | nil => cases hx
  | cons o os =>
    obtain ⟨m, ho, hos⟩ := withinAll_cons.mp h
    rw [spotsAll_cons, List.mem_append] at hx
    rcases hx with hx | hx
    · have hfirst := Within.bounds ho hx
      exact ⟨hfirst.1, hfirst.2.trans hos.le⟩
    · have hrest := WithinAll.bounds hos hx
      exact ⟨ho.le.trans hrest.1, hrest.2⟩

end

/-! ## Lines that can be cut out -/

/-- Where the cut of a line begins. -/
def Spot.cutStart (t : Text) (x : Spot) : Nat := Text.cutStart t x.start x.stop

/-- Where the cut of a line ends. -/
def Spot.cutStop (t : Text) (x : Spot) : Nat := Text.cutStop t x.start x.stop

/-- Lines one behind the other, none of which begins or ends with white space. -/
structure Spaced (t : Text) (xs : List Spot) : Prop where
  inked : ∀ x ∈ xs, Text.Inked t x.start x.stop
  apart : xs.Pairwise fun x y => x.stop ≤ y.start

namespace Spaced

variable {t : Text} {xs ys : List Spot} {x : Spot}

theorem sublist (h : Spaced t ys) (hs : xs.Sublist ys) : Spaced t xs :=
  ⟨fun x hx => h.inked x (hs.subset hx), h.apart.sublist hs⟩

/-- Lines in front of others are not among them. -/
theorem not_mem (h : Spaced t (xs ++ ys)) (hx : x ∈ xs) : x ∉ ys := by
  intro hy
  have hapart := (List.pairwise_append.mp h.apart).2.2 x hx x hy
  have hlt := (h.inked x (List.mem_append_left _ hx)).lt
  omega

theorem cutStart_lt (h : Spaced t xs) (hx : x ∈ xs) : x.cutStart t < x.cutStop t :=
  (Text.cutStart_le t _ _).trans_lt ((h.inked x hx).lt.trans_le (Text.le_cutStop t _ _))

theorem cutStop_le (h : Spaced t xs) (hx : x ∈ xs) : x.cutStop t ≤ t.length :=
  Text.cutStop_le (h.inked x hx).le_length

theorem cutStop_le_cutStart {y : Spot} (h : Spaced t (xs ++ ys)) (hx : x ∈ xs) (hy : y ∈ ys) :
    x.cutStop t ≤ y.cutStart t :=
  Text.cutStop_le_cutStart (h.inked x (List.mem_append_left _ hx))
    (h.inked y (List.mem_append_right _ hy)) ((List.pairwise_append.mp h.apart).2.2 x hx y hy)

end Spaced

/-- An edit that cuts out a line, whatever it puts there. -/
def IsCut (t : Text) (e : Edit) (x : Spot) : Prop :=
  e.start = x.cutStart t ∧ e.stop = x.cutStop t

theorem exists_of_mem_cuts {t : Text} {es : List Edit} {xs : List Spot} {e : Edit}
    (h : List.Forall₂ (IsCut t) es xs) (he : e ∈ es) : ∃ x ∈ xs, IsCut t e x := by
  induction h with
  | nil => cases he
  | @cons f x es xs hcut _ ih =>
    rcases List.mem_cons.mp he with rfl | he
    · exact ⟨x, List.mem_cons_self, hcut⟩
    · obtain ⟨y, hy, hcut⟩ := ih he
      exact ⟨y, List.mem_cons_of_mem x hy, hcut⟩

/-- Cuts of lines between two places do not meet. -/
theorem Spaced.chain {t : Text} {es : List Edit} {xs : List Spot} {a b : Nat}
    (h : Spaced t xs) (hcut : List.Forall₂ (IsCut t) es xs) (hab : a ≤ b)
    (ha : ∀ x ∈ xs, a ≤ x.cutStart t) (hb : ∀ x ∈ xs, x.cutStop t ≤ b) : Edit.Chain a b es := by
  induction hcut generalizing a with
  | nil => exact Edit.chain_nil.mpr hab
  | @cons e x es xs hcut _ ih =>
    have hrest := h.sublist (List.sublist_cons_self x xs)
    have hsplit : Spaced t ([x] ++ xs) := h
    rw [Edit.chain_cons, hcut.1, hcut.2]
    exact ⟨ha x List.mem_cons_self, h.cutStart_lt List.mem_cons_self,
      ih hrest (hb x List.mem_cons_self)
        (fun y hy => hsplit.cutStop_le_cutStart (List.mem_singleton_self x) hy)
        fun y hy => hb y (List.mem_cons_of_mem x hy)⟩

/-- Cuts of lines in front of another one do not meet, and end where its cut begins or before. -/
theorem Spaced.chain_of_append {t : Text} {es : List Edit} {xs ys : List Spot} {x : Spot}
    (h : Spaced t (xs ++ ys)) (hcut : List.Forall₂ (IsCut t) es xs) (hx : x ∈ ys) :
    Edit.Chain 0 (x.cutStart t) es :=
  (h.sublist (List.sublist_append_left xs ys)).chain hcut (Nat.zero_le _)
    (fun _ _ => Nat.zero_le _) fun _ hy => h.cutStop_le_cutStart hy hx

end Outline

namespace Fold

open Outline (Spot Spaced IsCut Within WithinAll Shallow ShallowAll spots spotsAll vacated
  vacatedAll isGone exists_of_mem_cuts)

variable {σ : Type} {source newline : Text}

/-- The edit by which a line goes that may have to make room for `pass`. -/
def cut (source newline : Text) (room : List Spot) (x : Spot) : Edit :=
  ⟨x.cutStart source, x.cutStop source,
    if x ∈ room then Text.passInstead source newline x.start x.stop else []⟩

theorem removal_eq (source newline : Text) (x : Spot) :
    removal source newline x.start x.stop =
      (cut source newline [] x, cut source newline [x] x) := by
  have halone : (Text.isBlank (Text.lastLine (source.take x.start)) &&
      Text.isBlank (Text.firstLine (source.drop x.stop))) = Text.alone source x.start x.stop := rfl
  simp only [removal, halone, cut, Spot.cutStart, Spot.cutStop, Text.cutStart, Text.cutStop,
    Text.passInstead, Text.lineStart, Text.lineStop, List.mem_singleton, List.not_mem_nil, if_true,
    if_false]
  split <;> rfl

/-- The cuts of some lines. -/
theorem forall₂_cut (room xs : List Spot) :
    List.Forall₂ (IsCut source) (xs.map (cut source newline room)) xs :=
  List.forall₂_map_left_iff.mpr (List.forall₂_same.mpr fun _ _ => ⟨rfl, rfl⟩)

/-- Whether a line makes room for `pass` only matters for its own cut. -/
theorem map_cut_congr {room room' xs : List Spot} (h : ∀ x ∈ xs, x ∈ room ↔ x ∈ room') :
    xs.map (cut source newline room) = xs.map (cut source newline room') :=
  List.map_congr_left fun x hx => by simp only [cut, h x hx]

/-- What a walk gives for an outline: the edit that would put `pass` there if it is a line that is
gone. -/
def passFor (source newline : Text) (gone : List Spot) (o : Outline) : Option Edit :=
  (o.asLine.filter fun x => decide (x ∈ gone)).map fun x => cut source newline [x] x

theorem passFor_isSome (source newline : Text) (gone : List Spot) (o : Outline) :
    (passFor source newline gone o).isSome = isGone gone o := by
  cases h : o.asLine <;> simp [passFor, isGone, h]

theorem passFor_congr {gone gone' : List Spot} {o : Outline}
    (h : ∀ x ∈ spots o, x ∈ gone ↔ x ∈ gone') :
    passFor source newline gone o = passFor source newline gone' o := by
  cases hline : o.asLine with
  | none => simp [passFor, hline]
  | some x =>
    have hgone := h x (Outline.mem_spots_of_asLine hline)
    simp [passFor, hline, Option.filter, hgone]

theorem passFor_of_mem {gone : List Spot} {o : Outline} {x : Spot} (h : o.asLine = some x)
    (hx : x ∈ gone) : passFor source newline gone o = some (cut source newline [x] x) := by
  simp [passFor, h, Option.filter, hx]

theorem allGone_passFor (gone : List Spot) (items : List Outline) :
    allGone (items.map (passFor source newline gone)) =
      if items.all (isGone gone) then items.head?.bind (passFor source newline gone) else none := by
  cases items with
  | nil => rfl
  | cons o os =>
    have hall : (os.map (passFor source newline gone)).all (·.isSome) = os.all (isGone gone) := by
      rw [List.all_map]
      exact congrArg os.all (funext fun o => passFor_isSome source newline gone o)
    rw [List.map_cons, allGone, hall, List.all_cons, ← passFor_isSome source newline,
      List.head?_cons, Option.bind_some]
    cases hpass : passFor source newline gone o <;> simp

/-! ## The walk -/

/-- The edits of a walk cut out lines that end in front of a place. -/
structure Behind (source : Text) (kept : List Edit) (xs : List Spot) (a : Nat) : Prop where
  cuts : List.Forall₂ (IsCut source) kept xs
  stop : ∀ x ∈ xs, x.stop ≤ a

namespace Behind

variable {kept : List Edit} {xs : List Spot} {a a' b : Nat}

theorem mono (h : Behind source kept xs a) (ha : a ≤ a') : Behind source kept xs a' :=
  ⟨h.cuts, fun x hx => (h.stop x hx).trans ha⟩

/-- Behind the cuts the source is shown. -/
theorem shown (h : Behind source kept xs a) (hxs : Spaced source xs) (ha : a ≤ a') :
    Edit.render source kept a' b = Text.slice source a' b := by
  have hnone : kept.filter (Edit.isWithin a' b) = [] := by
    refine List.filter_eq_nil_iff.mpr fun e he => ?_
    obtain ⟨x, hx, hcut, -⟩ := exists_of_mem_cuts h.cuts he
    have hlt := (hxs.inked x hx).lt
    have hstop := h.stop x hx
    have hstart : x.cutStart source ≤ x.start := Text.cutStart_le source _ _
    have hbefore : ¬ a' ≤ e.start := by omega
    simp [Edit.isWithin, hbefore]
  rw [Edit.render, hnone, Edit.apply]

end Behind

/-- A line is cut out or kept as the fold has it. -/
theorem settle_follows_removed {kept : List Edit} {xs : List Spot} {x : Spot}
    {answer : Replacement} (hxs : Spaced source (xs ++ [x])) (hk : Behind source kept xs x.start)
    (h : answer = .keep ∨ answer.removes = true) :
    Follows (σ := σ) kept (settle source newline x.start x.stop answer)
      (pure (if answer.removes then [x] else []))
      fun e ys es => (ys = [] ∨ ys = [x]) ∧ es = kept ++ ys.map (cut source newline []) ∧
        e = ys.head?.map fun y => cut source newline [y] y := by
  rcases h with rfl | h
  · exact .pure ⟨.inl rfl, by simp [Replacement.removes], rfl⟩
  · have hsettle : settle (σ := σ) source newline x.start x.stop answer = (do
        edit (cut source newline [] x)
        pure (some (cut source newline [x] x))) := by
      match answer, h with
      | .remove, _ => simp only [settle, removal_eq]
      | .flatten [], _ => simp only [settle, removal_eq]
    have hchain : Edit.Chain 0 (cut source newline [] x).start kept :=
      hxs.chain_of_append hk.cuts (List.mem_singleton_self x)
    have hcut : (cut source newline [] x).start < (cut source newline [] x).stop :=
      hxs.cutStart_lt (by simp)
    have hreplace := Edit.replace_append hchain (Edit.chain_nil.mpr hcut.le)
    rw [List.append_nil] at hreplace
    rw [hsettle, if_pos h]
    refine .edit ?_
    rw [hreplace]
    exact .pure ⟨.inr rfl, rfl, rfl⟩

/-- The walk gives nothing for an outline that is no line. -/
theorem passFor_of_asLine {gone : List Spot} {o : Outline} (h : o.asLine = none) :
    passFor source newline gone o = none := by
  rw [passFor, h]
  rfl

/-- The cuts of lines that lie in different outlines are made as if each had the fold to itself. -/
theorem cuts_append (newline : Text) {o : Outline} {os : List Outline} {ys zs : List Spot}
    (hxs : Spaced source (spots o ++ spotsAll os)) (hys : ys ⊆ spots o) (hzs : zs ⊆ spotsAll os) :
    (ys ++ zs).map (cut source newline (vacatedAll (ys ++ zs) (o :: os))) =
        ys.map (cut source newline (vacated ys o)) ++
          zs.map (cut source newline (vacatedAll zs os)) ∧
      (o :: os).map (passFor source newline (ys ++ zs)) =
        passFor source newline ys o :: os.map (passFor source newline zs) := by
  have hapart : ∀ x ∈ spots o, x ∉ spotsAll os := fun x hx => hxs.not_mem hx
  have hfirst : ∀ x ∈ spots o, x ∈ ys ++ zs ↔ x ∈ ys := fun x hx => by
    rw [List.mem_append, or_iff_left fun hmem => hapart x hx (hzs hmem)]
  have hrest : ∀ x ∈ spotsAll os, x ∈ ys ++ zs ↔ x ∈ zs := fun x hx => by
    rw [List.mem_append, or_iff_right fun hmem => hapart x (hys hmem) hx]
  have hroom : vacatedAll (ys ++ zs) (o :: os) = vacated ys o ++ vacatedAll zs os := by
    rw [vacatedAll, Outline.vacated_congr hfirst, Outline.vacatedAll_congr hrest]
  constructor
  · rw [hroom, List.map_append]
    congr 1
    · refine map_cut_congr fun x hx => ?_
      have hnot : x ∉ vacatedAll zs os :=
        fun hmem => hapart x (hys hx) (hzs (Outline.vacatedAll_subset zs os hmem))
      rw [List.mem_append, or_iff_left hnot]
    · refine map_cut_congr fun x hx => ?_
      have hnot : x ∉ vacated ys o :=
        fun hmem => hapart x (hys (Outline.vacated_subset ys o hmem)) (hzs hx)
      rw [List.mem_append, or_iff_right hnot]
  · rw [List.map_cons, passFor_congr hfirst, List.map_congr_left fun p hp => passFor_congr fun x hx =>
      hrest x (Outline.mem_spotsAll_of_mem hp hx)]

/-- The first of some cuts can be made again so that it makes room for `pass`. -/
theorem replace_pass {kept : List Edit} {xs ys : List Spot} {x : Spot}
    (hxs : Spaced source (xs ++ ([x] ++ ys))) (hcuts : List.Forall₂ (IsCut source) kept xs) :
    Edit.replace (cut source newline [x] x) (kept ++ (x :: ys).map (cut source newline [])) =
      kept ++ (x :: ys).map (cut source newline [x]) := by
  have hx : x ∈ [x] := List.mem_singleton_self x
  have hbehind : Spaced source ([x] ++ ys) := hxs.sublist (List.sublist_append_right xs _)
  have hkept : Edit.Chain 0 (cut source newline [x] x).start kept :=
    hxs.chain_of_append hcuts (List.mem_append_left ys hx)
  have hchain : Edit.Chain (cut source newline [x] x).stop source.length
      (ys.map (cut source newline [])) :=
    (hbehind.sublist (List.sublist_append_right [x] ys)).chain (forall₂_cut [] ys)
      (hbehind.cutStop_le (List.mem_append_left ys hx))
      (fun y hy => hbehind.cutStop_le_cutStart hx hy)
      fun y hy => hbehind.cutStop_le (List.mem_append_right [x] hy)
  have hlt : (cut source newline [x] x).start < (cut source newline [x] x).stop :=
    hbehind.cutStart_lt (List.mem_append_left ys hx)
  have hrest : ys.map (cut source newline []) = ys.map (cut source newline [x]) := by
    refine map_cut_congr fun y hy => ?_
    have hne : y ≠ x := by
      rintro rfl
      exact hbehind.not_mem hx hy
    simp [hne]
  have hreplace := Edit.replace_between (f := cut source newline [] x) hkept rfl rfl hchain hlt
  rw [List.map_cons, hreplace, hrest, List.map_cons]

/-- If all of a body is gone, `pass` takes the place of its first line. -/
theorem pass_follows {kept : List Edit} {xs ys : List Spot} {items : List Outline}
    (hs : ShallowAll items) (hxs : Spaced source (xs ++ spotsAll items))
    (hcuts : List.Forall₂ (IsCut source) kept xs) (hsub : ys.Sublist (spotsAll items)) :
    Follows (σ := σ) (kept ++ ys.map (cut source newline (vacatedAll ys items)))
      (do
        match allGone (items.map (passFor source newline ys)) with
        | some pass => edit pass
        | none => pure ()
        pure (none : Option Edit))
      (pure ys)
      fun e zs es => zs.Sublist (spotsAll items) ∧
        es = kept ++ zs.map (cut source newline (vacated zs (.block items))) ∧ e = none := by
  rw [allGone_passFor]
  by_cases hall : items.all (isGone ys) = true
  · rw [if_pos hall, hs.vacatedAll_of_isGone hall]
    cases items with
    | nil =>
      obtain rfl : ys = [] := List.sublist_nil.mp hsub
      exact .pure ⟨hsub, rfl, rfl⟩
    | cons o os =>
      obtain ⟨x, hline, hx⟩ := Outline.isGone_iff.mp (List.all_eq_true.mp hall o List.mem_cons_self)
      rw [List.head?_cons, Option.bind_some, passFor_of_mem hline hx]
      rw [Outline.spotsAll_cons, hs.1.spots_of_asLine hline] at hxs hsub ⊢
      have hbehind : Spaced source ([x] ++ spotsAll os) :=
        hxs.sublist (List.sublist_append_right xs _)
      -- The first line of the body is the first of those that are gone.
      obtain ⟨ys, rfl, hys⟩ : ∃ ys', ys = x :: ys' ∧ ys'.Sublist (spotsAll os) := by
        cases hsub with
        | cons _ hsub =>
          exact absurd (hsub.subset hx) (hbehind.not_mem (List.mem_singleton_self x))
        | cons_cons _ hsub => exact ⟨_, rfl, hsub⟩
      have hroom : vacated (x :: ys) (.block (o :: os)) = [x] := by
        rw [vacated, if_pos hall, List.take_succ_cons, List.take_zero, List.filterMap_cons, hline]
        rfl
      refine .edit ?_
      rw [replace_pass (hxs.sublist ((List.Sublist.refl xs).append
        ((List.Sublist.refl [x]).append hys))) hcuts]
      exact .pure ⟨hsub, by rw [hroom], rfl⟩
  · rw [if_neg hall]
    exact .pure ⟨hsub, by rw [vacated, if_neg hall], rfl⟩

mutual

/-- A walk through an outline cuts out the lines that the fold removes, and puts `pass` where it
makes room for it. -/
theorem walk_removes {f : Fold σ} (hf : f.OnlyRemoves) {kept : List Edit} {xs : List Spot}
    {a b : Nat} {o : Outline} (h : o.Within a b) (hs : o.Shallow)
    (hxs : Spaced source (xs ++ spots o)) (hk : Behind source kept xs a) :
    Follows kept (walk f source newline o) (removed f source o)
      fun e ys es => ys.Sublist (spots o) ∧
        es = kept ++ ys.map (cut source newline (vacated ys o)) ∧
        e = passFor source newline ys o := by
  cases o with
  | expression kind start stop inner =>
    obtain ⟨ha, hin, -⟩ := h
    rw [Shallow] at hs
    rw [spots] at hxs ⊢
    have hk' := hk.mono ha
    rw [walk, removed]
    refine (walkAll_removes hf hin (Outline.shallowAll_of_spots hs) hxs hk').bind ?_
    rintro _ ys _ ⟨hsub, rfl, -⟩
    obtain rfl : ys = [] := List.sublist_nil.mp (hs ▸ hsub)
    rw [List.map_nil, List.append_nil]
    refine .shown ?_
    rw [hk'.shown (hxs.sublist (List.sublist_append_left _ _)) (Nat.le_refl start)]
    refine (Follows.ask (hf.leaveExpression _)).bind ?_
    rintro _ _ _ ⟨rfl, rfl, rfl⟩
    exact .pure ⟨List.nil_sublist _, by simp, (passFor_of_asLine rfl).symm⟩
  | value site inner =>
    rw [Within] at h
    rw [Shallow] at hs
    rw [spots] at hxs ⊢
    rw [walk, removed]
    refine (Follows.tell _).bind ?_
    rintro _ _ _ rfl
    refine ((walk_removes hf h hs hxs hk).andTell _).andThen ?_
    rintro _ ys _ ⟨hsub, hes, -⟩
    exact .pure ⟨hsub, by rw [vacated, hes], (passFor_of_asLine rfl).symm⟩
  | line kinds docstring start stop inner =>
    obtain ⟨ha, hin, -⟩ := h
    rw [Shallow] at hs
    rw [spots, hs, List.nil_append] at hxs ⊢
    have hfront := hxs.sublist (List.sublist_append_left xs _)
    have hk' := hk.mono ha
    have hshown := hk'.shown (b := stop) hfront (Nat.le_refl start)
    rw [walk, removed]
    refine .shown ?_
    rw [hshown]
    refine (Follows.tell _).bind ?_
    rintro _ _ _ rfl
    refine (walkAll_removes hf hin (Outline.shallowAll_of_spots hs)
      (by rwa [hs, List.append_nil]) hk').bind ?_
    rintro _ ys _ ⟨hsub, rfl, -⟩
    obtain rfl : ys = [] := List.sublist_nil.mp (hs ▸ hsub)
    rw [List.map_nil, List.append_nil]
    refine .shown ?_
    rw [hshown]
    refine (Follows.ask (hf.leaveLine _)).bind ?_
    rintro answer _ _ ⟨rfl, rfl, hanswer⟩
    refine (settle_follows_removed (x := ⟨kinds, docstring, start, stop⟩) hxs hk' hanswer).mono ?_
    rintro _ ys _ ⟨rfl | rfl, rfl, rfl⟩
    · exact ⟨List.nil_sublist _, rfl, by simp [passFor]⟩
    · rw [vacated, Outline.vacatedAll_of_spots _ hs]
      exact ⟨List.Sublist.refl _, rfl, (passFor_of_mem rfl (List.mem_singleton_self _)).symm⟩
  | compound kind inner =>
    rw [Within] at h
    rw [Shallow] at hs
    rw [spots] at hxs ⊢
    rw [walk, removed]
    refine (Follows.tell _).bind ?_
    rintro _ _ _ rfl
    refine ((walkAll_removes hf h hs hxs hk).andTell _).andThen ?_
    rintro _ ys _ ⟨hsub, hes, -⟩
    exact .pure ⟨hsub, by rw [vacated, hes], (passFor_of_asLine rfl).symm⟩
  | block items =>
    rw [Within] at h
    rw [Shallow] at hs
    rw [spots] at hxs ⊢
    rw [walk, removed]
    refine (walkAll_removes hf h hs hxs hk).andThen ?_
    rintro _ ys _ ⟨hsub, rfl, rfl⟩
    exact pass_follows hs hxs hk.cuts hsub
  | group inner =>
    rw [Within] at h
    rw [Shallow] at hs
    rw [spots] at hxs ⊢
    rw [walk, removed]
    refine (walkAll_removes hf h hs hxs hk).andThen ?_
    rintro _ ys _ ⟨hsub, hes, -⟩
    exact .pure ⟨hsub, by rw [vacated, hes], (passFor_of_asLine rfl).symm⟩

theorem walkAll_removes {f : Fold σ} (hf : f.OnlyRemoves) {kept : List Edit} {xs : List Spot}
    {a b : Nat} {os : List Outline} (h : WithinAll a b os) (hs : ShallowAll os)
    (hxs : Spaced source (xs ++ spotsAll os)) (hk : Behind source kept xs a) :
    Follows kept (walkAll f source newline os) (removedAll f source os)
      fun es' ys es => ys.Sublist (spotsAll os) ∧
        es = kept ++ ys.map (cut source newline (vacatedAll ys os)) ∧
        es' = os.map (passFor source newline ys) := by
  cases os with
  | nil =>
    rw [walkAll, removedAll]
    exact .pure ⟨List.nil_sublist _, by simp, rfl⟩
  | cons o os =>
    obtain ⟨m, ho, hos⟩ := Outline.withinAll_cons.mp h
    obtain ⟨hso, hsos⟩ := hs
    rw [Outline.spotsAll_cons, ← List.append_assoc] at hxs
    rw [walkAll, removedAll]
    refine (walk_removes hf ho hso (hxs.sublist (List.sublist_append_left _ _)) hk).bind ?_
    rintro _ ys _ ⟨hsub, rfl, rfl⟩
    have hk' : Behind source (kept ++ ys.map (cut source newline (vacated ys o))) (xs ++ ys) m := by
      refine ⟨List.rel_append hk.cuts (forall₂_cut _ ys), fun x hx => ?_⟩
      rcases List.mem_append.mp hx with hx | hx
      · exact (hk.stop x hx).trans ho.le
      · exact (ho.bounds (hsub.subset hx)).2
    have hxs' : Spaced source ((xs ++ ys) ++ spotsAll os) :=
      hxs.sublist (((List.Sublist.refl xs).append hsub).append (List.Sublist.refl _))
    refine (walkAll_removes hf hos hsos hxs' hk').bind ?_
    rintro _ zs _ ⟨hsub', rfl, rfl⟩
    obtain ⟨hcuts, hpass⟩ := cuts_append newline
      (hxs.sublist ((List.sublist_append_right xs _).append (List.Sublist.refl _)))
      hsub.subset hsub'.subset
    exact .pure ⟨hsub.append hsub', by rw [hcuts, List.append_assoc], hpass.symm⟩

end

end Fold

end PointMutation
