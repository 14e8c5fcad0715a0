import Mathlib.Data.List.Induction
import Mathlib.Data.List.Nodup
import PointMutation.Proofs.Walk.Drawn

/-!
# The protocol of the hooks

What a walk tells its fold is well bracketed, whatever the trees are and whatever the fold does
(`Fold.hooks_bracketed`). Compound statements and values are left exactly once, in the opposite
order, also if the fold fails, and lines unless the fold fails inside. At most one value is open at
any time. An expression is left at most once, and behind all that is visited below it.
-/

namespace PointMutation

namespace Outline

open Fold (Event)

/-- What lies right inside an outline. -/
def inner : Outline → List Outline
  | .expression _ _ _ inner => inner
  | .value _ inner => [inner]
  | .line _ _ _ _ inner => inner
  | .compound _ inner => inner
  | .block items => items
  | .group inner => inner

/-- What a walk tells the fold in front of what lies inside. -/
def entering : Outline → List Event
  | .value site _ => [.enter (.value site)]
  | .line kinds docstring _ _ _ => [.enter (.line kinds docstring)]
  | .compound kind _ => [.enter (.compound kind)]
  | _ => []

/-- What a walk tells the fold behind what lies inside. -/
def leaving : Outline → List Event
  | .expression kind _ _ _ => [.expression kind]
  | .value site _ => [.leave (.value site)]
  | .line kinds docstring _ _ _ => [.leave (.line kinds docstring)]
  | .compound kind _ => [.leave (.compound kind)]
  | _ => []

section

variable {Q : List Outline → Prop} (nil : Q [])
  (cons : ∀ o os, Q o.inner → Q os → Q (o :: os))

include nil cons

mutual

theorem induct_inner (o : Outline) : Q o.inner := by
  cases o with
  | expression kind start stop inner => exact induct inner
  | value site inner => exact cons inner [] (induct_inner inner) nil
  | line kinds docstring start stop inner => exact induct inner
  | compound kind inner => exact induct inner
  | block items => exact induct items
  | group inner => exact induct inner

/-- What holds of no outlines, and of one in front of others if it holds of what lies inside it and
of the others, holds of all outlines. -/
theorem induct (os : List Outline) : Q os := by
  cases os with
  | nil => exact nil
  | cons o os => exact cons o os (induct_inner o) (induct os)

end

end

end Outline

namespace Fold

/-! ## Addresses -/

/-- What lies right inside the outline at an address. -/
def innerAt (os : List Outline) : Address → List Outline
  | [] => os
  | i :: a => (((innerAt os a)[i]?).map Outline.inner).getD []

/-- The outline at an address. -/
def outlineAt (os : List Outline) : Address → Option Outline
  | [] => none
  | i :: a => (innerAt os a)[i]?

theorem innerAt_eq {os : List Outline} {a : Address} {o : Outline}
    (h : outlineAt os a = some o) : innerAt os a = o.inner := by
  cases a with
  | nil => cases h
  | cons i a =>
    rw [outlineAt] at h
    rw [innerAt, h]
    rfl

/-- A score is the score of what lies inside with what the walk tells about the outline itself in
front of it and behind it. -/
theorem score_eq (a : Address) (o : Outline) :
    score a o = o.entering.map (Note.mk a) ++ (scoreFrom a 0 o.inner ++
      o.leaving.map (Note.mk a)) := by
  cases o with
  | value site inner =>
    have hinner : scoreFrom a 0 [inner] = score (0 :: a) inner := by
      rw [scoreFrom, scoreFrom, List.append_nil]
    rw [score, Outline.inner, hinner]
    rfl
  | block items => simp [score, Outline.entering, Outline.inner, Outline.leaving]
  | group inner => simp [score, Outline.entering, Outline.inner, Outline.leaving]
  | _ => rw [score]; rfl

theorem mem_score {a : Address} {o : Outline} {n : Note} :
    n ∈ score a o ↔ (n.address = a ∧ (n.event ∈ o.entering ∨ n.event ∈ o.leaving)) ∨
      n ∈ scoreFrom a 0 o.inner := by
  obtain ⟨b, e⟩ := n
  simp only [score_eq, List.mem_append, List.mem_map, Note.mk.injEq]
  constructor
  · rintro (⟨e', he, rfl, rfl⟩ | hn | ⟨e', he, rfl, rfl⟩)
    · exact .inl ⟨rfl, .inl he⟩
    · exact .inr hn
    · exact .inl ⟨rfl, .inr he⟩
  · rintro (⟨rfl, he | he⟩ | hn)
    · exact .inl ⟨e, he, rfl, rfl⟩
    · exact .inr (.inr ⟨e, he, rfl, rfl⟩)
    · exact .inr (.inl hn)

/-- Each note is about the outline at its address. -/
theorem scoreFrom_labelled {root : List Outline} {a : Address} {i : Nat} {os : List Outline}
    (h : (innerAt root a).drop i = os) {n : Note} (hn : n ∈ scoreFrom a i os) :
    ∃ o, outlineAt root n.address = some o ∧ (n.event ∈ o.entering ∨ n.event ∈ o.leaving) := by
  induction os using Outline.induct generalizing a i with
  | nil =>
    rw [scoreFrom] at hn
    cases hn
  | cons o os ihinner ihos =>
    have hfirst : outlineAt root (i :: a) = some o := by
      rw [outlineAt, ← Nat.add_zero i, ← List.getElem?_drop, h]
      rfl
    have hrest : (innerAt root a).drop (i + 1) = os := by
      rw [← List.drop_drop, h]
      rfl
    rw [scoreFrom, List.mem_append, mem_score] at hn
    rcases hn with (⟨hn, he⟩ | hn) | hn
    · exact ⟨o, hn ▸ hfirst, he⟩
    · exact ihinner ((List.drop_zero).trans (innerAt_eq hfirst)) hn
    · exact ihos hrest hn

/-- The notes of outlines that stand side by side have different addresses. -/
theorem suffix_of_mem_scoreFrom {a : Address} {i : Nat} {os : List Outline} {n : Note}
    (hn : n ∈ scoreFrom a i os) : ∃ j ≥ i, (j :: a) <:+ n.address := by
  induction os using Outline.induct generalizing a i with
  | nil =>
    rw [scoreFrom] at hn
    cases hn
  | cons o os ihinner ihos =>
    rw [scoreFrom, List.mem_append, mem_score] at hn
    rcases hn with (⟨hn, -⟩ | hn) | hn
    · exact ⟨i, Nat.le_refl i, hn ▸ List.suffix_refl _⟩
    · obtain ⟨j, -, hj⟩ := ihinner hn
      exact ⟨i, Nat.le_refl i, (List.suffix_cons j (i :: a)).trans hj⟩
    · obtain ⟨j, hij, hj⟩ := ihos hn
      exact ⟨j, by omega, hj⟩

theorem nodup_scoreFrom (a : Address) (i : Nat) (os : List Outline) : (scoreFrom a i os).Nodup := by
  induction os using Outline.induct generalizing a i with
  | nil => simp [scoreFrom]
  | cons o os ihinner ihos =>
    have hlonger : ∀ n ∈ scoreFrom (i :: a) 0 o.inner, n.address ≠ i :: a := by
      intro n hn heq
      obtain ⟨j, -, hj⟩ := suffix_of_mem_scoreFrom hn
      have hlength := hj.length_le
      rw [heq, List.length_cons] at hlength
      omega
    have hown : ((o.entering ++ o.leaving).map (Note.mk (i :: a))).Nodup := by
      refine List.Nodup.map (fun e e' h => (Note.mk.inj h).2) ?_
      cases o <;> simp [Outline.entering, Outline.leaving]
    have hhere : (score (i :: a) o).Nodup := by
      have hperm : (score (i :: a) o).Perm
          ((o.entering ++ o.leaving).map (Note.mk (i :: a)) ++ scoreFrom (i :: a) 0 o.inner) := by
        rw [score_eq, List.map_append, List.append_assoc]
        exact List.perm_append_comm.append_left _
      rw [hperm.nodup_iff, List.nodup_append]
      refine ⟨hown, ihinner (i :: a) 0, ?_⟩
      rintro n hn m hm rfl
      obtain ⟨e, -, rfl⟩ := List.mem_map.mp hn
      exact hlonger _ hm rfl
    rw [scoreFrom, List.nodup_append]
    refine ⟨hhere, ihos a (i + 1), ?_⟩
    rintro n hn m hm rfl
    obtain ⟨j, hij, hj⟩ := suffix_of_mem_scoreFrom hm
    have hi : (i :: a) <:+ n.address := by
      rcases mem_score.mp hn with ⟨hn, -⟩ | hn
      · exact hn ▸ List.suffix_refl _
      · obtain ⟨k, -, hk⟩ := suffix_of_mem_scoreFrom hn
        exact (List.suffix_cons k (i :: a)).trans hk
    have heq := (List.suffix_of_suffix_length_le hi hj (by simp)).eq_of_length (by simp)
    simp only [List.cons.injEq, and_true] at heq
    omega

theorem score_sublist_scoreFrom {a : Address} {i j : Nat} {o : Outline} {os : List Outline}
    (h : os[j]? = some o) : (score ((i + j) :: a) o).Sublist (scoreFrom a i os) := by
  induction os generalizing i j with
  | nil => cases h
  | cons p os ih =>
    rw [scoreFrom]
    cases j with
    | zero =>
      cases h
      exact List.sublist_append_left _ _
    | succ j =>
      have hrest := ih (i := i + 1) (j := j) h
      rw [Nat.add_right_comm, Nat.add_assoc] at hrest
      exact hrest.trans (List.sublist_append_right _ _)

/-- The score of an outline is part of the score of all of them. -/
theorem score_sublist {os : List Outline} {a : Address} {o : Outline}
    (h : outlineAt os a = some o) : (score a o).Sublist (scoreFrom [] 0 os) := by
  induction a generalizing o with
  | nil => cases h
  | cons i a ih =>
    have hhere : (score (i :: a) o).Sublist (scoreFrom a 0 (innerAt os a)) := by
      have hscore := score_sublist_scoreFrom (a := a) (i := 0) (j := i) h
      rwa [Nat.zero_add] at hscore
    refine hhere.trans ?_
    cases hparent : outlineAt os a with
    | some p =>
      rw [innerAt_eq hparent]
      refine .trans ?_ (ih hparent)
      rw [score_eq]
      exact (List.sublist_append_left _ _).trans (List.sublist_append_right _ _)
    | none =>
      cases a with
      | nil => exact .refl _
      | cons j a =>
        -- there is nothing inside where there is no outline
        rw [outlineAt] at h hparent
        rw [innerAt, hparent] at h
        cases h

/-! ## What is open -/

namespace Opens

variable {st st' : Opened} {ns : List Note} {n : Note}

theorem of_concat (h : Opens st (ns ++ [n]) st') :
    ∃ st₁, Opens st ns st₁ ∧ follow st₁ n = some st' := by
  rw [Opens, List.foldlM_append] at h
  obtain ⟨st₁, h₁, h₂⟩ := Option.bind_eq_some_iff.mp h
  refine ⟨st₁, h₁, ?_⟩
  rw [List.foldlM_cons] at h₂
  obtain ⟨st₂, h₂, h₃⟩ := Option.bind_eq_some_iff.mp h₂
  cases h₃
  exact h₂

/-- What an event does that is read on the way. -/
theorem follow_of_prefix {st₁ : Opened} {front : List Note} (h : Opens st ns st')
    (hfront : front ++ [n] <+: ns) (h₁ : Opens st front st₁) : ∃ st₂, follow st₁ n = some st₂ := by
  obtain ⟨rest, rfl⟩ := hfront
  rw [Opens, List.foldlM_append] at h
  obtain ⟨st₂, h₂, -⟩ := Option.bind_eq_some_iff.mp h
  obtain ⟨st₃, h₃, hfollow⟩ := Opens.of_concat h₂
  obtain rfl : st₁ = st₃ := Option.some.inj (h₁.symm.trans h₃)
  exact ⟨st₂, hfollow⟩

end Opens

/-- What an event can be, and what it does to what is open. -/
theorem follow_cases {st st' : Opened} {n : Note} (h : follow st n = some st') :
    (∃ b, n.event = .enter b ∧ admits st b = true ∧ st' = (n.address, b) :: st) ∨
      (∃ b, n.event = .leave b ∧ st = (n.address, b) :: st') ∨
      ∃ kind, n.event = .expression kind ∧ st' = st := by
  obtain ⟨a, e⟩ := n
  cases e with
  | enter b =>
    have h : (if admits st b then some ((a, b) :: st) else none) = some st' := h
    obtain ⟨hadmits, hst⟩ := Option.ite_none_right_eq_some.mp h
    exact .inl ⟨b, rfl, hadmits, (Option.some.inj hst).symm⟩
  | leave b =>
    cases st with
    | nil => cases h
    | cons o st =>
      have h : (if o = (a, b) then some st else none) = some st' := h
      obtain ⟨rfl, hst⟩ := Option.ite_none_right_eq_some.mp h
      exact .inr (.inl ⟨b, rfl, congrArg _ (Option.some.inj hst)⟩)
  | expression kind =>
    cases h
    exact .inr (.inr ⟨kind, rfl, rfl⟩)

/-- What is open was entered and has not been left, and what was left was entered. -/
structure Accounts (told : List Note) (opened : Opened) : Prop where
  nodup : opened.Nodup
  mem_iff : ∀ a b, (a, b) ∈ opened ↔ ⟨a, .enter b⟩ ∈ told ∧ ⟨a, .leave b⟩ ∉ told
  entered : ∀ a b, ⟨a, .leave b⟩ ∈ told → ⟨a, .enter b⟩ ∈ told

theorem Opens.accounts {told : List Note} {opened : Opened} (h : Opens [] told opened)
    (hn : told.Nodup) : Accounts told opened := by
  induction told using List.reverseRecOn generalizing opened with
  | nil =>
    cases h
    exact ⟨.nil, by simp, by simp⟩
  | append_singleton told n ih =>
    obtain ⟨st, hst, hfollow⟩ := h.of_concat
    obtain ⟨hnodup, -, hapart⟩ := List.nodup_append.mp hn
    have hnew : n ∉ told := fun h => hapart n h n List.mem_cons_self rfl
    obtain ⟨hst, hmem, hentered⟩ := ih hst hnodup
    obtain ⟨a, e⟩ := n
    rcases follow_cases hfollow with ⟨b, rfl, -, rfl⟩ | ⟨b, rfl, rfl⟩ | ⟨kind, rfl, rfl⟩
    · refine ⟨List.nodup_cons.mpr ⟨fun h => hnew ((hmem a b).mp h).1, hst⟩, ?_, ?_⟩
      · intro a' b'
        have hleft : ⟨a, .leave b⟩ ∉ told := fun h => hnew (hentered a b h)
        by_cases heq : (a', b') = (a, b)
        · cases heq
          simpa using hleft
        · have hne : ¬ (a' = a ∧ b' = b) := by simpa using heq
          simp [hmem, hne]
      · intro a' b' h
        simp_all
    · obtain ⟨hab, hst⟩ := List.nodup_cons.mp hst
      refine ⟨hst, ?_, ?_⟩
      · intro a' b'
        have hmem := hmem a' b'
        by_cases heq : (a', b') = (a, b)
        · cases heq
          simp [hab]
        · simp_all
      · intro a' b' h
        have hopen := ((hmem a b).mp (by simp)).1
        simp only [List.mem_append, List.mem_singleton, Note.mk.injEq, Event.leave.injEq] at h ⊢
        rcases h with h | ⟨rfl, rfl⟩
        · exact .inl (hentered a' b' h)
        · exact .inl hopen
    · refine ⟨hst, fun a' b' => ?_, fun a' b' h => ?_⟩
      · simpa using hmem a' b'
      · simpa using hentered a' b' (by simpa using h)

/-- Whatever is open was admitted where it was entered. -/
def Layered : Opened → Prop
  | [] => True
  | (_, b) :: st => admits st b = true ∧ Layered st

theorem Opens.layered {st st' : Opened} {ns : List Note} (h : Opens st ns st') (hst : Layered st) :
    Layered st' := by
  induction ns using List.reverseRecOn generalizing st' with
  | nil =>
    cases h
    exact hst
  | append_singleton ns n ih =>
    obtain ⟨st₁, h₁, hfollow⟩ := h.of_concat
    have hst₁ := ih h₁
    rcases follow_cases hfollow with ⟨b, -, hadmits, rfl⟩ | ⟨b, -, rfl⟩ | ⟨kind, -, rfl⟩
    · exact ⟨hadmits, hst₁⟩
    · exact hst₁.2
    · exact hst₁

/-- Where a value may be entered, none is open. -/
theorem isValue_of_scope {st : Opened} (h : scope st ≠ .expressions) :
    ∀ o ∈ st, o.2.isValue = false := by
  induction st with
  | nil => simp
  | cons o st ih =>
    obtain ⟨a, b⟩ := o
    cases b with
    | value site => exact absurd rfl h
    | compound kind => exact List.forall_mem_cons.mpr ⟨rfl, ih h⟩
    | line kinds docstring =>
      refine List.forall_mem_cons.mpr ⟨rfl, ih fun hst => h ?_⟩
      rw [scope, if_pos hst]

/-- At most one value is open at a time. -/
theorem Layered.countP_isValue {st : Opened} (h : Layered st) :
    (st.countP fun o => o.2.isValue) ≤ 1 := by
  induction st with
  | nil => simp
  | cons o st ih =>
    obtain ⟨a, b⟩ := o
    cases b with
    | value site =>
      have hnone := isValue_of_scope (bne_iff_ne.mp h.1)
      have hrest : (st.countP fun o => o.2.isValue) = 0 :=
        List.countP_eq_zero.mpr fun o ho => by simp [hnone o ho]
      rw [List.countP_cons_of_pos rfl]
      omega
    | compound kind =>
      rw [List.countP_cons_of_neg Bool.false_ne_true]
      exact ih h.2
    | line kinds docstring =>
      rw [List.countP_cons_of_neg Bool.false_ne_true]
      exact ih h.2

/-- While a value is innermost, nothing is told but expressions and that it is left. -/
theorem follow_value {st st' : Opened} {a : Address} {site : Site} {n : Note}
    (h : follow ((a, .value site) :: st) n = some st') :
    (∃ kind, n.event = .expression kind) ∨ n = ⟨a, .leave (.value site)⟩ := by
  rcases follow_cases h with ⟨b, -, hadmits, -⟩ | ⟨b, he, hst⟩ | ⟨kind, he, -⟩
  · cases b <;> simp [admits, scope] at hadmits
  · obtain ⟨ha, hb⟩ := Prod.mk.inj (List.cons.inj hst).1
    right
    rw [ha, hb, ← he]
  · exact .inl ⟨kind, he⟩

/-- While a line is innermost, only values are entered. -/
theorem follow_line {st st' : Opened} {a : Address} {kinds : List Kind} {docstring : Bool}
    {n : Note} (h : follow ((a, .line kinds docstring) :: st) n = some st') :
    (∃ kind, n.event = .expression kind) ∨ (∃ site, n.event = .enter (.value site)) ∨
      n = ⟨a, .leave (.line kinds docstring)⟩ := by
  rcases follow_cases h with ⟨b, he, hadmits, -⟩ | ⟨b, he, hst⟩ | ⟨kind, he, -⟩
  · have hscope : scope ((a, .line kinds docstring) :: st) ≠ .statements := by
      rw [scope]
      split <;> decide
    cases b with
    | value site => exact .inr (.inl ⟨site, he⟩)
    | compound kind => exact absurd (beq_iff_eq.mp hadmits) hscope
    | line kinds' docstring' => exact absurd (beq_iff_eq.mp hadmits) hscope
  · obtain ⟨ha, hb⟩ := Prod.mk.inj (List.cons.inj hst).1
    right
    right
    rw [ha, hb, ← he]
  · exact .inl ⟨kind, he⟩

/-! ## Brackets without lines -/

/-- Whether an event enters or leaves a line. -/
def Event.isLine : Event → Bool
  | .enter b => b.isLine
  | .leave b => b.isLine
  | .expression _ => false

theorem eq_of_scope {st : Opened} (h : scope st = .statements) :
    st.filter (fun o => !o.2.isLine) = st := by
  induction st with
  | nil => rfl
  | cons o st ih =>
    obtain ⟨a, b⟩ := o
    cases b with
    | compound kind =>
      rw [List.filter_cons_of_pos (by rfl), ih h]
    | line kinds docstring =>
      rw [scope] at h
      split at h <;> cases h
    | value site => cases h

theorem scope_filter {st : Opened} (h : scope st ≠ .expressions) :
    scope (st.filter fun o => !o.2.isLine) ≠ .expressions := by
  induction st with
  | nil => exact h
  | cons o st ih =>
    obtain ⟨a, b⟩ := o
    cases b with
    | compound kind =>
      rw [List.filter_cons_of_pos (by rfl)]
      exact ih h
    | line kinds docstring =>
      rw [List.filter_cons_of_neg (by simp [Bracket.isLine])]
      refine ih fun hst => h ?_
      rw [scope, if_pos hst]
    | value site => exact absurd rfl h

theorem admits_filter {st : Opened} {b : Bracket} (h : admits st b = true) :
    admits (st.filter fun o => !o.2.isLine) b = true := by
  cases b with
  | value site => exact bne_iff_ne.mpr (scope_filter (bne_iff_ne.mp h))
  | compound kind => rwa [eq_of_scope (beq_iff_eq.mp h)]
  | line kinds docstring => rwa [eq_of_scope (beq_iff_eq.mp h)]

/-- Without the lines, what is entered and left is still in brackets. -/
theorem Opens.withoutLines {st st' : Opened} {ns : List Note} (h : Opens st ns st') :
    Opens (st.filter fun o => !o.2.isLine) (ns.filter fun n => !n.event.isLine)
      (st'.filter fun o => !o.2.isLine) := by
  induction ns using List.reverseRecOn generalizing st' with
  | nil =>
    cases h
    exact .nil _
  | append_singleton ns n ih =>
    obtain ⟨st₁, h₁, hfollow⟩ := h.of_concat
    obtain ⟨a, e⟩ := n
    rw [List.filter_append]
    refine (ih h₁).append ?_
    rcases follow_cases hfollow with ⟨b, rfl, hadmits, rfl⟩ | ⟨b, rfl, rfl⟩ | ⟨kind, rfl, rfl⟩
    · have henter := Opens.enter (a := a) (admits_filter hadmits)
      cases hb : b.isLine
      · simpa [List.filter_cons, Event.isLine, hb] using henter
      · simpa [List.filter_cons, Event.isLine, hb] using Opens.nil _
    · have hleave : Opens ((a, b) :: st'.filter fun o => !o.2.isLine) [⟨a, .leave b⟩] _ := .leave
      cases hb : b.isLine
      · simpa [List.filter_cons, Event.isLine, hb] using hleave
      · simpa [List.filter_cons, Event.isLine, hb] using Opens.nil _
    · exact .expression kind

theorem opens_closing (st : Opened) :
    Opens (st.filter fun o => !o.2.isLine) (closing st) [] := by
  rw [closing]
  induction st.filter fun o => !o.2.isLine with
  | nil => exact .nil []
  | cons o st ih => exact Opens.leave.append ih

/-! ## Expressions -/

open Outline (Shows ShowsAll ofExpression)
open PointMutation.Tree (Among)

theorem showsAll_innerAt {ts : List Tree} {os : List Outline} (h : ShowsAll ts os) (a : Address) :
    ShowsAll ts (innerAt os a) := by
  induction a with
  | nil => exact h
  | cons i a ih =>
    rw [innerAt]
    cases ho : (innerAt os a)[i]? with
    | none => trivial
    | some o =>
      have hshows := ih.of_mem (List.mem_of_getElem? ho)
      cases o with
      | expression kind start stop inner => exact hshows.2
      | value site inner => exact ⟨hshows, trivial⟩
      | _ => exact hshows

theorem shows_outlineAt {ts : List Tree} {os : List Outline} (h : ShowsAll ts os) {a : Address}
    {o : Outline} (ho : outlineAt os a = some o) : Shows ts o := by
  cases a with
  | nil => cases ho
  | cons i a => exact (showsAll_innerAt h a).of_mem (List.mem_of_getElem? ho)

/-- Of two events in a score, both were told if the second one was. -/
theorem pair_sublist_of_prefix {told plan : List Note} (hplan : told <+: plan) (hn : plan.Nodup)
    {x y : Note} (h : [x, y].Sublist plan) (hy : y ∈ told) : [x, y].Sublist told := by
  obtain ⟨rest, rfl⟩ := hplan
  have hrest : y ∉ rest := fun hmem => (List.nodup_append.mp hn).2.2 y hy y hmem rfl
  obtain ⟨l, l', heq, hl, hl'⟩ := List.sublist_append_iff.mp h
  match l with
  | [] =>
    rw [List.nil_append] at heq
    exact absurd (hl'.subset (heq ▸ by simp)) hrest
  | [z] =>
    obtain ⟨rfl, rfl⟩ : x = z ∧ [y] = l' := by simpa using heq
    exact absurd (hl'.subset (by simp)) hrest
  | z :: z' :: l =>
    obtain ⟨rfl, rfl, rfl, -⟩ : x = z ∧ y = z' ∧ l = [] ∧ l' = [] := by simpa using heq
    exact hl

/-- An expression that is left is a node of the trees, and what is visited right below it was left
before. -/
theorem expression_of_told {ts : List Tree} {os : List Outline} (hshows : ShowsAll ts os)
    {told : List Note} (hplan : told <+: scoreFrom [] 0 os) {a : Address} {kind : Kind}
    (h : ⟨a, .expression kind⟩ ∈ told) :
    ∃ t, Among ts t ∧ t.kind = kind ∧ outlineAt os a = some (ofExpression t) ∧
      ∀ i c, t.visited[i]? = some c →
        [⟨i :: a, .expression c.kind⟩, ⟨a, .expression kind⟩].Sublist told := by
  have hroot : (innerAt os []).drop 0 = os := rfl
  obtain ⟨o, ho, he⟩ := scoreFrom_labelled hroot (hplan.subset h)
  obtain ⟨start, stop, inner, rfl⟩ : ∃ start stop inner, o = .expression kind start stop inner := by
    cases o <;> simp_all [Outline.entering, Outline.leaving]
  obtain ⟨t, ht, hot⟩ := (shows_outlineAt hshows ho).1
  rw [← hot] at ho
  rw [Outline.ofExpression_eq] at hot
  obtain ⟨rfl, -, -, rfl⟩ := Outline.expression.inj hot
  refine ⟨t, ht, rfl, ho, fun i c hc => ?_⟩
  refine pair_sublist_of_prefix hplan (nodup_scoreFrom [] 0 os) (.trans ?_ (score_sublist ho)) h
  rw [Outline.ofExpression_eq, score, ← List.singleton_append]
  refine .append (List.singleton_sublist.mpr ?_) (.refl _)
  have hchild : (t.visited.map ofExpression)[i]? = some (ofExpression c) := by
    rw [List.getElem?_map, hc]
    rfl
  have hscore := score_sublist_scoreFrom (a := a) (i := 0) hchild
  rw [Nat.zero_add] at hscore
  refine hscore.subset (mem_score.mpr (.inl ⟨rfl, .inr ?_⟩))
  rw [Outline.ofExpression_eq]
  exact List.mem_singleton_self _

/-! ## The protocol -/

/-- What a fold is told by a walk through outlines of trees, and what is open when no more is told
but how that is closed. -/
structure Bracketed (ts : List Tree) (os : List Outline) (told : List Note) (opened : Opened) :
    Prop where
  /-- Nothing is told twice. -/
  once : (told ++ closing opened).Nodup
  /-- Everything is told about the outline at its address. -/
  labelled : ∀ n ∈ told, ∃ o, outlineAt os n.address = some o ∧
    (n.event ∈ o.entering ∨ n.event ∈ o.leaving)
  /-- Only what was entered last is left. -/
  opens : Opens [] told opened
  inValue : ∀ front n st a site, front ++ [n] <+: told →
    Opens [] front ((a, .value site) :: st) →
    (∃ kind, n.event = .expression kind) ∨ n = ⟨a, .leave (.value site)⟩
  inLine : ∀ front n st a kinds docstring, front ++ [n] <+: told →
    Opens [] front ((a, .line kinds docstring) :: st) →
    (∃ kind, n.event = .expression kind) ∨ (∃ site, n.event = .enter (.value site)) ∨
      n = ⟨a, .leave (.line kinds docstring)⟩
  oneValue : ∀ front st, front <+: told → Opens [] front st →
    (st.countP fun o => o.2.isValue) ≤ 1
  /-- What is open was entered and has not been left. -/
  isOpen : ∀ a b, (a, b) ∈ opened ↔ ⟨a, .enter b⟩ ∈ told ∧ ⟨a, .leave b⟩ ∉ told
  /-- All compound statements and values are left in the end. -/
  closed : ∀ a b, ⟨a, .enter b⟩ ∈ told → b.isLine = false →
    ⟨a, .leave b⟩ ∈ told ++ closing opened
  nested : Opens [] ((told ++ closing opened).filter fun n => !n.event.isLine) []
  /-- Expressions are nodes of the trees, and left behind those that are visited below. -/
  expressions : ∀ a kind, ⟨a, .expression kind⟩ ∈ told →
    ∃ t, Among ts t ∧ t.kind = kind ∧ outlineAt os a = some (ofExpression t) ∧
      ∀ i c, t.visited[i]? = some c →
        [⟨i :: a, .expression c.kind⟩, ⟨a, .expression kind⟩].Sublist told
  /-- No two expressions are the same node. -/
  places : (Outline.valuedAll true os).Sublist ((Tree.postorderAll ts).map Outline.placeOf)

theorem mem_closing {st : Opened} {n : Note} :
    n ∈ closing st ↔ ∃ b, n.event = .leave b ∧ (n.address, b) ∈ st ∧ b.isLine = false := by
  obtain ⟨a, e⟩ := n
  simp only [closing, List.mem_map, List.mem_filter, Note.mk.injEq, Bool.not_eq_true']
  constructor
  · rintro ⟨⟨a, b⟩, ⟨hst, hb⟩, rfl, rfl⟩
    exact ⟨b, rfl, hst, hb⟩
  · rintro ⟨b, rfl, hst, hb⟩
    exact ⟨(a, b), ⟨hst, hb⟩, rfl, rfl⟩

theorem nodup_closing {st : Opened} (h : st.Nodup) : (closing st).Nodup := by
  refine List.Nodup.map ?_ (h.filter _)
  rintro ⟨a, b⟩ ⟨a', b'⟩ heq
  simpa using heq

/-- Whatever is told up to some place in the score of outlines of trees is bracketed. -/
theorem bracketed_of_prefix {ts : List Tree} {os : List Outline}
    (hdrawn : Outline.Drawn .statements ts os) {told : List Note} {opened : Opened}
    (hplan : told <+: scoreFrom [] 0 os) (hopens : Opens [] told opened) :
    Bracketed ts os told opened := by
  have hnodup : told.Nodup := (nodup_scoreFrom [] 0 os).sublist hplan.sublist
  obtain ⟨hopened, hmem, -⟩ := hopens.accounts hnodup
  have hroot : (innerAt os []).drop 0 = os := rfl
  exact
    { once := by
        refine List.nodup_append.mpr ⟨hnodup, nodup_closing hopened, ?_⟩
        rintro ⟨a, e⟩ hn n hn' rfl
        obtain ⟨b, rfl, hst, -⟩ := mem_closing.mp hn'
        exact ((hmem a b).mp hst).2 hn
      labelled := fun n hn => scoreFrom_labelled hroot (hplan.subset hn)
      opens := hopens
      inValue := fun front n st a site hfront hst =>
        let ⟨_, hfollow⟩ := hopens.follow_of_prefix hfront hst
        follow_value hfollow
      inLine := fun front n st a kinds docstring hfront hst =>
        let ⟨_, hfollow⟩ := hopens.follow_of_prefix hfront hst
        follow_line hfollow
      oneValue := fun front st _ hfront => (hfront.layered trivial).countP_isValue
      isOpen := hmem
      closed := fun a b henter hb => by
        by_cases hleave : ⟨a, .leave b⟩ ∈ told
        · exact List.mem_append_left _ hleave
        · exact List.mem_append_right _
            (mem_closing.mpr ⟨b, rfl, (hmem a b).mpr ⟨henter, hleave⟩, hb⟩)
      nested := by
        rw [List.filter_append]
        have hclosing : (closing opened).filter (fun n => !n.event.isLine) = closing opened := by
          refine List.filter_eq_self.mpr fun n hn => ?_
          obtain ⟨b, he, -, hb⟩ := mem_closing.mp hn
          simp [he, Event.isLine, hb]
        rw [hclosing]
        exact hopens.withoutLines.append (opens_closing opened)
      expressions := fun a kind h =>
        expression_of_told (hdrawn.shows fun t ht => Tree.among_of_mem ht) hplan h
      places := hdrawn.places_sublist }

/-- Whatever the trees are and whatever the fold does, a walk through the outline of the trees tells
it something bracketed. If no hook fails, that is the whole score, in which all is left that is
entered. If a hook fails, it is the last one that is told anything but how the open values and
compound statements are closed. -/
theorem hooks_bracketed {σ : Type} (f : Fold σ) (text newline : Text) (ts : List Tree) (m : σ) :
    let os := Outline.ofStatements text false none ts
    ∃ heard told opened, edits (noting f) text newline os (m, []) =
        ((edits f text newline os m).1, ((edits f text newline os m).2, heard)) ∧
      Bracketed ts os told opened ∧
      match (edits f text newline os m).1 with
      | .ok _ => heard = calls told ∧ told = scoreFrom [] 0 os ∧ opened = []
      | .error _ => ∃ done n, told = done ++ [n] ∧ told <+: scoreFrom [] 0 os ∧
        heard = calls done ++ ⟨n.event, true⟩ :: calls (closing opened) := by
  intro os
  have hdrawn : Outline.Drawn .statements ts os :=
    Outline.drawn_ofStatements text false [] ts (by simp)
  obtain ⟨heard, hedits, hheard⟩ := edits_noting f text newline m hdrawn.fits
  generalize (edits f text newline os m).1 = answer at hedits hheard ⊢
  cases hheard with
  | ok es =>
    refine ⟨_, scoreFrom [] 0 os, [], hedits, ?_, rfl, rfl, rfl⟩
    exact bracketed_of_prefix hdrawn (List.prefix_refl _) (opens_scoreFrom [] 0 hdrawn.fits)
  | @error e done n opened hplan hopens =>
    rw [List.append_nil] at hopens
    exact ⟨_, done ++ [n], opened, hedits, bracketed_of_prefix hdrawn hplan hopens, done, n, rfl,
      hplan, rfl⟩

end Fold

end PointMutation
