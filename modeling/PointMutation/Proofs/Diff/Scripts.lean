import PointMutation.Diff.Shortest
import PointMutation.Diff.Slide

/-!
# Scripts between two lists

However a script is found, it starts from the first list and leads to the second one: where both
lists are cut in two, the pieces are put together again, whatever the place of the cut is
(`Diff.shortest_leads`). To slide a change moves elements that it shares with those next to it, so
that the script starts from the same list as before and leads to the same one
(`Diff.settled_leads`).
-/

namespace PointMutation.Diff

variable {α : Type}

/-- The script starts from one list and leads to another one. -/
structure Script.Leads (s : Script α) (as bs : List α) : Prop where
  source : s.source = as
  target : s.target = bs

/-- Two scripts start from the same list and lead to the same list. -/
structure Script.Same (s s' : Script α) : Prop where
  source : s.source = s'.source
  target : s.target = s'.target

namespace Script

@[simp]
theorem source_nil : source ([] : Script α) = [] := rfl

@[simp]
theorem target_nil : target ([] : Script α) = [] := rfl

@[simp]
theorem source_keep (xs : List α) (s : Script α) : source (.keep xs :: s) = xs ++ source s := rfl

@[simp]
theorem target_keep (xs : List α) (s : Script α) : target (.keep xs :: s) = xs ++ target s := rfl

@[simp]
theorem source_delete (xs : List α) (s : Script α) : source (.delete xs :: s) = xs ++ source s :=
  rfl

@[simp]
theorem target_delete (xs : List α) (s : Script α) : target (.delete xs :: s) = target s := rfl

@[simp]
theorem source_insert (xs : List α) (s : Script α) : source (.insert xs :: s) = source s := rfl

@[simp]
theorem target_insert (xs : List α) (s : Script α) : target (.insert xs :: s) = xs ++ target s :=
  rfl

theorem leads_replace (xs ys : List α) : Leads [.delete xs, .insert ys] xs ys :=
  ⟨by simp, by simp⟩

theorem leads_kept [DecidableEq α] (xs : List α) : Leads (kept xs) xs xs := by
  rw [kept]
  split
  · next h =>
    rw [List.isEmpty_iff.mp h]
    exact ⟨rfl, rfl⟩
  · exact ⟨by simp, by simp⟩

theorem Leads.append {s s' : Script α} {as as' bs bs' : List α} (h : Leads s as bs)
    (h' : Leads s' as' bs') : Leads (s ++ s') (as ++ as') (bs ++ bs') :=
  ⟨by rw [source_append, h.source, h'.source], by rw [target_append, h.target, h'.target]⟩

namespace Same

variable {s s' s'' : Script α}

theorem refl (s : Script α) : Same s s := ⟨rfl, rfl⟩

theorem trans (h : Same s s') (h' : Same s' s'') : Same s s'' :=
  ⟨h.source.trans h'.source, h.target.trans h'.target⟩

theorem leads {as bs : List α} (h : Same s s') (hs : Leads s' as bs) : Leads s as bs :=
  ⟨h.source.trans hs.source, h.target.trans hs.target⟩

end Same

end Script

open Script

/-! ## Shortest scripts -/

variable [DecidableEq α]

theorem commonFront_self (as : List α) : commonFront as as = as.length := by
  induction as with
  | nil => rfl
  | cons a as ih => rw [commonFront, if_pos rfl, ih, List.length_cons]

/-- What two lists have in common at their back. -/
theorem drop_commonBack (as bs : List α) :
    as.drop (as.length - commonBack as bs) = bs.drop (bs.length - commonBack as bs) := by
  have h := take_commonFront as.reverse bs.reverse
  rw [List.take_reverse, List.take_reverse, List.reverse_inj] at h
  exact h

/-- Two lists around what they have in common at their ends. -/
theorem leads_between {as bs : List α} {inner : Script α}
    (h : Leads inner
      ((as.drop (commonFront as bs)).take ((as.drop (commonFront as bs)).length -
        commonBack (as.drop (commonFront as bs)) (bs.drop (commonFront as bs))))
      ((bs.drop (commonFront as bs)).take ((bs.drop (commonFront as bs)).length -
        commonBack (as.drop (commonFront as bs)) (bs.drop (commonFront as bs))))) :
    Leads (kept (as.take (commonFront as bs)) ++ inner ++
      kept ((as.drop (commonFront as bs)).drop ((as.drop (commonFront as bs)).length -
        commonBack (as.drop (commonFront as bs)) (bs.drop (commonFront as bs))))) as bs := by
  have hfront := take_commonFront as bs
  have hback := drop_commonBack (as.drop (commonFront as bs)) (bs.drop (commonFront as bs))
  have hscript := ((leads_kept (as.take (commonFront as bs))).append h).append
    (leads_kept ((as.drop (commonFront as bs)).drop ((as.drop (commonFront as bs)).length -
      commonBack (as.drop (commonFront as bs)) (bs.drop (commonFront as bs)))))
  refine ⟨hscript.source.trans ?_, hscript.target.trans ?_⟩
  · rw [List.append_assoc, List.take_append_drop, List.take_append_drop]
  · rw [hfront, hback, List.append_assoc, List.take_append_drop, List.take_append_drop]

/-- A script between two lists, wherever they are cut. -/
theorem shortestWithin_leads (fuel : Nat) (as bs : List α) :
    Leads (shortestWithin fuel as bs) as bs := by
  induction fuel generalizing as bs with
  | zero => exact leads_replace as bs
  | succ fuel ih =>
    rw [shortestWithin]
    refine leads_between ?_
    generalize (as.drop _).take _ = as'
    generalize (bs.drop _).take _ = bs'
    split
    · exact ⟨rfl, rfl⟩
    · exact ⟨by simp, by simp⟩
    · exact ⟨by simp, by simp⟩
    · split
      · next x y _ =>
        have hcut := (ih (as'.take x) (bs'.take y)).append (ih (as'.drop x) (bs'.drop y))
        rwa [List.take_append_drop, List.take_append_drop] at hcut
      · exact leads_replace as' bs'

theorem shortest_leads (as bs : List α) : Leads (shortest as bs) as bs :=
  shortestWithin_leads _ as bs

/-! ## Slides -/

/-- The script that a focus is in. -/
def Focus.script (f : Focus α) : Script α := f.before.reverse ++ f.here :: f.after

omit [DecidableEq α] in
theorem keepBefore_same (xs : List α) (r : Script α) : Same (keepBefore xs r) (.keep xs :: r) := by
  unfold keepBefore
  split <;> constructor <;> simp

omit [DecidableEq α] in
theorem keepBehind_same (xs : List α) (r : Script α) :
    Same (keepBehind xs r).reverse (r.reverse ++ [.keep xs]) := by
  unfold keepBehind
  split <;> constructor <;> simp

omit [DecidableEq α] in
theorem leftOver_same (xs : List α) (r : Script α) : Same (leftOver xs r) (.keep xs :: r) := by
  unfold leftOver
  split <;> constructor <;> simp_all

omit [DecidableEq α] in
theorem reverse_leftOver_same (xs : List α) (r : Script α) :
    Same (leftOver xs r).reverse (r.reverse ++ [.keep xs]) := by
  unfold leftOver
  split <;> constructor <;> simp_all

/-- Elements that an insertion shares with the kept ones in front of it are kept behind it. -/
theorem slideUp_step (xs ys : List α) (before after : Script α) :
    Same (Focus.script ⟨leftOver (ys.take (ys.length - commonBack ys xs)) before,
        .insert (ys.drop (ys.length - commonBack ys xs) ++ xs.take (xs.length - commonBack ys xs)),
        keepBefore (ys.drop (ys.length - commonBack ys xs)) after⟩)
      (Focus.script ⟨.keep ys :: before, .insert xs, after⟩) := by
  have hys := List.take_append_drop (ys.length - commonBack ys xs) ys
  have hxs := List.take_append_drop (xs.length - commonBack ys xs) xs
  rw [← drop_commonBack ys xs] at hxs
  generalize ys.drop _ = moved at hys hxs ⊢
  generalize ys.take _ = rest at hys ⊢
  generalize xs.take _ = rest' at hxs ⊢
  subst hys hxs
  constructor
  · simp only [Focus.script, source_append, source_insert, (reverse_leftOver_same _ _).source,
      (keepBefore_same _ _).source]
    simp
  · simp only [Focus.script, target_append, target_insert, (reverse_leftOver_same _ _).target,
      (keepBefore_same _ _).target]
    simp

theorem slideUp_same (fuel : Nat) (f : Focus α) :
    Same (slideUp fuel f).script f.script := by
  fun_induction slideUp fuel f
  case case5 ih => exact ih.trans (slideUp_step ..)
  all_goals
    first
    | exact .refl _
    | (refine Script.Same.trans (by assumption) ?_
       constructor <;> simp_all [Focus.script])

/-- Elements that an insertion shares with the kept ones behind it are kept in front of it. -/
theorem slideDown_step (xs ys : List α) (before after : Script α) :
    Same (Focus.script ⟨keepBehind (ys.take (commonFront ys xs)) before,
        .insert (xs.drop (commonFront ys xs) ++ ys.take (commonFront ys xs)),
        leftOver (ys.drop (commonFront ys xs)) after⟩)
      (Focus.script ⟨before, .insert xs, .keep ys :: after⟩) := by
  have hys := List.take_append_drop (commonFront ys xs) ys
  have hxs := List.take_append_drop (commonFront ys xs) xs
  rw [← take_commonFront ys xs] at hxs
  generalize ys.take _ = moved at hys hxs ⊢
  generalize ys.drop _ = rest at hys ⊢
  generalize xs.drop _ = rest' at hxs ⊢
  subst hys hxs
  constructor
  · simp only [Focus.script, source_append, source_insert, (keepBehind_same _ _).source,
      (leftOver_same _ _).source]
    simp
  · simp only [Focus.script, target_append, target_insert, (keepBehind_same _ _).target,
      (leftOver_same _ _).target]
    simp

theorem slideDown_same (fuel : Nat) (f : Focus α) :
    Same (slideDown fuel f).script f.script := by
  fun_induction slideDown fuel f
  case case5 ih => exact ih.trans (slideDown_step ..)
  all_goals
    first
    | exact .refl _
    | (refine Script.Same.trans (by assumption) ?_
       constructor <;> simp_all [Focus.script])

theorem slide_same (f : Focus α) : Same (slide f).script f.script :=
  (slideDown_same _ _).trans (slideUp_same _ _)

theorem slideAll_same (which : Change α → Bool) (fuel : Nat) (before after : List (Change α)) :
    Same (slideAll which fuel before after) (before.reverse ++ after) := by
  induction fuel generalizing before after with
  | zero => exact .refl _
  | succ fuel ih =>
    cases after with
    | nil => rw [slideAll, List.append_nil]; exact .refl _
    | cons c after =>
      rw [slideAll]
      split
      · refine (ih _ _).trans ?_
        rw [List.reverse_cons, List.append_assoc]
        exact slide_same ⟨before, c, after⟩
      · have hrest := ih (c :: before) after
        rwa [List.reverse_cons, List.append_assoc] at hrest

/-- A settled script starts from the same list and leads to the same one. -/
theorem settled_same (s : Script α) : Same (settled s) s :=
  (slideAll_same _ _ [] _).trans (slideAll_same _ _ [] s)

/-- Where no change is to be slid, the script stays as it is. -/
theorem slideAll_of_none {which : Change α → Bool} (fuel : Nat) {before after : List (Change α)}
    (h : ∀ c ∈ after, which c = false) :
    slideAll which fuel before after = before.reverse ++ after := by
  induction fuel generalizing before after with
  | zero => rfl
  | succ fuel ih =>
    cases after with
    | nil => exact (List.append_nil _).symm
    | cons c after =>
      obtain ⟨hc, hafter⟩ := List.forall_mem_cons.mp h
      rw [slideAll, hc, if_neg Bool.false_ne_true, ih hafter, List.reverse_cons, List.append_assoc]
      rfl

/-- Between a list and itself everything is kept. -/
theorem settled_shortest_self (as : List α) : settled (shortest as as) = kept as := by
  have hshortest : shortest as as = kept as := by
    rw [shortest, shortestWithin, commonFront_self]
    simp [commonBack, commonFront, kept]
  have hkept : ∀ c ∈ kept as, Change.isDelete c = false ∧ Change.isInsert c = false := by
    intro c hc
    rw [kept] at hc
    split at hc
    · cases hc
    · cases List.mem_singleton.mp hc
      exact ⟨rfl, rfl⟩
  have hdeletes : slideAll Change.isDelete (2 * steps (kept as)) [] (kept as) = kept as :=
    slideAll_of_none _ fun c hc => (hkept c hc).1
  rw [hshortest, settled, hdeletes]
  exact slideAll_of_none _ fun c hc => (hkept c hc).2

end PointMutation.Diff
