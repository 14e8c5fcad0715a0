import PointMutation.Diff.Script

/-!
# Sliding changes

An insertion next to elements that are kept can often be made at several places with the same
result. Each insertion is slid up as far as it goes and then down as far as it goes, and merges
with those that it meets. A deletion is not slid, but changes places with insertions next to it so
that it meets other deletions.

A script is looked at around one change: the changes in front of it, the nearest one first, the
change, and the changes behind it.
-/

namespace PointMutation.Diff

variable {α : Type}

/-- A script around one of its changes. -/
structure Focus (α : Type) where
  before : List (Change α)
  here : Change α
  after : List (Change α)

/-- Kept elements in front of changes, as one change with those that stand there. -/
def keepBefore (xs : List α) : List (Change α) → List (Change α)
  | .keep ys :: r => .keep (xs ++ ys) :: r
  | r => .keep xs :: r

/-- Kept elements behind changes in reverse order. -/
def keepBehind (xs : List α) : List (Change α) → List (Change α)
  | .keep ys :: r => .keep (ys ++ xs) :: r
  | r => .keep xs :: r

/-- Kept elements that are left, unless there are none. -/
def leftOver (xs : List α) (r : List (Change α)) : List (Change α) :=
  if xs.isEmpty then r else .keep xs :: r

/-- Number of steps that sliding along changes takes at most. -/
def steps (cs : List (Change α)) : Nat := cs.foldr (fun c n => c.size + 1 + n) 1

variable [DecidableEq α]

/-- Slides the change up. -/
def slideUp : Nat → Focus α → Focus α
  | 0, f => f
  | fuel + 1, ⟨before, here, after⟩ =>
    match here, before with
    | _, [] => ⟨before, here, after⟩
    | .insert xs, .keep ys :: r =>
      let n := commonBack ys xs
      if n = 0 then
        if ys.isEmpty then slideUp fuel ⟨r, here, after⟩ else ⟨before, here, after⟩
      else
        let moved := ys.drop (ys.length - n)
        slideUp fuel ⟨leftOver (ys.take (ys.length - n)) r,
          .insert (moved ++ xs.take (xs.length - n)), keepBefore moved after⟩
    | .delete _, .keep ys :: r =>
      if ys.isEmpty then slideUp fuel ⟨r, here, after⟩ else ⟨before, here, after⟩
    | .insert xs, .delete ys :: r => slideUp fuel ⟨r, .insert xs, .delete ys :: after⟩
    | .delete xs, .insert ys :: r => slideUp fuel ⟨r, .delete xs, .insert ys :: after⟩
    | .insert xs, .insert ys :: r => slideUp fuel ⟨r, .insert (ys ++ xs), after⟩
    | .delete xs, .delete ys :: r => slideUp fuel ⟨r, .delete (ys ++ xs), after⟩
    | .keep _, _ => ⟨before, here, after⟩

/-- Slides the change down. -/
def slideDown : Nat → Focus α → Focus α
  | 0, f => f
  | fuel + 1, ⟨before, here, after⟩ =>
    match here, after with
    | _, [] => ⟨before, here, after⟩
    | .insert xs, .keep ys :: r =>
      let n := commonFront ys xs
      if n = 0 then
        if ys.isEmpty then slideDown fuel ⟨before, here, r⟩ else ⟨before, here, after⟩
      else
        let moved := ys.take n
        slideDown fuel ⟨keepBehind moved before, .insert (xs.drop n ++ moved),
          leftOver (ys.drop n) r⟩
    | .delete _, .keep ys :: r =>
      if ys.isEmpty then slideDown fuel ⟨before, here, r⟩ else ⟨before, here, after⟩
    | .insert xs, .delete ys :: r => slideDown fuel ⟨.delete ys :: before, .insert xs, r⟩
    | .delete xs, .insert ys :: r => slideDown fuel ⟨.insert ys :: before, .delete xs, r⟩
    | .insert xs, .insert ys :: r => slideDown fuel ⟨before, .insert (xs ++ ys), r⟩
    | .delete xs, .delete ys :: r => slideDown fuel ⟨before, .delete (xs ++ ys), r⟩
    | .keep _, _ => ⟨before, here, after⟩

/-- Slides a change up and then down. -/
def slide (f : Focus α) : Focus α :=
  let f := slideUp (steps f.before) f
  slideDown (steps f.after) f

/-- Slides the changes that satisfy `which`, one after the other. -/
def slideAll (which : Change α → Bool) : Nat → List (Change α) → List (Change α) → Script α
  | 0, before, after => before.reverse ++ after
  | _ + 1, before, [] => before.reverse
  | fuel + 1, before, c :: after =>
    if which c then
      let f := slide ⟨before, c, after⟩
      slideAll which fuel (f.here :: f.before) f.after
    else slideAll which fuel (c :: before) after

/-- Slides all deletions and then all insertions of a script. -/
def settled (s : Script α) : Script α :=
  let s := slideAll Change.isDelete (2 * steps s) [] s
  slideAll Change.isInsert (2 * steps s) [] s

end PointMutation.Diff
