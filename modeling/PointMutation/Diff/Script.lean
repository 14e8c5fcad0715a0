/-!
# Edit scripts

An edit script says which elements of a list are kept, which are deleted and what is inserted. It
has a list that it starts from and a list that it leads to (`Script.source`, `Script.target`).
-/

namespace PointMutation.Diff

/-- Elements side by side that share their fate. -/
inductive Change (α : Type)
  | keep (xs : List α)
  | delete (xs : List α)
  | insert (xs : List α)
  deriving DecidableEq, Repr

abbrev Script (α : Type) := List (Change α)

variable {α : Type}

namespace Change

/-- What a change takes. -/
def source : Change α → List α
  | keep xs => xs
  | delete xs => xs
  | insert _ => []

/-- What a change gives. -/
def target : Change α → List α
  | keep xs => xs
  | delete _ => []
  | insert xs => xs

/-- Number of elements of a change. -/
def size : Change α → Nat
  | keep xs => xs.length
  | delete xs => xs.length
  | insert xs => xs.length

def isDelete : Change α → Bool
  | delete _ => true
  | _ => false

def isInsert : Change α → Bool
  | insert _ => true
  | _ => false

end Change

namespace Script

/-- The list that a script starts from. -/
def source (s : Script α) : List α := s.flatMap Change.source

/-- The list that a script leads to. -/
def target (s : Script α) : List α := s.flatMap Change.target

@[simp]
theorem source_append (s s' : Script α) : source (s ++ s') = source s ++ source s' := by
  simp [source]

@[simp]
theorem target_append (s s' : Script α) : target (s ++ s') = target s ++ target s' := by
  simp [target]

end Script

/-! ## Common ends -/

variable [DecidableEq α]

/-- How many elements two lists have in common at their front. -/
def commonFront : List α → List α → Nat
  | a :: as, b :: bs => if a = b then commonFront as bs + 1 else 0
  | _, _ => 0

/-- How many elements two lists have in common at their back. -/
def commonBack (as bs : List α) : Nat := commonFront as.reverse bs.reverse

theorem take_commonFront (as bs : List α) :
    as.take (commonFront as bs) = bs.take (commonFront as bs) := by
  induction as generalizing bs with
  | nil => simp [commonFront]
  | cons a as ih =>
    cases bs with
    | nil => simp [commonFront]
    | cons b bs =>
      by_cases h : a = b
      · simp [commonFront, h, ih]
      · simp [commonFront, h]

end PointMutation.Diff
