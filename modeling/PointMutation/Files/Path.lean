import PointMutation.Text.Basic

/-!
# Paths

A path is a text with slashes between its parts. Empty parts and single dots stay where they are,
two dots go back to the folder around, and a slash in front starts from the root.
-/

namespace PointMutation.Path

/-- The parts of a path between its slashes, empty ones too. -/
def parts : Text → List Text
  | [] => [[]]
  | c :: r =>
    if c = '/' then [] :: parts r
    else
      match parts r with
      | p :: ps => (c :: p) :: ps
      | [] => [[c]]

/-- Parts with slashes between them. -/
def ofParts (ps : List Text) : Text := ['/'].intercalate ps

def here : Text := ['.']

def up : Text := ['.', '.']

/-- Whether a part stays where it is. -/
def isStill (p : Text) : Bool := p.isEmpty || p = here

/-- A path below another one. -/
def join (folder below : Text) : Text :=
  if folder.isEmpty then below
  else if Text.endsIn folder '/' then folder ++ below
  else folder ++ '/' :: below

/-- The last part of a path. -/
def lastPart (p : Text) : Text := (parts p).getLast?.getD []

/-- The parts in front of the last one, without those at their end that stay where they are. Only
the root and a dot in front of everything are left as they are. -/
def parent (p : Text) : Text :=
  let front := (parts p).dropLast
  match front.reverse.dropWhile isStill, front with
  | [], [] :: _ => ['/']
  | [], _ => front.headD []
  | ps, _ => ofParts ps.reverse

/-- What stands behind the last dot of a name, unless there is no other character in front. -/
def extension? (name : Text) : Option Text :=
  match name.reverse.dropWhile (· != '.') with
  | _ :: _ :: _ => some (name.reverse.takeWhile (· != '.')).reverse
  | _ => none

theorem parts_ne_nil (t : Text) : parts t ≠ [] := by
  induction t with
  | nil => simp [parts]
  | cons c r ih =>
    rw [parts]
    split
    · simp
    · split <;> simp

end PointMutation.Path
