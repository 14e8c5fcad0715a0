import PointMutation.Text.Basic

/-!
# Edits

An edit puts a text in place of a stretch of a source. Edits are kept in the order of the places
where they begin. An edit takes the place of all edits made within its stretch before.
-/

namespace PointMutation

/-- A text in place of the stretch from `start` up to `stop`. -/
structure Edit where
  start : Nat
  stop : Nat
  text : Text
  deriving DecidableEq, Repr

namespace Edit

/-- Whether the edit lies within a stretch. -/
def isWithin (start stop : Nat) (e : Edit) : Bool := start ≤ e.start && e.stop ≤ stop

/-- The source from `place` up to `stop` with edits applied one after the other. -/
def apply (source : Text) (stop : Nat) : Nat → List Edit → Text
  | place, [] => Text.slice source place stop
  | place, e :: es => Text.slice source place e.start ++ e.text ++ apply source stop e.stop es

/-- The source from `start` up to `stop` with the edits applied that lie there. -/
def render (source : Text) (es : List Edit) (start stop : Nat) : Text :=
  apply source stop start (es.filter (isWithin start stop))

/-- Adds an edit in front of the first one that does not begin before it. -/
def insert (e : Edit) : List Edit → List Edit
  | [] => [e]
  | f :: fs => if f.start < e.start then f :: insert e fs else e :: f :: fs

/-- Makes an edit, which takes the place of those within its stretch. -/
def replace (e : Edit) (es : List Edit) : List Edit :=
  insert e (es.filter fun f => !f.isWithin e.start e.stop)

theorem mem_insert {e f : Edit} {es : List Edit} : f ∈ insert e es ↔ f = e ∨ f ∈ es := by
  induction es with
  | nil => simp [insert]
  | cons g gs ih =>
    rw [insert]
    split
    · simp [ih, or_left_comm]
    · simp

theorem mem_replace {e f : Edit} {es : List Edit} :
    f ∈ replace e es ↔ f = e ∨ (f ∈ es ∧ f.isWithin e.start e.stop = false) := by
  simp [replace, mem_insert]

theorem render_nil (source : Text) (start stop : Nat) :
    render source [] start stop = Text.slice source start stop := rfl

end Edit

end PointMutation
