import PointMutation.Repair.Diagnosis
import PointMutation.Syntax.Grammar

/-!
# Sources

A source is a text together with its syntax tree. Since the tree is a function of the text, the
text alone decides whether two sources are equal (`Source.ext_text`), and printing a source and
reading it again gives the same source (`Source.read_text`).
-/

namespace PointMutation

/-- The tree of a text, or where the text is at fault. A text that follows the rules is read as it
stands; in any other, repairs are tried. -/
def parse (t : Text) : Except SyntaxError Tree :=
  match Syntax.readTree t with
  | some tree => .ok tree
  | none => Repair.diagnose Repair.Reader.standard.get t

/-- A text with its tree. -/
structure Source where
  text : Text
  tree : Tree
  parse_text : parse text = .ok tree

namespace Source

/-- Reads a text as a source. -/
def read (t : Text) : Except SyntaxError Source :=
  match h : parse t with
  | .ok tree => .ok ⟨t, tree, h⟩
  | .error e => .error e

/-- Two sources with the same text are equal. -/
theorem ext_text {s s' : Source} (h : s.text = s'.text) : s = s' := by
  obtain ⟨t, tree, ht⟩ := s
  obtain ⟨t', tree', ht'⟩ := s'
  subst h
  rw [ht] at ht'
  cases ht'
  rfl

instance : DecidableEq Source := fun s s' =>
  if h : s.text = s'.text then .isTrue (ext_text h) else .isFalse fun e => h (e ▸ rfl)

theorem read_of_parse {t : Text} {tree : Tree} (h : parse t = .ok tree) :
    read t = .ok ⟨t, tree, h⟩ := by
  unfold read
  split
  · rename_i tree' h'
    rw [h] at h'
    cases h'
    rfl
  · rename_i e h'
    rw [h] at h'
    cases h'

theorem read_of_parse_error {t : Text} {e : SyntaxError} (h : parse t = .error e) :
    read t = .error e := by
  unfold read
  split
  · rename_i tree' h'
    rw [h] at h'
    cases h'
  · rename_i e' h'
    rw [h] at h'
    cases h'
    rfl

/-- What a source prints is read as the same source. -/
theorem read_text (s : Source) : read s.text = .ok s := read_of_parse s.parse_text

theorem text_of_read {t : Text} {s : Source} (h : read t = .ok s) : s.text = t := by
  cases hp : parse t with
  | ok tree =>
    rw [read_of_parse hp] at h
    cases h
    rfl
  | error e =>
    rw [read_of_parse_error hp] at h
    cases h

/-- The tokens of line ends: a source that has both kinds of them is taken for one of the second
kind. -/
def newline (s : Source) : Text := if Text.hasCrLf s.text then ['\r', '\n'] else ['\n']

end Source

end PointMutation
