import PointMutation.Diff.Shortest
import PointMutation.Diff.Slide
import PointMutation.Text.Basic

/-!
# Differences between texts

The lines of two texts one below the other: those of both texts behind a space, those of the first
one behind a minus and those of the second one behind a plus. Where lines are replaced, the old
ones come first.
-/

namespace PointMutation.Diff

/-! ## Lines -/

/-- The physical lines of a text with their line ends, which are line feeds, carriage returns, or
both in a row. -/
def splitLines : Text → List Text
  | [] => []
  | '\r' :: '\n' :: r => ['\r', '\n'] :: splitLines r
  | '\r' :: r => ['\r'] :: splitLines r
  | '\n' :: r => ['\n'] :: splitLines r
  | c :: r =>
    match splitLines r with
    | l :: ls => (c :: l) :: ls
    | [] => [[c]]

/-- Where a line is. -/
inductive Tag
  | both | old | new
  deriving DecidableEq, Repr

/-- Changes as single lines. Of the deletions and insertions between kept lines, the deletions come
first. -/
def tagged {α : Type} (old new : List α) : Script α → List (Tag × α)
  | [] => old.map (Tag.old, ·) ++ new.map (Tag.new, ·)
  | .keep xs :: r =>
    old.map (Tag.old, ·) ++ new.map (Tag.new, ·) ++ xs.map (Tag.both, ·) ++ tagged [] [] r
  | .delete xs :: r => tagged (old ++ xs) new r
  | .insert xs :: r => tagged old (new ++ xs) r

/-- The lines of two texts, each with where it is. -/
def lines (old new : Text) : List (Tag × Text) :=
  tagged [] [] (settled (shortest (splitLines old) (splitLines new)))

/-! ## Rendering -/

/-- A way to emphasise text on a terminal. -/
inductive Style
  | bold | red | green

/-- The sequence that turns a style on. -/
def Style.code : Style → Text
  | bold => '\x1b' :: "[1m".toList
  | red => '\x1b' :: "[31m".toList
  | green => '\x1b' :: "[32m".toList

/-- The sequence that turns all styles off. -/
def plainCode : Text := '\x1b' :: "[0m".toList

/-- A text in which a style is turned on again wherever all styles are turned off. -/
def restyled (style : Text) : Text → Text
  | '\x1b' :: '[' :: '0' :: 'm' :: r => plainCode ++ style ++ restyled style r
  | c :: r => c :: restyled style r
  | [] => []

/-- A text in a style, if there are colours. -/
def Style.paint (colour : Bool) (s : Style) (t : Text) : Text :=
  if colour then s.code ++ restyled s.code t ++ plainCode else t

/-- A line with a line end. -/
def ended (l : Text) : Text :=
  if Text.endsIn l '\n' || Text.endsIn l '\r' then l else l ++ ['\n']

/-- A line behind its mark. -/
def renderLine (colour : Bool) : Tag × Text → Text
  | (.both, l) => ' ' :: ended l
  | (.old, l) => Style.red.paint colour ('-' :: ended l)
  | (.new, l) => Style.green.paint colour ('+' :: ended l)

/-- The lines of two texts under the name of a file. -/
def render (colour : Bool) (name old new : Text) : Text :=
  Style.bold.paint colour ("--- ".toList ++ name) ++ '\n' ::
    (lines old new).flatMap (renderLine colour)

end PointMutation.Diff
