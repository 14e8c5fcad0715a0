import PointMutation.Text.Basic
import PointMutation.Text.IdentifierRanges

/-!
# Words

A word is a maximal run of identifier characters: an underscore or a character of XID_Start, then
any number of underscores and characters of XID_Continue. Below 0x80 these are the ASCII letters
and, after the first character, the ASCII digits.
-/

namespace PointMutation.Text

/-- Whether `n` lies in one of the ranges. -/
def inRanges (n : Nat) (ranges : List (Nat × Nat)) : Bool :=
  ranges.any fun r => r.1 ≤ n && n ≤ r.2

/-- Whether `c` may start a word. -/
def isWordStart (c : Char) : Bool :=
  if c.toNat < 0x80 then c.isAlpha || c == '_' else inRanges c.toNat startRanges

/-- Whether `c` may continue a word. -/
def isWordPart (c : Char) : Bool :=
  if c.toNat < 0x80 then c.isAlphanum || c == '_'
  else inRanges c.toNat startRanges || inRanges c.toNat continueRanges

/-- The word at the front of a text, empty if there is none. -/
def word : Text → Text
  | [] => []
  | c :: r => if isWordStart c then c :: r.takeWhile isWordPart else []

theorem isWordPart_of_isWordStart {c : Char} (h : isWordStart c = true) : isWordPart c = true := by
  simp only [isWordStart] at h
  simp only [isWordPart]
  split at h <;> rename_i hc
  · simp only [hc, ↓reduceIte, Char.isAlphanum, Bool.or_eq_true] at h ⊢
    grind
  · simp [hc, h]

end PointMutation.Text
