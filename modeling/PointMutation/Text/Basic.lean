/-!
# Text

Source text is a list of characters, and a place in it is counted in characters. This module has
the few readings of a text that the rest of the library shares: its rows, its physical lines,
what counts as white space, and the width of a character in UTF-8.
-/

namespace PointMutation

/-- Source text, character by character. -/
abbrev Text := List Char

namespace Text

/-- White space in the sense of the Unicode property White_Space. -/
def isWhite (c : Char) : Bool :=
  let n := c.toNat
  (9 ≤ n && n ≤ 13) || n == 32 || n == 0x85 || n == 0xa0 || n == 0x1680 ||
    (0x2000 ≤ n && n ≤ 0x200a) || n == 0x2028 || n == 0x2029 || n == 0x202f || n == 0x205f ||
    n == 0x3000

/-- The text between the `start`-th and the `stop`-th character. -/
def slice (t : Text) (start stop : Nat) : Text := (t.drop start).take (stop - start)

/-- Number of bytes a character takes in UTF-8. -/
def width (c : Char) : Nat :=
  let n := c.toNat
  if n < 0x80 then 1 else if n < 0x800 then 2 else if n < 0x10000 then 3 else 4

/-- Number of bytes a text takes in UTF-8. -/
def size (t : Text) : Nat := t.foldr (fun c n => width c + n) 0

/-- Number of line feeds in a text. -/
def breaks (t : Text) : Nat := t.count '\n'

/-- The characters after the last line feed. -/
def lastLine (t : Text) : Text := (t.reverse.takeWhile (· != '\n')).reverse

/-- The text up to and with the first line feed. -/
def firstLine : Text → Text
  | [] => []
  | c :: r => if c = '\n' then [c] else c :: firstLine r

/-- Drops a carriage return at the end. -/
def chopReturn (t : Text) : Text :=
  match t.reverse with
  | '\r' :: r => r.reverse
  | _ => t

/-- The text cut at its line feeds, which belong to neither side. -/
def splitLines : Text → List Text
  | [] => [[]]
  | c :: r =>
    match splitLines r with
    | [] => [[c]]
    | l :: ls => if c = '\n' then [] :: l :: ls else (c :: l) :: ls

/-- The lines of a text without their line ends, `\n` or `\r\n`. What follows the last line feed
is a line only if it is not empty, and keeps a carriage return at its end. -/
def lines (t : Text) : List Text :=
  let cut := splitLines t
  cut.dropLast.map chopReturn ++ (match cut.getLast? with
    | some l => if l.isEmpty then [] else [l]
    | none => [])

/-- Whether every character is white space. -/
def isBlank (t : Text) : Bool := t.all isWhite

/-- Whether a carriage return and a line feed stand next to each other somewhere. -/
def hasCrLf : Text → Bool
  | '\r' :: '\n' :: _ => true
  | _ :: r => hasCrLf r
  | [] => false

/-- Whether `p` stands at the front. -/
def startsWith : Text → Text → Bool
  | _, [] => true
  | c :: r, d :: p => c == d && startsWith r p
  | [], _ :: _ => false

/-- The last character. -/
def endsIn (t : Text) (c : Char) : Bool := t.getLast? == some c

theorem splitLines_ne_nil (t : Text) : splitLines t ≠ [] := by
  induction t with
  | nil => simp [splitLines]
  | cons c r ih =>
    rw [splitLines]
    split
    · simp
    · split <;> simp

theorem startsWith_iff (t p : Text) : startsWith t p = true ↔ ∃ r, t = p ++ r := by
  induction p generalizing t with
  | nil => exact ⟨fun _ => ⟨t, rfl⟩, fun _ => by cases t <;> rfl⟩
  | cons d p ih =>
    cases t with
    | nil => simp [startsWith]
    | cons c r =>
      simp only [startsWith, Bool.and_eq_true, beq_iff_eq, ih, List.cons_append, List.cons.injEq]
      exact ⟨fun ⟨hc, s, hs⟩ => ⟨s, hc, hs⟩, fun ⟨s, hc, hs⟩ => ⟨hc, s, hs⟩⟩

theorem length_slice_le (t : Text) (a b : Nat) : (slice t a b).length ≤ b - a := by
  rw [slice]
  exact List.length_take_le _ _

/-- What holds of each character of a text can be tested at one after the other. -/
theorem forall_of_all {t : Text} {P : Char → Prop} [DecidablePred P]
    (h : (t.all fun c => decide (P c)) = true) : ∀ c ∈ t, P c :=
  fun c hc => of_decide_eq_true (List.all_eq_true.mp h c hc)

end Text

end PointMutation
