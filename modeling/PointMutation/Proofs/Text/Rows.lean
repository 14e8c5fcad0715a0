import PointMutation.Proofs.Rewriting.Edits
import PointMutation.Proofs.Text.Lines

/-!
# Rows and columns

A place of a text has a row, which is the number of line feeds in front of it, and a column, which
is the number of characters between the last of them and the place. A stretch that lies on one line
stands in the line of its row, at its column (`Text.standsIn_lines`).
-/

namespace PointMutation

namespace Text

variable {t l r : Text} {a b : Nat}

/-- The row of a place. -/
def row (t : Text) (place : Nat) : Nat := breaks (t.take place)

/-- The column of a place. -/
def column (t : Text) (place : Nat) : Nat := (lastLine (t.take place)).length

/-- A text that is not empty and lies on one line. It does not end with a carriage return, which may
belong to the end of the line. -/
structure OnOneLine (t : Text) : Prop where
  ne_nil : t ≠ []
  noBreak : '\n' ∉ t
  noReturn : t.getLast? ≠ some '\r'

/-- A text stands in one of some rows at a column. -/
def StandsIn (rows : List Text) (row column : Nat) (t : Text) : Prop :=
  ∃ r, rows[row]? = some r ∧ slice r column (column + t.length) = t

theorem row_add (h : a ≤ b) : t.row b = t.row a + breaks (slice t a b) := by
  have hsplit : t.take b = t.take a ++ slice t a b := by
    rw [slice, ← List.take_add, Nat.add_sub_cancel' h]
  rw [row, row, hsplit, breaks, List.count_append]
  rfl

theorem mem_slice {i : Nat} {c : Char} (ha : a ≤ i) (hi : i < b) (hc : t[i]? = some c) :
    c ∈ slice t a b := by
  refine List.mem_of_getElem? (i := i - a) ?_
  rw [slice, List.getElem?_take_of_lt (by omega), List.getElem?_drop, Nat.add_sub_cancel' ha, hc]

theorem length_slice (hb : b ≤ t.length) : (slice t a b).length = b - a := by
  rw [slice, List.length_take_of_le]
  rw [List.length_drop]
  omega

theorem getLast?_slice (hab : a < b) (hb : b ≤ t.length) : (slice t a b).getLast? = t[b - 1]? := by
  rw [List.getLast?_eq_getElem?, length_slice hb, slice, List.getElem?_take_of_lt (by omega),
    List.getElem?_drop, show a + (b - a - 1) = b - 1 by omega]

/-- A stretch of a stretch. -/
theorem slice_slice {c d : Nat} (h : a + d ≤ b) :
    slice (slice t a b) c d = slice t (a + c) (a + d) := by
  have htake : (slice t a b).take d = (t.drop a).take d := by
    rw [slice, List.take_take, Nat.min_eq_left (by omega)]
  rw [slice, ← List.drop_take, htake, List.drop_take, List.drop_drop, slice,
    Nat.add_sub_add_left]

/-- Only the front of a text matters for a stretch in it. -/
theorem slice_append_left (hb : b ≤ l.length) (r : Text) : slice (l ++ r) a b = slice l a b := by
  rw [slice, slice, ← List.drop_take, ← List.drop_take, List.take_append_of_le_length hb]

/-- A stretch behind the front of a text. -/
theorem slice_append_right (l r : Text) (a b : Nat) :
    slice (l ++ r) (l.length + a) (l.length + b) = slice r a b := by
  rw [slice, slice, List.drop_length_add_append, Nat.add_sub_add_left]

/-! ## One line after the other -/

/-- What holds of a line, and of a line in front of a text of which it holds, holds of every
text. -/
theorem lines_induction {P : Text → Prop} (last : ∀ l, '\n' ∉ l → P l)
    (line : ∀ l r, '\n' ∉ l → P r → P (l ++ '\n' :: r)) (t : Text) : P t := by
  induction hn : t.length using Nat.strongRecOn generalizing t with
  | ind n ih =>
    by_cases hbreak : '\n' ∈ t
    · obtain ⟨l, r, rfl, hl⟩ := List.eq_append_cons_of_mem hbreak
      refine line l r hl (ih r.length ?_ r rfl)
      rw [← hn, List.length_append, List.length_cons]
      omega
    · exact last t hbreak

theorem splitLines_append_break (hl : '\n' ∉ l) (r : Text) :
    splitLines (l ++ '\n' :: r) = l :: splitLines r := by
  induction l with
  | nil =>
    rw [List.nil_append, splitLines]
    split
    · next hnil => exact absurd hnil (splitLines_ne_nil r)
    · next hcons => rw [if_pos rfl, hcons]
  | cons c l ih =>
    simp only [List.mem_cons, not_or] at hl
    rw [List.cons_append, splitLines, ih hl.2]
    exact if_neg fun hc => hl.1 hc.symm

theorem lines_append_break (hl : '\n' ∉ l) (r : Text) :
    lines (l ++ '\n' :: r) = chopReturn l :: lines r := by
  have hne := splitLines_ne_nil r
  simp only [lines, splitLines_append_break hl]
  rw [List.dropLast_cons_of_ne_nil hne, List.getLast?_cons_of_ne_nil hne, List.map_cons,
    List.cons_append]

theorem chopReturn_of_getLast? (h : l.getLast? ≠ some '\r') : chopReturn l = l := by
  rw [chopReturn]
  split
  · next r hr =>
    rw [← List.head?_reverse, hr] at h
    exact absurd rfl h
  · rfl

/-- Only a carriage return at the end is dropped. -/
theorem slice_chopReturn (hb : b ≤ l.length) (hlast : b = l.length → l.getLast? ≠ some '\r') :
    slice (chopReturn l) a b = slice l a b := by
  rcases hb.lt_or_eq with hlt | heq
  · rw [chopReturn]
    split
    · next r hr =>
      obtain rfl : l = r.reverse ++ ['\r'] := by rw [← List.reverse_reverse l, hr]; simp
      have hle : b ≤ r.reverse.length := by
        rw [List.length_append, List.length_singleton] at hlt
        omega
      exact (slice_append_left hle ['\r']).symm
    · rfl
  · rw [chopReturn_of_getLast? (hlast heq)]

/-! ## Places in lines -/

theorem row_of_noBreak (h : '\n' ∉ t.take a) : t.row a = 0 := List.count_eq_zero.mpr h

theorem column_of_noBreak (h : '\n' ∉ t.take a) (ha : a ≤ t.length) : t.column a = a := by
  have hline : lastLine (t.take a) = t.take a := lastLine_append (u := []) (.inl rfl) h
  rw [column, hline, List.length_take_of_le ha]

theorem lastLine_append_break (l r : Text) : lastLine (l ++ '\n' :: r) = lastLine r := by
  rw [lastLine, lastLine, List.reverse_append, List.reverse_cons, List.append_assoc,
    List.takeWhile_append]
  split
  · next hall =>
    have hself := (List.takeWhile_prefix (p := (· != '\n')) (l := r.reverse)).eq_of_length hall
    rw [hself]
    simp
  · rfl

/-- Behind a line feed a place has the column that it has in what follows, one row further on than
the lines in front. -/
theorem place_append_break (hl : '\n' ∉ l) (r : Text) (a : Nat) :
    (l ++ '\n' :: r).row (l.length + 1 + a) = r.row a + 1 ∧
      (l ++ '\n' :: r).column (l.length + 1 + a) = r.column a := by
  have htake : (l ++ '\n' :: r).take (l.length + 1 + a) = l ++ '\n' :: r.take a := by
    rw [Nat.add_assoc, Nat.add_comm 1 a, List.take_length_add_append, List.take_succ_cons]
  rw [row, column, htake, lastLine_append_break, breaks, List.count_append,
    List.count_eq_zero.mpr hl, List.count_cons_self, Nat.zero_add]
  exact ⟨rfl, rfl⟩

/-- A stretch on one line stands in the line of its row at its column. -/
theorem standsIn_lines (hb : b ≤ t.length) (h : OnOneLine (slice t a b)) :
    StandsIn (lines t) (t.row a) (t.column a) (slice t a b) := by
  have hab : a < b := by
    by_contra hnot
    exact h.ne_nil (by rw [slice, Nat.sub_eq_zero_of_le (not_lt.mp hnot), List.take_zero])
  induction t using lines_induction generalizing a b with
  | last l hl =>
    have hfront : '\n' ∉ l.take a := fun hmem => hl (List.mem_of_mem_take hmem)
    have hne : l ≠ [] := List.ne_nil_of_length_pos (by omega)
    rw [row_of_noBreak hfront, column_of_noBreak hfront (by omega), lines_of_noBreak hne hl,
      StandsIn, length_slice hb, Nat.add_sub_cancel' hab.le]
    exact ⟨l, rfl, rfl⟩
  | line l r hl ih =>
    rw [lines_append_break hl]
    by_cases ha : a ≤ l.length
    · -- The stretch ends in front of the line feed, and so does what comes before.
      have hbl : b ≤ l.length := by
        by_contra hlt
        exact h.noBreak (mem_slice ha (not_le.mp hlt) (by simp))
      have hfront : '\n' ∉ (l ++ '\n' :: r).take a := by
        rw [List.take_append_of_le_length ha]
        exact fun hmem => hl (List.mem_of_mem_take hmem)
      have hslice : slice (l ++ '\n' :: r) a b = slice l a b := slice_append_left hbl _
      rw [hslice] at h
      have hchop : slice (chopReturn l) a b = slice l a b := by
        refine slice_chopReturn hbl ?_
        rintro rfl
        rw [List.getLast?_eq_getElem?, ← getLast?_slice hab le_rfl]
        exact h.noReturn
      rw [row_of_noBreak hfront, column_of_noBreak hfront (by simp; omega), hslice, StandsIn,
        length_slice hbl, Nat.add_sub_cancel' hab.le]
      exact ⟨chopReturn l, rfl, hchop⟩
    · obtain ⟨a, rfl⟩ : ∃ a', a = l.length + 1 + a' := ⟨a - (l.length + 1), by omega⟩
      obtain ⟨b, rfl⟩ : ∃ b', b = l.length + 1 + b' := ⟨b - (l.length + 1), by omega⟩
      obtain ⟨hrow, hcolumn⟩ := place_append_break hl r a
      have hslice : slice (l ++ '\n' :: r) (l.length + 1 + a) (l.length + 1 + b) = slice r a b := by
        rw [Nat.add_assoc, Nat.add_assoc, slice_append_right]
        exact slice_append_right ['\n'] r a b
      rw [hslice] at h ⊢
      rw [hrow, hcolumn]
      rw [List.length_append, List.length_cons] at hb
      exact ih (by omega) h (by omega)

end Text

end PointMutation
