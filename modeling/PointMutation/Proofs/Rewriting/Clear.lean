import PointMutation.Proofs.Removal.Places

/-!
# Stretches that no cut meets halfway

A line is cut out with the white space beside it. What is cut out with it never reaches into a
stretch that begins with a character that is no white space and does not end among the blanks at the
beginning of a physical line (`Text.Clear`): a stretch in front of the line ends where the cut begins
or before (`Text.Tidy.le_cutStart`), one behind it begins where the cut ends or later
(`Text.Clear.cutStop_le`), and two cuts do not meet (`Text.Clear.cutStop_le_cutStart`).
-/

namespace PointMutation

namespace Text

variable {t : Text} {a b c d i m m' : Nat} {x : Char}

/-- No blanks stand between the beginning of a physical line and the place, unless something else
stands there too. -/
def Tidy (t : Text) (b : Nat) : Prop :=
  lineStart t b = b ∨ ∃ i x, lineStart t b ≤ i ∧ i < b ∧ t[i]? = some x ∧ isWhite x = false

/-- A stretch that begins with a character that is no white space and ends at a tidy place. -/
structure Clear (t : Text) (a b : Nat) : Prop where
  lt : a < b
  le : b ≤ t.length
  first : ∃ x, t[a]? = some x ∧ isWhite x = false
  tidy : Tidy t b

/-! ## Tidy places -/

theorem tidy_zero (t : Text) : Tidy t 0 := .inl (Nat.zero_sub _)

/-- A physical line does not begin behind a line feed on it. -/
theorem lineStart_le_of_noBreak (hb : b ≤ t.length)
    (h : ∀ i, a ≤ i → i < b → t[i]? ≠ some '\n') : lineStart t b ≤ a := by
  by_contra hlt
  have hle := lineStart_le t b
  obtain ⟨-, hends, -⟩ := take_lineStart hb
  exact h (lineStart t b - 1) (by omega) (by omega) (hends.getElem? (by omega) (by omega))

/-- Behind a line feed a line begins. -/
theorem tidy_of_break (h : t[b]? = some '\n') : Tidy t (b + 1) := by
  have hlt := lt_length_of_getElem? h
  refine .inl (Nat.le_antisymm (lineStart_le t _) ?_)
  by_contra hle
  exact ne_break_of_lineStart_le (a := b + 1) (by omega) (Nat.lt_succ_self b) hlt h rfl

/-- What stands on a line in front of a place makes the place tidy. -/
theorem tidy_of_inked (hb : b ≤ t.length) (hi : i < b) (hx : t[i]? = some x)
    (hwhite : isWhite x = false) (h : ∀ j, i ≤ j → j < b → t[j]? ≠ some '\n') : Tidy t b :=
  .inr ⟨i, x, lineStart_le_of_noBreak hb h, hi, hx, hwhite⟩

/-- Right behind a character that is no white space a place is tidy. -/
theorem tidy_succ (hx : t[b]? = some x) (hwhite : isWhite x = false) : Tidy t (b + 1) := by
  refine tidy_of_inked (lt_length_of_getElem? hx) (Nat.lt_succ_self b) hx hwhite fun j hj hlt => ?_
  obtain rfl : j = b := by omega
  rw [hx]
  rintro ⟨⟩
  cases hwhite

theorem Firm.clear (h : Firm t a b) : Clear t a b := by
  refine ⟨h.lt, h.le, h.first, ?_⟩
  rcases h.last with ⟨x, hx, hwhite⟩ | hline
  · have hlt := h.lt
    have htidy := tidy_succ hx hwhite
    rwa [show b - 1 + 1 = b by omega] at htidy
  · obtain ⟨x, hx, hwhite⟩ := h.first
    exact tidy_of_inked h.le h.lt hx hwhite hline

/-! ## Cuts -/

/-- A cut begins where its line begins or with the physical line of it. -/
theorem cutStart_eq_of_lt (h : cutStart t c d < c) :
    cutStart t c d = lineStart t c ∧ alone t c d = true := by
  rw [cutStart] at h ⊢
  split at h
  · next halone => exact ⟨if_pos halone, halone⟩
  · omega

/-- What ends at a tidy place in front of a line is not cut. -/
theorem Tidy.le_cutStart (h : Tidy t b) (hle : b ≤ c) (hc : c ≤ t.length) :
    b ≤ cutStart t c d := by
  by_contra hlt
  obtain ⟨hcut, -⟩ := cutStart_eq_of_lt (show cutStart t c d < c by omega)
  -- Between the beginning of the line that is cut out and the place there are only blanks.
  have hstart : lineStart t b ≤ lineStart t c := by
    refine lineStart_le_of_noBreak (hle.trans hc) fun i hi hib hx => ?_
    exact ne_break_of_lineStart_le hi (by omega) hc hx rfl
  rcases h with hends | ⟨i, x, hi, hib, hx, hwhite⟩
  · omega
  · by_cases hci : lineStart t c ≤ i
    · have := isWhite_of_cutStart_le (b := d) (hcut.trans_le hci) (by omega) hc hx
      rw [this] at hwhite
      cases hwhite
    · obtain ⟨-, hends, -⟩ := take_lineStart hc
      have hbreak := hends.getElem? (by omega) (by omega)
      exact ne_break_of_lineStart_le (i := lineStart t c - 1) (by omega) (by omega)
        (hle.trans hc) hbreak rfl

/-- A stretch behind a line that is cut out is not cut. -/
theorem Clear.cutStop_le (h : Clear t c d) (hle : b ≤ c) : cutStop t a b ≤ c := by
  by_contra hlt
  obtain ⟨x, hx, hwhite⟩ := h.first
  rw [isWhite_of_lt_cutStop (a := a) hle (by omega) hx] at hwhite
  cases hwhite

/-- Cuts do not meet. -/
theorem Clear.cutStop_le_cutStart (h : Clear t a b) (h' : Clear t c d) (hle : b ≤ c) :
    cutStop t a b ≤ cutStart t c d := by
  have hc : c ≤ t.length := h'.lt.le.trans h'.le
  have hstop := h'.cutStop_le (a := a) hle
  by_contra hlt
  have hcut : cutStart t c d < c := by omega
  have hb : b ≤ cutStart t c d := h.tidy.le_cutStart hle hc
  -- The cut of the first line goes on behind the line, so it ends with a line feed.
  have hline : cutStop t a b = lineStop t b := by
    rw [cutStop] at hlt ⊢
    split at hlt
    · next halone => rw [if_pos halone]
    · omega
  rcases lineStop_cases h.le with hend | ⟨-, hbreak⟩
  · have := h'.lt
    have := h'.le
    omega
  · rw [(cutStart_eq_of_lt hcut).1] at hlt hb
    exact ne_break_of_lineStart_le (i := lineStop t b - 1) (by omega) (by omega) hc hbreak rfl

/-! ## Places in front of all cuts -/

/-- No cut of a line from `m` on reaches back to the place. -/
def Reaches (t : Text) (m k : Nat) : Prop := ∀ c d, Clear t c d → m ≤ c → k ≤ cutStart t c d

theorem Reaches.mono (h : Reaches t m i) (hm : m ≤ m') : Reaches t m' i :=
  fun c d hcd hc => h c d hcd (hm.trans hc)

theorem Tidy.reaches (h : Tidy t b) : Reaches t b b :=
  fun _ _ hcd hc => h.le_cutStart hc (hcd.lt.le.trans hcd.le)

theorem Clear.reaches_cutStop (h : Clear t a b) : Reaches t b (cutStop t a b) :=
  fun _ _ hcd hc => h.cutStop_le_cutStart hcd hc

end Text

end PointMutation
