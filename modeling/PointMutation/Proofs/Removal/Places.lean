import PointMutation.Proofs.Rewriting.Edits
import PointMutation.Proofs.Text.Lines
import PointMutation.Fold

/-!
# Where a line is cut out

If nothing but white space stands beside a line, it is cut out with its whole physical lines, and
otherwise it is cut out alone. What is cut out with a line is white space, so that stretches which
begin and end with other characters stay apart (`Text.cutStop_le_cutStart`).
-/

namespace PointMutation

namespace Text

variable {t : Text} {a b c d i : Nat} {x : Char}

/-- A stretch that begins and ends with a character that is no white space. -/
structure Inked (t : Text) (a b : Nat) : Prop where
  lt : a < b
  first : ∃ x, t[a]? = some x ∧ isWhite x = false
  last : ∃ x, t[b - 1]? = some x ∧ isWhite x = false

theorem lt_length_of_getElem? (h : t[i]? = some x) : i < t.length := by
  by_contra hlt
  rw [List.getElem?_eq_none (not_lt.mp hlt)] at h
  cases h

theorem Inked.le_length (h : Inked t a b) : b ≤ t.length := by
  obtain ⟨x, hx, -⟩ := h.last
  have hlast := lt_length_of_getElem? hx
  have hlt := h.lt
  omega

/-- A stretch that begins with a character that is no white space, and ends with one or lies on one
physical line. Statements are of the first kind and comments of the second. -/
structure Firm (t : Text) (a b : Nat) : Prop where
  lt : a < b
  le : b ≤ t.length
  first : ∃ x, t[a]? = some x ∧ isWhite x = false
  last : (∃ x, t[b - 1]? = some x ∧ isWhite x = false) ∨
    ∀ i, a ≤ i → i < b → t[i]? ≠ some '\n'

theorem Inked.firm (h : Inked t a b) : Firm t a b := ⟨h.lt, h.le_length, h.first, .inl h.last⟩

/-! ## Physical lines around a place -/

/-- Where the physical line of a place begins. -/
def lineStart (t : Text) (a : Nat) : Nat := a - (lastLine (t.take a)).length

/-- Where the physical line of a place ends, behind its line end. -/
def lineStop (t : Text) (b : Nat) : Nat := b + (firstLine (t.drop b)).length

theorem lineStart_le (t : Text) (a : Nat) : lineStart t a ≤ a := Nat.sub_le _ _

theorem le_lineStop (t : Text) (b : Nat) : b ≤ lineStop t b := Nat.le_add_right _ _

theorem firstLine_append (t : Text) :
    ∃ u, t = firstLine t ++ u ∧ (u = [] ∨ (firstLine t).getLast? = some '\n') := by
  induction t with
  | nil => exact ⟨[], rfl, .inl rfl⟩
  | cons c r ih =>
    rw [firstLine]
    split
    · next hc => exact ⟨r, rfl, .inr (by rw [hc]; rfl)⟩
    · obtain ⟨u, hu, hcases⟩ := ih
      refine ⟨u, by rw [List.cons_append, ← hu], hcases.imp_right fun hlast => ?_⟩
      rw [List.getLast?_cons, hlast]
      rfl

theorem lineStop_le (hb : b ≤ t.length) : lineStop t b ≤ t.length := by
  obtain ⟨u, hu, -⟩ := firstLine_append (t.drop b)
  have hlength := congrArg List.length hu
  rw [List.length_drop, List.length_append] at hlength
  rw [lineStop]
  omega

theorem getLast?_firstLine (h : b < lineStop t b) :
    (firstLine (t.drop b)).getLast? = t[lineStop t b - 1]? := by
  obtain ⟨u, hu, -⟩ := firstLine_append (t.drop b)
  rw [lineStop] at h ⊢
  generalize firstLine (t.drop b) = l at hu h ⊢
  rw [show b + l.length - 1 = b + (l.length - 1) by omega, ← List.getElem?_drop, hu,
    List.getElem?_append_left (by omega), List.getLast?_eq_getElem?]

/-- A physical line ends with the text or with a line feed. -/
theorem lineStop_cases (hb : b ≤ t.length) :
    lineStop t b = t.length ∨ b < lineStop t b ∧ t[lineStop t b - 1]? = some '\n' := by
  obtain ⟨u, hu, hcases⟩ := firstLine_append (t.drop b)
  rcases hcases with rfl | hlast
  · have hlength := congrArg List.length hu
    rw [List.append_nil, List.length_drop] at hlength
    exact .inl (by rw [lineStop]; omega)
  · have hpos : 0 < (firstLine (t.drop b)).length :=
      List.length_pos_of_mem (List.mem_of_getLast? hlast)
    have hlt : b < lineStop t b := by
      rw [lineStop]
      omega
    exact .inr ⟨hlt, (getLast?_firstLine hlt).symm.trans hlast⟩

theorem length_firstLine_le (h : t[i]? = some '\n') : (firstLine t).length ≤ i + 1 := by
  induction t generalizing i with
  | nil => cases h
  | cons c r ih =>
    rw [firstLine]
    split
    · exact Nat.succ_le_succ (Nat.zero_le i)
    · next hc =>
      cases i with
      | zero => exact absurd (Option.some.inj h) hc
      | succ i => exact Nat.succ_le_succ (ih h)

/-- A physical line does not go on behind a line feed. -/
theorem lineStop_le_of_break (hb : b ≤ i) (h : t[i]? = some '\n') : lineStop t b ≤ i + 1 := by
  have hdrop : (t.drop b)[i - b]? = some '\n' := by
    rw [List.getElem?_drop, show b + (i - b) = i by omega, h]
  have hle := length_firstLine_le hdrop
  rw [lineStop]
  omega

theorem mem_firstLine (hb : b ≤ i) (hi : i < lineStop t b) (hx : t[i]? = some x) :
    x ∈ firstLine (t.drop b) := by
  obtain ⟨u, hu, -⟩ := firstLine_append (t.drop b)
  have hdrop : (t.drop b)[i - b]? = some x := by
    rw [List.getElem?_drop, show b + (i - b) = i by omega, hx]
  rw [lineStop] at hi
  generalize firstLine (t.drop b) = l at hu hi ⊢
  rw [hu, List.getElem?_append_left (by omega)] at hdrop
  exact List.mem_of_getElem? hdrop

/-- Where a line begins, a line feed stands in front. -/
theorem EndsLine.getElem? (h : EndsLine (t.take a)) (ha : 0 < a) (hle : a ≤ t.length) :
    t[a - 1]? = some '\n' := by
  have hlength := List.length_take_of_le hle
  rcases h with hnil | ⟨u, hu⟩
  · rw [hnil] at hlength
    simp only [List.length_nil] at hlength
    omega
  · rw [hu, List.length_append, List.length_singleton] at hlength
    rw [← List.getElem?_take_of_lt (by omega : a - 1 < a), hu,
      List.getElem?_append_right (by omega), show a - 1 - u.length = 0 by omega]
    rfl

/-- What stands in front of the physical line of a place are whole lines. -/
theorem take_lineStart (ha : a ≤ t.length) :
    t.take a = t.take (lineStart t a) ++ lastLine (t.take a) ∧
      EndsLine (t.take (lineStart t a)) ∧ '\n' ∉ lastLine (t.take a) := by
  obtain ⟨u, hends, htake, hbreak⟩ := endsLine_lastLine (t.take a)
  have hlength := congrArg List.length htake
  rw [List.length_take_of_le ha, List.length_append] at hlength
  have hu : t.take (lineStart t a) = u := by
    have hle : lineStart t a ≤ a := lineStart_le t a
    rw [show t.take (lineStart t a) = (t.take a).take (lineStart t a) by
      rw [List.take_take, Nat.min_eq_left hle], htake]
    refine List.take_left' ?_
    rw [lineStart]
    omega
  exact ⟨hu ▸ htake, hu ▸ hends, hbreak⟩

theorem slice_lineStart (ha : a ≤ t.length) : slice t (lineStart t a) a = lastLine (t.take a) := by
  obtain ⟨htake, -, -⟩ := take_lineStart ha
  have hlength : (t.take (lineStart t a)).length = lineStart t a :=
    List.length_take_of_le ((lineStart_le t a).trans ha)
  generalize lastLine (t.take a) = l at htake ⊢
  rw [slice, ← List.drop_take, htake, List.drop_left' hlength]

theorem mem_lastLine (hle : lineStart t a ≤ i) (hi : i < a) (ha : a ≤ t.length)
    (hx : t[i]? = some x) : x ∈ lastLine (t.take a) := by
  obtain ⟨htake, -, -⟩ := take_lineStart ha
  have hget : (t.take a)[i]? = some x := by
    rw [List.getElem?_take_of_lt hi, hx]
  have hlength : (t.take (lineStart t a)).length = lineStart t a :=
    List.length_take_of_le ((lineStart_le t a).trans ha)
  generalize lastLine (t.take a) = l at htake ⊢
  rw [htake, List.getElem?_append_right (hlength.le.trans hle)] at hget
  exact List.mem_of_getElem? hget

/-- No line feed stands between the beginning of a physical line and a place on it. -/
theorem ne_break_of_lineStart_le (hle : lineStart t a ≤ i) (hi : i < a) (ha : a ≤ t.length)
    (hx : t[i]? = some x) : x ≠ '\n' := by
  obtain ⟨-, -, hbreak⟩ := take_lineStart ha
  exact fun h => hbreak (h ▸ mem_lastLine hle hi ha hx)

/-! ## Cuts -/

/-- Whether only white space stands beside a stretch on its physical lines. -/
def alone (t : Text) (a b : Nat) : Bool :=
  isBlank (lastLine (t.take a)) && isBlank (firstLine (t.drop b))

/-- Where the cut begins by which a stretch goes. -/
def cutStart (t : Text) (a b : Nat) : Nat := if alone t a b then lineStart t a else a

/-- Where the cut ends by which a stretch goes. -/
def cutStop (t : Text) (a b : Nat) : Nat := if alone t a b then lineStop t b else b

theorem cutStart_le (t : Text) (a b : Nat) : cutStart t a b ≤ a := by
  rw [cutStart]
  split
  · exact lineStart_le t a
  · exact le_rfl

theorem le_cutStop (t : Text) (a b : Nat) : b ≤ cutStop t a b := by
  rw [cutStop]
  split
  · exact le_lineStop t b
  · exact le_rfl

theorem cutStop_le (hb : b ≤ t.length) : cutStop t a b ≤ t.length := by
  rw [cutStop]
  split
  · exact lineStop_le hb
  · exact hb

/-- In front of the stretch only white space is cut out. -/
theorem isWhite_of_cutStart_le (hle : cutStart t a b ≤ i) (hi : i < a) (ha : a ≤ t.length)
    (hx : t[i]? = some x) : isWhite x = true := by
  rw [cutStart] at hle
  split at hle
  · next h =>
    rw [alone, Bool.and_eq_true] at h
    exact List.all_eq_true.mp h.1 x (mem_lastLine hle hi ha hx)
  · omega

/-- Behind the stretch only white space is cut out. -/
theorem isWhite_of_lt_cutStop (hle : b ≤ i) (hi : i < cutStop t a b) (hx : t[i]? = some x) :
    isWhite x = true := by
  rw [cutStop] at hi
  split at hi
  · next h =>
    rw [alone, Bool.and_eq_true] at h
    exact List.all_eq_true.mp h.2 x (mem_firstLine hle hi hx)
  · omega

/-- A stretch in front of one that is cut out is not cut. -/
theorem Firm.le_cutStart (h : Firm t a b) (hle : b ≤ c) (hc : c ≤ t.length) :
    b ≤ cutStart t c d := by
  by_contra hlt
  have hlt : cutStart t c d < b := not_le.mp hlt
  rcases h.last with ⟨x, hx, hwhite⟩ | hline
  · have := h.lt
    rw [isWhite_of_cutStart_le (b := d) (i := b - 1) (by omega) (by omega) hc hx] at hwhite
    cases hwhite
  · -- The stretch begins in front of the physical line that is cut out, and goes on there.
    obtain ⟨x, hx, hwhite⟩ := h.first
    have hfront : a < cutStart t c d := by
      by_contra hnot
      have := h.lt
      rw [isWhite_of_cutStart_le (b := d) (not_lt.mp hnot) (by omega) hc hx] at hwhite
      cases hwhite
    have hcut : cutStart t c d = lineStart t c := by
      rw [cutStart] at hlt ⊢
      split at hlt
      · next halone => rw [if_pos halone]
      · omega
    obtain ⟨-, hends, -⟩ := take_lineStart hc
    rw [← hcut] at hends
    exact hline (cutStart t c d - 1) (by omega) (by omega)
      (hends.getElem? (by omega) (by have := h.le; omega))

/-- A stretch behind one that is cut out is not cut. -/
theorem Firm.cutStop_le (h : Firm t c d) (hle : b ≤ c) : cutStop t a b ≤ c := by
  by_contra hlt
  obtain ⟨x, hx, hwhite⟩ := h.first
  rw [isWhite_of_lt_cutStop (a := a) hle (by omega) hx] at hwhite
  cases hwhite

/-- Cuts do not meet. -/
theorem cutStop_le_cutStart (h : Inked t a b) (h' : Inked t c d) (hle : b ≤ c) :
    cutStop t a b ≤ cutStart t c d := by
  have hc : c ≤ t.length := h'.lt.le.trans h'.le_length
  have hstop := h'.firm.cutStop_le (a := a) hle
  rw [cutStart]
  split
  · rw [cutStop] at hstop ⊢
    split at hstop
    · next ha =>
      -- The line of the first stretch has ended where that of the second one begins.
      rw [if_pos ha]
      by_contra hlt
      rcases lineStop_cases h.le_length with hend | ⟨hb, hbreak⟩
      · obtain ⟨x, hx, -⟩ := h'.first
        have := lt_length_of_getElem? hx
        omega
      · exact ne_break_of_lineStart_le (by omega) (by omega) hc hbreak rfl
    · next ha =>
      rw [if_neg ha]
      have hback := h.firm.le_cutStart (d := d) hle hc
      rwa [cutStart, if_pos ‹_›] at hback
  · exact hstop

/-- A stretch that ends in front of the beginning of a line is cut out in front of it. -/
theorem Inked.cutStop_le_of_endsLine (h : Inked t a b) (hle : b ≤ d) (hd : d ≤ t.length)
    (hends : EndsLine (t.take d)) : cutStop t a b ≤ d := by
  have hlt := h.lt
  have hbreak := hends.getElem? (by omega) hd
  have hne : b ≠ d := by
    rintro rfl
    obtain ⟨x, hx, hwhite⟩ := h.last
    rw [hbreak] at hx
    cases hx
    cases hwhite
  have hstop := lineStop_le_of_break (show b ≤ d - 1 by omega) hbreak
  rw [cutStop]
  split <;> omega

/-! ## Room for `pass` -/

/-- What stands in place of a stretch if it makes room for `pass`. -/
def passInstead (t newline : Text) (a b : Nat) : Text :=
  if alone t a b then
    lastLine (t.take a) ++ "pass".toList ++
      (if endsIn (firstLine (t.drop b)) '\n' then newline else [])
  else "pass".toList

/-! ## Beginnings of lines -/

theorem EndsLine.append {u v : Text} (h : EndsLine v) (hne : v ≠ []) : EndsLine (u ++ v) := by
  obtain rfl | ⟨w, rfl⟩ := h
  · exact absurd rfl hne
  · exact .inr ⟨u ++ w, (List.append_assoc u w ['\n']).symm⟩

/-- Behind an earlier place a line begins at the same place. -/
theorem EndsLine.slice (h : EndsLine (t.take b)) (hab : a < b) (hb : b ≤ t.length) :
    EndsLine (slice t a b) ∧ slice t a b ≠ [] := by
  have hlength := List.length_take_of_le hb
  rw [Text.slice, ← List.drop_take]
  obtain hnil | ⟨u, hu⟩ := h
  · rw [hnil] at hlength
    simp only [List.length_nil] at hlength
    omega
  · rw [hu, List.length_append, List.length_singleton] at hlength
    rw [hu, List.drop_append_of_le_length (by omega)]
    exact ⟨.inr ⟨u.drop a, rfl⟩, by simp⟩

/-- Behind `pass` a line begins if one began behind the line that it stands for. -/
theorem endsLine_passInstead {newline : Text} (hnewline : EndsLine newline ∧ newline ≠ [])
    (halone : alone t a b = true) (hbreak : t[lineStop t b - 1]? = some '\n')
    (hlt : b < lineStop t b) : EndsLine (passInstead t newline a b) ∧
      passInstead t newline a b ≠ [] := by
  have hends : endsIn (firstLine (t.drop b)) '\n' = true := by
    rw [endsIn, getLast?_firstLine hlt, hbreak]
    rfl
  rw [passInstead, if_pos halone, if_pos hends]
  exact ⟨hnewline.1.append hnewline.2, List.append_ne_nil_of_right_ne_nil _ hnewline.2⟩

end Text

end PointMutation
