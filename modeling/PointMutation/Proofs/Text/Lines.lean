import Mathlib.Data.List.TakeWhile
import PointMutation.Source

/-!
# Physical lines

The physical lines of a text are its stretches up to and with each line feed. A text that ends in
a line feed can be cut off from what follows it (`physicalLines_append`), and the lines one behind
the other are the text again (`flatten_physicalLines`).
-/

namespace PointMutation

namespace Text

/-- The lines of a text with their line ends. -/
def physicalLines : Text → List Text
  | [] => []
  | c :: r =>
    if c = '\n' then [c] :: physicalLines r
    else
      match physicalLines r with
      | [] => [[c]]
      | l :: ls => (c :: l) :: ls

theorem flatten_physicalLines (t : Text) : (physicalLines t).flatten = t := by
  induction t with
  | nil => rfl
  | cons c r ih =>
    rw [physicalLines]
    split
    · simp [ih]
    · split
      · rename_i h
        rw [h] at ih
        simpa using ih
      · rename_i h
        rw [h] at ih
        simpa using ih

theorem physicalLines_of_noBreak {l : Text} (h : '\n' ∉ l) (t : Text) :
    physicalLines (l ++ '\n' :: t) = (l ++ ['\n']) :: physicalLines t := by
  induction l with
  | nil => simp [physicalLines]
  | cons c r ih =>
    simp only [List.mem_cons, not_or] at h
    rw [List.cons_append, physicalLines, if_neg fun hc => h.1 hc.symm, ih h.2]
    rfl

/-- Whether a line begins behind a text. -/
def EndsLine (t : Text) : Prop := t = [] ∨ ∃ u, t = u ++ ['\n']

theorem physicalLines_append {t : Text} (h : EndsLine t) (u : Text) :
    physicalLines (t ++ u) = physicalLines t ++ physicalLines u := by
  obtain rfl | ⟨v, rfl⟩ := h
  · rfl
  · induction v with
    | nil => simp [physicalLines]
    | cons c r ih =>
      simp only [List.cons_append, physicalLines]
      rw [ih]
      split
      · rfl
      · cases hr : physicalLines (r ++ ['\n']) with
        | nil =>
          have hflat := flatten_physicalLines (r ++ ['\n'])
          rw [hr] at hflat
          simp at hflat
        | cons l ls => rfl

/-- A text up to a place is whole lines and the front of a line. -/
theorem endsLine_lastLine (t : Text) :
    ∃ u, EndsLine u ∧ t = u ++ lastLine t ∧ '\n' ∉ lastLine t := by
  have hcut := List.takeWhile_append_dropWhile (p := (· != '\n')) (l := t.reverse)
  refine ⟨(t.reverse.dropWhile (· != '\n')).reverse, ?_, ?_, ?_⟩
  · cases hd : t.reverse.dropWhile (· != '\n') with
    | nil => exact .inl rfl
    | cons c r =>
      have hc : c = '\n' := by
        have hhead := List.head_dropWhile_not (· != '\n') (l := t.reverse) (by simp [hd])
        simpa [hd] using hhead
      exact .inr ⟨r.reverse, by simp [hc]⟩
  · rw [lastLine, ← List.reverse_append, hcut, List.reverse_reverse]
  · intro hmem
    rw [lastLine, List.mem_reverse] at hmem
    simpa using List.mem_takeWhile_imp hmem

theorem lastLine_append {u v : Text} (h : EndsLine u) (hv : '\n' ∉ v) : lastLine (u ++ v) = v := by
  have hall : ∀ c ∈ v.reverse, (c != '\n') = true := fun c hc => by
    rw [bne_iff_ne]
    rintro rfl
    exact hv (List.mem_reverse.mp hc)
  rw [lastLine, List.reverse_append, List.takeWhile_append_of_pos hall]
  obtain rfl | ⟨w, rfl⟩ := h
  · simp
  · simp

theorem splitLines_of_noBreak {t : Text} (h : '\n' ∉ t) : splitLines t = [t] := by
  induction t with
  | nil => rfl
  | cons c r ih =>
    simp only [List.mem_cons, not_or] at h
    rw [splitLines, ih h.2]
    exact if_neg fun hc => h.1 hc.symm

theorem lines_of_noBreak {t : Text} (hne : t ≠ []) (h : '\n' ∉ t) : lines t = [t] := by
  simp [lines, splitLines_of_noBreak h, hne]

theorem hasCrLf_iff (t : Text) : hasCrLf t = true ↔ ['\r', '\n'] <:+: t := by
  induction t with
  | nil => simp [hasCrLf]
  | cons c r ih =>
    rw [List.infix_cons_iff, ← ih]
    cases r with
    | nil => simp [hasCrLf]
    | cons d r =>
      by_cases h : c = '\r' ∧ d = '\n'
      · obtain ⟨rfl, rfl⟩ := h
        simp [hasCrLf]
      · have hnot : ¬ ['\r', '\n'] <+: c :: d :: r := by
          rintro ⟨u, hu⟩
          simp only [List.cons_append, List.nil_append, List.cons.injEq] at hu
          exact h ⟨hu.1.symm, hu.2.1.symm⟩
        rw [hasCrLf]
        · simp [hnot]
        · simpa using fun hc hd => h ⟨hc, hd⟩

end Text

/-- A source is taken to have line ends of two characters as soon as it has one of them. -/
theorem Source.newline_eq (s : Source) :
    s.newline = ['\r', '\n'] ∧ ['\r', '\n'] <:+: s.text ∨
      s.newline = ['\n'] ∧ ¬ ['\r', '\n'] <:+: s.text := by
  rw [← Text.hasCrLf_iff, newline]
  cases Text.hasCrLf s.text <;> simp

end PointMutation
