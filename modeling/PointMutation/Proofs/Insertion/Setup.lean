import PointMutation.Proofs.Declaration.Statement
import PointMutation.Proofs.Insertion.Pass
import PointMutation.Proofs.Mutator.Passes
import PointMutation.Proofs.Text.Lines

/-!
# Passes of a machine that is set up

A machine that was set up with an accepted configuration draws nothing but simple statements, so
that each of its passes is `sequence` (`pass_eq_sequence`). What it inserts is a line of its own if
only white space stands in front of the chosen line (`pass_adds_line`). Where something else stands
there, the rest of the physical line moves down behind as many spaces.
-/

namespace PointMutation

namespace Insertion

open Outline (Spot)

/-- A machine that works with the values of a configuration, wherever it is. -/
structure IsSetUp (c : InsertionConfig) (m : Insertion) : Prop where
  probability : m.probability = c.probability
  pattern : m.pattern = ⟨c.nameLength, c.kinds.1, c.annotated⟩

theorem isSetUp_of_ofConfig {c : InsertionConfig} {r : RandomSource} {m : Insertion}
    (h : ofConfig c r = .ok m) : IsSetUp c m := by
  rw [ofConfig] at h
  cases hc : c.validate with
  | error e =>
    rw [hc] at h
    cases h
  | ok _ =>
    rw [hc] at h
    cases h
    exact ⟨rfl, rfl⟩

theorem nameLength_of_validate {c : InsertionConfig} (h : c.validate = .ok ()) :
    c.nameLength ≠ 0 := by
  intro hzero
  rw [InsertionConfig.validate, hzero] at h
  split at h
  · cases h
  · split at h
    · cases h
    · cases h

theorem declares_of_nameLength {p : Declaration.Pattern} (h : p.nameLength ≠ 0) : Declares p := by
  intro r
  obtain ⟨d, r', hdraw, hd, -⟩ := Declaration.draw_wellFormed h r
  exact ⟨d, r', hdraw, hd.isAssignment.snippet, Text.lines_of_noBreak hd.text_ne_nil hd.noBreak⟩

theorem noBreak_of_draw {p : Declaration.Pattern} (h : p.nameLength ≠ 0) {r r' : RandomSource}
    {d : Declaration} (hd : Declaration.draw p r = (.ok d, r')) : '\n' ∉ d.text := by
  obtain ⟨d', r₁, hdraw, hd', -⟩ := Declaration.draw_wellFormed h r
  rw [hdraw] at hd
  cases hd
  exact hd'.noBreak

theorem IsSetUp.declares {c : InsertionConfig} {m : Insertion} (h : IsSetUp c m)
    (hc : c.validate = .ok ()) : Declares m.pattern := by
  rw [h.pattern]
  exact declares_of_nameLength (nameLength_of_validate hc)

/-! ## Draws at the lines in their order -/

/-- A pass draws a declaration and a coin at each line that need not stay first, one line after the
other, up to the first coin that succeeds, and nothing else. If a coin succeeds, the declaration is
inserted in front of its line. -/
theorem pass_eq_sequence {c : InsertionConfig} (hc : c.validate = .ok ()) {m : Insertion}
    (hm : IsSetUp c m) (hworked : m.traversal.worked = false) (s : Source) :
    ((spots s).Pairwise fun x y => x.stop ≤ y.start) ∧
    ∃ found, sequence m.pattern m.probability (spots s) m.random =
        (.ok found, (Machine.pass s m).2.random) ∧
      Machine.worked (Machine.pass s m).2 = found.isSome ∧
      (Machine.pass s m).1 = match found with
        | none => .ok s
        | some (d, x) => insertedAt s d x :=
  ⟨(spots_bounds s).2, pass_of_declares (hm.declares hc) hworked s⟩

/-- The machine that is set up without a configuration, over a quotation that has to stay first and
two assignments. -/
theorem pass_eq_sequence_of_default :
    ∃ (s : Source) (m : Insertion), s.text = "'d'\nx = 1\ny = x\n".toList ∧
      InsertionConfig.validate {} = .ok () ∧ IsSetUp {} m ∧ m.traversal.worked = false ∧
      ∃ found, sequence m.pattern m.probability (spots s) m.random =
          (.ok found, (Machine.pass s m).2.random) ∧
        Machine.worked (Machine.pass s m).2 = found.isSome ∧
        (Machine.pass s m).1 = match found with
          | none => .ok s
          | some (d, x) => insertedAt s d x := by
  have hvalidate : InsertionConfig.validate {} = .ok () := by decide +kernel
  let m : Insertion := ⟨.ofDecimal false 5 (-2), ⟨10, ValueKind.all, true⟩, .seeded 0, {}, 0⟩
  have hm : IsSetUp {} m := ⟨rfl, rfl⟩
  obtain ⟨s, hs⟩ := Source.exists_of_isOk (t := "'d'\nx = 1\ny = x\n".toList) (by decide +kernel)
  exact ⟨s, m, hs, hvalidate, hm, rfl, (pass_eq_sequence hvalidate hm rfl s).2⟩

/-! ## Lines of their own -/

/-- What stands in front of a line on its physical line. -/
def front (s : Source) (x : Spot) : Text := Text.lastLine (s.text.take x.start)

theorem indentBefore_eq (s : Source) (x : Spot) :
    Fold.indentBefore s.text x.start =
      if Text.isBlank (front s x) then front s x else List.replicate (front s x).length ' ' := rfl

theorem noBreak_of_sequence {p : Declaration.Pattern} {probability : Double} {xs : List Spot}
    {r r' : RandomSource} {d : Declaration} {x : Spot} (hp : p.nameLength ≠ 0)
    (h : sequence p probability xs r = (.ok (some (d, x)), r')) : '\n' ∉ d.text := by
  induction xs generalizing r with
  | nil => cases h
  | cons y ys ih =>
    obtain ⟨d', r₁, hdraw, ⟨-, hfound, -⟩ | ⟨-, hrest⟩⟩ := sequence_cases h
    · cases hfound
      exact noBreak_of_draw hp hdraw
    · exact ih hrest

/-- A declaration behind white space is a physical line between those that were there. -/
theorem physicalLines_inserted {s : Source} {d : Declaration} {x : Spot} (hd : '\n' ∉ d.text)
    (hblank : Text.isBlank (front s x) = true) :
    ∃ ls ls', Text.physicalLines s.text = ls ++ ls' ∧
      Text.physicalLines (inserted s d x) = ls ++ (front s x ++ d.text ++ s.newline) :: ls' := by
  obtain ⟨u, hu, htake, hfront⟩ := Text.endsLine_lastLine (s.text.take x.start)
  have htake : s.text.take x.start = u ++ front s x := htake
  have hfront : '\n' ∉ front s x := hfront
  have htext : s.text = u ++ (front s x ++ s.text.drop x.start) := by
    rw [← List.append_assoc, ← htake, List.take_append_drop]
  have hindent : Fold.indentBefore s.text x.start = front s x := by
    rw [indentBefore_eq, if_pos hblank]
  obtain ⟨e, he, hnewline⟩ : ∃ e, '\n' ∉ e ∧ s.newline = e ++ ['\n'] := by
    rcases s.newline_eq with ⟨h, -⟩ | ⟨h, -⟩
    · exact ⟨['\r'], by decide, h⟩
    · exact ⟨[], by decide, h⟩
  have hline : '\n' ∉ front s x ++ d.text ++ e := by simp [hfront, hd, he]
  have hinserted : inserted s d x =
      u ++ (front s x ++ d.text ++ e ++ '\n' :: (front s x ++ s.text.drop x.start)) := by
    simp [inserted, hindent, htake, hnewline]
  refine ⟨Text.physicalLines u, Text.physicalLines (front s x ++ s.text.drop x.start), ?_, ?_⟩
  · rw [← Text.physicalLines_append hu, ← htext]
  · rw [hinserted, Text.physicalLines_append hu, Text.physicalLines_of_noBreak hline, hnewline]
    simp

/-- A pass that works puts a declaration in front of the line that the draws have chosen. If only
white space stands there, the declaration makes one more physical line, which begins with the same
white space and ends as the lines of the source do. If something else stands there, what follows is
moved to the next physical line, behind as many spaces. -/
theorem pass_adds_line {c : InsertionConfig} (hc : c.validate = .ok ()) {m : Insertion}
    (hm : IsSetUp c m) (hworked : m.traversal.worked = false) {s s' : Source}
    (h : (Machine.pass s m).1 = .ok s') (h' : Machine.worked (Machine.pass s m).2 = true) :
    ∃ d x, x ∈ spots s ∧
      (sequence m.pattern m.probability (spots s) m.random).1 = .ok (some (d, x)) ∧
      (Text.isBlank (front s x) = true → ∃ ls ls', Text.physicalLines s.text = ls ++ ls' ∧
        Text.physicalLines s'.text = ls ++ (front s x ++ d.text ++ s.newline) :: ls') ∧
      (Text.isBlank (front s x) = false →
        s'.text = s.text.take x.start ++ d.text ++ s.newline ++
          List.replicate (front s x).length ' ' ++ s.text.drop x.start) := by
  obtain ⟨found, hsequence, hfound, hpass⟩ := pass_of_declares (hm.declares hc) hworked s
  rw [h'] at hfound
  cases found with
  | none => cases hfound
  | some y =>
    obtain ⟨d, x⟩ := y
    rw [h] at hpass
    have htext : s'.text = inserted s d x := by
      cases hread : Source.read (inserted s d x) with
      | error e =>
        simp only [insertedAt, hread, Except.mapError] at hpass
        cases hpass
      | ok s₁ =>
        simp only [insertedAt, hread, Except.mapError] at hpass
        cases hpass
        exact Source.text_of_read hread
    have hlength : m.pattern.nameLength ≠ 0 := by
      rw [hm.pattern]
      exact nameLength_of_validate hc
    refine ⟨d, x, mem_of_sequence hsequence, by rw [hsequence], fun hblank => ?_, fun hblank => ?_⟩
    · rw [htext]
      exact physicalLines_inserted (noBreak_of_sequence hlength hsequence) hblank
    · rw [htext, inserted, indentBefore_eq, if_neg (by simp [hblank])]

/-- A machine that inserts a name of one letter with a number in front of the first line. -/
theorem pass_adds_line_in_block :
    ∃ (c : InsertionConfig) (m : Insertion) (s s' : Source), c.validate = .ok () ∧ IsSetUp c m ∧
      m.traversal.worked = false ∧ s.text = "if a:\r\n\tb".toList ∧
      (Machine.pass s m).1 = .ok s' ∧ Machine.worked (Machine.pass s m).2 = true ∧
      ∃ d x, x ∈ spots s ∧
        (sequence m.pattern m.probability (spots s) m.random).1 = .ok (some (d, x)) ∧
        (Text.isBlank (front s x) = true → ∃ ls ls', Text.physicalLines s.text = ls ++ ls' ∧
          Text.physicalLines s'.text = ls ++ (front s x ++ d.text ++ s.newline) :: ls') ∧
        (Text.isBlank (front s x) = false →
          s'.text = s.text.take x.start ++ d.text ++ s.newline ++
            List.replicate (front s x).length ' ' ++ s.text.drop x.start) := by
  let c : InsertionConfig := ⟨.ofInt 1, false, .ofList [.int], 1⟩
  let m : Insertion := ⟨.ofInt 1, ⟨1, [.int], false⟩, .seeded 0, {}, 0⟩
  have hvalidate : c.validate = .ok () := by decide +kernel
  have hm : IsSetUp c m := ⟨rfl, rfl⟩
  obtain ⟨s, s', hs, -, hworked, hpass⟩ := Machine.exists_of_trial_ok (m := m)
    (t := "if a:\r\n\tb".toList) (u := "if a:\r\n\tu = 774\r\n\tb".toList) (b := true)
    (by decide +kernel)
  exact ⟨c, m, s, s', hvalidate, hm, rfl, hs, hpass, hworked,
    pass_adds_line hvalidate hm rfl hpass hworked⟩

/-- A byte-order mark is no white space. The declaration goes behind it, the line behind a space,
and the text does not come back by removing a physical line. -/
theorem pass_adds_no_line_behind_mark :
    ∃ (c : InsertionConfig) (m : Insertion) (s s' : Source), c.validate = .ok () ∧ IsSetUp c m ∧
      m.traversal = {} ∧ s.text = "\uFEFFx = 1\n".toList ∧ (Machine.pass s m).1 = .ok s' ∧
      Machine.worked (Machine.pass s m).2 = true ∧ s'.text = "\uFEFFu = 774\n x = 1\n".toList ∧
      ∀ i < (Text.physicalLines s'.text).length,
        ((Text.physicalLines s'.text).eraseIdx i).flatten ≠ s.text := by
  let c : InsertionConfig := ⟨.ofInt 1, false, .ofList [.int], 1⟩
  let m : Insertion := ⟨.ofInt 1, ⟨1, [.int], false⟩, .seeded 0, {}, 0⟩
  obtain ⟨s, s', hs, hs', hworked, hpass⟩ := Machine.exists_of_trial_ok (m := m)
    (t := "\uFEFFx = 1\n".toList) (u := "\uFEFFu = 774\n x = 1\n".toList) (b := true)
    (by decide +kernel)
  refine ⟨c, m, s, s', by decide +kernel, ⟨rfl, rfl⟩, rfl, hs, hpass, hworked, hs', ?_⟩
  rw [hs, hs']
  decide +kernel

end Insertion

end PointMutation
