import PointMutation.Fold
import PointMutation.Proofs.Nesting.Reading
import PointMutation.Proofs.Nesting.Within
import PointMutation.Proofs.Text.Rows

/-!
# Statements one below the other

A statement that was read on its own is put into a block line by line, with the indentation of the
block in front of each line that is not empty (`Snippet.rows`). So whatever stands on one line of
the statement stands in the same row of what is put in, as far behind the indentation as it was from
the margin (`Written.standsIn_rows`). What stands on several lines, such as a quotation with line
ends, has the indentation put into it as well.
-/

namespace PointMutation

namespace Text

/-- Texts with something between them, if there are some on both sides. -/
theorem intercalate_append (sep : Text) {ts us : List Text} (hts : ts ≠ []) (hus : us ≠ []) :
    sep.intercalate (ts ++ us) = sep.intercalate ts ++ sep ++ sep.intercalate us := by
  induction ts with
  | nil => exact absurd rfl hts
  | cons t ts ih =>
    cases ts with
    | nil =>
      rw [List.singleton_append, List.intercalate_cons_of_ne_nil hus, List.intercalate_singleton]
    | cons t' ts =>
      rw [List.cons_append, List.intercalate_cons_of_ne_nil (by simp), ih (by simp),
        List.intercalate_cons_cons]
      simp only [List.append_assoc]

end Text

namespace Snippet

/-- A line with the indentation in front of it, unless it is empty. -/
def indented (indent l : Text) : Text := if l.isEmpty then [] else indent ++ l

/-- The rows of a snippet where it is put, with the indentation in front of the first one. What was
cut out of a source is not taken apart. -/
def rows (indent : Text) : Snippet → List Text
  | anchored t => [indent ++ t]
  | free t _ =>
    match Text.lines t with
    | [] => [indent]
    | l :: ls => (indent ++ l) :: ls.map (indented indent)

variable {indent newline : Text}

theorem rows_ne_nil (indent : Text) (s : Snippet) : s.rows indent ≠ [] := by
  cases s with
  | anchored t => simp [rows]
  | free t c =>
    rw [rows]
    split <;> simp

theorem intercalate_indented (l : Text) (ls : List Text) :
    newline.intercalate (l :: ls.map (indented indent)) = l ++ indentLines indent newline ls := by
  induction ls generalizing l with
  | nil => rw [List.map_nil, List.intercalate_singleton, indentLines, List.append_nil]
  | cons l' ls ih =>
    rw [List.map_cons, List.intercalate_cons_of_ne_nil (by simp), ih, indentLines, indented]
    simp only [List.append_assoc]

/-- The rows of a snippet are what it is rendered as. -/
theorem intercalate_rows (s : Snippet) :
    newline.intercalate (s.rows indent) = indent ++ s.render indent newline := by
  cases s with
  | anchored t => exact List.intercalate_singleton
  | free t c =>
    cases hlines : Text.lines t with
    | nil => simp only [rows, render, hlines, List.intercalate_singleton, List.append_nil]
    | cons l ls => simp only [rows, render, hlines, intercalate_indented, List.append_assoc]

/-- The rows of snippets one below the other are what is stacked. -/
theorem intercalate_flatMap_rows {snippets : List Snippet} (h : snippets ≠ []) :
    newline.intercalate (snippets.flatMap (rows indent)) =
      indent ++ Fold.stack indent newline snippets := by
  induction snippets with
  | nil => exact absurd rfl h
  | cons s ss ih =>
    rw [List.flatMap_cons, Fold.stack, List.map_cons]
    cases ss with
    | nil =>
      rw [List.flatMap_nil, List.append_nil, List.map_nil, intercalate_rows,
        List.intercalate_singleton]
    | cons s' ss =>
      have hrows : (s' :: ss).flatMap (rows indent) ≠ [] := by
        simp [rows_ne_nil indent s']
      rw [Text.intercalate_append newline (rows_ne_nil indent s) hrows, intercalate_rows,
        ih (by simp), List.intercalate_cons_of_ne_nil (by simp), Fold.stack]
      simp only [List.append_assoc]

/-- What stands in a line of a statement stands in the same row behind the indentation. -/
theorem standsIn_rows {t u : Text} {row column : Nat} (hu : u ≠ []) (c : Bool)
    (h : Text.StandsIn (Text.lines t) row column u) :
    Text.StandsIn ((free t c).rows indent) row (indent.length + column) u := by
  obtain ⟨l, hl, hslice⟩ := h
  have hindented : indented indent l = indent ++ l := by
    cases l with
    | nil => exact absurd (hslice.symm.trans (by simp [Text.slice])) hu
    | cons _ _ => rfl
  have hrow : ((free t c).rows indent)[row]? = some (indent ++ l) := by
    rw [rows]
    cases hlines : Text.lines t with
    | nil => simp [hlines] at hl
    | cons l' ls =>
      rw [hlines] at hl
      cases row with
      | zero =>
        cases hl
        rfl
      | succ row =>
        rw [List.getElem?_cons_succ] at hl ⊢
        rw [List.getElem?_map, hl, Option.map_some, hindented]
  refine ⟨indent ++ l, hrow, ?_⟩
  rw [Nat.add_assoc, Text.slice_append_right, hslice]

end Snippet

/-! ## Statements read on their own -/

/-- A text that was read as exactly one statement. -/
structure Written where
  text : Text
  tree : Tree
  statement : Tree
  parse_text : parse text = .ok tree
  parts_tree : tree.parts = [statement]

namespace Written

/-- The snippet that comes of it. -/
def snippet (w : Written) : Snippet :=
  .free (Text.slice w.text w.statement.start w.statement.stop) w.statement.kind.isCompound

/-- Every snippet that was read comes of such a text. -/
theorem read_iff {t : Text} {s : Snippet} :
    Snippet.read t = .ok s ↔ ∃ w : Written, w.text = t ∧ w.snippet = s := by
  constructor
  · intro h
    rw [Snippet.read] at h
    split at h
    · cases h
    · next tree htree =>
      split at h
      · next st hparts =>
        cases h
        exact ⟨⟨t, tree, st, htree, hparts⟩, rfl, rfl⟩
      · cases h
      · cases h
  · rintro ⟨w, rfl, rfl⟩
    rw [Snippet.read, w.parse_text]
    simp only [w.parts_tree]
    rfl

/-- The place of a node from where the statement begins. -/
def offset (w : Written) (u : Tree) : Nat := u.start - w.statement.start

/-- What stands on one line of a statement stands in the same row of what is put in, as far behind
the indentation as it was from where the line begins. -/
theorem standsIn_rows (w : Written) (indent : Text) {u : Tree}
    (hu : Tree.Within w.statement u)
    (hline : Text.OnOneLine (Text.slice w.text u.start u.stop)) :
    Text.StandsIn (w.snippet.rows indent) (w.snippet.text.row (w.offset u))
      (indent.length + w.snippet.text.column (w.offset u))
      (Text.slice w.text u.start u.stop) := by
  obtain ⟨-, hwhole, hnested⟩ := nested_of_parse w.parse_text
  have hst : w.statement ∈ w.tree.parts := by simp [w.parts_tree]
  obtain ⟨-, hstop, hstatement⟩ := hnested.parts.of_mem hst
  obtain ⟨hunested, hustart, hustop⟩ := hu.spec hstatement
  have hle := hunested.le
  let own := Text.slice w.text w.statement.start w.statement.stop
  let b := u.stop - w.statement.start
  have hslice : Text.slice own (w.offset u) b = Text.slice w.text u.start u.stop := by
    rw [Text.slice_slice (by omega), offset, Nat.add_sub_cancel' hustart,
      Nat.add_sub_cancel' (by omega)]
  have hown : b ≤ own.length := by
    rw [Text.length_slice (by omega)]
    omega
  rw [← hslice] at hline ⊢
  exact Snippet.standsIn_rows hline.ne_nil _ (Text.standsIn_lines hown hline)

end Written

end PointMutation
