import PointMutation.Fold
import PointMutation.Proofs.Rewriting.Edits

/-!
# Single edits

A walk that makes only one edit gives the source with the text of the edit in place of its stretch,
and everything else as it stood.
-/

namespace PointMutation

theorem Text.slice_to_end (t : Text) (a : Nat) : Text.slice t a t.length = t.drop a :=
  List.take_of_length_le (by simp)

theorem Text.slice_drop {t : Text} {a b : Nat} (h : a ≤ b) (hb : b ≤ t.length) :
    Text.slice t a b ++ t.drop b = t.drop a := by
  rw [← Text.slice_to_end, ← Text.slice_to_end, Text.slice_append h hb]

theorem Edit.render_singleton {t : Text} {e : Edit} (hb : e.stop ≤ t.length) :
    Edit.render t [e] 0 t.length = t.take e.start ++ e.text ++ t.drop e.stop := by
  have hwithin : Edit.isWithin 0 t.length e = true := by simpa [Edit.isWithin] using hb
  rw [Edit.render, List.filter_cons_of_pos hwithin, List.filter_nil]
  rw [Edit.apply, Edit.apply, Text.slice_to_end, Text.slice, List.drop_zero, Nat.sub_zero]

/-- A single edit rewrites its stretch, unless the text cannot be read then. -/
theorem Fold.rewritten_singleton {s : Source} {e : Edit} (hb : e.stop ≤ s.text.length) :
    Fold.rewritten s [e] =
      (Source.read (s.text.take e.start ++ e.text ++ s.text.drop e.stop)).mapError fun fault =>
        .mismatch e.text (Fault.describe (.unparsable fault)) := by
  have htexts : ['\n'].intercalate ([e].map Edit.text) = e.text := by
    simp [List.intercalate]
  rw [Fold.rewritten, Edit.render_singleton hb, htexts, List.isEmpty_cons, if_neg (by decide)]
  generalize Source.read _ = answer
  cases answer <;> rfl

end PointMutation
