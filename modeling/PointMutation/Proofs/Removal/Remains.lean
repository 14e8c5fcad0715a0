import PointMutation.Proofs.Removal.Bodies
import PointMutation.Proofs.Removal.Walk
import Mathlib.Data.List.Induction

/-!
# What is left of a source

When lines of a source are gone, every other stretch of its text is still there, between what is
left in front of it and what is left behind it (`Fold.remaining_of_apart`). If only white space
stood in front of it on its physical line, the same white space stands there now, since what is
cut out and what `pass` is put in for are whole physical lines or lies on another one.
-/

namespace PointMutation

namespace Outline

/-- A stretch apart from some lines has some of them in front and the others behind. -/
theorem Spaced.split {t : Text} {xs : List Spot} {a b : Nat} (h : Spaced t xs)
    (hapart : ∀ x ∈ xs, b ≤ x.start ∨ x.stop ≤ a) :
    ∃ ys zs, xs = ys ++ zs ∧ (∀ y ∈ ys, y.stop ≤ a) ∧ ∀ z ∈ zs, b ≤ z.start := by
  induction xs with
  | nil => exact ⟨[], [], rfl, by simp, by simp⟩
  | cons x xs ih =>
    have hrest := h.sublist (List.sublist_cons_self x xs)
    rcases hapart x List.mem_cons_self with hx | hx
    · refine ⟨[], x :: xs, rfl, by simp, ?_⟩
      have hlt := (h.inked x List.mem_cons_self).lt
      obtain ⟨hbehind, -⟩ := List.pairwise_cons.mp h.apart
      rintro z hz
      rcases List.mem_cons.mp hz with rfl | hz
      · exact hx
      · have hz := hbehind z hz
        omega
    · obtain ⟨ys, zs, rfl, hys, hzs⟩ := ih hrest fun y hy => hapart y (List.mem_cons_of_mem x hy)
      refine ⟨x :: ys, zs, rfl, ?_, hzs⟩
      rintro y hy
      rcases List.mem_cons.mp hy with rfl | hy
      · exact hx
      · exact hys y hy

/-- The lines of a source can be cut out if they begin and end with characters that are no white
space. -/
theorem spaced_ofSource {s : Source}
    (h : ∀ x ∈ spotsAll (ofSource s), Text.Inked s.text x.start x.stop) :
    Spaced s.text (spotsAll (ofSource s)) :=
  ⟨h, (spotsIn_ofSource s).bounds.2⟩

end Outline

namespace Fold

open Outline (Spot Spaced)

/-! ## The text that is left -/

/-- The edits by which lines of a source go. -/
def cuts (s : Source) (gone : List Spot) : List Edit :=
  gone.map (cut s.text s.newline (Outline.room s gone))

/-- What is left in front of a place when lines are gone. -/
def front (s : Source) (gone : List Spot) (a : Nat) : Text := Edit.render s.text (cuts s gone) 0 a

/-- What is left behind a place when lines are gone. -/
def behind (s : Source) (gone : List Spot) (b : Nat) : Text :=
  Edit.render s.text (cuts s gone) b s.text.length

/-- What is left when lines are gone. -/
def remaining (s : Source) (gone : List Spot) : Text :=
  Edit.render s.text (cuts s gone) 0 s.text.length

variable {s : Source} {gone ys zs : List Spot} {x : Spot} {a b : Nat}

/-- Cuts of lines in front of a place lie in front of it. -/
theorem chain_front (room : List Spot) (h : Spaced s.text ys)
    (ha : ∀ y ∈ ys, y.cutStop s.text ≤ a) :
    Edit.Chain 0 a (ys.map (cut s.text s.newline room)) :=
  h.chain (forall₂_cut room ys) (Nat.zero_le a) (fun _ _ => Nat.zero_le _) ha

/-- Cuts of lines behind a place lie behind it. -/
theorem chain_behind (room : List Spot) (h : Spaced s.text zs) (hb : b ≤ s.text.length)
    (hzs : ∀ z ∈ zs, b ≤ z.cutStart s.text) :
    Edit.Chain b s.text.length (zs.map (cut s.text s.newline room)) :=
  h.chain (forall₂_cut room zs) hb hzs fun _ hz => h.cutStop_le hz

/-- In place of a line that is gone there is nothing, or `pass` if it makes room for that. -/
theorem remaining_of_mem (h : Spaced s.text gone) (hx : x ∈ gone) :
    remaining s gone = front s gone (x.cutStart s.text) ++
      (if x ∈ Outline.room s gone then
        Text.passInstead s.text s.newline x.start x.stop else []) ++
      behind s gone (x.cutStop s.text) := by
  obtain ⟨ys, zs, rfl⟩ := List.append_of_mem hx
  have hxs : x ∈ x :: zs := List.mem_cons_self
  have hrest : Spaced s.text ([x] ++ zs) := h.sublist (List.sublist_append_right ys _)
  rw [remaining, front, behind, cuts, List.map_append, List.map_cons]
  refine Edit.render_at (e := cut s.text s.newline _ x) s.text ?_ ?_ ?_
  · exact chain_front _ (h.sublist (List.sublist_append_left ys _))
      fun y hy => h.cutStop_le_cutStart hy hxs
  · exact h.cutStart_lt (List.mem_append_right ys hxs)
  · exact chain_behind _ (hrest.sublist (List.sublist_append_right [x] zs))
      (hrest.cutStop_le (List.mem_append_left zs (List.mem_singleton_self x)))
      fun z hz => hrest.cutStop_le_cutStart (List.mem_singleton_self x) hz

/-! ## Beginnings of lines -/

theorem endsLine_newline (s : Source) : Text.EndsLine s.newline ∧ s.newline ≠ [] := by
  rw [Source.newline]
  split
  · exact ⟨.inr ⟨['\r'], rfl⟩, by simp⟩
  · exact ⟨.inr ⟨[], rfl⟩, by simp⟩

/-- A stretch that is cut out up to the beginning of a line goes with its physical lines. -/
theorem alone_of_cutStop (h : Text.Inked s.text x.start x.stop) (hx : x.cutStop s.text = a)
    (ha : a ≤ s.text.length) (hends : Text.EndsLine (s.text.take a)) :
    Text.alone s.text x.start x.stop = true ∧ x.cutStart s.text = Text.lineStart s.text x.start ∧
      a = Text.lineStop s.text x.stop ∧ x.stop < a ∧ s.text[a - 1]? = some '\n' := by
  have hlt := h.lt
  have hle : x.stop ≤ a := hx ▸ Text.le_cutStop s.text x.start x.stop
  have hbreak := hends.getElem? (by omega) ha
  have hne : x.stop ≠ a := by
    rintro rfl
    obtain ⟨c, hc, hwhite⟩ := h.last
    rw [hbreak] at hc
    cases hc
    cases hwhite
  have halone : Text.alone s.text x.start x.stop = true := by
    by_contra hnot
    rw [Spot.cutStop, Text.cutStop, if_neg hnot] at hx
    exact hne hx
  rw [Spot.cutStop, Text.cutStop, if_pos halone] at hx
  exact ⟨halone, if_pos halone, hx.symm, hle.lt_of_ne hne, hbreak⟩

/-- A line still begins where one began, if all that goes in front of it ends in front of it. -/
theorem endsLine_apply (room : List Spot) (h : Spaced s.text ys) (ha : a ≤ s.text.length)
    (hends : Text.EndsLine (s.text.take a)) (hys : ∀ y ∈ ys, y.stop ≤ a) :
    Text.EndsLine (Edit.apply s.text a 0 (ys.map (cut s.text s.newline room))) := by
  induction ys using List.reverseRecOn generalizing a with
  | nil => exact hends
  | append_singleton ys y ih =>
    have hy : y ∈ ys ++ [y] := by simp
    have hinked := h.inked y hy
    have hfront : Spaced s.text ys := h.sublist (List.sublist_append_left ys [y])
    have hcuts : ∀ z ∈ ys, z.cutStop s.text ≤ y.cutStart s.text :=
      fun z hz => h.cutStop_le_cutStart hz (List.mem_singleton_self y)
    have hcut : y.cutStop s.text ≤ a := hinked.cutStop_le_of_endsLine (hys y hy) ha hends
    have happly : Edit.apply s.text a 0 ((ys ++ [y]).map (cut s.text s.newline room)) =
        Edit.apply s.text (y.cutStart s.text) 0 (ys.map (cut s.text s.newline room)) ++
          (cut s.text s.newline room y).text ++ Text.slice s.text (y.cutStop s.text) a := by
      have hlast : Edit.Chain (y.cutStart s.text) a [cut s.text s.newline room y] :=
        Edit.chain_singleton.mpr ⟨Nat.le_refl _, h.cutStart_lt hy, hcut⟩
      have hself := Text.slice_self s.text (y.cutStart s.text)
      rw [List.map_append, List.map_singleton,
        Edit.apply_append s.text (chain_front room hfront hcuts) hlast, Edit.apply, Edit.apply]
      simp [cut, hself]
    rw [happly]
    rcases hcut.lt_or_eq with hlt | heq
    · obtain ⟨hslice, hne⟩ := hends.slice hlt ha
      exact hslice.append hne
    · -- The whole physical line goes, and what is left in front of it ends a line.
      obtain ⟨halone, hstart, hstop, hlt, hbreak⟩ := alone_of_cutStop hinked heq ha hends
      rw [heq, Text.slice_self, List.append_nil]
      by_cases hroom : y ∈ room
      · have htext : (cut s.text s.newline room y).text =
            Text.passInstead s.text s.newline y.start y.stop := if_pos hroom
        obtain ⟨hpass, hne⟩ := Text.endsLine_passInstead (endsLine_newline s) halone
          (hstop ▸ hbreak) (hstop ▸ hlt)
        rw [htext]
        exact hpass.append hne
      · have htext : (cut s.text s.newline room y).text = [] := if_neg hroom
        have hplace : y.start ≤ s.text.length := hinked.lt.le.trans hinked.le_length
        rw [htext, List.append_nil, hstart]
        refine ih hfront ((Text.lineStart_le _ _).trans hplace) (Text.take_lineStart hplace).2.1
          fun z hz => ?_
        exact (Text.le_cutStop s.text z.start z.stop).trans (hstart ▸ hcuts z hz)

/-! ## What is kept -/

/-- A stretch apart from the lines that are gone is kept, and so is the white space in front of it
if nothing else stands there on its physical line. -/
theorem remaining_of_apart (h : Spaced s.text gone) (hab : Text.Firm s.text a b)
    (hapart : ∀ x ∈ gone, b ≤ x.start ∨ x.stop ≤ a) :
    remaining s gone = front s gone a ++ Text.slice s.text a b ++ behind s gone b ∧
      (Text.isBlank (Text.lastLine (s.text.take a)) = true →
        Text.lastLine (front s gone a) = Text.lastLine (s.text.take a)) := by
  obtain ⟨ys, zs, rfl, hys, hzs⟩ := h.split hapart
  have hlt := hab.lt
  have hle := hab.le
  have hfront := h.sublist (List.sublist_append_left ys zs)
  have hbehind := h.sublist (List.sublist_append_right ys zs)
  have hchain : ∀ room, Edit.Chain 0 a (ys.map (cut s.text s.newline room)) := fun room =>
    chain_front room hfront fun y hy => hab.cutStop_le (hys y hy)
  have hchain' : ∀ room, Edit.Chain b s.text.length (zs.map (cut s.text s.newline room)) :=
    fun room => chain_behind room hbehind hle fun z hz => by
      have hinked := hbehind.inked z hz
      exact hab.le_cutStart (hzs z hz) (hinked.lt.le.trans hinked.le_length)
  rw [remaining, behind, front, cuts, List.map_append]
  refine ⟨Edit.render_around s.text (hchain _) hlt.le (hchain' _), fun hblank => ?_⟩
  rw [Edit.render_front s.text (hchain _) ((hchain' _).mono hlt.le (Nat.le_refl _))]
  have ha : a ≤ s.text.length := hlt.le.trans hle
  obtain ⟨htake, hends, hbreak⟩ := Text.take_lineStart ha
  have hline := Text.lineStart_le s.text a
  have hwhite : ∀ y ∈ ys, y.stop ≤ Text.lineStart s.text a := by
    intro y hy
    by_contra hnot
    obtain ⟨c, hc, hink⟩ := (hfront.inked y hy).last
    have hpos := (hfront.inked y hy).lt
    have hstop := hys y hy
    have hmem := Text.mem_lastLine (i := y.stop - 1) (by omega) (by omega) ha hc
    rw [List.all_eq_true.mp hblank c hmem] at hink
    cases hink
  have hcuts : Edit.Chain 0 (Text.lineStart s.text a)
      (ys.map (cut s.text s.newline (Outline.room s (ys ++ zs)))) :=
    chain_front _ hfront fun y hy =>
      (hfront.inked y hy).cutStop_le_of_endsLine (hwhite y hy) (hline.trans ha) hends
  have happly := Edit.apply_append s.text hcuts (Edit.chain_nil.mpr hline)
  rw [List.append_nil] at happly
  rw [happly, Edit.apply, Text.slice_lineStart ha]
  exact Text.lastLine_append (endsLine_apply _ hfront (hline.trans ha) hends hwhite) hbreak

end Fold

end PointMutation
