import PointMutation.Proofs.Insertion.Statements
import PointMutation.Proofs.Removal.Remains

/-!
# Removing the statements of lines

A fold that removes lines leaves the source without the statements of those lines, and with
everything else (`Fold.run_removes`): each node of the source lies in one of them, around the body
of one, or apart from all of them, and what lies apart is kept with the white space in front of it.
Whether the rest is read as a source, and as the same statements, is another matter: a statement
that goes on with a line behind a backslash leaves the backslash there, and what follows becomes
part of the body (`Fold.run_moves_statement_in`).
-/

namespace PointMutation

namespace Outline

/-- A line is made of statements of what the walk came by as a body, or of a body within. -/
theorem Leaves.isLine {mode : Mode} {t : Tree} {x : Spot} (h : Leaves mode t x) :
    ∃ b us, Tree.Within t b ∧ (mode = .body ∧ b = t ∨ b.kind = .block) ∧ IsLine b us x := by
  induction h with
  | @line b us x h => exact ⟨b, us, .self b, .inl ⟨rfl, rfl⟩, h⟩
  | statement ht _ _ ih =>
    obtain ⟨b, us, hb, hkind, hline⟩ := ih
    exact ⟨b, us, .child (Tree.mem_children_of_mem_parts ht) hb,
      .inr (hkind.resolve_left (by simp)), hline⟩
  | decorated _ hu _ ih =>
    obtain ⟨b, us, hb, hkind, hline⟩ := ih
    exact ⟨b, us, .child hu hb, .inr (hkind.resolve_left (by simp)), hline⟩
  | compound _ _ ih =>
    obtain ⟨b, us, hb, hkind, hline⟩ := ih
    exact ⟨b, us, hb, .inr (hkind.resolve_left (by simp)), hline⟩
  | @block t c x hc hk _ ih =>
    obtain ⟨b, us, hb, hkind, hline⟩ := ih
    refine ⟨b, us, .child hc hb, .inr ?_, hline⟩
    rcases hkind with ⟨-, rfl⟩ | hkind
    · exact hk
    · exact hkind
  | clause hu _ _ ih =>
    obtain ⟨b, us, hb, hkind, hline⟩ := ih
    exact ⟨b, us, .child hu hb, .inr (hkind.resolve_left (by simp)), hline⟩

/-- Each line is made of statements of the file or of a body. -/
theorem isLine_of_mem_spots {s : Source} {x : Spot} (hx : x ∈ spotsAll (ofSource s)) :
    ∃ b us, Tree.Within s.tree b ∧ (b = s.tree ∨ b.kind = .block) ∧ IsLine b us x := by
  obtain ⟨b, us, hb, hkind, hline⟩ := (leaves_ofSource hx).isLine
  exact ⟨b, us, hb, hkind.imp_left And.right, hline⟩

/-- A node lies in the stretch of a line, around the body of it, or apart from it. -/
theorem IsLine.cases {r b t : Tree} {us : List Tree} {x : Spot} (h : IsLine b us x)
    (hr : r.Nested) (hb : Tree.Within r b) (ht : Tree.Within r t) :
    (x.start ≤ t.start ∧ t.stop ≤ x.stop) ∨ Tree.Within t b ∨ t.stop ≤ x.start ∨ x.stop ≤ t.start := by
  obtain ⟨hconsecutive, hholds⟩ := h
  obtain ⟨hnested, -, -⟩ := hb.spec hr
  obtain ⟨first, hfirst, hstart⟩ := Option.map_eq_some_iff.mp hholds.start
  obtain ⟨last, hlast, hstop⟩ := Option.map_eq_some_iff.mp hholds.stop
  have hmem : ∀ u ∈ us, u ∈ b.children := fun u hu =>
    Tree.mem_children_of_mem_parts (hconsecutive.subset hu)
  have hfirst := hmem first (List.mem_of_head? hfirst)
  have hlast := hmem last (List.mem_of_getLast? hlast)
  obtain ⟨hfstart, hfstop, hfnested⟩ := hnested.children.of_mem hfirst
  obtain ⟨hlstart, hlstop, hlnested⟩ := hnested.children.of_mem hlast
  have hfle := hfnested.le
  have hlle := hlnested.le
  rcases hr.within_or_apart ht hb with h | h | h
  · exact .inr (.inl h)
  · cases h with
    | self => exact .inr (.inl (.self _))
    | @child _ c _ hc h =>
      obtain ⟨-, -, hcnested⟩ := hnested.children.of_mem hc
      obtain ⟨-, htstart, htstop⟩ := h.spec hcnested
      have hcle := hcnested.le
      -- The node is compared with the first statement of the line and then with the last one.
      have hfront : c.stop ≤ x.start ∨ x.start ≤ c.start := by
        rcases eq_or_ne c first with rfl | hne
        · exact .inr hstart.ge
        · rcases hnested.children.apart_of_mem hc hfirst hne with h | h <;> omega
      have hback : x.stop ≤ c.start ∨ c.stop ≤ x.stop := by
        rcases eq_or_ne c last with rfl | hne
        · exact .inr hstop.le
        · rcases hnested.children.apart_of_mem hc hlast hne with h | h <;> omega
      omega
  · rcases h with h | h <;> omega

end Outline

namespace Fold

open Outline (Spot Spaced IsLine spotsAll)
open PointMutation.Tree (Within)

variable {σ : Type}

/-- What is left of a source without some of its lines. -/
structure IsWithout (s : Source) (gone : List Spot) : Prop where
  /-- They are lines of the source in the order of the text. -/
  lines : gone.Sublist (spotsAll (Outline.ofSource s))
  /-- Each of them is made of statements of the file or of a body. -/
  statements : ∀ x ∈ gone, ∃ b us, Within s.tree b ∧ (b = s.tree ∨ b.kind = .block) ∧ IsLine b us x
  /-- Where it was there is nothing, or `pass` if it is to make room for that. -/
  cut : ∀ x ∈ gone, remaining s gone = front s gone (x.cutStart s.text) ++
    (if x ∈ Outline.room s gone then
      Text.passInstead s.text s.newline x.start x.stop else []) ++
    behind s gone (x.cutStop s.text)
  /-- One line makes room for `pass` in each indented body that has lost all its statements. -/
  bodies : ∀ b ∈ Tree.bodiesWithin s.tree.children, Tree.IsBodyOf s.tree b ∧
    (Outline.isEmptied s.text gone b = true → b.parts ≠ [] →
      ∃ x ∈ gone, Outline.roomIn s.text gone b = [x])
  /-- Each node lies in one of them, around the body of one, or apart from all of them. -/
  nodes : ∀ t, Within s.tree t →
    (∃ x ∈ gone, x.start ≤ t.start ∧ t.stop ≤ x.stop) ∨
      (∃ x ∈ gone, ∃ b us, IsLine b us x ∧ Within t b) ∨
      ∀ x ∈ gone, t.stop ≤ x.start ∨ x.stop ≤ t.start
  /-- What lies apart from all of them is kept with the white space in front of it. -/
  kept : ∀ a b, Text.Firm s.text a b → (∀ x ∈ gone, b ≤ x.start ∨ x.stop ≤ a) →
    remaining s gone = front s gone a ++ Text.slice s.text a b ++ behind s gone b ∧
      (Text.isBlank (Text.lastLine (s.text.take a)) = true →
        Text.lastLine (front s gone a) = Text.lastLine (s.text.take a))

theorem isWithout_of_sublist {s : Source} {gone : List Spot}
    (hs : ∀ x ∈ spotsAll (Outline.ofSource s), Text.Inked s.text x.start x.stop)
    (h : gone.Sublist (spotsAll (Outline.ofSource s))) : IsWithout s gone := by
  have hspaced := (Outline.spaced_ofSource hs).sublist h
  have hstatements := fun x (hx : x ∈ gone) => Outline.isLine_of_mem_spots (h.subset hx)
  refine ⟨h, hstatements, fun x hx => remaining_of_mem hspaced hx, fun b hb => ?_,
    fun t ht => ?_, fun a b hab hapart => remaining_of_apart hspaced hab hapart⟩
  · obtain ⟨t, ht, hbody⟩ := Tree.exists_of_mem_bodiesWithin hb
    exact ⟨hbody.child ht, Outline.roomIn_of_isEmptied⟩
  obtain ⟨-, -, hnested⟩ := s.nested
  by_cases hin : ∃ x ∈ gone, x.start ≤ t.start ∧ t.stop ≤ x.stop
  · exact .inl hin
  by_cases haround : ∃ x ∈ gone, ∃ b us, IsLine b us x ∧ Within t b
  · exact .inr (.inl haround)
  refine .inr (.inr fun x hx => ?_)
  obtain ⟨b, us, hb, -, hline⟩ := hstatements x hx
  rcases hline.cases hnested hb ht with h | h | h
  · exact absurd ⟨x, hx, h⟩ hin
  · exact absurd ⟨x, hx, b, us, hline, h⟩ haround
  · exact h

/-- A fold that only removes lines cuts them out, in the state and with the faults that it has when
it is shown the source. -/
theorem run_eq_removed {f : Fold σ} (hf : f.OnlyRemoves) {s : Source}
    (hs : ∀ x ∈ spotsAll (Outline.ofSource s), Text.Inked s.text x.start x.stop) (m : σ) :
    ∃ answer, removedAll f s.text (Outline.ofSource s) m = (answer, (run f s m).2) ∧
      (run f s m).1 = answer.bind (fun gone => rewritten s (cuts s gone)) ∧
      ∀ gone, answer = .ok gone → gone.Sublist (spotsAll (Outline.ofSource s)) := by
  have hspaced : Spaced s.text ([] ++ spotsAll (Outline.ofSource s)) := Outline.spaced_ofSource hs
  have hstart : Behind s.text [] [] 0 := ⟨.nil, fun _ hx => absurd hx List.not_mem_nil⟩
  have hwalk : Follows [] (walkAll f s.text s.newline (Outline.ofSource s))
      (removedAll f s.text (Outline.ofSource s)) _ :=
    walkAll_removes hf (Outline.withinAll_ofFile s.nestedIn) (Outline.shallowAll_ofSource s)
      hspaced hstart
  have hm := hwalk m
  simp only [run, runOver, edits]
  generalize walkAll f s.text s.newline (Outline.ofSource s) ⟨m, []⟩ = p at hm ⊢
  generalize removedAll f s.text (Outline.ofSource s) m = q at hm ⊢
  cases hm with
  | @failed e =>
    refine ⟨.error e, rfl, rfl, fun gone h => ?_⟩
    cases h
  | @done _ gone _ _ hQ =>
    obtain ⟨hsub, rfl, -⟩ := hQ
    rw [Outline.vacatedAll_ofSource]
    refine ⟨.ok gone, rfl, rfl, ?_⟩
    rintro _ ⟨⟩
    exact hsub

theorem text_of_rewritten {s s' : Source} {gone : List Spot}
    (h : rewritten s (cuts s gone) = .ok s') : s'.text = remaining s gone := by
  rw [rewritten] at h
  split at h
  · next hempty =>
    cases h
    rw [remaining, List.isEmpty_iff.mp hempty, Edit.render_nil, Text.slice_all]
  · split at h
    · next hread =>
      cases h
      exact Source.text_of_read hread
    · cases h

/-- The fold that removes every line. -/
def clearing : Fold Unit where
  leaveLine _ := pure .remove

theorem clearing_onlyRemoves : clearing.OnlyRemoves := by
  constructor
  · rintro l m answer m' ⟨⟩
    exact .inr rfl
  · rintro e m answer m' ⟨⟩
    rfl

/-- The fold that removes the lines with some text. -/
def dropping (t : Text) : Fold Unit where
  leaveLine l := pure (if l.text = t then .remove else .keep)

theorem dropping_onlyRemoves (t : Text) : (dropping t).OnlyRemoves := by
  constructor
  · rintro l m answer m' ⟨⟩
    split
    · exact .inr rfl
    · exact .inl rfl
  · rintro e m answer m' ⟨⟩
    rfl

/-- The text that a fold makes of a source with a text. There is none if the text is no source. -/
def trial (f : Fold σ) (t : Text) (m : σ) : Option (Except Fault Text) :=
  match Source.read t with
  | .error _ => none
  | .ok s => some ((run f s m).1.map (·.text))

theorem exists_of_trial {f : Fold σ} {t u : Text} {m : σ} (h : trial f t m = some (.ok u)) :
    ∃ s s' : Source, s.text = t ∧ s'.text = u ∧ (run f s m).1 = .ok s' := by
  rw [trial] at h
  cases hread : Source.read t with
  | error e =>
    rw [hread] at h
    cases h
  | ok s =>
    rw [hread] at h
    have hrun := Option.some.inj h
    cases hanswer : (run f s m).1 with
    | error e =>
      rw [hanswer] at hrun
      cases hrun
    | ok s' =>
      rw [hanswer] at hrun
      exact ⟨s, s', Source.text_of_read hread, Except.ok.inj hrun, hanswer⟩

end Fold

end PointMutation
