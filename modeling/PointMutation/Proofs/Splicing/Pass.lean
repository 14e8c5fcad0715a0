import PointMutation.Proofs.Removal.Statements
import PointMutation.Proofs.Splicing.Layout
import PointMutation.Proofs.Walk.Drawn
import PointMutation.Proofs.Walk.Invariant
import PointMutation.Proofs.Walk.Single
import PointMutation.Proofs.Walk.Triple

/-!
# Splicing statements into a block

A fold that puts statements in place of one line and leaves everything else as it is makes one edit
(`Fold.Splices.run_eq`). If only white space stands in front of the line, the edit puts the rows of
the statements there one below the other, and every node of the source that is not part of the line
is found again with its text (`Fold.run_splices`).

Nothing is said about how the new text is read. A row that is indented inside a quotation makes
another quotation of it (`Fold.quotation_indented`).
-/

namespace PointMutation

namespace Text

variable {t ins : Text} {a b c d : Nat}

/-- The text with something else in place of a stretch. -/
def exchange (t ins : Text) (a b : Nat) : Text := t.take a ++ ins ++ t.drop b

/-- Where a place behind the stretch is found again. -/
def moved (ins : Text) (a b place : Nat) : Nat := a + ins.length + (place - b)

theorem slice_exchange_before (hd : d ≤ a) (ha : a ≤ t.length) :
    slice (exchange t ins a b) c d = slice t c d := by
  have hfront : d ≤ (t.take a).length := by rwa [List.length_take_of_le ha]
  have hsplit := slice_append_left (a := c) hfront (t.drop a)
  rw [List.take_append_drop] at hsplit
  rw [exchange, List.append_assoc, slice_append_left hfront, hsplit]

theorem slice_exchange_behind (hc : b ≤ c) (ha : a ≤ t.length) :
    slice (exchange t ins a b) (moved ins a b c) (moved ins a b d) = slice t c d := by
  have hlength : (t.take a ++ ins).length = a + ins.length := by
    rw [List.length_append, List.length_take_of_le ha]
  rw [exchange, moved, moved, ← hlength, slice_append_right, slice, slice, List.drop_drop,
    Nat.add_sub_cancel' hc, show d - b - (c - b) = d - c by omega]

theorem slice_exchange_around (hc : c ≤ a) (ha : a ≤ t.length) :
    slice (exchange t ins a b) c (moved ins a b d) = slice t c a ++ ins ++ slice t b d := by
  have hlength : (t.take a).length = a := List.length_take_of_le ha
  have hins : slice (exchange t ins a b) a (a + ins.length) = ins := by
    rw [exchange, List.append_assoc, slice, List.drop_left' hlength, Nat.add_sub_cancel_left,
      List.take_left]
  have hbehind : slice (exchange t ins a b) (a + ins.length) (moved ins a b d) = slice t b d := by
    have hmoved : slice (exchange t ins a b) (moved ins a b b) (moved ins a b d) = slice t b d :=
      slice_exchange_behind le_rfl ha
    rwa [moved, Nat.sub_self, Nat.add_zero] at hmoved
  have hle : a + ins.length ≤ moved ins a b d := Nat.le_add_right _ _
  rw [← slice_append hc (by omega), ← slice_append (Nat.le_add_right a ins.length) hle,
    slice_exchange_before le_rfl ha, hins, hbehind, List.append_assoc]

end Text

namespace Fold

open Outline (Spot IsLine spotsAll ofSource)
open PointMutation.Tree (Within)

variable {σ : Type}

/-- A statement that is to be put in place of a line: what stands there, or one that was read on its
own. -/
inductive Part
  | own
  | written (w : Written)

/-- The snippet that a fold answers for it. -/
def Part.snippet (own : Text) : Part → Snippet
  | .own => .anchored own
  | .written w => w.snippet

/-- A fold that puts some statements in place of the line with the given number and leaves everything
else as it is. It is in `J k` when it has left `k` lines. -/
structure Splices (f : Fold σ) (J : Nat → σ → Prop) (number : Nat) (parts : List Part) :
    Prop where
  enterCompound : ∀ kind k m, J k m → J k (f.enterCompound kind m).2
  leaveCompound : ∀ kind k m, J k m → J k (f.leaveCompound kind m).2
  enterLine : ∀ l k m, J k m → J k (f.enterLine l m).2
  leaveLine : ∀ l k m, J k m → J (k + 1) (f.leaveLine l m).2
  answer : ∀ l k m, J k m → (f.leaveLine l m).1 =
    .ok (if k = number then .flatten (parts.map (Part.snippet l.text)) else .keep)
  enterValue : ∀ site k m, J k m → J k (f.enterValue site m).2
  leaveValue : ∀ site k m, J k m → J k (f.leaveValue site m).2
  leaveExpression : ∀ e k m, J k m → J k (f.leaveExpression e m).2
  keep : ∀ e k m, J k m → (f.leaveExpression e m).1 = .ok none

/-! ## The walk -/

/-- The edit by which a line gives way to statements. -/
def splice (source newline : Text) (parts : List Part) (x : Spot) : Edit :=
  ⟨x.start, x.stop, stack (indentBefore source x.start) newline
    (parts.map (Part.snippet (Text.slice source x.start x.stop)))⟩

/-- A walk that has left some lines. -/
structure Passed (J : Nat → σ → Prop) (source newline : Text) (number : Nat) (parts : List Part)
    (xs : List Spot) (p : Progress σ) : Prop where
  state : J xs.length p.state
  edits : p.edits = (xs[number]?.map (splice source newline parts)).toList

section

variable {f : Fold σ} {J : Nat → σ → Prop} {source newline : Text} {number : Nat}
  {parts : List Part}

theorem Passed.tell {xs : List Spot} {act : StateM σ Unit} (h : ∀ k m, J k m → J k (act m).2) :
    Leads (Passed J source newline number parts xs) (Passed J source newline number parts xs)
      (Fold.tell act) fun _ => True :=
  .tell fun p hp => ⟨h _ p.state hp.state, hp.edits⟩

theorem Passed.andTell {α : Type} {xs ys : List Spot} {act : StateM σ Unit} {w : Walk σ α}
    {Q : α → Prop} (h : ∀ k m, J k m → J k (act m).2)
    (hw : Leads (Passed J source newline number parts xs)
      (Passed J source newline number parts ys) w Q) :
    Leads (Passed J source newline number parts xs) (Passed J source newline number parts ys)
      (Fold.andTell w act) Q :=
  Leads.andTell hw fun p hp => ⟨h _ p.state hp.state, hp.edits⟩

theorem getElem?_concat_of_ne {xs : List Spot} (x : Spot) (h : xs.length ≠ number) :
    (xs ++ [x])[number]? = xs[number]? := by
  rcases Nat.lt_or_gt_of_ne h with h | h
  · rw [List.getElem?_eq_none (by simp; omega), List.getElem?_eq_none h.le]
  · exact List.getElem?_append_left h

/-- No expression is replaced. -/
theorem Splices.ask (hf : f.Splices J number parts) (xs : List Spot) (e : Expression) :
    Leads (Passed J source newline number parts xs) (Passed J source newline number parts xs)
      (Fold.ask (f.leaveExpression e)) fun answer => answer = none := by
  refine .ask fun p hp => ⟨none, (f.leaveExpression e p.state).2, ?_, rfl, ?_, hp.edits⟩
  · exact Prod.ext (hf.keep e _ p.state hp.state) rfl
  · exact hf.leaveExpression e _ p.state hp.state

/-- Behind a line it gives way to the statements if it has their number. -/
theorem Splices.settle (hf : f.Splices J number parts) (hparts : parts ≠ []) (xs : List Spot)
    (x : Spot) :
    Leads (Passed J source newline number parts xs)
      (Passed J source newline number parts (xs ++ [x]))
      (Fold.shown source x.start x.stop >>= fun shown =>
        Fold.ask (f.leaveLine ⟨x.kinds, x.docstring, shown⟩) >>=
          Fold.settle source newline x.start x.stop)
      fun e => e = none := by
  refine .shown source x.start x.stop fun es => ?_
  rintro p ⟨hp, rfl⟩
  let l : Line := ⟨x.kinds, x.docstring, .mk fun _ => Edit.render source p.edits x.start x.stop⟩
  let m := (f.leaveLine l p.state).2
  have hanswer := hf.answer l _ p.state hp.state
  have hstate : J (xs ++ [x]).length m := by
    rw [List.length_append, List.length_singleton]
    exact hf.leaveLine l _ p.state hp.state
  have hwalk : ∀ {answer : Replacement}, (f.leaveLine l p.state).1 = .ok answer →
      (Fold.ask (f.leaveLine l) >>= Fold.settle source newline x.start x.stop) p =
        Fold.settle source newline x.start x.stop answer { p with state := m } := by
    intro answer h
    have hleave : f.leaveLine l p.state = (.ok answer, m) := Prod.ext h rfl
    rw [bind_apply, Fold.ask, hleave]
  refine ⟨none, ?_⟩
  by_cases h : xs.length = number
  · have hedits : p.edits = [] := by
      rw [hp.edits, List.getElem?_eq_none h.le]
      rfl
    have htext : l.text = Text.slice source x.start x.stop := by
      show Edit.render source p.edits x.start x.stop = _
      rw [hedits, Edit.render_nil]
    obtain ⟨part, rest, rfl⟩ := List.exists_cons_of_ne_nil hparts
    rw [if_pos h, htext] at hanswer
    refine ⟨⟨m, [splice source newline (part :: rest) x]⟩, ?_, rfl, hstate, ?_⟩
    · rw [hwalk hanswer, hedits]
      rfl
    · rw [← h, List.getElem?_concat_length]
      rfl
  · rw [if_neg h] at hanswer
    refine ⟨⟨m, p.edits⟩, hwalk hanswer, rfl, hstate, ?_⟩
    rw [getElem?_concat_of_ne x h]
    exact hp.edits

mutual

/-- The walk through an outline leaves its lines. -/
theorem Splices.walk (hf : f.Splices J number parts) (hparts : parts ≠ []) (xs : List Spot)
    (o : Outline) :
    Leads (Passed J source newline number parts xs)
      (Passed J source newline number parts (xs ++ Outline.spots o))
      (Fold.walk f source newline o) fun e => e = none := by
  cases o with
  | expression kind start stop inner =>
    rw [Fold.walk, Outline.spots]
    refine (hf.walkAll hparts xs inner).bind fun _ _ => .shown source start stop fun es => ?_
    refine Leads.bind (J := Passed J source newline number parts (xs ++ spotsAll inner))
      (Q := fun answer => answer = none) ?_ ?_
    · exact fun p hp => hf.ask _ _ p hp.1
    · rintro _ rfl
      exact .pure rfl
  | value site inner =>
    rw [Fold.walk, Outline.spots]
    refine (Passed.tell (hf.enterValue site)).bind fun _ _ => ?_
    exact (Passed.andTell (hf.leaveValue site) (hf.walk hparts xs inner)).bind fun _ _ => .pure rfl
  | line kinds docstring start stop inner =>
    rw [Fold.walk, Outline.spots, ← List.append_assoc]
    refine .shown source start stop fun es => ?_
    refine Leads.bind (J := Passed J source newline number parts xs) (.tell ?_) fun _ _ => ?_
    · exact fun p hp => ⟨hf.enterLine _ _ p.state hp.1.state, hp.1.edits⟩
    · refine (hf.walkAll hparts xs inner).bind fun _ _ => ?_
      exact hf.settle hparts _ ⟨kinds, docstring, start, stop⟩
  | compound kind inner =>
    rw [Fold.walk, Outline.spots]
    refine (Passed.tell (hf.enterCompound kind)).bind fun _ _ => ?_
    exact (Passed.andTell (hf.leaveCompound kind) (hf.walkAll hparts xs inner)).bind fun _ _ => .pure rfl
  | block items =>
    rw [Fold.walk, Outline.spots]
    refine (hf.walkAll hparts xs items).bind fun es hes => ?_
    rw [allGone_of_none hes]
    exact .pure rfl
  | group inner =>
    rw [Fold.walk, Outline.spots]
    exact (hf.walkAll hparts xs inner).bind fun _ _ => .pure rfl

theorem Splices.walkAll (hf : f.Splices J number parts) (hparts : parts ≠ []) (xs : List Spot)
    (os : List Outline) :
    Leads (Passed J source newline number parts xs)
      (Passed J source newline number parts (xs ++ spotsAll os))
      (Fold.walkAll f source newline os) fun es => ∀ e ∈ es, e = none := by
  cases os with
  | nil =>
    rw [Fold.walkAll, Outline.spotsAll, List.append_nil]
    exact .pure (by simp)
  | cons o os =>
    rw [Fold.walkAll, Outline.spotsAll, ← List.append_assoc]
    refine (hf.walk hparts xs o).bind fun e he => ?_
    refine (hf.walkAll hparts _ os).bind fun es hes => ?_
    exact .pure (by simpa [he] using hes)

end

end

/-! ## What comes of it -/

/-- The text in which a line has given way to statements. -/
def spliced (s : Source) (parts : List Part) (x : Spot) : Text :=
  Text.exchange s.text (splice s.text s.newline parts x).text x.start x.stop

/-- The source in which a line has given way to statements, unless it cannot be read. -/
def splicedAt (s : Source) (parts : List Part) (x : Spot) : Except Fault Source :=
  (Source.read (spliced s parts x)).mapError fun e =>
    .mismatch (splice s.text s.newline parts x).text (Fault.describe (.unparsable e))

/-- The blanks in front of a line. -/
def indentAt (s : Source) (x : Spot) : Text := Text.lastLine (s.text.take x.start)

/-- The rows of a statement that is put in place of a line. -/
def rowsAt (s : Source) (x : Spot) (part : Part) : List Text :=
  (part.snippet (Text.slice s.text x.start x.stop)).rows (indentAt s x)

/-- How a node of a source is found again when a line has given way to a text. -/
inductive IsKept (s : Source) (x : Spot) (ins : Text) (t : Tree) : Prop
  /-- It is part of the line, and stands wherever the line itself is put. -/
  | line (start : x.start ≤ t.start) (stop : t.stop ≤ x.stop)
      (text : Text.StandsIn (rowsAt s x .own) 0 ((indentAt s x).length + (t.start - x.start))
        (Text.slice s.text t.start t.stop))
  | before (place : t.stop ≤ x.start)
      (text : Text.slice (Text.exchange s.text ins x.start x.stop) t.start t.stop =
        Text.slice s.text t.start t.stop)
  | behind (place : x.stop ≤ t.start)
      (text : Text.slice (Text.exchange s.text ins x.start x.stop)
          (Text.moved ins x.start x.stop t.start) (Text.moved ins x.start x.stop t.stop) =
        Text.slice s.text t.start t.stop)
  /-- It is around the body of the line. -/
  | around {b : Tree} {us : List Tree} (line : IsLine b us x) (body : Within t b)
      (text : Text.slice (Text.exchange s.text ins x.start x.stop) t.start
          (Text.moved ins x.start x.stop t.stop) =
        Text.slice s.text t.start x.start ++ ins ++ Text.slice s.text x.stop t.stop)

/-- A text in which a line of a source has given way to statements. -/
structure IsSpliced (s : Source) (parts : List Part) (x : Spot) (t : Text) : Prop where
  /-- The line is made of statements of the file or of a body. -/
  statements : ∃ b us, Within s.tree b ∧ (b = s.tree ∨ b.kind = .block) ∧ IsLine b us x
  /-- The rows of the statements stand one below the other between what stood in front of the line
  and behind it. -/
  text : t = s.text.take (Text.lineStart s.text x.start) ++
    s.newline.intercalate (parts.flatMap (rowsAt s x)) ++ s.text.drop x.stop
  /-- What stands on one line of a statement stands in the same row of it, as far behind the
  indentation as it was from where the line begins. -/
  written : ∀ w, .written w ∈ parts → ∀ u, Within w.statement u →
    Text.OnOneLine (Text.slice w.text u.start u.stop) →
      Text.StandsIn (rowsAt s x (.written w)) (w.snippet.text.row (w.offset u))
        ((indentAt s x).length + w.snippet.text.column (w.offset u))
        (Text.slice w.text u.start u.stop)
  /-- Every node of the source is found again. -/
  kept : ∀ u, Within s.tree u → IsKept s x (splice s.text s.newline parts x).text u

variable {f : Fold σ} {J : Nat → σ → Prop} {number : Nat} {parts : List Part} {s : Source}
  {x : Spot}

theorem bounds_of_mem_spots (hx : x ∈ spotsAll (ofSource s)) :
    x.start ≤ x.stop ∧ x.stop ≤ s.text.length :=
  ((Outline.spotsIn_ofSource s).bounds.1 x hx).2

/-- A fold that puts statements in place of a line gives the source with them in its place. -/
theorem Splices.run_eq (hf : f.Splices J number parts) (hparts : parts ≠ []) {m : σ} (hm : J 0 m)
    (hx : (spotsAll (ofSource s))[number]? = some x) : (f.run s m).1 = splicedAt s parts x := by
  obtain ⟨es, p, hwalk, -, hp⟩ : ∃ es p, Fold.walkAll f s.text s.newline (ofSource s) ⟨m, []⟩ =
      (.ok es, p) ∧ (∀ e ∈ es, e = none) ∧
        Passed J s.text s.newline number parts ([] ++ spotsAll (ofSource s)) p :=
    hf.walkAll hparts [] (ofSource s) ⟨m, []⟩ ⟨hm, rfl⟩
  have hedits : p.edits = [splice s.text s.newline parts x] := by
    rw [hp.edits, List.nil_append, hx]
    rfl
  have hrun : (f.run s m).1 = rewritten s [splice s.text s.newline parts x] := by
    simp only [run, runOver, edits, hwalk, Except.map, Except.bind, hedits]
  rw [hrun]
  exact rewritten_singleton (bounds_of_mem_spots (List.mem_of_getElem? hx)).2

/-- A line lies within the body that it belongs to. -/
theorem bounds_of_isLine {b : Tree} {us : List Tree} (h : IsLine b us x) (hb : b.Nested) :
    b.start ≤ x.start ∧ x.stop ≤ b.stop := by
  obtain ⟨hconsecutive, hholds⟩ := h
  obtain ⟨first, hfirst, hstart⟩ := Option.map_eq_some_iff.mp hholds.start
  obtain ⟨last, hlast, hstop⟩ := Option.map_eq_some_iff.mp hholds.stop
  have hmem := hb.parts.of_mem (hconsecutive.subset (List.mem_of_head? hfirst))
  have hmem' := hb.parts.of_mem (hconsecutive.subset (List.mem_of_getLast? hlast))
  exact ⟨hstart ▸ hmem.1, hstop ▸ hmem'.2.1⟩

/-- A node of the source is part of the line, around its body, or apart from it. -/
theorem isKept_of_within (ins : Text) (hx : x ∈ spotsAll (ofSource s)) {t : Tree}
    (ht : Within s.tree t) : IsKept s x ins t := by
  obtain ⟨b, us, hb, -, hline⟩ := Outline.isLine_of_mem_spots hx
  obtain ⟨hspan, hstop⟩ := bounds_of_mem_spots hx
  obtain ⟨-, -, hnested⟩ := s.nested
  have hstart : x.start ≤ s.text.length := hspan.trans hstop
  rcases hline.cases hnested hb ht with ⟨htstart, htstop⟩ | hbody | hbefore | hbehind
  · refine .line htstart htstop ⟨_, rfl, ?_⟩
    have hle := (ht.spec hnested).1.le
    have hown : Text.slice (Text.slice s.text x.start x.stop) (t.start - x.start)
        (t.stop - x.start) = Text.slice s.text t.start t.stop := by
      rw [Text.slice_slice (by omega), Nat.add_sub_cancel' htstart, Nat.add_sub_cancel' (by omega)]
    rw [Nat.add_assoc, Text.slice_append_right, Text.length_slice (by omega),
      show t.start - x.start + (t.stop - t.start) = t.stop - x.start by omega, hown]
  · have hbounds := bounds_of_isLine hline (hb.spec hnested).1
    have hin := (hbody.spec (ht.spec hnested).1).2
    exact .around hline hbody (Text.slice_exchange_around (by omega) hstart)
  · exact .before hbefore (Text.slice_exchange_before hbefore hstart)
  · exact .behind hbehind (Text.slice_exchange_behind hbehind hstart)

/-- What is put in place of a line that has only white space in front of it is made of rows. -/
theorem spliced_eq_rows (hparts : parts ≠ []) (hx : x.start ≤ s.text.length)
    (hblank : Text.isBlank (indentAt s x) = true) :
    spliced s parts x = s.text.take (Text.lineStart s.text x.start) ++
      s.newline.intercalate (parts.flatMap (rowsAt s x)) ++ s.text.drop x.stop := by
  have hindent : indentBefore s.text x.start = indentAt s x := if_pos hblank
  have hrows : parts.flatMap (rowsAt s x) =
      (parts.map (Part.snippet (Text.slice s.text x.start x.stop))).flatMap
        (Snippet.rows (indentAt s x)) := by
    rw [List.flatMap_map]
    rfl
  obtain ⟨htake, -, -⟩ := Text.take_lineStart hx
  have hfront : s.text.take (Text.lineStart s.text x.start) ++ indentAt s x =
      s.text.take x.start := htake.symm
  rw [hrows, Snippet.intercalate_flatMap_rows (by simpa using hparts), ← List.append_assoc, hfront,
    ← hindent]
  rfl

theorem isSpliced_of_mem_spots (hparts : parts ≠ []) (hx : x ∈ spotsAll (ofSource s))
    (hblank : Text.isBlank (indentAt s x) = true) :
    IsSpliced s parts x (spliced s parts x) := by
  obtain ⟨hspan, hstop⟩ := bounds_of_mem_spots hx
  exact
    { statements := Outline.isLine_of_mem_spots hx
      text := spliced_eq_rows hparts (hspan.trans hstop) hblank
      written := fun w _ u hu hline => w.standsIn_rows (indentAt s x) hu hline
      kept := fun u hu => isKept_of_within _ hx hu }

/-- The line alone is put back as it stands. -/
theorem splicedAt_own (hx : x ∈ spotsAll (ofSource s)) : splicedAt s [.own] x = .ok s := by
  obtain ⟨hspan, hstop⟩ := bounds_of_mem_spots hx
  have htext : spliced s [.own] x = s.text := by
    have hsplice : (splice s.text s.newline [.own] x).text = Text.slice s.text x.start x.stop := by
      rw [splice, stack, List.map_singleton, List.map_singleton, List.intercalate_singleton]
      rfl
    rw [spliced, hsplice, Text.exchange, List.append_assoc, Text.slice_drop hspan hstop,
      List.take_append_drop]
  rw [splicedAt, htext, s.read_text]
  rfl

theorem text_of_splicedAt {s' : Source} (h : splicedAt s parts x = .ok s') :
    s'.text = spliced s parts x := by
  rw [splicedAt] at h
  cases hread : Source.read (spliced s parts x) with
  | error e =>
    rw [hread] at h
    cases h
  | ok s'' =>
    rw [hread] at h
    cases h
    exact Source.text_of_read hread

/-- The fold that puts statements in place of the line with the given number. Its state is how many
lines it has left. -/
def splicing (number : Nat) (parts : List Part) : Fold Nat where
  leaveLine l := fun k =>
    (.ok (if k = number then .flatten (parts.map (Part.snippet l.text)) else .keep), k + 1)

theorem splicing_splices (number : Nat) (parts : List Part) :
    (splicing number parts).Splices (fun k m => m = k) number parts where
  enterCompound _ _ _ h := h
  leaveCompound _ _ _ h := h
  enterLine _ _ _ h := h
  leaveLine _ _ _ h := congrArg (· + 1) h
  answer _ _ _ h := h ▸ rfl
  enterValue _ _ _ h := h
  leaveValue _ _ _ h := h
  leaveExpression _ _ _ h := h
  keep _ _ _ _ := rfl

/-- The texts of the quotations in a tree of a text. -/
def quotationsIn (text : Text) (t : Tree) : List Text :=
  (t.postorder.filter fun u => u.kind == .string).map fun u => Text.slice text u.start u.stop

/-- The texts of the quotations of a source. -/
def quotations (s : Source) : List Text := quotationsIn s.text s.tree

theorem quotations_of_readTree {s : Source} {ts : List Text}
    (h : (Syntax.readTree s.text).map (quotationsIn s.text) = some ts) : quotations s = ts :=
  Source.tree_of_readTree h

end Fold

end PointMutation
