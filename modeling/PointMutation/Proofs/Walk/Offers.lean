import PointMutation.Proofs.Mutator.Passes
import PointMutation.Proofs.Walk.Protocol
import PointMutation.Proofs.Walk.Rows

/-!
# The lines that a walk offers

A walk offers the simple statements of a file and of its bodies, put together to lines by the rows
that they stand in. It passes over a body if something other than spaces and tabs stands in front of
its first statement on the same physical line. The main statement is `Fold.lines_offered`.

So a body whose first statement stands behind other blanks on a line of its own is passed over as if
it followed its colon (`Fold.indented_body_not_offered`).
-/

namespace PointMutation

namespace Fold

open Outline (Spot spotsAll ofSource offered rows spotOf Divided isInline)

/-! ## What is told of lines -/

/-- What a walk tells the fold of a line. -/
def lineNotes (l : Address × Spot) : List Note :=
  [⟨l.1, .enter (.line l.2.kinds l.2.docstring)⟩, ⟨l.1, .leave (.line l.2.kinds l.2.docstring)⟩]

/-- The line at an address. -/
def IsLineAt (os : List Outline) (l : Address × Spot) : Prop :=
  ∃ inner, outlineAt os l.1 = some (.line l.2.kinds l.2.docstring l.2.start l.2.stop inner)

mutual

/-- Within lines and values there are no lines. -/
theorem no_lines {sc : Scope} (hsc : sc ≠ .statements) {o : Outline} (h : Fits sc o) (a : Address) :
    Outline.spots o = [] ∧ (score a o).filter (·.event.isLine) = [] := by
  cases o with
  | expression kind start stop inner =>
    obtain ⟨hspots, hscore⟩ := no_linesFrom (by decide) h a 0
    rw [Outline.spots, score, List.filter_append, hscore]
    exact ⟨hspots, rfl⟩
  | value site inner =>
    obtain ⟨hspots, hscore⟩ := no_lines (by decide) h.2 (0 :: a)
    rw [Outline.spots, score, ← List.singleton_append, List.filter_append, List.filter_append,
      hscore]
    exact ⟨hspots, rfl⟩
  | line kinds docstring start stop inner => exact absurd h.1 hsc
  | compound kind inner => exact absurd h.1 hsc
  | block items =>
    rw [Outline.spots, score]
    exact no_linesFrom hsc h a 0
  | group inner =>
    rw [Outline.spots, score]
    exact no_linesFrom hsc h a 0

theorem no_linesFrom {sc : Scope} (hsc : sc ≠ .statements) {os : List Outline}
    (h : FitsAll sc os) (a : Address) (i : Nat) :
    spotsAll os = [] ∧ (scoreFrom a i os).filter (·.event.isLine) = [] := by
  cases os with
  | nil =>
    rw [spotsAll, scoreFrom]
    exact ⟨rfl, rfl⟩
  | cons o os =>
    obtain ⟨hspots, hscore⟩ := no_lines hsc h.1 (i :: a)
    obtain ⟨hspots', hscore'⟩ := no_linesFrom hsc h.2 a (i + 1)
    rw [spotsAll, scoreFrom, List.filter_append, hspots, hscore, hspots', hscore']
    exact ⟨rfl, rfl⟩

end

/-- Whether notes are what a walk through outlines tells of some of their lines, in order. -/
def TellsOf (root : List Outline) (xs : List Spot) (ns : List Note) : Prop :=
  ∃ ls : List (Address × Spot), ls.map Prod.snd = xs ∧ (∀ l ∈ ls, IsLineAt root l) ∧
    ns = ls.flatMap lineNotes

section

variable {root : List Outline}

theorem tellsOf_nil : TellsOf root [] [] := ⟨[], rfl, by simp, rfl⟩

theorem TellsOf.append {xs ys : List Spot} {ns ms : List Note} (h : TellsOf root xs ns)
    (h' : TellsOf root ys ms) : TellsOf root (xs ++ ys) (ns ++ ms) := by
  obtain ⟨ls, rfl, hat, rfl⟩ := h
  obtain ⟨ls', rfl, hat', rfl⟩ := h'
  refine ⟨ls ++ ls', List.map_append, fun l hl => ?_, List.flatMap_append.symm⟩
  exact (List.mem_append.mp hl).elim (hat l) (hat' l)

theorem tellsOf_of_not_statements {sc : Scope} (hsc : sc ≠ .statements) {o : Outline}
    (h : Fits sc o) (a : Address) :
    TellsOf root (Outline.spots o) ((score a o).filter (·.event.isLine)) := by
  obtain ⟨hspots, hscore⟩ := no_lines hsc h a
  rw [hspots, hscore]
  exact tellsOf_nil

theorem tellsOf_line {a : Address} {kinds : List Kind} {docstring : Bool} {start stop : Nat}
    {inner : List Outline} (h : outlineAt root a = some (.line kinds docstring start stop inner))
    (hfits : FitsAll .phrases inner) :
    TellsOf root (Outline.spots (.line kinds docstring start stop inner))
      ((score a (.line kinds docstring start stop inner)).filter (·.event.isLine)) := by
  obtain ⟨hspots, hscore⟩ := no_linesFrom (by decide) hfits a 0
  refine ⟨[(a, ⟨kinds, docstring, start, stop⟩)], ?_, by simpa using ⟨inner, h⟩, ?_⟩
  · rw [Outline.spots, hspots]
    rfl
  · rw [score, ← List.singleton_append, List.filter_append, List.filter_append, hscore]
    rfl

/-- A walk comes by the lines of outlines in order. -/
theorem tellsOf_scoreFrom {a : Address} {i : Nat} {os : List Outline}
    (hos : (innerAt root a).drop i = os) (h : FitsAll .statements os) :
    TellsOf root (spotsAll os) ((scoreFrom a i os).filter (·.event.isLine)) := by
  induction os using Outline.induct generalizing a i with
  | nil =>
    rw [spotsAll, scoreFrom]
    exact tellsOf_nil
  | cons o os ihinner ihos =>
    have hfirst : outlineAt root (i :: a) = some o := by
      rw [outlineAt, ← Nat.add_zero i, ← List.getElem?_drop, hos]
      rfl
    have hrest : (innerAt root a).drop (i + 1) = os := by
      rw [← List.drop_drop, hos]
      rfl
    have hinner : (innerAt root (i :: a)).drop 0 = o.inner :=
      List.drop_zero.trans (innerAt_eq hfirst)
    rw [spotsAll, scoreFrom, List.filter_append]
    refine .append ?_ (ihos hrest h.2)
    have ho := h.1
    cases o with
    | expression kind start stop inner =>
      have hfits : Fits .expressions (.expression kind start stop inner) := ho
      exact tellsOf_of_not_statements (by decide) hfits _
    | value site inner =>
      have hfits : Fits .phrases (.value site inner) := ⟨by decide, ho.2⟩
      exact tellsOf_of_not_statements (by decide) hfits _
    | line kinds docstring start stop inner => exact tellsOf_line hfirst ho.2
    | compound kind inner =>
      rw [Outline.spots, score, ← List.singleton_append, List.filter_append, List.filter_append]
      exact (List.append_nil _).symm ▸ ihinner hinner ho.2
    | block items =>
      rw [Outline.spots, score]
      exact ihinner hinner ho
    | group inner =>
      rw [Outline.spots, score]
      exact ihinner hinner ho

end

/-! ## Folds that do not fail -/

/-- A fold whose hooks do not fail. -/
structure Unfailing {σ : Type} (f : Fold σ) : Prop where
  leaveLine : ∀ l m, (f.leaveLine l m).1.isOk = true
  leaveExpression : ∀ e m, (f.leaveExpression e m).1.isOk = true

section

variable {σ : Type} {f : Fold σ}

/-- No hook fails that is written down. -/
theorem Unfailing.keeps (hf : f.Unfailing) :
    (noting f).Keeps fun m => ∀ c ∈ m.2, c.failed = false := by
  have htold : ∀ {e : Event} {act : StateM σ Unit} (m : σ × List Call),
      (∀ c ∈ m.2, c.failed = false) → ∀ c ∈ (noteTold e act m).2.2, c.failed = false := by
    intro e act m hm c hc
    rcases List.mem_append.mp hc with hc | hc
    · exact hm c hc
    · rw [List.mem_singleton.mp hc]
  have hasked : ∀ {α : Type} {e : Event} {act : ExceptT Fault (StateM σ) α} (m : σ × List Call),
      (act m.1).1.isOk = true → (∀ c ∈ m.2, c.failed = false) →
        ∀ c ∈ (noteAsked e act m).2.2, c.failed = false := by
    intro α e act m hact hm c hc
    rcases List.mem_append.mp hc with hc | hc
    · exact hm c hc
    · rw [List.mem_singleton.mp hc]
      exact (congrArg (!·) hact :)
  exact
    { enterCompound := fun _ m hm => htold m hm
      leaveCompound := fun _ m hm => htold m hm
      enterLine := fun _ m hm => htold m hm
      leaveLine := fun l m hm => hasked m (hf.leaveLine l m.1) hm
      enterValue := fun _ m hm => htold m hm
      leaveValue := fun _ m hm => htold m hm
      leaveExpression := fun e m hm => hasked m (hf.leaveExpression e m.1) hm }

/-- A walk of a fold that does not fail tells it the whole score. -/
theorem Unfailing.edits_noting (hf : f.Unfailing) (source newline : Text) (m : σ)
    {os : List Outline} (h : FitsAll .statements os) :
    ∃ es, edits (noting f) source newline os (m, []) =
      (.ok es, ((edits f source newline os m).2, calls (scoreFrom [] 0 os))) := by
  obtain ⟨heard, hedits, hheard⟩ := Fold.edits_noting f source newline m h
  have hkeeps : Stays (fun m : σ × List Call => ∀ c ∈ m.2, c.failed = false)
      (Fold.walkAll (noting f) source newline os) := hf.keeps.walkAll os
  have hfailed : ∀ c ∈ heard, c.failed = false := by
    have hstate : (edits (noting f) source newline os (m, [])).2.2 = heard := by rw [hedits]
    rw [← hstate]
    exact hkeeps ⟨(m, []), []⟩ (by simp)
  generalize (edits f source newline os m).1 = answer at hedits hheard
  cases hheard with
  | ok es => exact ⟨es, hedits⟩
  | @error e done n opened hplan hopens =>
    have hfalse := hfailed ⟨n.event, true⟩ (by simp)
    cases hfalse

end

/-! ## The lines that are offered -/

/-- How the lines of a source are offered to a fold. -/
structure Offers (s : Source) (told : List Note) (ls : List (Address × Spot)) : Prop where
  /-- Lines are entered and left one after the other. -/
  events : told.filter (·.event.isLine) = ls.flatMap lineNotes
  lines : ∀ l ∈ ls, IsLineAt (ofSource s) l
  order : (ls.map Prod.snd).Pairwise fun x y => x.stop ≤ y.start
  /-- There is one line for each row of simple statements of the file and of the bodies that are
  not passed over. -/
  rows : (ls.map Prod.snd).Perm ((offered s).flatMap fun b => (rows s.text b).map spotOf)
  divided : ∀ b ∈ offered s, Divided s.text b (Outline.rows s.text b)
  /-- A body is passed over if something other than spaces and tabs stands in front of its first
  statement on the same physical line. -/
  inline : ∀ b ∈ Tree.bodiesWithin s.tree.children, ∀ first, b.parts.head? = some first →
    (isInline s.text b.children = true ↔
      ∃ c ∈ Text.lastLine (s.text.take first.start), c ≠ ' ' ∧ c ≠ '\t')
  /-- So are all bodies that follow a colon in the same row. -/
  colon : ∀ b ∈ Tree.bodiesWithin s.tree.children, ∀ first, b.parts.head? = some first →
    ∀ p < first.start, s.text[p]? = some ':' → s.text.row p = s.text.row first.start →
      isInline s.text b.children = true

/-- A fold that does not fail is offered, in the order of the text, one line for each row of simple
statements of the file and of the bodies that are not passed over. Passed over are the bodies that
follow their colon in the same row, and all others whose first statement stands behind something
other than spaces and tabs on its physical line. -/
theorem lines_offered {σ : Type} {f : Fold σ} (hf : f.Unfailing) (s : Source) (m : σ) :
    ∃ es told ls, edits (noting f) s.text s.newline (ofSource s) (m, []) =
        (.ok es, ((edits f s.text s.newline (ofSource s) m).2, calls told)) ∧
      Offers s told ls := by
  have hdrawn : Outline.Drawn .statements s.tree.children (ofSource s) :=
    Outline.drawn_ofStatements s.text false [] s.tree.children (by simp)
  obtain ⟨es, hedits⟩ := hf.edits_noting s.text s.newline m hdrawn.fits
  have hroot : (innerAt (ofSource s) []).drop 0 = ofSource s := rfl
  obtain ⟨ls, hls, hat, hevents⟩ := tellsOf_scoreFrom hroot hdrawn.fits
  refine ⟨es, scoreFrom [] 0 (ofSource s), ls, hedits, ?_⟩
  exact
    { events := hevents
      lines := hat
      order := hls ▸ (Outline.spotsIn_ofSource s).bounds.2
      rows := hls ▸ Outline.spotsAll_perm_ofSource s
      divided := fun b hb => Outline.divided_rows s.text (Outline.nested_of_mem_offered hb)
      inline := fun b _ first hfirst => Outline.isInline_iff hfirst
      colon := fun b hb first hfirst p hp => by
        obtain ⟨t, ht, hwithin, -⟩ := Tree.exists_of_mem_bodiesWithin hb
        obtain ⟨-, hstop, htnested⟩ := s.nestedIn.of_mem ht
        obtain ⟨hbnested, -, hbstop⟩ := hwithin.spec htnested
        have hmem : first ∈ b.children :=
          Tree.mem_children_of_mem_parts (List.mem_of_mem_head? hfirst)
        obtain ⟨-, hfirststop, hfirstnested⟩ := hbnested.children.of_mem hmem
        have hle := hfirstnested.le
        exact Outline.isInline_of_colon hfirst (by omega) hp }

/-- Of a body behind its colon, a body with two rows and the file, all but the first one are
offered. -/
theorem lines_offered_of_bodies :
    ∃ (s : Source) (es : List Edit) (told : List Note) (ls : List (Address × Spot)),
      s.text = "if a: b\nelse:\n    c; d\n    e\n".toList ∧ ({} : Fold Unit).Unfailing ∧
      edits (noting {}) s.text s.newline (ofSource s) ((), []) = (.ok es, ((), calls told)) ∧
      Offers s told ls ∧ (ls.map Prod.snd).Perm
        [⟨[.expressionStatement, .expressionStatement], false, 18, 22⟩,
          ⟨[.expressionStatement], false, 27, 28⟩] := by
  obtain ⟨s, hs⟩ := Source.exists_of_isOk (t := "if a: b\nelse:\n    c; d\n    e\n".toList)
    (by decide +kernel)
  have hunfailing : ({} : Fold Unit).Unfailing := ⟨fun _ _ => rfl, fun _ _ => rfl⟩
  obtain ⟨es, told, ls, hedits, hoffers⟩ := lines_offered hunfailing s ()
  refine ⟨s, es, told, ls, hs, hunfailing, hedits, hoffers, ?_⟩
  have hspots : (offered s).flatMap (fun b => (Outline.rows s.text b).map spotOf) =
      [⟨[.expressionStatement, .expressionStatement], false, 18, 22⟩,
        ⟨[.expressionStatement], false, 27, 28⟩] :=
    Source.tree_of_readTree (f := fun t =>
      (t :: (Tree.bodiesWithin t.children).filter fun b => !isInline s.text b.children).flatMap
        fun b => (Outline.rows s.text b).map spotOf) (by rw [hs]; decide +kernel)
  exact hspots ▸ hoffers.rows

/-- If no line is in a score, the fold hears of no line. -/
theorem not_isLine_of_heard {α : Type} {st base : Opened} {plan : List Note}
    {answer : Except Fault α} {heard : List Call} (h : Heard st base plan answer heard)
    (hplan : ∀ n ∈ plan, ¬ n.event.isLine = true) : ∀ c ∈ heard, c.event.isLine = false := by
  have hcalls : ∀ {ns : List Note}, (∀ n ∈ ns, ¬ n.event.isLine = true) →
      ∀ c ∈ calls ns, c.event.isLine = false := by
    intro ns hns c hc
    obtain ⟨n, hn, rfl⟩ := List.mem_map.mp hc
    simpa using hns n hn
  cases h with
  | ok a => exact hcalls hplan
  | @error e done n opened hfront hopens =>
    intro c hc
    rcases List.mem_append.mp hc with hc | hc
    · exact hcalls (fun n hn => hplan n (hfront.subset (by simp [hn]))) c hc
    rcases List.mem_cons.mp hc with rfl | hc
    · simpa using hplan n (hfront.subset (by simp))
    · refine hcalls (fun n hn => ?_) c hc
      obtain ⟨b, he, -, hb⟩ := mem_closing.mp hn
      simp [he, Event.isLine, hb]

/-- The body stands on a line of its own behind a form feed. Its statement begins in a later row
than the colon, and is not offered to any fold. -/
theorem indented_body_not_offered :
    ∃ (s : Source) (b u : Tree), s.text = "if a:\n\x0c    b\n".toList ∧
      b ∈ Tree.bodiesWithin s.tree.children ∧ b.parts = [u] ∧ u.kind.isSimple = true ∧
      s.text[4]? = some ':' ∧ s.text.row 4 < s.text.row u.start ∧
      ∀ {σ : Type} (f : Fold σ) (m : σ),
        ∀ c ∈ (edits (noting f) s.text s.newline (ofSource s) (m, [])).2.2,
          c.event.isLine = false := by
  obtain ⟨s, hs⟩ := Source.exists_of_isOk (t := "if a:\n\x0c    b\n".toList) (by decide +kernel)
  have hbodies : (Tree.bodiesWithin s.tree.children).map
      (fun b => b.parts.map fun u => (u.kind, u.start)) = [[(.expressionStatement, 11)]] :=
    Source.tree_of_readTree (f := fun t => (Tree.bodiesWithin t.children).map
      fun b => b.parts.map fun u => (u.kind, u.start)) (by rw [hs]; decide +kernel)
  have hscore : (scoreFrom [] 0 (ofSource s)).filter (·.event.isLine) = [] :=
    Source.tree_of_readTree (f := fun t =>
      (scoreFrom [] 0 (Outline.ofStatements s.text false none t.children)).filter
        (·.event.isLine)) (by rw [hs]; decide +kernel)
  obtain ⟨b, hb, hparts⟩ := List.map_eq_singleton_iff.mp hbodies
  obtain ⟨u, hu, hkind⟩ := List.map_eq_singleton_iff.mp hparts
  obtain ⟨hkind, hstart⟩ := Prod.mk.inj hkind
  have hsimple : u.kind.isSimple = true := by rw [hkind]; rfl
  have hrow : s.text.row 4 < s.text.row u.start := by
    rw [hs, hstart]
    decide
  refine ⟨s, b, u, hs, by simp [hb], hu, hsimple, by rw [hs]; rfl, hrow, fun f m => ?_⟩
  have hdrawn : Outline.Drawn .statements s.tree.children (ofSource s) :=
    Outline.drawn_ofStatements s.text false [] s.tree.children (by simp)
  obtain ⟨heard, hedits, hheard⟩ := edits_noting f s.text s.newline m hdrawn.fits
  rw [hedits]
  exact not_isLine_of_heard hheard (List.filter_eq_nil_iff.mp hscore)

end Fold

end PointMutation
