import PointMutation.Proofs.Insertion.Lines
import PointMutation.Proofs.Removal.Bodies
import PointMutation.Proofs.Removal.Places
import PointMutation.Proofs.Text.Rows

/-!
# Statements in one row

The simple statements of a file or a body are put together to lines by the rows that they stand in
(`Outline.Divided`, `Outline.divided_rows`). An outline holds these lines for the file and for the
bodies that `Tree.bodiesWithin` lists (`Outline.spotsAll_perm_ofSource`), apart from bodies that
have something other than spaces and tabs in front of their first statement on the same physical
line (`Outline.isInline_iff`).
-/

namespace PointMutation

namespace Outline

/-! ## Rows of statements -/

/-- Whether a statement begins in the row in which others end. -/
def continues (text : Text) (us : List Tree) (t : Tree) : Bool :=
  us.getLast?.any fun u => Text.breaks (Text.slice text u.stop t.start) == 0

/-- A row if there is any statement in it. -/
def rowIfAny (us : List Tree) : List (List Tree) := if us.isEmpty then [] else [us]

/-- The rows of simple statements among some statements behind the row `us`. -/
def rowsFrom (text : Text) : List Tree → List Tree → List (List Tree)
  | us, [] => rowIfAny us
  | us, t :: ts =>
    if t.kind.isSimple then
      if continues text us t then rowsFrom text (us ++ [t]) ts
      else rowIfAny us ++ rowsFrom text [t] ts
    else rowIfAny us ++ rowsFrom text [] ts

/-- The rows of simple statements of a file or a body. -/
def rows (text : Text) (b : Tree) : List (List Tree) := rowsFrom text [] b.parts

/-- How the simple statements of a file or a body are put together to lines. -/
structure Divided (text : Text) (b : Tree) (ls : List (List Tree)) : Prop where
  /-- Every simple statement is in exactly one line. -/
  flatten : ls.flatten = b.parts.filter (·.kind.isSimple)
  consecutive : ∀ us ∈ ls, us ≠ [] ∧ us <:+: b.parts
  /-- Simple statements side by side are in one line if the second one begins in the row in which
  the first one ends. -/
  together : ∀ t u, [t, u] <:+: b.parts → t.kind.isSimple = true → u.kind.isSimple = true →
    ((∃ us ∈ ls, [t, u] <:+: us) ↔ text.row u.start = text.row t.stop)
  /-- Otherwise it begins in a later row. -/
  apart : ∀ t u, [t, u] <:+: b.parts → t.kind.isSimple = true → u.kind.isSimple = true →
    ((¬ ∃ us ∈ ls, [t, u] <:+: us) ↔ text.row t.stop < text.row u.start)

theorem flatten_rowIfAny (us : List Tree) : (rowIfAny us).flatten = us := by
  cases us <;> simp [rowIfAny]

theorem mem_rowIfAny {us r : List Tree} : r ∈ rowIfAny us ↔ r = us ∧ us ≠ [] := by
  cases us <;> simp [rowIfAny]

section

variable {text : Text}

theorem flatten_rowsFrom (us ts : List Tree) :
    (rowsFrom text us ts).flatten = us ++ ts.filter (·.kind.isSimple) := by
  induction ts generalizing us with
  | nil => rw [rowsFrom, flatten_rowIfAny, List.filter_nil, List.append_nil]
  | cons t ts ih =>
    rw [rowsFrom]
    split
    · next hsimple =>
      have hfilter : (t :: ts).filter (·.kind.isSimple) = t :: ts.filter (·.kind.isSimple) := by
        simp [hsimple]
      rw [hfilter]
      split
      · rw [ih, List.append_assoc, List.singleton_append]
      · rw [List.flatten_append, flatten_rowIfAny, ih, List.singleton_append]
    · next hsimple =>
      have hfilter : (t :: ts).filter (·.kind.isSimple) = ts.filter (·.kind.isSimple) := by
        simp [hsimple]
      rw [hfilter, List.flatten_append, flatten_rowIfAny, ih, List.nil_append]

theorem infix_of_mem_rowsFrom {us ts r : List Tree} (h : r ∈ rowsFrom text us ts) :
    r ≠ [] ∧ r <:+: us ++ ts := by
  have hfirst : ∀ {us ts : List Tree}, r ∈ rowIfAny us → r ≠ [] ∧ r <:+: us ++ ts := by
    intro us ts h
    obtain ⟨rfl, hne⟩ := mem_rowIfAny.mp h
    exact ⟨hne, (List.prefix_append r ts).isInfix⟩
  induction ts generalizing us with
  | nil => exact hfirst h
  | cons t ts ih =>
    rw [rowsFrom] at h
    split at h
    · split at h
      · obtain ⟨hne, hr⟩ := ih h
        rw [List.append_assoc] at hr
        exact ⟨hne, hr⟩
      · rcases List.mem_append.mp h with h | h
        · exact hfirst h
        · obtain ⟨hne, hr⟩ := ih h
          exact ⟨hne, hr.trans (List.suffix_append us _).isInfix⟩
    · rcases List.mem_append.mp h with h | h
      · exact hfirst h
      · obtain ⟨hne, hr⟩ := ih h
        exact ⟨hne, hr.trans ((List.suffix_cons t ts).trans (List.suffix_append us _)).isInfix⟩

/-- Two neighbours are neighbours in one part of a list, or the last and the first of both. -/
theorem pair_infix_append {t u : Tree} {us ts : List Tree} (h : [t, u] <:+: us ++ ts) :
    [t, u] <:+: us ∨ [t, u] <:+: ts ∨ us.getLast? = some t ∧ ts.head? = some u := by
  rcases List.infix_append_iff.mp h with h | h | ⟨l, l', heq, hl, hl'⟩
  · exact .inl h
  · exact .inr (.inl h)
  · match l with
    | [] =>
      rw [List.nil_append] at heq
      exact .inr (.inl (heq ▸ hl'.isInfix))
    | [v] =>
      obtain ⟨rfl, rfl⟩ : t = v ∧ [u] = l' := by simpa using heq
      obtain ⟨us', rfl⟩ := hl
      obtain ⟨ts', rfl⟩ := hl'
      exact .inr (.inr ⟨by simp, rfl⟩)
    | v :: v' :: l =>
      obtain ⟨rfl, rfl, rfl, -⟩ : t = v ∧ u = v' ∧ l = [] ∧ l' = [] := by simpa using heq
      exact .inl hl.isInfix

/-- Neighbours in a row that is collected stay together. -/
theorem exists_rowsFrom_of_infix {us : List Tree} (ts : List Tree) {p : List Tree} (hp : p ≠ [])
    (h : p <:+: us) : ∃ r ∈ rowsFrom text us ts, p <:+: r := by
  have hus : us ≠ [] := by
    rintro rfl
    exact hp (List.infix_nil.mp h)
  have hfirst : us ∈ rowIfAny us := mem_rowIfAny.mpr ⟨rfl, hus⟩
  induction ts generalizing us with
  | nil => exact ⟨us, hfirst, h⟩
  | cons t ts ih =>
    rw [rowsFrom]
    split
    · split
      · exact ih (h.trans (List.prefix_append us [t]).isInfix) (by simp) (by simp [rowIfAny])
      · exact ⟨us, List.mem_append_left _ hfirst, h⟩
    · exact ⟨us, List.mem_append_left _ hfirst, h⟩

/-- Neighbours are put together if the second one begins in the row in which the first one ends. -/
theorem together_of_continues {us ts : List Tree} {t u : Tree} (h : [t, u] <:+: us ++ ts)
    (ht : t.kind.isSimple = true) (hu : u.kind.isSimple = true)
    (hrow : continues text [t] u = true) : ∃ r ∈ rowsFrom text us ts, [t, u] <:+: r := by
  have hnew : ∀ {us us' ts : List Tree}, (∃ r ∈ rowsFrom text us' ts, [t, u] <:+: r) →
      ∃ r ∈ rowIfAny us ++ rowsFrom text us' ts, [t, u] <:+: r := by
    rintro us us' ts ⟨r, hr, hpair⟩
    exact ⟨r, List.mem_append_right _ hr, hpair⟩
  induction ts generalizing us with
  | nil =>
    rw [List.append_nil] at h
    exact exists_rowsFrom_of_infix [] (by simp) h
  | cons w ts ih =>
    rcases pair_infix_append h with h' | h' | ⟨hlast, hhead⟩
    · exact exists_rowsFrom_of_infix (w :: ts) (by simp) h'
    · -- Both stand behind the row that is collected.
      rw [rowsFrom]
      split
      · split
        · exact ih (by rwa [List.append_assoc])
        · exact hnew (ih h')
      · next hw =>
        refine hnew (ih ?_)
        rcases List.infix_cons_iff.mp h' with h' | h'
        · obtain ⟨rfl, -⟩ := List.cons_prefix_cons.mp h'
          exact absurd ht hw
        · exact h'
    · -- The second one is the next statement.
      obtain rfl : w = u := by simpa using hhead
      have hcontinues : continues text us w = true := by
        simpa [continues, hlast] using hrow
      rw [rowsFrom, if_pos hu, if_pos hcontinues]
      refine exists_rowsFrom_of_infix ts (by simp) ?_
      obtain ⟨us', rfl⟩ := List.getLast?_eq_some_iff.mp hlast
      rw [List.append_assoc]
      exact (List.suffix_append us' _).isInfix

/-- Neighbours in a row that is collected begin in the row in which the one before ends. -/
theorem continues_of_mem_rowsFrom {us ts r : List Tree} {t u : Tree}
    (hus : [t, u] <:+: us → continues text [t] u = true) (hr : r ∈ rowsFrom text us ts)
    (h : [t, u] <:+: r) : continues text [t] u = true := by
  have hnone : ∀ {us : List Tree}, us.length < 2 → [t, u] <:+: us →
      continues text [t] u = true := by
    intro us hlength h
    have := h.length_le
    simp only [List.length_cons, List.length_nil] at this
    omega
  have hfirst : ∀ {us : List Tree}, ([t, u] <:+: us → continues text [t] u = true) →
      r ∈ rowIfAny us → continues text [t] u = true := by
    intro us hus hr
    obtain ⟨rfl, -⟩ := mem_rowIfAny.mp hr
    exact hus h
  induction ts generalizing us with
  | nil => exact hfirst hus hr
  | cons w ts ih =>
    rw [rowsFrom] at hr
    split at hr
    · split at hr
      · next hcontinues =>
        refine ih (fun h => ?_) hr
        rcases pair_infix_append h with h | h | ⟨hlast, hhead⟩
        · exact hus h
        · exact hnone (by simp) h
        · obtain rfl : w = u := by simpa using hhead
          simpa [continues, hlast] using hcontinues
      · rcases List.mem_append.mp hr with hr | hr
        · exact hfirst hus hr
        · exact ih (hnone (by simp)) hr
    · rcases List.mem_append.mp hr with hr | hr
      · exact hfirst hus hr
      · exact ih (hnone (by simp)) hr

end

theorem continues_iff {text : Text} {t u : Tree} (h : t.stop ≤ u.start) :
    continues text [t] u = true ↔ text.row u.start = text.row t.stop := by
  simp [continues, Text.row_add h]

/-- The rows of a nested body are the lines that its statements are put together to. -/
theorem divided_rows (text : Text) {b : Tree} (hb : b.Nested) : Divided text b (rows text b) := by
  have htogether : ∀ t u, [t, u] <:+: b.parts → t.kind.isSimple = true →
      u.kind.isSimple = true →
      t.stop ≤ u.start ∧
        ((∃ us ∈ rows text b, [t, u] <:+: us) ↔ text.row u.start = text.row t.stop) := by
    intro t u h ht hu
    obtain ⟨-, -, hrest⟩ := Tree.nestedIn_cons.mp (hb.parts.sublist h.sublist)
    have hle : t.stop ≤ u.start := (Tree.nestedIn_cons.mp hrest).1
    refine ⟨hle, ?_⟩
    rw [← continues_iff hle]
    constructor
    · rintro ⟨us, hus, hpair⟩
      exact continues_of_mem_rowsFrom (fun h => absurd h.length_le (by simp)) hus hpair
    · exact together_of_continues h ht hu
  exact
    { flatten := flatten_rowsFrom [] b.parts
      consecutive := fun us hus => infix_of_mem_rowsFrom hus
      together := fun t u h ht hu => (htogether t u h ht hu).2
      apart := fun t u h ht hu => by
        obtain ⟨hle, hiff⟩ := htogether t u h ht hu
        rw [hiff, Text.row_add hle]
        omega }

/-! ## Lines of an outline -/

/-- The line that holds some statements. -/
def spotOf (us : List Tree) : Spot :=
  ⟨us.map (·.kind), isQuotation us, (us.head?.map (·.start)).getD 0,
    (us.getLast?.map (·.stop)).getD 0⟩

theorem Spot.Holds.eq {x : Spot} {us : List Tree} (h : x.Holds us) : x = spotOf us := by
  obtain ⟨kinds, docstring, start, stop⟩ := x
  obtain ⟨-, hkinds, hdocstring, hstart, hstop⟩ := h
  simp only at hkinds hdocstring hstart hstop
  rw [spotOf, hkinds, hdocstring, hstart, hstop]
  rfl

/-- The lines of some rows, of which there are none in a body that follows its colon. -/
def linesOf (inline : Bool) (ls : List (List Tree)) : List Spot :=
  if inline then [] else ls.map spotOf

theorem linesOf_append (inline : Bool) (ls ls' : List (List Tree)) :
    linesOf inline (ls ++ ls') = linesOf inline ls ++ linesOf inline ls' := by
  cases inline <;> simp [linesOf]

/-- The lines of a body, apart from those of the bodies within it. -/
def ownLines (text : Text) (b : Tree) : List Spot :=
  linesOf (isInline text b.children) (rows text b)

section

open PointMutation.Tree (bodies decoratedBodies partBodies bodiesWithin)

theorem continues_eq {text : Text} {l : Line} {us : List Tree} (h : Collects (some l) us)
    (t : Tree) : continues text us t = l.goesOn text t.start := by
  have hstop : us.getLast?.map (·.stop) = some l.stop := h.2.stop
  obtain ⟨u, hu, hstop⟩ := Option.map_eq_some_iff.mp hstop
  rw [continues, hu, Option.any_some, hstop, Line.goesOn]

/-- The line of the row that is being collected. -/
theorem spotsAll_lineIfAny {l : Option Line} {us : List Tree} (inline : Bool)
    (h : Collects l us) : spotsAll (lineIfAny inline l) = linesOf inline (rowIfAny us) := by
  cases l with
  | none =>
    obtain rfl : us = [] := h
    cases inline <;> rfl
  | some l =>
    have hne : us ≠ [] := by
      rintro rfl
      cases h.2.start
    have hrow : rowIfAny us = [us] := by simp [rowIfAny, hne]
    have hspot : spotOf us = l.spot := h.2.eq.symm
    cases inline with
    | false => simp [lineIfAny, Line.outline, spots, h.1, linesOf, hrow, hspot, Line.spot]
    | true => simp [lineIfAny, Line.outline, spots, h.1, linesOf]

mutual

/-- The lines of statements are those of their rows and those of the bodies within. -/
theorem spotsAll_perm_ofStatements (text : Text) (inline : Bool) {l : Option Line}
    {us : List Tree} (hl : Collects l us) (ts : List Tree) :
    (spotsAll (ofStatements text inline l ts)).Perm
      (linesOf inline (rowsFrom text us (ts.filter fun t => t.kind != .comment)) ++
        (bodiesWithin ts).flatMap (ownLines text)) := by
  cases ts with
  | nil =>
    rw [ofStatements, List.filter_nil, rowsFrom, spotsAll_lineIfAny inline hl, bodiesWithin,
      List.flatMap_nil, List.append_nil]
  | cons t ts =>
    rw [ofStatements.eq_def, bodiesWithin]
    dsimp only
    by_cases hcomment : t.kind = .comment
    · have hskip : (t.kind == .comment || t.kind.isSimple) = true := by simp [hcomment]
      rw [if_pos (beq_iff_eq.mpr hcomment), if_pos hskip, List.nil_append,
        List.filter_cons_of_neg (by simpa using hcomment)]
      exact spotsAll_perm_ofStatements text inline hl ts
    rw [if_neg (by simpa using hcomment), List.filter_cons_of_pos (by simpa using hcomment),
      rowsFrom]
    by_cases hsimple : t.kind.isSimple = true
    · have hskip : (t.kind == .comment || t.kind.isSimple) = true := by simp [hsimple]
      have halone := spotsAll_perm_ofStatements text inline (collects_ofStatement hsimple) ts
      rw [if_pos hsimple, if_pos hsimple, if_pos hskip, List.nil_append]
      cases l with
      | none =>
        obtain rfl : us = [] := hl
        exact halone
      | some l =>
        dsimp only
        rw [continues_eq hl]
        by_cases hgoes : l.goesOn text t.start = true
        · rw [if_pos hgoes, if_pos hgoes]
          exact spotsAll_perm_ofStatements text inline (hl.add hsimple) ts
        · have hfront := spotsAll_lineIfAny inline hl
          rw [lineIfAny, spotsAll_cons, spotsAll_nil, List.append_nil] at hfront
          rw [if_neg hgoes, if_neg hgoes, spotsAll_cons, hfront, linesOf_append, List.append_assoc]
          exact halone.append_left _
    · have hgo : ¬ (t.kind == .comment || t.kind.isSimple) = true := by simp [hcomment, hsimple]
      have hcompound := spots_perm_ofCompound text t
      have hrest := spotsAll_perm_ofStatements text inline collects_none ts
      rw [if_neg hsimple, if_neg hsimple, if_neg hgo, spotsAll_append, spotsAll_cons,
        spotsAll_lineIfAny inline hl, List.flatMap_append, linesOf_append, List.append_assoc]
      refine .append_left _ ((hcompound.append hrest).trans ?_)
      rw [← List.append_assoc, ← List.append_assoc]
      exact List.perm_append_comm.append_right _

theorem spots_perm_ofCompound (text : Text) (t : Tree) :
    (spots (ofCompound text t)).Perm ((bodies t).flatMap (ownLines text)) := by
  cases t with
  | node k r a b cs =>
    rw [ofCompound, bodies]
    split
    · rw [spots]
      exact spotsAll_perm_ofDecorated text cs
    · split
      · rw [spots]
        exact spotsAll_perm_ofClauses text _ cs
      · rw [spots]
        exact spotsAll_perm_ofClauses text _ cs

theorem spotsAll_perm_ofDecorated (text : Text) (ts : List Tree) :
    (spotsAll (ofDecorated text ts)).Perm ((decoratedBodies ts).flatMap (ownLines text)) := by
  cases ts with
  | nil =>
    rw [ofDecorated]
    exact .refl _
  | cons t ts =>
    have hrest := spotsAll_perm_ofDecorated text ts
    rw [ofDecorated, decoratedBodies, List.flatMap_append]
    split
    · next hk =>
      have hcompound : t.kind.isCompound = false := by rw [beq_iff_eq.mp hk]; rfl
      rw [hcompound, if_neg Bool.false_ne_true]
      exact hrest
    · rw [spotsAll_cons]
      refine .append ?_ hrest
      split
      · exact spots_perm_ofCompound text t
      · rw [spots_ofExpression]
        exact .refl _

theorem spotsAll_perm_ofClauses (text : Text) (definition : Bool) (ts : List Tree) :
    (spotsAll (ofClauses text definition ts)).Perm
      ((partBodies ts).flatMap (ownLines text)) := by
  cases ts with
  | nil =>
    rw [ofClauses]
    exact .refl _
  | cons t ts =>
    cases t with
    | node k r a b cs =>
      have hrest := spotsAll_perm_ofClauses text definition ts
      rw [ofClauses, partBodies, List.flatMap_append]
      split
      · next hk =>
        rw [beq_iff_eq.mp hk]
        exact hrest
      split
      · rw [spotsAll_cons, spots, List.flatMap_cons]
        exact (spotsAll_perm_ofStatements text _ collects_none cs).append hrest
      split
      · next hk =>
        have hkind : k = .parameters := by simpa using And.left (by simpa using hk)
        rw [spotsAll_append, spotsAll_flatMap fun u _ => spotsAll_ofParameter u, hkind]
        exact hrest
      split
      · rw [spotsAll_cons, spots]
        exact (spotsAll_perm_ofClauses text false cs).append hrest
      · rw [spotsAll_cons, spots_ofExpression]
        exact hrest

end

/-- The file and the bodies whose lines a walk through a source offers. -/
def offered (s : Source) : List Tree :=
  s.tree :: (bodiesWithin s.tree.children).filter fun b => !isInline s.text b.children

theorem flatMap_ownLines (text : Text) (bs : List Tree) :
    bs.flatMap (ownLines text) = (bs.filter fun b => !isInline text b.children).flatMap fun b =>
      (rows text b).map spotOf := by
  induction bs with
  | nil => rfl
  | cons b bs ih =>
    rw [List.flatMap_cons, ih, ownLines]
    cases h : isInline text b.children
    · rw [List.filter_cons_of_pos (by simp [h]), List.flatMap_cons]
      rfl
    · rw [List.filter_cons_of_neg (by simp [h])]
      rfl

/-- The lines of a source are those of the rows of the file and of the bodies that are offered. -/
theorem spotsAll_perm_ofSource (s : Source) :
    (spotsAll (ofSource s)).Perm ((offered s).flatMap fun b => (rows s.text b).map spotOf) := by
  have hperm := spotsAll_perm_ofStatements s.text false collects_none s.tree.children
  rw [flatMap_ownLines] at hperm
  exact hperm

theorem nested_of_mem_offered {s : Source} {b : Tree} (h : b ∈ offered s) : b.Nested := by
  rcases List.mem_cons.mp h with rfl | h
  · exact s.nested.2.2
  · obtain ⟨t, ht, hb, -⟩ := Tree.exists_of_mem_bodiesWithin (List.mem_filter.mp h).1
    exact (hb.spec (s.nestedIn.of_mem ht).2.2).1

end

/-! ## Bodies that follow their colon -/

/-- Whether the last one of some characters that is neither a space nor a tab is one of the last
line, read from the end. -/
theorem exists_of_dropWhile (r : Text) :
    (match r.dropWhile fun c => c == ' ' || c == '\t' with
      | [] => false
      | c :: _ => c != '\n') = true ↔ ∃ c ∈ r.takeWhile (· != '\n'), c ≠ ' ' ∧ c ≠ '\t' := by
  induction r with
  | nil => simp
  | cons d r ih =>
    by_cases hblank : d = ' ' ∨ d = '\t'
    · have hne : d ≠ '\n' := by rcases hblank with rfl | rfl <;> decide
      have hdrop : (d == ' ' || d == '\t') = true := by simpa using hblank
      rw [List.dropWhile_cons_of_pos (by exact hdrop),
        List.takeWhile_cons_of_pos (by simpa using hne), ih]
      constructor
      · rintro ⟨c, hc, h⟩
        exact ⟨c, List.mem_cons_of_mem d hc, h⟩
      · rintro ⟨c, hc, h⟩
        rcases List.mem_cons.mp hc with rfl | hc
        · exact absurd hblank (by simp [h])
        · exact ⟨c, hc, h⟩
    · have hdrop : ¬ (d == ' ' || d == '\t') = true := by simpa using hblank
      rw [List.dropWhile_cons_of_neg (by exact hdrop)]
      by_cases hbreak : d = '\n'
      · subst hbreak
        simp
      · rw [List.takeWhile_cons_of_pos (by simpa using hbreak)]
        refine iff_of_true (by simpa using hbreak) ⟨d, List.mem_cons_self, ?_⟩
        simpa using hblank

/-- A body is passed over if something other than spaces and tabs stands in front of its first
statement on the same physical line. -/
theorem isInline_iff {text : Text} {b first : Tree} (h : b.parts.head? = some first) :
    isInline text b.children = true ↔
      ∃ c ∈ Text.lastLine (text.take first.start), c ≠ ' ' ∧ c ≠ '\t' := by
  have hfind : b.children.find? (fun c => c.kind != .comment) = some first := by
    rwa [← List.head?_filter]
  rw [isInline, hfind]
  simp only [Text.lastLine, List.mem_reverse]
  exact exists_of_dropWhile _

/-- A body whose first statement stands in the row of a colon in front of it is passed over. -/
theorem isInline_of_colon {text : Text} {b first : Tree} (h : b.parts.head? = some first)
    (hstart : first.start ≤ text.length) {p : Nat} (hp : p < first.start)
    (hcolon : text[p]? = some ':') (hrow : text.row p = text.row first.start) :
    isInline text b.children = true := by
  have hline : Text.lineStart text first.start ≤ p := by
    by_contra hlt
    rw [Nat.not_le] at hlt
    have hle := Text.lineStart_le text first.start
    obtain ⟨-, hends, -⟩ := Text.take_lineStart hstart
    have hbreak := hends.getElem? (by omega) (by omega)
    have hmem : '\n' ∈ Text.slice text p first.start :=
      Text.mem_slice (by omega) (by omega) hbreak
    have hcount := List.count_pos_iff.mpr hmem
    rw [Text.row_add hp.le, Text.breaks] at hrow
    omega
  exact (isInline_iff h).mpr
    ⟨':', Text.mem_lastLine hline hp hstart hcolon, by decide, by decide⟩

end Outline

end PointMutation
