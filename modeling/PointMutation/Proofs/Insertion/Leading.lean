import PointMutation.Proofs.Insertion.Lines
import PointMutation.Proofs.Insertion.Statements

/-!
# Statements that come first

A quotation that a body begins with documents it, and a future import may stand behind such a
quotation and other future imports only. Nothing is put in front of these statements
(`Insertion.pass_keeps_leading`): all that stands from the beginning of the file or of the
definition up to their end is found together in the new text.

A quotation that shares its line with further statements is the exception. The line does not count
as a quotation, and a declaration may come before it (`Insertion.pass_moves_quotation_back`).
-/

namespace PointMutation

theorem Tree.NestedIn.stop_le_start {a b : Nat} {ts us : List Tree} {t u : Tree}
    (h : NestedIn a b (ts ++ us)) (ht : t ∈ ts) (hu : u ∈ us) : t.stop ≤ u.start := by
  have hpair : ([t] ++ [u]).Sublist (ts ++ us) :=
    (List.singleton_sublist.mpr ht).append (List.singleton_sublist.mpr hu)
  obtain ⟨-, -, hrest⟩ := nestedIn_cons.mp (h.sublist hpair)
  exact (nestedIn_cons.mp hrest).1

namespace Outline

/-! ## Leading statements -/

/-- A body begins with a quotation. -/
structure Opens (b q : Tree) : Prop where
  first : b.parts.head? = some q
  quotation : isDocstring q.kind q.children = true

/-- Whether a body begins with a quotation. -/
def opens (b : Tree) : Bool := b.parts.head?.any fun q => isDocstring q.kind q.children

theorem opens_iff {b : Tree} : opens b = true ↔ ∃ q, Opens b q := by
  rw [opens, Option.any_eq_true]
  exact exists_congr fun q => ⟨fun h => ⟨h.1, h.2⟩, fun h => ⟨h.first, h.quotation⟩⟩

/-- In front of a future import of a body stand only other ones, and maybe a quotation before
them. -/
inductive Leads (b f : Tree) : Prop
  | alone {pre post : List Tree} (parts : b.parts = pre ++ [f] ++ post)
      (imports : ∀ u ∈ pre ++ [f], u.kind = .futureImportStatement)
  | quotation {q : Tree} {pre post : List Tree} (parts : b.parts = q :: (pre ++ [f]) ++ post)
      (opens : Opens b q) (imports : ∀ u ∈ pre ++ [f], u.kind = .futureImportStatement)

/-- A line holds the first statement of a body and more of its statements, none of them a future
import. -/
structure Shares (b q : Tree) (x : Spot) : Prop where
  start : x.start = q.start
  line : ∃ us, us ≠ [] ∧ q :: us <+: b.parts ∧ x.kinds = (q :: us).map (·.kind)
  imports : Kind.futureImportStatement ∉ x.kinds

theorem Opens.mem_parts {b q : Tree} (h : Opens b q) : q ∈ b.parts :=
  List.mem_of_mem_head? h.first

theorem Leads.mem_parts {b f : Tree} (h : Leads b f) : f ∈ b.parts := by
  cases h with
  | alone parts => simp [parts]
  | quotation parts => simp [parts]

theorem isSimple_of_isDocstring {k : Kind} {cs : List Tree} (h : isDocstring k cs = true) :
    k.isSimple = true := by
  unfold isDocstring at h
  split at h
  · rw [Bool.and_eq_true, beq_iff_eq] at h
    rw [h.1]
    rfl
  · cases h

theorem isSimple_of_import {u : Tree} (h : u.kind = .futureImportStatement) :
    u.kind.isSimple = true := by
  rw [h]
  rfl

/-- A body begins with simple statements. A line that begins in front of the end of one of them
begins with one of them, and holds the statements from there on. -/
theorem Leaves.line_of_lt {b t : Tree} {x : Spot} {front post : List Tree} (h : Leaves .body b x)
    (hb : b.Nested) (hparts : b.parts = front ++ post)
    (hsimple : ∀ u ∈ front, u.kind.isSimple = true) (ht : t ∈ front) (hx : x.start < t.stop) :
    ∃ l u us r, front = l ++ u :: r ∧ us <+: r ++ post ∧ u.start = x.start ∧ x.Holds (u :: us) := by
  have hnested : Tree.NestedIn b.start b.stop (front ++ post) := hparts ▸ hb.parts
  have hbehind : ∀ u ∈ post, u.start ≠ x.start := by
    intro u hu hstart
    have hle := hnested.stop_le_start ht hu
    omega
  cases h with
  | line h =>
    obtain ⟨u, us, rfl, -, -, hstart⟩ := h.head
    obtain ⟨⟨l, r, hinfix⟩, hholds⟩ := h
    rw [hparts, List.append_assoc] at hinfix
    rcases List.append_eq_append_iff.mp hinfix with ⟨c, rfl, hc⟩ | ⟨c, -, hc⟩
    · cases c with
      | nil =>
        rw [List.nil_append] at hc
        exact absurd hstart (hbehind u (by simp [← hc]))
      | cons v c =>
        rw [List.cons_append, List.cons_append] at hc
        obtain ⟨rfl, htail⟩ := List.cons_eq_cons.mp hc
        exact ⟨l, u, us, c, rfl, ⟨r, htail⟩, hstart, hholds⟩
    · exact absurd hstart (hbehind u (by simp [hc]))
  | @statement _ c _ hc hcompound h =>
    rw [hparts] at hc
    rcases List.mem_append.mp hc with hc | hc
    · rw [hsimple c hc] at hcompound
      cases hcompound
    · have hle := hnested.stop_le_start ht hc
      have hstart := (h.bounds (hnested.of_mem (List.mem_append_right front hc)).2.2).1
      omega

/-! ## Bodies of definitions -/

/-- The first of the nodes right below a definition that holds statements. -/
def body? (n : Tree) : Option Tree :=
  n.children.find? fun c => c.kind == .block || c.kind.isClause

/-- A function or a class below a node, with its body. -/
structure IsDefinition (t n b : Tree) : Prop where
  below : ∃ c ∈ t.children, Tree.Within c n
  kind : n.kind = .functionDefinition ∨ n.kind = .classDefinition
  body : body? n = some b
  block : b.kind = .block

theorem nested_of_body {n b : Tree} (h : body? n = some b) (hn : n.Nested) :
    n.start ≤ b.start ∧ b.stop ≤ n.stop ∧ b.Nested :=
  hn.children.of_mem (List.mem_of_find?_eq_some h)

/-- A line within a definition is one of its body or stands behind the body. -/
theorem Leaves.of_body {n b : Tree} {x : Spot} (h : Leaves .parts n x) (hn : n.Nested)
    (hbody : body? n = some b) (hblock : b.kind = .block) :
    Leaves .body b x ∨ b.stop ≤ x.start := by
  obtain ⟨-, pre, post, hchildren, hpre⟩ := List.find?_eq_some_iff_append.mp hbody
  have hnested : Tree.NestedIn n.start n.stop (pre ++ [b] ++ post) := by
    rw [List.append_assoc, List.singleton_append, ← hchildren]
    exact hn.children
  -- The walk went on with a node that holds statements, and none of those stands in front.
  have hor : ∀ {mode : Mode} {c : Tree}, c ∈ n.children →
      (c.kind == .block || c.kind.isClause) = true → Leaves mode c x →
      c = b ∨ b.stop ≤ x.start := by
    intro mode c hc hk h
    rw [hchildren, List.append_cons, List.mem_append, List.mem_append, List.mem_singleton] at hc
    rcases hc with (hc | rfl) | hc
    · have hno := hpre c hc
      rw [hk] at hno
      cases hno
    · exact .inl rfl
    · have hle := hnested.stop_le_start (List.mem_append_right pre List.mem_cons_self) hc
      have hstart := (h.bounds (hnested.of_mem (List.mem_append_right _ hc)).2.2).1
      exact .inr (by omega)
  cases h with
  | @block _ c _ hc hk h =>
    rcases hor hc (by simp [hk]) h with rfl | hle
    · exact .inl h
    · exact .inr hle
  | @clause _ c _ hc hk h =>
    rcases hor hc (by simp [hk]) h with rfl | hle
    · rw [hblock] at hk
      cases hk
    · exact .inr hle

end Outline

namespace Insertion

open Outline (Spot Leaves Opens Leads Shares IsDefinition)

/-! ## Lines with leading statements -/

theorem not_isFree_of_import {x : Spot} {us : List Tree} {u : Tree} (h : x.Holds us) (hu : u ∈ us)
    (hk : u.kind = .futureImportStatement) : isFree x = false := by
  have hmem : Kind.futureImportStatement ∈ x.kinds := by
    rw [h.kinds, ← hk]
    exact List.mem_map_of_mem hu
  simp [isFree, hmem]

theorem not_isFree_of_quotation {x : Spot} {us : List Tree} (h : x.Holds us)
    (hus : Outline.isQuotation us = true) : isFree x = false := by
  simp [isFree, h.docstring, hus]

section

variable {b t : Tree} {x : Spot}

/-- A free line of a body stands behind the quotation that the body begins with, or shares it. -/
theorem stop_le_or_shares (h : Leaves .body b x) (hb : b.Nested) (hx : isFree x = true)
    (ht : Opens b t) : t.stop ≤ x.start ∨ Shares b t x := by
  by_cases hle : t.stop ≤ x.start
  · exact .inl hle
  obtain ⟨post, hparts⟩ : ∃ post, b.parts = [t] ++ post := by
    obtain ⟨post, hparts⟩ := List.head?_eq_some_iff.mp ht.first
    exact ⟨post, hparts⟩
  have hsimple : ∀ u ∈ [t], u.kind.isSimple = true := by
    simpa using Outline.isSimple_of_isDocstring ht.quotation
  obtain ⟨l, u, us, r, hfront, hus, hstart, hholds⟩ :=
    h.line_of_lt hb hparts hsimple List.mem_cons_self (by omega)
  obtain ⟨rfl, rfl, rfl⟩ : l = [] ∧ t = u ∧ r = [] := by
    cases l with
    | nil => simpa using hfront
    | cons v l => simp at hfront
  refine .inr ⟨hstart.symm, ⟨us, ?_, ?_, hholds.kinds⟩, ?_⟩
  · rintro rfl
    rw [not_isFree_of_quotation hholds ht.quotation] at hx
    cases hx
  · rw [hparts]
    exact List.prefix_append_right_inj [t] |>.mpr hus
  · intro himport
    simp [isFree, himport] at hx

/-- A free line of a body stands behind the future imports that come first. -/
theorem stop_le_of_leads (h : Leaves .body b x) (hb : b.Nested) (hx : isFree x = true)
    (ht : Leads b t) : t.stop ≤ x.start := by
  by_contra hlt
  rw [Nat.not_le] at hlt
  cases ht with
  | @alone pre post hparts himports =>
    obtain ⟨l, u, us, r, hfront, -, -, hholds⟩ :=
      h.line_of_lt hb hparts (fun u hu => Outline.isSimple_of_import (himports u hu)) (by simp) hlt
    have hu := himports u (by rw [hfront]; simp)
    rw [not_isFree_of_import hholds List.mem_cons_self hu] at hx
    cases hx
  | @quotation q pre post hparts hopens himports =>
    have hsimple : ∀ u ∈ q :: (pre ++ [t]), u.kind.isSimple = true := by
      intro u hu
      rcases List.mem_cons.mp hu with rfl | hu
      · exact Outline.isSimple_of_isDocstring hopens.quotation
      · exact Outline.isSimple_of_import (himports u hu)
    obtain ⟨l, u, us, r, hfront, hus, -, hholds⟩ := h.line_of_lt hb hparts hsimple (by simp) hlt
    -- The line holds a future import unless it is made of the quotation alone.
    have himport : us = [] ∧ u = q ∨ ∃ v ∈ u :: us, v.kind = .futureImportStatement := by
      cases l with
      | cons v l =>
        obtain ⟨rfl, hrest⟩ := List.cons_eq_cons.mp hfront
        exact .inr ⟨u, List.mem_cons_self, himports u (by rw [hrest]; simp)⟩
      | nil =>
        obtain ⟨rfl, rfl⟩ := List.cons_eq_cons.mp hfront
        cases us with
        | nil => exact .inl ⟨rfl, rfl⟩
        | cons v us =>
          obtain ⟨w, ws, hw⟩ := List.exists_cons_of_ne_nil (List.concat_ne_nil t pre)
          rw [hw, List.cons_append, List.cons_prefix_cons] at hus
          exact .inr ⟨v, by simp, himports v (by rw [hw, hus.1]; exact List.mem_cons_self)⟩
    rcases himport with ⟨rfl, rfl⟩ | ⟨v, hv, hk⟩
    · rw [not_isFree_of_quotation hholds hopens.quotation] at hx
      cases hx
    · rw [not_isFree_of_import hholds hv hk] at hx
      cases hx

end

/-! ## The text up to leading statements -/

/-- A statement ends in front of a line, and the new text is the old one up to there. -/
structure Precedes (s s' : Source) (x : Spot) (t : Tree) : Prop where
  stop : t.stop ≤ x.start
  text : s'.text.take t.stop = s.text.take t.stop

/-- The text from the beginning of a definition up to the end of a statement is found in the new
text as it was: in its place, or all of it behind what was put in. -/
inductive StandsTogether (s s' : Source) (ins : Text) (x : Spot) (n t : Tree) : Prop
  | before (place : Precedes s s' x t)
  | behind (place : x.start ≤ n.start)
      (text : Text.slice s'.text (n.start + ins.length) (t.stop + ins.length) =
        Text.slice s.text n.start t.stop)

/-- Something was put in front of a line, but not in front of the leading statements of the file or
of the body of a definition, unless the line holds a quotation and more. -/
structure KeepsLeading (s s' : Source) (ins : Text) (x : Spot) : Prop where
  quotation : ∀ q, Opens s.tree q → Precedes s s' x q ∨ Shares s.tree q x
  imports : ∀ f, Leads s.tree f → Precedes s s' x f
  quotation_of_body : ∀ n b q, IsDefinition s.tree n b → Opens b q →
    StandsTogether s s' ins x n q ∨ Shares b q x
  imports_of_body : ∀ n b f, IsDefinition s.tree n b → Leads b f → StandsTogether s s' ins x n f

section

variable {s s' : Source} {ins : Text} {x : Spot}

theorem precedes_of_put {t : Tree} (hs' : s'.text = Text.put s.text ins x.start)
    (hx : x.start ≤ s.text.length) (h : t.stop ≤ x.start) : Precedes s s' x t :=
  ⟨h, by rw [hs', Text.take_put h hx]⟩

/-- A line is one of the body of a definition or does not come between the beginning of the
definition and a statement of the body. -/
theorem leaves_or_standsTogether {n b t : Tree} (hx : x ∈ Outline.spotsAll (Outline.ofSource s))
    (hs' : s'.text = Text.put s.text ins x.start) (hd : IsDefinition s.tree n b)
    (ht : t ∈ b.parts) :
    b.Nested ∧ (Leaves .body b x ∨ StandsTogether s s' ins x n t) := by
  obtain ⟨-, hlength, hnested⟩ := s.nested
  have hleaves : Leaves .body s.tree x := Outline.leaves_ofSource hx
  have hstop : x.start ≤ s.text.length := (hleaves.bounds hnested).2.trans hlength.le
  obtain ⟨c, hc, hcn⟩ := hd.below
  have hn : n.Nested := (hcn.spec (hnested.children.of_mem hc).2.2).1
  obtain ⟨-, hbstop, hb⟩ := Outline.nested_of_body hd.body hn
  have htstop : t.stop ≤ b.stop := (hb.parts.of_mem ht).2.1
  refine ⟨hb, ?_⟩
  by_cases hbehind : x.start ≤ n.start
  · refine .inr (.behind hbehind ?_)
    rw [hs', Text.slice_put_behind hbehind hstop]
  by_cases hbefore : t.stop ≤ x.start
  · exact .inr (.before (precedes_of_put hs' hstop hbefore))
  · have hparts : Leaves .parts n x := by
      refine hleaves.definition hnested hd.below ?_ ?_ (by omega) (by omega)
      all_goals rcases hd.kind with hk | hk <;> simp [hk]
    refine .inl ((hparts.of_body hn hd.body hd.block).resolve_right fun hle => ?_)
    omega

theorem keepsLeading_of_put (hx : x ∈ spots s) (hs' : s'.text = Text.put s.text ins x.start) :
    KeepsLeading s s' ins x := by
  obtain ⟨hmem, hfree⟩ := List.mem_filter.mp hx
  obtain ⟨-, hlength, hnested⟩ := s.nested
  have hleaves : Leaves .body s.tree x := Outline.leaves_ofSource hmem
  have hstop : x.start ≤ s.text.length := (hleaves.bounds hnested).2.trans hlength.le
  constructor
  case quotation =>
    intro q hq
    exact (stop_le_or_shares hleaves hnested hfree hq).imp_left (precedes_of_put hs' hstop)
  case imports =>
    intro f hf
    exact precedes_of_put hs' hstop (stop_le_of_leads hleaves hnested hfree hf)
  case quotation_of_body =>
    intro n b q hd hq
    obtain ⟨hb, h | h⟩ := leaves_or_standsTogether hmem hs' hd hq.mem_parts
    · exact (stop_le_or_shares h hb hfree hq).imp_left fun hle =>
        .before (precedes_of_put hs' hstop hle)
    · exact .inl h
  case imports_of_body =>
    intro n b f hd hf
    obtain ⟨hb, h | h⟩ := leaves_or_standsTogether hmem hs' hd hf.mem_parts
    · exact .before (precedes_of_put hs' hstop (stop_le_of_leads h hb hfree hf))
    · exact h

end

/-- A pass that works puts a declaration in front of a line, and leaves the statements that come
first where they are: the quotation that the file, a class or a function begins with, unless more
statements stand on its line, and future imports with nothing but such a quotation and other future
imports in front of them. -/
theorem pass_keeps_leading {c : InsertionConfig} (hc : c.validate = .ok ()) {m : Insertion}
    (hm : IsSetUp c m) (hworked : m.traversal.worked = false) {s s' : Source}
    (h : (Machine.pass s m).1 = .ok s') (h' : Machine.worked (Machine.pass s m).2 = true) :
    ∃ d x, x ∈ spots s ∧ s'.text = inserted s d x ∧
      KeepsLeading s s' (insertedText s d x) x := by
  obtain ⟨found, hsequence, hfound, hpass⟩ := pass_of_declares (hm.declares hc) hworked s
  rw [h'] at hfound
  cases found with
  | none => cases hfound
  | some y =>
    obtain ⟨d, x⟩ := y
    have hx : x ∈ spots s := mem_of_sequence hsequence
    have hs' : s'.text = inserted s d x := Source.text_of_mapError (h.symm.trans hpass).symm
    exact ⟨d, x, hx, hs', keepsLeading_of_put hx (hs'.trans (inserted_eq_put s d x))⟩

/-- A file and a function in it begin with a quotation each, and a future import stands between
them. A number is declared behind the quotation of the function. -/
theorem pass_keeps_leading_of_module :
    ∃ (c : InsertionConfig) (m : Insertion) (s s' : Source) (q f n b r : Tree),
      c.validate = .ok () ∧ IsSetUp c m ∧ m.traversal.worked = false ∧
      s.text = "'d'\nfrom __future__ import a\ndef f():\n    'e'\n    x\n".toList ∧
      Opens s.tree q ∧ Leads s.tree f ∧ IsDefinition s.tree n b ∧ Opens b r ∧
      (Machine.pass s m).1 = .ok s' ∧ Machine.worked (Machine.pass s m).2 = true ∧
      ∃ d x, x ∈ spots s ∧ s'.text = inserted s d x ∧
        KeepsLeading s s' (insertedText s d x) x := by
  let c : InsertionConfig := ⟨.ofInt 1, false, .ofList [.int], 1⟩
  let m : Insertion := ⟨.ofInt 1, ⟨1, [.int], false⟩, .seeded 0, {}, 0⟩
  have hvalidate : c.validate = .ok () := by decide +kernel
  have hm : IsSetUp c m := ⟨rfl, rfl⟩
  obtain ⟨s, s', hs, -, hworked, hpass⟩ := Machine.exists_of_trial_ok (m := m)
    (t := "'d'\nfrom __future__ import a\ndef f():\n    'e'\n    x\n".toList)
    (u := "'d'\nfrom __future__ import a\ndef f():\n    'e'\n    u = 774\n    x\n".toList)
    (b := true) (by decide +kernel)
  have hshape : (s.tree.parts.map (·.kind), Outline.opens s.tree,
      (s.tree.parts.getLast?.bind Outline.body?).any fun b => b.kind == .block && Outline.opens b) =
      ([.expressionStatement, .futureImportStatement, .functionDefinition], true, true) :=
    Source.tree_of_readTree (f := fun t => (t.parts.map (·.kind), Outline.opens t,
      (t.parts.getLast?.bind Outline.body?).any fun b => b.kind == .block && Outline.opens b))
      (by rw [hs]; decide +kernel)
  obtain ⟨hkinds, hopens, hbody⟩ := by simpa only [Prod.mk.injEq] using hshape
  obtain ⟨q, ts, hparts, -, hts⟩ := List.map_eq_cons_iff.mp hkinds
  obtain ⟨f, ts, rfl, hf, hts⟩ := List.map_eq_cons_iff.mp hts
  obtain ⟨n, ts, rfl, hn, hts⟩ := List.map_eq_cons_iff.mp hts
  obtain rfl := List.map_eq_nil_iff.mp hts
  rw [hparts, Option.any_eq_true] at hbody
  obtain ⟨b, hb, hblock⟩ := hbody
  rw [Bool.and_eq_true, beq_iff_eq] at hblock
  obtain ⟨q', hq⟩ := Outline.opens_iff.mp hopens
  obtain rfl : q = q' := by simpa [hparts] using hq.first
  obtain ⟨r, hr⟩ := Outline.opens_iff.mp hblock.2
  have himports : ∀ u ∈ [] ++ [f], u.kind = .futureImportStatement := by simpa
  have hbelow : n ∈ s.tree.children := Tree.mem_children_of_mem_parts (by rw [hparts]; simp)
  exact ⟨c, m, s, s', q, f, n, b, r, hvalidate, hm, rfl, hs, hq, .quotation hparts hq himports,
    ⟨⟨n, hbelow, .self n⟩, .inl hn, hb, hblock.1⟩, hr, hpass, hworked,
    pass_keeps_leading hvalidate hm rfl hpass hworked⟩

/-- A quotation that another statement follows on its line does not stay first. -/
theorem pass_moves_quotation_back :
    ∃ (c : InsertionConfig) (m : Insertion) (s s' : Source), c.validate = .ok () ∧ IsSetUp c m ∧
      m.traversal = {} ∧ (Machine.pass s m).1 = .ok s' ∧
      Machine.worked (Machine.pass s m).2 = true ∧
      statementTexts s = ["\"d\"".toList, "x = 1".toList, "y = x".toList] ∧
      statementTexts s' =
        ["u = 774".toList, "\"d\"".toList, "x = 1".toList, "y = x".toList] ∧
      (∃ q, Opens s.tree q) ∧ ¬ ∃ q, Opens s'.tree q := by
  let c : InsertionConfig := ⟨.ofInt 1, false, .ofList [.int], 1⟩
  let m : Insertion := ⟨.ofInt 1, ⟨1, [.int], false⟩, .seeded 0, {}, 0⟩
  obtain ⟨s, s', hs, hs', hworked, hpass⟩ := Machine.exists_of_trial_ok (m := m)
    (t := "\"d\"; x = 1\ny = x\n".toList) (u := "u = 774\n\"d\"; x = 1\ny = x\n".toList)
    (b := true) (by decide +kernel)
  refine ⟨c, m, s, s', by decide +kernel, ⟨rfl, rfl⟩, rfl, hpass, hworked, ?_, ?_, ?_, ?_⟩
  · exact statementTexts_of_readTree (by rw [hs]; decide +kernel)
  · exact statementTexts_of_readTree (by rw [hs']; decide +kernel)
  · exact Outline.opens_iff.mp (Source.tree_of_readTree (by rw [hs]; decide +kernel))
  · rw [← Outline.opens_iff, Bool.not_eq_true]
    exact Source.tree_of_readTree (by rw [hs']; decide +kernel)

end Insertion

end PointMutation
