import PointMutation.Proofs.Nesting.Expression
import PointMutation.Syntax.Grammar

/-!
# Nested statements

The readers for patterns and statements read nested fragments, and so do all rules together. The
tree that `readTree` gives is nested and covers the whole text (`nested_of_readTree`).
-/

namespace PointMutation

namespace Syntax

open Text (Tidy)

variable {t : Text}

section

variable {r : Rules} (hr : r.Reads t)

include hr

/-! ## Patterns of cases -/

omit hr in
theorem dottedName_reads (e next : Expect) : Reads t (dottedName e next) := by
  intro c hc
  refine .bind (name_reads e c hc) fun f d hf => ?_
  refine .bind (many_extends hf ?_) fun _ _ hg => .pure (hg.node _)
  intro f d hf
  refine .bind ((mark_reads next "." (by decide)).behind hf) fun g e hg => ?_
  exact .bind ((name_reads _).behind hg) fun _ _ hh => .pure hh

theorem bracketedPatterns_extends (close : String) {c d : Cursor} {o : Fragment}
    (ho : Between t c o d) (hm : IsMark close.toList) :
    Post (bracketedPatterns r o close) d fun g e => Between t c g e := by
  refine .bind (orNothing_extends ?_ ho) fun f e hf => ?_
  · intro c hc
    refine .bind (hr.casePattern _ _ c hc) fun f d hf => ?_
    exact (commaSeparated_extends (fun e => hr.casePattern e _) hf).mono fun _ _ h => h.1
  · exact .bind ((mark_reads _ close hm).behind hf.1) fun _ _ hg => .pure hg

omit hr in
theorem unsignedNumber_reads (e : Expect) : Reads t (unsignedNumber e) := by
  intro c hc
  refine (peek_looks e).bind fun t => ?_
  split
  · exact (token_reads e numeralLength_inks).node _ c hc
  · exact .failure

omit hr in
theorem signedNumber_reads (e : Expect) : Reads t (signedNumber e) := by
  intro c hc
  refine .orElse ?_ (unsignedNumber_reads e c hc)
  refine .bind (mark_post hc (by decide)) fun s d hs => ?_
  exact .bind ((unsignedNumber_reads _).behind hs) fun _ _ hg => .pure hg

omit hr in
theorem numberPattern_reads (e : Expect) (follow : Follow) :
    Reads t (numberPattern e follow) := by
  intro c hc
  refine .bind (signedNumber_reads e c hc) fun f d hf => .orElse ?_ (.pure hf)
  refine .bind (P := fun s e => Between t d s e)
    (.orElse (mark_post hf.sound (by decide)) (mark_post hf.sound (by decide))) fun s e hs => ?_
  refine (peek_looks _).bind fun t => ?_
  split
  · refine .bind (token_reads _ numeralLength_inks e hs.sound) fun n e' hn => ?_
    exact .pure (((hf.append hs).append (hn.node _)).node _)
  · exact .failure

omit hr in
theorem splatPattern_reads (e : Expect) : Reads t (splatPattern e) := by
  intro c hc
  refine .bind (.orElse (mark_post hc (by decide)) (mark_post hc (by decide))) fun s d hs => ?_
  refine .bind (P := fun f e => Between t d f e)
    (.orElse (keyword_post hs.sound (by decide)) (name_reads _ d hs.sound)) fun f e hf => ?_
  exact .pure ((hs.append hf).node _)

theorem entryPattern_reads (e : Expect) : Reads t (entryPattern r e) := by
  intro c hc
  refine (peek_looks e).bind fun t => ?_
  split
  · exact splatPattern_reads e c hc
  · refine .bind (hr.simplePattern e _ c hc) fun f d hf => ?_
    refine .bind ((mark_reads _ ":" (by decide)).behind hf) fun g e hg => ?_
    exact .bind ((hr.casePattern _ _).behind hg) fun _ _ hh => .pure hh

theorem closedPattern_reads (e : Expect) (follow : Follow) :
    Reads t (closedPattern r e follow) := by
  intro c hc
  refine .bind (look_post e hc) ?_
  rintro ⟨ts, found⟩ d ⟨hd, hts, -⟩
  have hs := hd.sound
  have hend : ∀ f e, Between t d f e → Post (pure (f.behind ts)) e fun f e => Between t c f e :=
    fun f e hf => .pure (hf.behind hd hts)
  have hword : ∀ (w : String) k, w.toList ≠ [] → Post (do
      let f ← pure ((← keyword .plain w).node k)
      pure (f.behind ts)) d fun f e => Between t c f e :=
    fun w k hw => .bind (keyword_post hs hw) fun _ _ hf => hend _ _ (hf.node k)
  have hbrackets : ∀ (opening close : String) k, IsMark opening.toList → IsMark close.toList →
      Post (do
      let f ← pure ((← bracketedPatterns r (← mark .plain opening) close).node k)
      pure (f.behind ts)) d fun f e => Between t c f e :=
    fun opening close k hopening hclose => .bind (mark_post hs hopening) fun _ _ ho =>
      .bind (bracketedPatterns_extends hr close ho hclose) fun _ _ hg =>
        hend _ _ (hg.node k)
  dsimp only
  split
  · exact .bind (quotations_reads hr _ follow d hs) hend
  · refine .get ?_
    split
    · exact hbrackets _ _ _ (by decide) (by decide)
    · exact hbrackets _ _ _ (by decide) (by decide)
    · refine .bind (mark_post hs (by decide)) fun o e ho => ?_
      refine .bind (orNothing_extends ?_ ho) fun f e hf => ?_
      · intro c hc
        refine .bind (entryPattern_reads hr _ c hc) fun f d hf => ?_
        exact (commaSeparated_extends (entryPattern_reads hr) hf).mono fun _ _ h => h.1
      · exact .bind ((mark_reads _ _ (by decide)).behind hf.1) fun _ _ hg => hend _ _ (hg.node _)
    · exact .bind (splatPattern_reads _ d hs) hend
    · exact .bind (numberPattern_reads _ follow d hs) hend
    · refine .ite (.bind (numberPattern_reads _ follow d hs) hend) ?_
      refine .ite (hword _ _ (by decide)) (.ite (hword _ _ (by decide)) (.ite (hword _ _ (by decide))
        (.ite ?_ ?_)))
      · exact .bind (keyword_post hs (by decide)) hend
      · refine .bind (dottedName_reads _ _ d hs) fun n e hn => ?_
        refine .bind (P := fun f e => Between t d f e) (.orElse ?_ (.pure hn)) hend
        refine .bind ((mark_reads _ "(" (by decide)).behind hn) fun g e hg => ?_
        exact .bind (bracketedPatterns_extends hr _ hg (by decide)) fun _ _ hh => .pure (hh.node _)
  · exact .failure_bind

theorem simplePattern_reads (e : Expect) (follow : Follow) :
    Reads t (simplePattern r e follow) := by
  intro c hc
  refine .bind (closedPattern_reads hr e follow c hc) fun f d hf => ?_
  refine .bind (P := fun g e => Between t c g e ∧ d.Leads t e) (.many ⟨hf, .refl hf.sound⟩ ?_) ?_
  · rintro g e ⟨hg, hde⟩
    refine .bind (mark_post hg.sound (by decide)) fun o e' ho => ?_
    refine .bind (closedPattern_reads hr _ follow e' ho.sound) fun h e'' hh => ?_
    exact .pure ⟨(hg.append ho).append hh, hde.trans (ho.leads.trans hh.leads)⟩
  · rintro g e ⟨hg, hde⟩
    refine .pure ?_
    split
    · exact hf.leadsTo hde hg.tidy
    · exact hg.node _

theorem keywordPattern_reads (e : Expect) (follow : Follow) :
    Reads t (keywordPattern r e follow) := by
  intro c hc
  refine .bind (token_reads e captureLength_inks c hc) fun f d hf => ?_
  refine .bind ((equals_reads _).behind (hf.node .identifier)) fun g e hg => ?_
  exact .bind ((simplePattern_reads hr _ follow).behind hg) fun _ _ hh => .pure (hh.node _)

theorem casePattern_reads (e : Expect) (follow : Follow) : Reads t (casePattern r e follow) := by
  intro c hc
  refine .bind (P := fun f d => Between t c f d) (.orElse (keywordPattern_reads hr e follow c hc)
    (simplePattern_reads hr e follow c hc)) fun f d hf => ?_
  refine many_extends (hf.node .casePattern) fun f d hf => ?_
  refine .bind ((keyword_reads _ "as" (by decide)).behind hf) fun g e hg => ?_
  exact .bind ((name_reads _).behind hg) fun _ _ hh => .pure ((hh.node _).node _)

/-! ## Imports -/

omit hr in
theorem introduced_reads (w : String) (k : Kind) {p : Parser Fragment} (hp : Reads t p)
    (hw : w.toList ≠ []) : Reads t (introduced w k p) := by
  intro c hc
  refine .bind (keyword_post hc hw) fun f d hf => ?_
  exact .bind (hp.behind hf) fun _ _ hg => .pure (hg.node k)

omit hr in
/-- At least one of some constructs separated by commas. -/
theorem separated_reads {comma item first : Expect} {p : Expect → Parser Fragment}
    (hp : ∀ e, Reads t (p e)) (trailing : Bool) :
    Reads t (do commaSeparated comma item p trailing (← p first)) := by
  intro c hc
  refine .bind (hp first c hc) fun f d hf => ?_
  exact (commaSeparated_extends hp hf).mono fun _ _ h => h.1

omit hr in
theorem namesBehind_reads (w : String) (k : Kind) (hw : w.toList ≠ []) :
    Reads t (namesBehind w k) :=
  introduced_reads w k (separated_reads name_reads _) hw

omit hr in
theorem importedName_reads (follow e : Expect) : Reads t (importedName follow e) := by
  intro c hc
  refine .bind (dottedName_reads e _ c hc) fun f d hf => .orElse ?_ (.pure hf)
  refine .bind ((keyword_reads _ "as" (by decide)).behind hf) fun g e hg => ?_
  exact .bind ((name_reads _).behind hg) fun _ _ hh => .pure (hh.node _)

omit hr in
theorem importedNames_reads (follow e : Expect) : Reads t (importedNames follow e) :=
  separated_reads (importedName_reads follow) _

omit hr in
theorem importedMembers_reads : Reads t importedMembers := by
  intro c hc
  refine .orElse ?_ (importedNames_reads _ _ c hc)
  refine .bind (mark_post hc (by decide)) fun o d ho => ?_
  refine .bind ((importedNames_reads _ _).behind ho) fun f e hf => ?_
  exact .bind ((mark_reads _ ")" (by decide)).behind hf) fun _ _ hg => .pure hg

omit hr in
theorem relativeImport_reads : Reads t relativeImport := by
  intro c hc
  refine .bind (mark_post hc (by decide)) fun o d ho => ?_
  refine .bind (many_extends ho fun f d hf => ?_) fun f d hf => ?_
  · exact .bind ((mark_reads _ "." (by decide)).behind hf) fun _ _ hg => .pure hg
  · refine .bind (orNothing_extends (dottedName_reads _ _) (hf.node .importPrefix)) ?_
    exact fun _ _ hg => .pure (hg.1.node _)

omit hr in
theorem importFrom_reads : Reads t importFrom := by
  intro c hc
  refine .bind (keyword_post hc (by decide)) fun k d hk => ?_
  refine (peekWord_looks _).bind fun w => .ite ?_ ?_
  · refine .bind ((keyword_reads _ _ (by decide)).behind hk) fun f e hf => ?_
    refine .bind ((keyword_reads _ "import" (by decide)).behind hf) fun g e' hg => ?_
    exact .bind (importedMembers_reads.behind hg) fun _ _ hh => .pure (hh.node _)
  · refine .bind (P := fun m e => Between t d m e) (.orElse (relativeImport_reads d hk.sound)
      (dottedName_reads _ _ d hk.sound)) fun m e hm => ?_
    refine .bind ((keyword_reads _ "import" (by decide)).behind (hk.append hm)) fun g e hg => ?_
    refine .bind (P := fun m e' => Between t e m e') (.orElse ?_
      (importedMembers_reads e hg.sound)) fun _ _ hh => .pure ((hg.append hh).node _)
    exact .bind (mark_post hg.sound (by decide)) fun _ _ hs => .pure (hs.node _)

/-! ## Expressions and assignments -/

omit hr in
theorem atAssignment_looks : Looks atAssignment := (peek_looks lineEnd).map

/-- The right side behind its operator. -/
theorem rightSide_extends {p : Parser Fragment} (hp : Reads t p) {c d : Cursor} {f : Fragment}
    (hf : Between t c f d) :
    Post (do
      let o ← p
      pure (f ++ o ++ (← r.rightSide).withRole .right)) d fun g e => Between t c g e := by
  refine .bind (hp.behind hf) fun g e hg => ?_
  exact .bind (hr.rightSide e hg.sound) fun _ _ hx => .pure (hg.append (hx.withRole _))

theorem assignmentTo_reads (e : Expect) : Reads t (assignmentTo r e) := by
  intro c hc
  refine .bind (targetList_reads hr _ e _ c hc) fun f d hf => ?_
  have hleft := hf.withRole .left
  have hside : ∀ {p : Parser Fragment} (k : Kind), Reads t p → Post (do
      let o ← p
      pure ((f.withRole .left ++ o ++ (← r.rightSide).withRole .right).node k)) d
        fun g e => Between t c g e := by
    intro p k hp
    refine .bind (hp.behind hleft) fun g e hg => ?_
    exact .bind (hr.rightSide e hg.sound) fun _ _ hx =>
      .pure ((hg.append (hx.withRole _)).node k)
  refine .orElse (hside _ (token_reads _ augmentedLength_inks)) ?_
  refine .orElse (hside _ (equals_reads _)) ?_
  refine .bind ((mark_reads _ ":" (by decide)).behind hleft) fun g e hg => ?_
  refine .bind (hr.typeHint _ _ _ e hg.sound) fun x e' hx => ?_
  have hannotated := hg.append (hx.withRole .annotated)
  refine .bind (P := fun g e => Between t c g e) (.orElse ?_ (.pure hannotated))
    fun _ _ hh => .pure (hh.node _)
  exact rightSide_extends hr (equals_reads _) hannotated

theorem rightSide_reads : Reads t (rightSide r) := by
  intro c hc
  refine .orElse (yielding_reads hr _ _ c hc) (.get ?_)
  refine .bind (expressionList_reads hr _ _ c hc) fun f d hf => ?_
  exact atAssignment_looks.bind fun _ =>
    .ite (.set (assignmentTo_reads hr _ c hc)) (.pure hf)

theorem expressionStatement_reads : Reads t (expressionStatement r) := by
  intro c hc
  refine .bind (P := fun f d => Between t c f d) (.orElse (yielding_reads hr _ _ c hc) (.get ?_))
    fun _ _ hf => .pure (hf.node _)
  refine .bind (hr.expression _ _ _ c hc) fun f d hf => ?_
  refine .bind (commaSeparated_extends (fun e => hr.expression _ e _) hf) ?_
  rintro g e ⟨hg, -⟩
  have hassignment := assignmentTo_reads hr .operand c hc
  refine .get (atAssignment_looks.bind fun _ => .ite (.set hassignment) ?_)
  exact .ite (.pure hg) (.orElse (.set hassignment) (.set (.pure hg)))

omit hr in
theorem atStatementEnd_looks : Looks atStatementEnd :=
  fun _ => .get (.bind .trivial fun _ _ _ => .get (.set (.pure rfl)))

omit hr in
theorem wholeStatement_reads {p : Parser Fragment} (hp : Reads t p) : Reads t (wholeStatement p) :=
  fun c hc => .bind (hp c hc) fun _ _ hf =>
    atStatementEnd_looks.bind fun _ => .ite (.pure hf) .failure

/-! ## Statements that begin with a word that may be a name -/

theorem printStatement_reads : Reads t (printStatement r) := by
  intro c hc
  refine .bind (keyword_post hc (by decide)) fun k d hk => ?_
  have hend : ∀ f e, Between t d f e → Post (do
      let f ← commaSeparated lineEnd lineEndOrOperand
        (fun e => r.expression .conditional e .line) true (k ++ f)
      pure (f.node .printStatement)) e fun f e => Between t c f e :=
    fun f e hf => .bind (commaSeparated_extends (fun e => hr.expression _ e _) (hk.append hf))
      fun _ _ hg => .pure (hg.1.node _)
  refine (peek_looks _).bind fun t => .ite ?_ (.bind (hr.expression _ _ _ d hk.sound) hend)
  refine .bind (mark_post hk.sound (by decide)) fun a e ha => ?_
  exact .bind ((hr.expression _ _ _).behind ha) fun _ _ hx => hend _ _ (hx.node _)

omit hr in
theorem writesToFile_looks : Looks writesToFile :=
  fun _ => .get (.bind .trivial fun _ _ _ => .set (.pure rfl))

theorem execStatement_reads : Reads t (execStatement r) := by
  intro c hc
  refine .bind (keyword_post hc (by decide)) fun k d hk => ?_
  refine .bind (P := fun f e => Between t d f e) (.orElse (quotation_reads hr _ d hk.sound)
    (name_reads _ d hk.sound)) fun f e hf => ?_
  have hg := hk.append hf
  refine .bind (P := fun f e => Between t c f e) (.orElse ?_ (.pure hg))
    fun _ _ hh => .pure (hh.node _)
  refine .bind ((keyword_reads _ "in" (by decide)).behind hg) fun h e hh => ?_
  refine .bind ((hr.expression _ _ _).behind hh) fun x e hx => ?_
  exact (commaSeparated_extends (fun e => hr.expression _ e _) hx).mono fun _ _ h => h.1

omit hr in
theorem executes_looks : Looks executes :=
  fun _ => .get (.bind .trivial fun _ _ _ => .set (.pure rfl))

theorem typeAliasStatement_reads : Reads t (typeAliasStatement r) := by
  intro c hc
  refine .bind (keyword_post hc (by decide)) fun k d hk => ?_
  refine .bind ((hr.typeHint _ _ _).behind hk) fun f e hf => ?_
  refine .bind ((equals_reads _).behind hf) fun g e' hg => ?_
  exact .bind ((hr.typeHint _ _ _).behind hg) fun _ _ hh => .pure (hh.node _)

/-! ## Simple statements -/

omit hr in
theorem wordStatement_reads (w : String) (k : Kind) (hw : w.toList ≠ []) :
    Reads t (wordStatement w k) :=
  (keyword_reads _ w hw).node k

theorem simpleStatementAt_reads (w : Text) : Reads t (simpleStatementAt r w) := by
  intro c hc
  have hvalues : ∀ e, Reads t (expressionList r e .line) := fun e => expressionList_reads hr e _
  have hvalue : ∀ e, Reads t (r.expression .conditional e .line) := fun e => hr.expression _ e _
  have hstatement := expressionStatement_reads hr c hc
  refine .ite ((introduced_reads _ _ (importedNames_reads _ _) (by decide)) c hc) ?_
  refine .ite (importFrom_reads c hc) ?_
  refine .ite ((introduced_reads _ _ (separated_reads hvalue _) (by decide)) c hc) (.ite ?_ ?_)
  · refine .bind (keyword_post hc (by decide)) fun k d hk => ?_
    exact .bind (orNothing_extends (hvalues _) hk) fun _ _ hf => .pure (hf.1.node _)
  refine .ite ((introduced_reads _ _ (hvalues _) (by decide)) c hc) (.ite ?_ ?_)
  · refine .bind (keyword_post hc (by decide)) fun k d hk => ?_
    refine .bind (orNothing_extends (hvalues _) hk) fun f e hf => ?_
    refine .bind (orNothing_extends ?_ hf.1) fun _ _ hg => .pure (hg.1.node _)
    intro c hc
    refine .bind (keyword_post hc (by decide)) fun k d hk => ?_
    exact .bind ((hvalue _).behind hk) fun _ _ hx => .pure hx
  refine .ite ((wordStatement_reads _ _ (by decide)) c hc) ?_
  refine .ite ((wordStatement_reads _ _ (by decide)) c hc) ?_
  refine .ite ((wordStatement_reads _ _ (by decide)) c hc) ?_
  refine .ite ((namesBehind_reads _ _ (by decide)) c hc) ?_
  refine .ite ((namesBehind_reads _ _ (by decide)) c hc) (.ite ?_ (.ite ?_ (.ite ?_ hstatement)))
  · refine writesToFile_looks.bind fun _ => .ite (printStatement_reads hr c hc) ?_
    exact .orElse (wholeStatement_reads (expressionStatement_reads hr) c hc)
      (printStatement_reads hr c hc)
  · exact executes_looks.bind fun _ => .ite (execStatement_reads hr c hc) hstatement
  · exact .orElse (wholeStatement_reads (typeAliasStatement_reads hr) c hc) hstatement

theorem simpleStatement_reads (e : Expect) : Reads t (simpleStatement r e) := by
  intro c hc
  refine .bind (look_post e hc) ?_
  rintro ⟨ts, found⟩ d ⟨hd, hts, -⟩
  have hs := hd.sound
  have hend : ∀ f e, Between t d f e → Post (pure (f.behind ts)) e fun f e => Between t c f e :=
    fun f e hf => .pure (hf.behind hd hts)
  dsimp only
  split
  · exact .bind (expressionStatement_reads hr d hs) hend
  · exact .get (.bind (simpleStatementAt_reads hr _ d hs) hend)
  · exact .failure_bind

theorem simpleStatements_reads (e : Expect) : Reads t (simpleStatements r e) := by
  intro c hc
  refine .bind (simpleStatement_reads hr e c hc) fun f d hf => ?_
  refine .bind (many_extends hf fun f d hf => ?_) fun f d hf => ?_
  · refine .bind ((mark_reads _ ";" (by decide)).behind hf) fun g e hg => ?_
    exact .bind ((simpleStatement_reads hr _).behind hg) fun _ _ hh => .pure hh
  · refine .bind (orNothing_extends (mark_reads _ ";" (by decide)) hf) fun g e hg => ?_
    exact .bind ((newline_holds _).behind hg.1) fun _ _ hh => .pure hh

/-! ## Bodies -/

omit hr in
theorem emptyFragment_holds {s : Tree.Slot} : Holds t s emptyFragment :=
  fun _ hc htidy => .get (.pure (.empty hc htidy))

omit hr in
theorem untilDedent_holds {s : Tree.Slot} (e : Expect) {p : Parser Fragment}
    (hp : ReadsAs t s p) : Holds t s (untilDedent e p) := by
  intro c hc htidy
  refine .bind (P := fun f d => Held t s c f d) (.orElse ?_ (emptyFragment_holds c hc htidy))
    fun f d hf => ?_
  · refine .bind (hp c hc) fun f d hf => ?_
    refine (many_extends hf fun f d hf => ?_).mono fun _ _ hg => hg.toHeld
    exact .bind (hp.behind hf) fun _ _ hg => .pure hg
  · exact .bind (dedent_holds e d hf.sound hf.tidy) fun _ _ hg => .pure (hf.append hg)

theorem body_holds : Holds t .part (body r) := by
  intro c hc htidy
  refine .get (.bind (look_post _ hc) ?_)
  rintro ⟨ts, found⟩ d ⟨hd, hts, hfound⟩
  have hs := hd.sound
  dsimp only
  split
  · refine .bind (untilDedent_holds _ hr.statement d hs (hfound htidy)) fun _ _ hf => ?_
    exact .pure (hf.block.behind hd hts)
  · refine .bind (emptyFragment_holds (s := .body) d hs (hfound htidy)) fun _ _ hf => ?_
    exact .pure (hf.block.behind hd hts)
  · exact .set (((simpleStatements_reads hr _).node _ c hc).mono fun _ _ hf => hf.ofInner.toHeld)

theorem withBody_extends (e : Expect) {c d : Cursor} {f : Fragment} (hf : Between t c f d) :
    Post (withBody r e f) d fun g e => Spans t .part c g e := by
  refine .bind ((mark_reads e ":" (by decide)).behind hf) fun g e' hg => ?_
  exact .bind ((body_holds hr).behind hg.ofInner) fun _ _ hh => .pure hh

/-- A header with its body, as one node. -/
theorem clause_extends {s : Tree.Slot} (e : Expect) {k : Kind} (hs : s = .part ∨ s = .body)
    (hk : k.isClause = true) {c d : Cursor} {f : Fragment} (hf : Between t c f d) :
    Post (do pure ((← withBody r e f).node k)) d fun g e => Spans t s c g e :=
  .bind (withBody_extends hr e hf) fun _ _ hg => .pure (hg.clause hs hk)

/-- A header with its body, as a statement. -/
theorem compound_extends {s : Tree.Slot} (e : Expect) {k : Kind}
    (hs : s = .decorated ∨ s = .body) (hk : k.isCompound = true) (hne : k ≠ .decoratedDefinition)
    {c d : Cursor} {f : Fragment} (hf : Between t c f d) :
    Post (do pure ((← withBody r e f).node k)) d fun g e => Spans t s c g e :=
  .bind (withBody_extends hr e hf) fun _ _ hg => .pure (hg.compound hs hk hne)

/-! ## Clauses -/

theorem plainClause_reads (w : String) (k : Kind) (hw : w.toList ≠ [])
    (hk : k.isClause = true) : ReadsAs t .part (plainClause r w k) := by
  intro c hc
  exact .bind (keyword_post hc hw) fun _ _ hf => clause_extends hr _ (.inl rfl) hk hf

theorem elseClause_reads : ReadsAs t .part (elseClause r) :=
  plainClause_reads hr _ _ (by decide) (by decide)

theorem conditioned_reads (w : String) (hw : w.toList ≠ []) :
    ReadsAs t .part (conditioned r w) := by
  intro c hc
  refine .bind (keyword_post hc hw) fun k d hk => ?_
  exact .bind ((hr.expression _ _ _).behind hk) fun _ _ hx => withBody_extends hr _ hx

omit hr in
/-- A statement that may end with a clause. -/
theorem ended_extends {p : Parser Fragment} (hp : ReadsAs t .part p) {k : Kind}
    (hk : k.isCompound = true) (hne : k ≠ .decoratedDefinition) {c d : Cursor} {f : Fragment}
    (hf : Spans t .part c f d) :
    Post (do pure ((← orNothing f p).node k)) d fun g e => Spans t .body c g e :=
  .bind (orNothing_extends hp hf) fun _ _ hg => .pure (hg.1.compound (.inr rfl) hk hne)

theorem ifStatement_reads : ReadsAs t .body (ifStatement r) := by
  intro c hc
  refine .bind ((conditioned_reads hr "if" (by decide)) c hc) fun f d hf => ?_
  refine .bind (many_extends hf fun f d hf => ?_) fun f d hf => ?_
  · refine .bind ((conditioned_reads hr "elif" (by decide)) d hf.sound) fun g e hg => ?_
    exact .pure (hf.append (hg.clause (.inl rfl) rfl))
  · exact ended_extends (elseClause_reads hr) rfl (by decide) hf

theorem whileStatement_reads : ReadsAs t .body (whileStatement r) := by
  intro c hc
  exact .bind ((conditioned_reads hr "while" (by decide)) c hc) fun _ _ hf =>
    ended_extends (elseClause_reads hr) rfl (by decide) hf

theorem caught_reads : Reads t (caught r) := by
  intro c hc
  refine .bind (P := fun f d => Between t c f d) (.orElse ?_ (hr.expression _ _ _ c hc)) ?_
  · refine .bind (operandName_reads _ c hc) fun f d hf => ?_
    refine .bind ((mark_reads _ ":=" (by decide)).behind hf) fun g e hg => ?_
    exact .bind ((hr.expression _ _ _).behind hg) fun _ _ hx => .pure (hx.node _)
  · intro f d hf
    refine (peekWord_looks _).bind fun _ => .ite .failure_bind ?_
    exact many_extends hf fun _ _ hf => combine_extends hr _ _ hf

theorem exceptClause_reads : ReadsAs t .part (exceptClause r) := by
  intro c hc
  refine .bind (keyword_post hc (by decide)) fun k d hk => ?_
  refine .bind (orNothing_extends (mark_reads _ "*" (by decide)) hk) fun f d hf => ?_
  refine .bind (orNothing_extends (s := .inner) ?_ hf.1) fun g e hg =>
    clause_extends hr _ (.inl rfl) rfl hg.1
  intro c hc
  refine .bind (caught_reads hr c hc) fun f d hf => ?_
  exact (commaSeparated_extends (fun e => hr.expression _ e _) hf).mono fun _ _ h => h.1

theorem tryStatement_reads : ReadsAs t .body (tryStatement r) := by
  intro c hc
  refine .bind (keyword_post hc (by decide)) fun k d hk => ?_
  refine .bind (withBody_extends hr _ hk) fun f d hf => ?_
  refine .bind (many_extends hf fun f d hf => ?_) fun f d hf => ?_
  · exact .bind ((exceptClause_reads hr).behind hf) fun _ _ hg => .pure hg
  · refine .bind (orNothing_extends (elseClause_reads hr) hf) fun g e hg => ?_
    exact ended_extends (plainClause_reads hr _ _ (by decide) (by decide)) rfl (by decide) hg.1

/-! ## Loops and contexts -/

omit hr in
theorem maybeAsync_reads (w : String) (hw : w.toList ≠ []) :
    Reads t (maybeAsync w) := by
  intro c hc
  refine .orElse ?_ (keyword_post hc hw)
  refine .bind (keyword_post hc (by decide)) fun k d hk => ?_
  exact .bind ((keyword_reads _ w hw).behind hk) fun _ _ hg => .pure hg

theorem forStatement_reads : ReadsAs t .body (forStatement r) := by
  intro c hc
  refine .bind ((maybeAsync_reads "for" (by decide)) c hc) fun f d hf => ?_
  refine .bind ((targetList_reads hr _ _ _).behind hf) fun g e hg => ?_
  refine .bind ((keyword_reads _ "in" (by decide)).behind hg) fun h e hh => ?_
  refine .bind ((expressionList_reads hr _ _).behind hh) fun x e hx => ?_
  exact .bind (withBody_extends hr _ hx) fun _ _ hb =>
    ended_extends (elseClause_reads hr) rfl (by decide) hb

theorem withItems_reads (follow : Follow) (e : Expect) : Reads t (withItems r follow e) :=
  separated_reads (fun e => (hr.expression _ e follow).node _) _

theorem parenthesizedItems_reads : Reads t (parenthesizedItems r) := by
  intro c hc
  refine .bind (mark_post hc (by decide)) fun o d ho => ?_
  refine .bind ((withItems_reads hr _ _).behind ho) fun f e hf => .ite ?_ .failure
  refine .bind ((mark_reads _ ")" (by decide)).behind hf) fun g e hg => ?_
  refine (peek_looks _).bind fun _ => ?_
  split
  · exact .pure hg
  · exact .failure

theorem withStatement_reads : ReadsAs t .body (withStatement r) := by
  intro c hc
  refine .bind ((maybeAsync_reads "with" (by decide)) c hc) fun k d hk => ?_
  refine .bind (P := fun f e => Between t d f e) (.orElse (parenthesizedItems_reads hr d hk.sound)
    (withItems_reads hr _ _ d hk.sound)) fun f e hf => ?_
  exact compound_extends hr _ (.inr rfl) rfl (by decide) (hk.append (hf.node _))

/-! ## Definitions -/

omit hr in
theorem looksLikeBound_looks : Looks looksLikeBound :=
  fun _ => .get (.bind .trivial fun _ _ _ => .set (.pure rfl))

theorem functionDefinition_reads {s : Tree.Slot} (hs : s = .decorated ∨ s = .body) :
    ReadsAs t s (functionDefinition r) := by
  intro c hc
  refine .bind ((maybeAsync_reads "def" (by decide)) c hc) fun k d hk => ?_
  refine .bind ((name_reads _).behind hk) fun f d hf => ?_
  refine .bind (orNothing_extends (typeParameter_reads hr _) hf) fun f d hf => ?_
  refine .bind ((parameters_reads hr).behind hf.1) fun f d hf => ?_
  refine .bind (orNothing_extends (s := .inner) ?_ hf) fun f d hf =>
    compound_extends hr _ hs rfl (by decide) hf.1
  intro c hc
  refine .bind (mark_post hc (by decide)) fun a d ha => ?_
  refine .bind ((hr.typeHint _ _ _).behind ha) fun f e hf => ?_
  exact looksLikeBound_looks.bind fun _ => .ite .failure (.pure hf)

theorem classDefinition_reads {s : Tree.Slot} (hs : s = .decorated ∨ s = .body) :
    ReadsAs t s (classDefinition r) := by
  intro c hc
  refine .bind (keyword_post hc (by decide)) fun k d hk => ?_
  refine .bind ((name_reads _).behind hk) fun f d hf => ?_
  refine .bind (orNothing_extends (typeParameter_reads hr _) hf) fun f d hf => ?_
  refine .bind (orNothing_extends (argumentList_reads hr _) hf.1) fun f d hf => ?_
  exact compound_extends hr _ hs rfl (by decide) hf.1

theorem decorator_reads : Reads t (decorator r) := by
  intro c hc
  refine .bind (mark_post hc (by decide)) fun a d ha => ?_
  refine .bind ((hr.expression _ _ _).behind ha) fun f e hf => ?_
  exact .bind ((newline_holds _).behind hf) fun _ _ hg => .pure (hg.node _)

theorem decoratedDefinition_reads : ReadsAs t .body (decoratedDefinition r) := by
  intro c hc
  have hdecorator : ReadsAs t .decorated (decorator r) := (decorator_reads hr).ofInner
  refine .bind (hdecorator c hc) fun f d hf => ?_
  refine .bind (many_extends hf fun f d hf => ?_) fun f d hf => ?_
  · exact .bind (hdecorator.behind hf) fun _ _ hg => .pure hg
  · refine .bind (P := fun g e => Spans t .decorated d g e)
      (.orElse (classDefinition_reads hr (.inl rfl) d hf.sound)
        (functionDefinition_reads hr (.inl rfl) d hf.sound)) fun _ _ hg => ?_
    exact .pure (hf.append hg).decorated

/-! ## Matches -/

theorem caseClause_reads : ReadsAs t .body (caseClause r) := by
  intro c hc
  refine .bind (keyword_post hc (by decide)) fun k d hk => ?_
  refine .bind ((hr.casePattern _ _).behind hk) fun f d hf => ?_
  refine .bind (commaSeparated_extends (fun e => hr.casePattern e _) hf) fun f d hf => ?_
  refine .bind (orNothing_extends (s := .inner) ?_ hf.1) fun f d hf =>
    clause_extends hr _ (.inr rfl) rfl hf.1
  intro c hc
  refine .bind (keyword_post hc (by decide)) fun k d hk => ?_
  exact .bind ((hr.expression _ _ _).behind hk) fun _ _ hx => .pure (hx.node _)

theorem matchStatement_reads : ReadsAs t .body (matchStatement r) := by
  intro c hc
  refine .bind (keyword_post hc (by decide)) fun k d hk => ?_
  refine (peek_looks _).bind fun _ => .ite .failure_bind ?_
  refine .bind ((hr.expression _ _ _).behind hk) fun f d hf => ?_
  refine .bind (commaSeparated_extends (fun e => hr.expression _ e _) hf) fun f d hf => ?_
  refine .bind ((mark_reads _ ":" (by decide)).behind hf.1) fun g d hg => ?_
  refine .bind (look_post _ hg.sound) ?_
  rintro ⟨ts, found⟩ e ⟨he, hts, hfound⟩
  have hend : ∀ cs e', Held t .body e cs e' → Post (pure
      ((f ++ g ++ (cs.node .block).behind ts).node .matchStatement)) e' fun g e =>
        Spans t .body c g e :=
    fun cs e' hcs => .pure ((hg.ofInner.appendHeld (hcs.block.behind he hts)).compound (.inr rfl)
      rfl (by decide))
  refine .bind (P := fun o e' => ⟨[], [], e.place, e.place⟩ = o ∧ e = e') (.get (.pure ⟨rfl, rfl⟩))
    ?_
  rintro _ _ ⟨rfl, rfl⟩
  split
  · have ho : Held t .body e ⟨[], [], e.place, e.place⟩ e := .empty he.sound (hfound hg.tidy)
    refine .bind (untilDedent_holds _ (caseClause_reads hr) e he.sound ho.tidy) fun _ _ hcs => ?_
    exact .bind (.pure (ho.append hcs)) hend
  · exact .bind (.pure (.empty he.sound (hfound hg.tidy))) hend
  · exact .failure_bind

/-! ## All statements -/

theorem statementAt_reads (w : Text) : ReadsAs t .body (statementAt r w) := by
  intro c hc
  have hline := (simpleStatements_reads hr .operand).ofInner (s := .body) c hc
  have hfunction := functionDefinition_reads hr (.inr rfl) c hc
  refine .ite (ifStatement_reads hr c hc) (.ite (forStatement_reads hr c hc) ?_)
  refine .ite (whileStatement_reads hr c hc) (.ite (tryStatement_reads hr c hc) ?_)
  refine .ite (withStatement_reads hr c hc) (.ite hfunction ?_)
  refine .ite (classDefinition_reads hr (.inr rfl) c hc) (.ite ?_ (.ite ?_ hline))
  · exact .orElse hline (matchStatement_reads hr c hc)
  · refine .orElse hfunction ?_
    exact .orElse (forStatement_reads hr c hc) (.orElse (withStatement_reads hr c hc) hline)

theorem statement_reads : ReadsAs t .body (statement r) := by
  intro c hc
  refine .bind (look_post _ hc) ?_
  rintro ⟨ts, found⟩ d ⟨hd, hts, -⟩
  have hs := hd.sound
  have hend : ∀ f e, Spans t .body d f e → Post (pure (f.behind ts)) e fun f e =>
      Spans t .body c f e :=
    fun f e hf => .pure (hf.behind hd hts)
  dsimp only
  split
  · exact .bind ((simpleStatements_reads hr _).ofInner d hs) hend
  · refine .get ?_
    split
    · exact .bind (decoratedDefinition_reads hr d hs) hend
    · exact .bind (statementAt_reads hr _ d hs) hend
  · exact .failure_bind

end

/-! ## The grammar -/

theorem rules_reads (n : Nat) : (rules n).Reads t := by
  induction n with
  | zero => exact Rules.none_reads
  | succ n ih =>
    exact
      { expression := expression_reads ih
        operation := operation_reads ih
        interpolation := interpolation_passes ih
        typeHint := typeHint_reads ih
        casePattern := casePattern_reads ih
        simplePattern := simplePattern_reads ih
        target := target_reads ih
        rightSide := rightSide_reads ih
        statement := statement_reads ih }

theorem file_post {r : Rules} (hr : r.Reads t) {c : Cursor} (hc : c.Sound t)
    (htidy : Tidy t c.place) :
    Post (file r) c fun u _ => u.start = 0 ∧ u.stop = t.length ∧ u.Nested ∧
      ∀ v ∈ u.children, v.Orderly t .body := by
  refine .get (.bind (P := fun f d => Held t .body c f d) (.many (.empty hc htidy) ?_)
    fun f d hf => ?_)
  · intro f d hf
    exact .bind (statement_reads hr d hf.sound) fun _ _ hg => .pure (hf.append hg.toHeld)
  · refine .bind (look_post _ hf.sound) ?_
    rintro ⟨ts, found⟩ e ⟨he, hts, -⟩
    refine .get ?_
    split
    · have hitems := hf.items.append (hts.1.mono hf.stop (Nat.le_refl _))
      refine .pure ⟨rfl, he.sound.size, Tree.nested_node.mpr (hitems.mono (Nat.zero_le _) ?_),
        fun v hv => ?_⟩
      · rw [he.sound.size]
        exact he.sound.place
      · exact (List.mem_append.mp hv).elim (hf.orderly v) fun hv => (hts.2 v hv).ofInner
    · exact .failure

/-- The tree of a text covers the text, its nodes are nested, and its statements are orderly. -/
theorem readTree_post {tree : Tree} (h : readTree t = some tree) :
    tree.start = 0 ∧ tree.stop = t.length ∧ tree.Nested ∧
      ∀ u ∈ tree.children, u.Orderly t .body := by
  obtain ⟨⟨tree, d⟩, hfile, rfl⟩ := Option.map_eq_some_iff.mp h
  exact file_post (rules_reads _) (Cursor.sound_ofText t) (Text.tidy_zero t) tree d hfile

theorem nested_of_readTree {tree : Tree} (h : readTree t = some tree) :
    tree.start = 0 ∧ tree.stop = t.length ∧ tree.Nested := by
  obtain ⟨hstart, hstop, hnested, -⟩ := readTree_post h
  exact ⟨hstart, hstop, hnested⟩

/-- The statements of a text that follows the rules are orderly. -/
theorem orderly_of_readTree {tree : Tree} (h : readTree t = some tree) :
    ∀ u ∈ tree.children, u.Orderly t .body :=
  (readTree_post h).2.2.2

end Syntax

end PointMutation
