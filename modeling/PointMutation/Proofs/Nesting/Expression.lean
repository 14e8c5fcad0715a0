import PointMutation.Proofs.Nesting.Display

/-!
# Nested parameters and expressions

The readers for parameters, operands, operators, targets and annotations read nested fragments, if
the rules for what they contain do.
-/

namespace PointMutation

namespace Syntax

open Text (Tidy)

variable {t : Text}

section

variable {r : Rules} (hr : r.Reads t)

include hr

/-! ## Parameters -/

theorem starredParameter_reads (stars : String) (k : Kind) (e : Expect) (follow : Follow)
    (hm : IsMark stars.toList) : Reads t (starredParameter r stars k e follow) := by
  intro c hc
  refine .bind (mark_post hc hm) fun s d hs => ?_
  refine .bind ((hr.target _ _ follow).behind hs) fun f d hf => ?_
  split
  · exact .ite (.pure (hf.node k)) .failure
  · exact .failure

theorem defaultValue_extends (follow : Follow) (k : Kind) {c d : Cursor} {f : Fragment}
    (hf : Between t c f d) : Post (defaultValue r follow f k) d fun g e => Between t c g e := by
  refine .bind ((equals_reads _).behind hf) fun g e hg => ?_
  refine .bind (hr.expression _ _ follow e hg.sound) fun v e' hv => ?_
  exact .pure ((hg.append (hv.withRole _)).node k)

theorem annotatedParameter_extends (follow : Follow) (plain : Bool) {c d : Cursor}
    {f : Fragment} (hf : Between t c f d) :
    Post (annotatedParameter r follow f plain) d fun g e => Between t c g e := by
  refine .bind (mark_post hf.sound (by decide)) fun g e hg => ?_
  refine .bind (hr.typeHint _ _ follow e hg.sound) fun t e' ht => ?_
  have hhint := ht.withRole .annotated
  refine .orElse (.ite ?_ .failure) (.pure (((hf.append hg).append hhint).node _))
  exact defaultValue_extends hr follow _ (((hf.withRole .name).append hg).append hhint)

theorem parameter_reads (annotations : Bool) (follow : Follow) (e : Expect) :
    Reads t (parameter r annotations follow e) := by
  intro c hc
  have hannotate : ∀ (plain : Bool) {f : Fragment} {d : Cursor}, Between t c f d →
      Post (if annotations then annotatedParameter r follow f plain else failure) d
        fun g e => Between t c g e :=
    fun plain _ _ hf => .ite (annotatedParameter_extends hr follow plain hf) .failure
  refine (peek_looks e).bind fun t => ?_
  split
  · refine .bind ((starredParameter_reads hr _ _ e follow (by decide)) c hc) fun f d hf => ?_
    exact .orElse (hannotate false hf) (.pure hf)
  · refine .orElse ?_ (.bind (mark_post hc (by decide)) fun _ _ hs => .pure (hs.node _))
    refine .bind ((starredParameter_reads hr _ _ e follow (by decide)) c hc) fun f d hf => ?_
    exact .orElse (hannotate false hf) (.pure hf)
  · exact .bind (mark_post hc (by decide)) fun _ _ hs => .pure (hs.node _)
  · have htargets := bracketedTargets_reads hr false e "(" ")" .tuplePattern (by decide) (by decide)
    refine .bind (htargets c hc) fun f d hf => ?_
    exact .orElse (defaultValue_extends hr follow _ (hf.withRole .name)) (.pure hf)
  · refine .bind (name_reads e c hc) fun f d hf => .orElse (hannotate true hf) ?_
    exact .orElse (defaultValue_extends hr follow _ (hf.withRole .name)) (.pure hf)

theorem parametersWithin_reads (annotations : Bool) (follow : Follow) (e : Expect) :
    Reads t (parametersWithin r annotations follow e) := by
  intro c hc
  refine .bind (parameter_reads hr annotations follow e c hc) fun f d hf => ?_
  exact (commaSeparated_extends (parameter_reads hr annotations follow) hf).mono
    fun _ _ h => h.1

theorem lambdaParameters_reads : Reads t (lambdaParameters r) :=
  (parametersWithin_reads hr _ _ _).node _

theorem parameters_reads : Reads t (parameters r) := by
  intro c hc
  refine .bind (mark_post hc (by decide)) fun o d ho => ?_
  refine .bind (orNothing_extends (parametersWithin_reads hr _ _ _) ho) fun f e hf => ?_
  exact closed_extends _ _ _ hf.1 (by decide)

/-! ## Operands -/

omit hr in
theorem atOperand_looks (follow : Follow) : Looks (atOperand follow) := by
  intro c
  refine .get (.bind .trivial fun p d _ => .get (.set ?_))
  split
  · exact .pure rfl
  · exact .pure rfl
  · exact .pure rfl

theorem atom_reads (e : Expect) (follow : Follow) : Reads t (atom r e follow) := by
  intro c hc
  refine .bind (look_post e hc) ?_
  rintro ⟨ts, found⟩ d ⟨hd, hts, -⟩
  have hs := hd.sound
  have hend : ∀ f e, Between t d f e → Post (pure (f.behind ts)) e fun f e => Between t c f e :=
    fun f e hf => .pure (hf.behind hd hts)
  have hword : ∀ (w : String) k, w.toList ≠ [] → Post (do
      let f ← pure ((← keyword .plain w).node k)
      pure (f.behind ts)) d fun f e => Between t c f e :=
    fun w k hw => .bind (keyword_post hs hw) fun _ _ hf => hend _ _ (hf.node k)
  dsimp only
  split
  · exact .bind (quotations_reads hr _ follow d hs) hend
  · refine .get ?_
    split
    · exact .bind (parenthesized_reads hr follow d hs) hend
    · exact .bind (listDisplay_reads hr d hs) hend
    · exact .bind (bracedDisplay_reads hr d hs) hend
    · exact .bind (mark_post hs (by decide)) fun _ _ hf => hend _ _ (hf.node _)
    · split
      · exact .bind (token_reads _ numeralLength_inks d hs) fun _ _ hf => hend _ _ (hf.node _)
      · refine .ite (hword _ _ (by decide)) (.ite (hword _ _ (by decide)) (.ite (hword _ _ (by decide)) ?_))
        refine .bind (operandName_reads _ d hs) fun f e hf => ?_
        exact (atOperand_looks follow).bind fun _ => .ite .failure_bind (hend f e hf)
  · exact .failure_bind

/-! ## What follows an operand -/

theorem trailer_reads (follow : Follow) {c : Cursor} (hc : c.Sound t) :
    Post (trailer r follow) c fun w d => Between t c w.2 d := by
  refine (peek_looks _).bind fun _ => ?_
  split
  · refine .bind (mark_post hc (by decide)) fun f d hf => ?_
    exact .bind ((name_reads _).behind hf) fun _ _ hg => .pure hg
  · exact .bind (subscripts_reads hr follow c hc) fun _ _ hf => .pure hf
  · exact .bind (callArguments_reads hr follow c hc) fun _ _ hf => .pure hf
  · exact .failure

omit hr in
/-- Trailers that were read one behind the other, up to a tidy place. -/
def Trailing (t : Text) (c : Cursor) : List Trailer → Cursor → Prop
  | [], d => c.Leads t d ∧ Tidy t d.place
  | w :: ws, d => ∃ e, Between t c w.2 e ∧ Trailing t e ws d

omit hr in
theorem Trailing.leads {c d : Cursor} {ws : List Trailer} (h : Trailing t c ws d) :
    c.Leads t d := by
  induction ws generalizing c with
  | nil => exact h.1
  | cons w ws ih =>
    obtain ⟨e, hw, hws⟩ := h
    exact hw.leads.trans (ih hws)

omit hr in
theorem Trailing.tidy {c d : Cursor} {ws : List Trailer} (h : Trailing t c ws d) :
    Tidy t d.place := by
  induction ws generalizing c with
  | nil => exact h.2
  | cons w ws ih =>
    obtain ⟨e, hw, hws⟩ := h
    exact ih hws

omit hr in
theorem Trailing.append {c d e : Cursor} {ws : List Trailer} {w : Trailer}
    (h : Trailing t c ws d) (hw : Between t d w.2 e) : Trailing t c (ws ++ [w]) e := by
  induction ws generalizing c with
  | nil => exact ⟨e, hw.after h.1, .refl hw.sound, hw.tidy⟩
  | cons u us ih =>
    obtain ⟨c', hu, hus⟩ := h
    exact ⟨c', hu, ih hus⟩

theorem trailers_trailing (follow : Follow) {c d : Cursor} {f : Fragment} (hf : Between t c f d) :
    Post (trailers r follow) d fun ws e => Trailing t d ws e := by
  refine .many ⟨.refl hf.sound, hf.tidy⟩ fun ws e hws => ?_
  exact .bind (trailer_reads hr follow hws.leads.sound) fun w e' hw => .pure (hws.append hw)

omit hr in
theorem between_attach {c d e : Cursor} {f : Fragment} {w : Trailer} (hf : Between t c f d)
    (hw : Between t d w.2 e) : Between t c (attach f w) e :=
  (hf.append hw).node w.1

omit hr in
theorem between_attachAll {c d e : Cursor} {f : Fragment} {ws : List Trailer}
    (hf : Between t c f d) (hws : Trailing t d ws e) : Between t c (ws.foldl attach f) e := by
  induction ws generalizing d f with
  | nil => exact hf.leadsTo hws.1 hws.2
  | cons w ws ih =>
    obtain ⟨d', hw, hws⟩ := hws
    exact ih (between_attach hf hw) hws

/-! ## Starred operands -/

omit hr in
theorem bindable_between {c d e : Cursor} {f g : Fragment} {ts us : List Trailer}
    (hf : Between t c f d) (hts : Trailing t d ts e) (h : bindable? f ts = some (g, us)) :
    ∃ d', Between t c g d' ∧ Trailing t d' us e := by
  induction ts generalizing d f with
  | nil =>
    rw [bindable?] at h
    split at h
    · cases h
      exact ⟨d, hf, hts⟩
    · cases h
  | cons w ts ih =>
    rw [bindable?] at h
    split at h
    · cases h
      exact ⟨d, hf, hts⟩
    · obtain ⟨d', hw, hts⟩ := hts
      exact ih (between_attach hf hw) hts h

omit hr in
/-- Each star goes in front of what it takes in. -/
theorem below_between {c b d e : Cursor} {ss : List Fragment} {f g : Fragment}
    {ts us : List Trailer} (hss : Stacked t c ss b) (hf : Between t b f d) (hts : Trailing t d ts e)
    (h : below ss f ts = some (g, us)) : ∃ d', Between t c g d' ∧ Trailing t d' us e := by
  induction ss generalizing b d f ts with
  | nil =>
    cases h
    exact ⟨d, hf.after hss, hts⟩
  | cons s ss ih =>
    obtain ⟨b', hss, hs⟩ := hss
    rw [below] at h
    split at h
    · rename_i g' ts' hbindable
      obtain ⟨d', hg', hts'⟩ := bindable_between hf hts hbindable
      exact ih hss ((hs.append hg').node _) hts' h
    · cases h

/-- The stars, the operand and the trailers stand one behind the other. -/
theorem starredOperand_post (e : Expect) (follow : Follow) {c : Cursor} (hc : c.Sound t) :
    Post (starredOperand r e follow) c fun s d => ∃ c₁ c₂, Stacked t c s.stars c₁ ∧
      Between t c₁ s.operand c₂ ∧ Trailing t c₂ s.trailers d := by
  refine .bind (mark_post hc (by decide)) fun s d hs => ?_
  refine .bind (marks_stacked "*" hc hs (by decide)) fun ss c₁ hss => ?_
  refine .bind (atom_reads hr _ follow c₁ hss.leads.sound) fun f c₂ hf => ?_
  exact .bind (trailers_trailing hr follow hf) fun ts d hts =>
    .pure ⟨c₁, c₂, hss, hf, hts⟩

theorem starredExpression_reads (follow : Follow) : Reads t (starredExpression r follow) := by
  intro c hc
  refine .bind (starredOperand_post hr _ follow hc) ?_
  rintro ⟨ss, f, ts⟩ d ⟨c₁, c₂, hss, hf, hts⟩
  refine (endsText_looks follow).bind fun b => ?_
  dsimp only
  split
  · rename_i star _
    obtain ⟨c₀, hc₀, hstar⟩ := hss
    exact .pure ((hstar.after hc₀).append (between_attachAll hf hts) |>.node _)
  · split
    · rename_i g us hbelow
      obtain ⟨d', hg, hus⟩ := below_between hss hf hts hbelow
      exact .pure (between_attachAll hg hus)
    · exact .failure

theorem operand_reads (e : Expect) (follow : Follow) : Reads t (operand r e follow) := by
  intro c hc
  refine (peek_looks e).bind fun t => ?_
  split
  · exact starredExpression_reads hr follow c hc
  · refine .bind (atom_reads hr e follow c hc) fun f d hf => ?_
    exact .bind (trailers_trailing hr follow hf) fun _ _ hts =>
      .pure (between_attachAll hf hts)

/-! ## Operators -/

theorem awaited_reads (follow : Follow) : Reads t (awaited r follow) := by
  intro c hc
  refine .bind (keyword_post hc (by decide)) fun k d hk => ?_
  refine (atOperand_looks follow).bind fun _ => .ite ?_ .failure
  exact .bind ((hr.operation _ _ follow).behind hk) fun _ _ hx => .pure (hx.node _)

theorem signed_reads (sign : String) (follow : Follow) (hm : IsMark sign.toList) :
    Reads t (signed r sign follow) := by
  intro c hc
  refine .bind (mark_post hc hm) fun s d hs => ?_
  exact .bind ((hr.operation _ _ follow).behind hs) fun _ _ hx => .pure (hx.node _)

theorem operate_extends (level : Nat) (follow : Follow) {c d : Cursor} {f : Fragment}
    (hf : Between t c f d) : Post (operate r level follow f) d fun g e => Between t c g e := by
  refine (peek_looks _).bind fun t => ?_
  split
  · refine .ite ?_ .failure
    refine .bind ((token_reads _ binaryLength_inks).behind hf) fun g e hg => ?_
    exact .bind ((hr.operation _ _ follow).behind hg) fun _ _ hx => .pure (hx.node _)
  · exact .failure

theorem operation_reads (level : Nat) (e : Expect) (follow : Follow) :
    Reads t (operation r level e follow) := by
  intro c hc
  refine .bind (look_post e hc) ?_
  rintro ⟨ts, found⟩ d ⟨hd, hts, -⟩
  have hs := hd.sound
  have hend : ∀ f e, Between t d f e → Post (do
      pure ((← many (operate r level follow) f).behind ts)) e fun f e => Between t c f e := by
    intro f e hf
    exact .bind (many_extends hf fun _ _ hf => operate_extends hr level follow hf)
      fun _ _ hg => .pure (hg.behind hd hts)
  dsimp only
  split
  · exact .bind (operand_reads hr _ follow d hs) hend
  · refine .get ?_
    split
    · exact .bind ((signed_reads hr _ follow (by decide)) d hs) hend
    · exact .bind ((signed_reads hr _ follow (by decide)) d hs) hend
    · exact .bind ((signed_reads hr _ follow (by decide)) d hs) hend
    · exact .bind (.orElse (awaited_reads hr follow d hs) (operand_reads hr _ follow d hs)) hend
  · exact .failure_bind

/-! ## Comparisons -/

omit hr in
theorem comparisonOperator_reads (follow : Follow) : Reads t (comparisonOperator follow) := by
  intro c hc
  refine (peek_looks _).bind fun t => ?_
  split
  · exact token_reads _ comparisonLength_inks c hc
  · refine .ite (keyword_post hc (by decide)) (.ite ?_ (.ite ?_ .failure))
    · refine .bind (keyword_post hc (by decide)) fun f d hf => ?_
      exact .bind ((keyword_reads _ "in" (by decide)).behind hf) fun _ _ hg => .pure hg
    · refine .bind (keyword_post hc (by decide)) fun f d hf => ?_
      exact (orNothing_extends (keyword_reads _ "not" (by decide)) hf).mono fun _ _ h => h.1

theorem comparison_reads (follow : Follow) : Reads t (comparison r follow) := by
  intro c hc
  refine .bind (operation_reads hr _ _ follow c hc) fun f d hf => ?_
  refine .bind (P := fun g e => Between t c g e ∧ d.Leads t e) (.many ⟨hf, .refl hf.sound⟩ ?_) ?_
  · rintro g e ⟨hg, hde⟩
    refine .bind (comparisonOperator_reads follow e hg.sound) fun o e' ho => ?_
    refine .bind (operation_reads hr _ _ follow e' ho.sound) fun h e'' hh => ?_
    exact .pure ⟨(hg.append ho).append hh, hde.trans (ho.leads.trans hh.leads)⟩
  · rintro g e ⟨hg, hde⟩
    refine .pure ?_
    split
    · exact hf.leadsTo hde hg.tidy
    · exact hg.node _

/-! ## Operators written as words -/

theorem named_reads (follow : Follow) : Reads t (named r follow) := by
  intro c hc
  refine .bind (operandName_reads _ c hc) fun f d hf => ?_
  refine .bind ((mark_reads _ ":=" (by decide)).behind hf) fun g e hg => ?_
  exact .bind ((hr.expression _ _ follow).behind hg) fun _ _ hx => .pure (hx.node _)

theorem lambda_reads (floor : Floor) (follow : Follow) : Reads t (lambda r floor follow) := by
  intro c hc
  refine .bind (keyword_post hc (by decide)) fun k d hk => ?_
  refine .bind (orNothing_extends (lambdaParameters_reads hr) hk) fun f e hf => ?_
  refine .bind ((mark_reads _ ":" (by decide)).behind hf.1) fun g e' hg => ?_
  exact .bind ((hr.expression _ _ follow).behind hg) fun _ _ hx => .pure (hx.node _)

/-- A word with an operand behind it, as one node. -/
theorem combined_extends (w : String) (floor : Floor) (follow : Follow) (k : Kind)
    {c d : Cursor} {f : Fragment} (hf : Between t c f d) (hw : w.toList ≠ []) :
    Post (do
      let k' ← keyword follow.expect w
      pure ((f ++ k' ++ (← r.expression floor .operand follow)).node k)) d
      fun g e => Between t c g e := by
  refine .bind ((keyword_reads _ w hw).behind hf) fun g e hg => ?_
  exact .bind ((hr.expression floor _ follow).behind hg) fun _ _ hx => .pure (hx.node k)

theorem combine_extends (floor : Floor) (follow : Follow) {c d : Cursor} {f : Fragment}
    (hf : Between t c f d) : Post (combine r floor follow f) d fun g e => Between t c g e := by
  refine (peekWord_looks _).bind fun w => ?_
  refine .ite (combined_extends hr "and" .negation follow _ hf (by decide)) ?_
  refine .ite (combined_extends hr "or" .conjunction follow _ hf (by decide)) ?_
  refine .ite ?_ (.ite ?_ .failure)
  · refine .bind ((keyword_reads _ "as" (by decide)).behind hf) fun g e hg => ?_
    refine .bind (hr.expression _ _ follow e hg.sound) fun t e' ht => ?_
    exact .pure ((hg.append (ht.node _)).node _)
  · refine .bind ((keyword_reads _ "if" (by decide)).behind hf) fun g e hg => ?_
    refine .bind ((hr.expression _ _ .other).behind hg) fun h e' hh => ?_
    refine .bind ((keyword_reads _ "else" (by decide)).behind hh) fun k e'' hk => ?_
    exact .bind ((hr.expression _ _ follow).behind hk) fun _ _ hx => .pure (hx.node _)

theorem expression_reads (floor : Floor) (e : Expect) (follow : Follow) :
    Reads t (expression r floor e follow) := by
  intro c hc
  refine .bind (look_post e hc) ?_
  rintro ⟨ts, found⟩ d ⟨hd, hts, -⟩
  have hs := hd.sound
  have hend : ∀ f e, Between t d f e → Post (do
      pure ((← many (combine r floor follow) f).behind ts)) e fun f e => Between t c f e := by
    intro f e hf
    exact .bind (many_extends hf fun _ _ hf => combine_extends hr floor follow hf)
      fun _ _ hg => .pure (hg.behind hd hts)
  dsimp only
  split
  · exact .bind (comparison_reads hr follow d hs) hend
  · refine .get (.ite ?_ (.ite ?_ ?_))
    · refine .bind (keyword_post hs (by decide)) fun k e hk => ?_
      exact .bind ((hr.expression _ _ follow).behind hk) fun _ _ hx => hend _ _ (hx.node _)
    · exact .bind (lambda_reads hr floor follow d hs) hend
    · exact .bind (.orElse (named_reads hr follow d hs) (comparison_reads hr follow d hs)) hend
  · exact .failure_bind

/-! ## Targets -/

theorem plainTarget_reads (e : Expect) (follow : Follow) : Reads t (plainTarget r e follow) := by
  intro c hc
  exact .bind (operand_reads hr e follow c hc) fun _ _ hf => .ite (.pure hf) .failure

theorem starredTarget_reads (first : Bool) (e : Expect) (follow : Follow) :
    Reads t (starredTarget r first e follow) := by
  intro c hc
  refine .bind (starredOperand_post hr e follow hc) ?_
  rintro ⟨ss, f, ts⟩ d ⟨c₁, c₂, hss, hf, hts⟩
  dsimp only
  split
  · obtain ⟨c₀, hc₀, hstar⟩ := hss
    have hg := (hstar.after hc₀).append hf
    exact .ite (.pure ((hg.node _).leadsTo hts.leads hts.tidy)) .failure
  · rename_i star _
    obtain ⟨c₀, hc₀, hstar⟩ := hss
    have hwhole := (hstar.after hc₀).append (between_attachAll hf hts)
    refine .ite .failure (.ite ?_ (.pure (hwhole.node _)))
    have hstacked : Stacked t c [star] c₁ := ⟨c₀, hc₀, hstar⟩
    split
    · rename_i g hbelow
      obtain ⟨d', hg, hus⟩ := below_between hstacked hf hts hbelow
      exact .pure ((hg.withKind _).leadsTo hus.leads hus.tidy)
    · rename_i g us _ hbelow
      obtain ⟨d', hg, hus⟩ := below_between hstacked hf hts hbelow
      exact .pure (between_attachAll hg hus)
    · exact .failure
  · exact .failure

theorem target_reads (first : Bool) (e : Expect) (follow : Follow) :
    Reads t (target r first e follow) := by
  intro c hc
  have hplain := plainTarget_reads hr e follow c hc
  refine (peek_looks e).bind fun t => ?_
  split
  · exact starredTarget_reads hr first e follow c hc
  · exact .orElse hplain ((bracketedTargets_reads hr _ e _ _ _ (by decide) (by decide)) c hc)
  · exact .orElse hplain ((bracketedTargets_reads hr _ e _ _ _ (by decide) (by decide)) c hc)
  · exact hplain

/-! ## Annotations -/

theorem typeParameter_reads (e : Expect) : Reads t (typeParameter r e) := by
  intro c hc
  refine .bind (mark_post hc (by decide)) fun o d ho => ?_
  refine .bind ((hr.typeHint _ _ _).behind ho) fun f e hf => ?_
  refine .bind (commaSeparated_extends (fun e => hr.typeHint _ e _) hf) fun g e hg => ?_
  exact closed_extends _ _ _ hg.1 (by decide)

omit hr in
theorem splatType_reads (e : Expect) (follow : Follow) : Reads t (splatType e follow) := by
  intro c hc
  refine .bind (.orElse (mark_post hc (by decide)) (mark_post hc (by decide))) fun s d hs => ?_
  refine .bind (token_reads _ unambiguousNameLength_inks d hs.sound) fun n e hn => ?_
  have hf := (hs.append (hn.node .identifier)).node .splatType
  refine (peek_looks _).bind fun t => ?_
  split
  · exact .failure
  · exact .failure
  · split
    · exact .ite (.pure hf) .failure
    · exact .pure hf

theorem parameterizedType_reads (e : Expect) (follow : Follow) :
    Reads t (parameterizedType r e follow) := by
  intro c hc
  refine (peek_looks e).bind fun t => ?_
  split
  · exact splatType_reads e follow c hc
  · refine .bind (token_reads _ genericNameLength_inks c hc) fun f d hf => ?_
    exact .bind ((typeParameter_reads hr _).behind (hf.node _)) fun _ _ hg => .pure (hg.node _)

omit hr in
theorem isGeneric_looks (e : Expect) (follow : Follow) : Looks (isGeneric e follow) :=
  fun _ => .get (.bind .trivial fun _ _ _ => .set (.pure rfl))

theorem baseType_reads (e : Expect) (follow : Follow) : Reads t (baseType r e follow) := by
  intro c hc
  have hx := hr.expression .conditional e follow c hc
  refine .bind (P := fun f d => Between t c f d) ?_ fun _ _ hf => .pure (hf.node _)
  refine (isGeneric_looks e follow).bind fun _ => .ite ?_ ?_
  · exact parameterizedType_reads hr e follow c hc
  · refine (peek_looks e).bind fun t => ?_
    split
    · exact splatType_reads e follow c hc
    · exact .orElse (splatType_reads e follow c hc) hx
    · exact hx

theorem typeTail_extends (follow : Follow) {c d : Cursor} {p : Fragment × Fragment}
    (hp : Between t c p.1 d) : Post (typeTail r follow p) d fun q e => Between t c q.1 e := by
  refine .ite .failure_bind ((peek_looks _).bind fun t => ?_)
  split
  · refine .bind ((mark_reads _ "." (by decide)).behind hp) fun f e hf => ?_
    exact .bind ((name_reads _).behind hf) fun _ _ hg => .pure ((hg.node _).node _)
  · refine .bind ((mark_reads _ "|" (by decide)).behind hp) fun f e hf => ?_
    exact .bind ((baseType_reads hr _ follow).behind hf) fun _ _ hg =>
      .pure ((hg.node _).node _)
  · exact .failure

theorem typeHint_reads (bounded : Bool) (e : Expect) (follow : Follow) :
    Reads t (typeHint r bounded e follow) := by
  intro c hc
  refine .bind (baseType_reads hr e follow c hc) fun base d hbase => ?_
  refine .bind (P := fun p d => Between t c p.1 d)
    (.many hbase fun p d hp => typeTail_extends hr follow hp) ?_
  rintro ⟨f, last⟩ d hf
  refine .ite (.orElse ?_ (.pure hf)) (.pure hf)
  refine .bind ((mark_reads _ ":" (by decide)).behind hf) fun g e hg => ?_
  exact .bind ((hr.typeHint _ _ follow).behind hg) fun _ _ hh => .pure ((hh.node _).node _)

end

end Syntax

end PointMutation
