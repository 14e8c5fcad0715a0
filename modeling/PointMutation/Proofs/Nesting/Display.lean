import PointMutation.Proofs.Nesting.Reader

/-!
# Nested quotations, displays and arguments

The readers for what stands between brackets read nested fragments, if the rules for what it
contains do.
-/

namespace PointMutation

namespace Syntax

open Text (Tidy)

variable {t : Text}

/-- The rules read nested fragments. -/
structure Rules.Reads (t : Text) (r : Rules) : Prop where
  expression (floor : Floor) (e : Expect) (follow : Follow) :
    Syntax.Reads t (r.expression floor e follow)
  operation (level : Nat) (e : Expect) (follow : Follow) :
    Syntax.Reads t (r.operation level e follow)
  interpolation : Passes t r.interpolation
  typeHint (bounded : Bool) (e : Expect) (follow : Follow) :
    Syntax.Reads t (r.typeHint bounded e follow)
  casePattern (e : Expect) (follow : Follow) : Syntax.Reads t (r.casePattern e follow)
  simplePattern (e : Expect) (follow : Follow) : Syntax.Reads t (r.simplePattern e follow)
  target (first : Bool) (e : Expect) (follow : Follow) : Syntax.Reads t (r.target first e follow)
  rightSide : Syntax.Reads t r.rightSide
  statement : Syntax.ReadsAs t .body r.statement

theorem Rules.none_reads : Rules.none.Reads t where
  expression _ _ _ _ _ := .failure
  operation _ _ _ _ _ := .failure
  interpolation _ _ := .failure
  typeHint _ _ _ _ _ := .failure
  casePattern _ _ _ _ := .failure
  simplePattern _ _ _ _ := .failure
  target _ _ _ _ _ := .failure
  rightSide _ _ := .failure
  statement _ _ := .failure

/-! ## Quotations -/

/-- What comes next ends within so many characters. -/
def Content.Fits (n : Nat) : Content → Prop
  | .closing m => m ≤ n
  | .plain m => m ≤ n
  | .unfinished m => m ≤ n
  | .other => True

theorem Content.Fits.ite {n : Nat} {b : Prop} [Decidable b] {x y : Content} (hx : x.Fits n)
    (hy : y.Fits n) : (if b then x else y).Fits n := by
  split
  · exact hx
  · exact hy

theorem content_fits (q : Quote) (t : Text) (taken : Taken) (n : Nat) (some? : Bool) :
    (content q t taken n some?).Fits (n + t.length) := by
  induction t generalizing taken n some? with
  | nil => exact Nat.le_add_right n 0
  | cons c r ih =>
    have hr : ∀ taken some?, (content q r taken (n + 1) some?).Fits (n + (c :: r).length) := by
      intro taken some?
      have h := ih taken (n + 1) some?
      have heq : n + 1 + r.length = n + (c :: r).length := by
        simp only [List.length_cons]
        omega
      rwa [heq] at h
    have hplain : (Content.plain n).Fits (n + (c :: r).length) := Nat.le_add_right _ _
    have hend : (Content.unfinished n).Fits (n + (c :: r).length) := Nat.le_add_right _ _
    have hmarks : ∀ k, k ≤ (c :: r).length → (Content.plain (n + k)).Fits (n + (c :: r).length) ∧
        (Content.closing (n + k)).Fits (n + (c :: r).length) :=
      fun k hk => ⟨Nat.add_le_add_left hk n, Nat.add_le_add_left hk n⟩
    rw [content.eq_def]
    repeat' refine .ite ?_ ?_
    all_goals
      first
      | exact hr _ _
      | exact hplain
      | exact hend
      | exact (hmarks 1 (by simp)).2
      | exact True.intro
      | skip
    -- a mark of a tripled quotation, which may end it
    cases r with
    | nil => exact (hmarks 1 (by simp)).1
    | cons d r =>
      cases r with
      | nil => exact .ite (hmarks 2 (by simp)).1 (hmarks 1 (by simp)).1
      | cons e r =>
        refine .ite (.ite hplain (hmarks 3 (by simp)).2) ?_
        exact .ite (hmarks 2 (by simp)).1 (hmarks 1 (by simp)).1

theorem hexLength_fits (k : Nat) : Fits (hexLength? k) := by
  intro t n h
  have hdigits := Text.length_takeWhile_le
    (fun d => d.isDigit || ('a' ≤ d && d ≤ 'f') || ('A' ≤ d && d ≤ 'F')) (t.take k)
  rw [List.length_take] at hdigits
  simp only [hexLength?] at h
  split at h
  · cases h
    omega
  · cases h

theorem escapedLength_fits : Fits escapedLength? := by
  intro t n h
  have hhex : ∀ {c : Char} {r : Text} {k : Nat}, (hexLength? k r).map (· + 1) = some n →
      n ≤ (c :: r).length := by
    intro c r k h
    obtain ⟨m, hm, rfl⟩ := Option.map_eq_some_iff.mp h
    have := hexLength_fits k r m hm
    simpa using this
  unfold escapedLength? at h
  split at h
  · cases h
  · cases h
    simp
  · cases h
    simp
  · exact hhex h
  · exact hhex h
  · exact hhex h
  · rename_i r
    dsimp only at h
    split at h
    · cases h
    · rename_i hname
      have hne : r.drop (r.takeWhile fun d => d != '\x7d' && d != '\x00').length ≠ [] := by
        intro hnil
        simp [hnil] at hname
      have := List.length_pos_iff.mpr hne
      rw [List.length_drop] at this
      cases h
      simp only [List.length_cons]
      omega
  · rename_i c r _ _ _ _ _ _
    have := Text.length_takeWhile_le Char.isDigit (r.take 2)
    rw [List.length_take] at this
    split at h
    · cases h
      simp only [List.length_cons]
      omega
    · split at h
      · cases h
        simp
      · cases h

theorem escapeLength_fits : Fits escapeLength? := by
  intro t n h
  unfold escapeLength? at h
  split at h
  · rename_i r
    cases hr : escapedLength? r with
    | none =>
      rw [hr] at h
      cases h
      simp
    | some m =>
      have := escapedLength_fits r m hr
      rw [hr] at h
      cases h
      simp only [Option.getD_some, List.length_cons]
      omega
  · cases h

theorem doubledBrace_length {t : Text} (h : atDoubledBrace t = true) : 2 ≤ t.length := by
  unfold atDoubledBrace at h
  split at h
  · simp
  · simp
  · cases h

/-- Whether brackets are closed right behind a quotation does not move the cursor. -/
theorem Cursor.Leads.formatting {c d : Cursor} (h : c.Leads t d) (b : Bool) :
    c.Leads t { d with formatting := b } :=
  ⟨h.place, h.sound.rest, h.sound.place, h.sound.size⟩

/-- The cursor was moved on to right behind a mark. -/
def Cursor.Closes (t : Text) (mark : Char) (c d : Cursor) : Prop :=
  c.Leads t d ∧ ∃ i, c.place ≤ i ∧ t[i]? = some mark ∧ d.place = i + 1

theorem Cursor.Leads.closes {c d e : Cursor} {mark : Char} (h : c.Leads t d)
    (h' : d.Closes t mark e) : c.Closes t mark e := by
  obtain ⟨hde, i, hi, hmark, hplace⟩ := h'
  exact ⟨h.trans hde, i, Nat.le_trans h.place hi, hmark, hplace⟩

/-- The inside of a quotation goes up to its mark. -/
theorem inside_closes {r : Rules} (hr : r.Reads t) (q : Quote) (n : Nat) {c : Cursor}
    (hc : c.Sound t) : Post (inside r q n) c fun _ d => c.Closes t q.mark d := by
  induction n generalizing c with
  | zero => exact .failure
  | succ n ih =>
    have hnext : ∀ {d : Cursor}, c.Leads t d →
        Post (inside r q n) d fun _ e => c.Closes t q.mark e :=
      fun hd => (ih hd.sound).mono fun _ _ he => hd.closes he
    rw [inside]
    refine .get ?_
    split
    · rename_i hbrace
      have h2 := doubledBrace_length (Bool.and_eq_true_iff.mp hbrace).2
      exact .set (hnext (Cursor.leads_advance hc h2))
    · have hcontent : (if q.format && (c.rest.head?.any fun d => d == '\x7b' || d == '\x7d')
          then .other else content q c.rest .asIs 0 false : Content).Fits c.rest.length := by
        have h := content_fits q c.rest .asIs 0 false
        rw [Nat.zero_add] at h
        exact .ite True.intro h
      have hcloses : (if q.format && (c.rest.head?.any fun d => d == '\x7b' || d == '\x7d')
          then .other else content q c.rest .asIs 0 false : Content).Closes q c.rest 0 :=
        .ite (fun _ => True.intro) fun _ => content_closes q c.rest .asIs 0 false
      split
      · rename_i length heq
        rw [heq] at hcontent hcloses
        obtain ⟨hpos, hmark⟩ := hcloses
        refine .setLast ⟨(Cursor.leads_advance hc hcontent).formatting _, c.place + (length - 1),
          Nat.le_add_right _ _, ?_, ?_⟩
        · rwa [hc.rest, List.getElem?_drop] at hmark
        · change c.place + length = c.place + (length - 1) + 1
          omega
      · rename_i length heq
        rw [heq] at hcontent
        exact .set (hnext (Cursor.leads_advance hc hcontent))
      -- An escape, a comment, a field, or none of them: whatever the content is besides.
      all_goals
        split
        · rename_i length hlength
          exact .set (hnext (Cursor.leads_advance hc (escapeLength_fits _ _ hlength)))
        · have hskip := Cursor.leads_skip hc
          dsimp only
          split
          · rename_i length hextra
            have hadvance := Cursor.leads_advance hskip.sound (extra_length_le hextra)
            exact .set (hnext (hskip.trans hadvance))
          · split
            · rename_i hbrace
              have hadvance : c.skip.Leads t (c.skip.advance 1) :=
                Cursor.leads_advance hskip.sound (by simp [hbrace])
              refine .set (.bind (hr.interpolation _ hadvance.sound) fun _ d hd => ?_)
              exact hnext ((hskip.trans hadvance).trans hd)
            · exact .failure

theorem quotation_reads {r : Rules} (hr : r.Reads t) (e : Expect) : Reads t (quotation r e) := by
  intro c hc
  refine .bind (look_post e hc) ?_
  rintro ⟨ts, found⟩ d ⟨hd, hts, hfound⟩
  dsimp only
  split
  · have hopening : opening d.rest = some (_, _) := hfound
    have hadvance := (Cursor.leads_advance hd.sound (opening_length_le hopening)).formatting
    refine .get (.set (.bind (inside_closes hr _ _ (hadvance _).sound) fun _ e he => ?_))
    obtain ⟨hde, i, hi, hmark, hplace⟩ := (hadvance _).closes he
    obtain ⟨-, ⟨x, hx, hwhite⟩, hmarkInk⟩ := opening_ink hopening
    rw [hd.sound.rest, List.getElem?_drop] at hx
    have htidy : Tidy t e.place := hplace ▸ Text.tidy_succ hmark hmarkInk
    have hclear : Text.Clear t d.place e.place :=
      ⟨by omega, hde.sound.place, ⟨x, hx, hwhite⟩, htidy⟩
    refine .get (.pure ⟨⟨hd.trans hde, hts, ?_, ?_, Nat.le_refl _, htidy, htidy⟩, hclear.lt,
      hclear.first⟩)
    · exact .singleton (Tree.nested_node.mpr (Tree.nestedIn_nil.mpr hde.place)) (Nat.le_refl _)
        (Nat.le_refl _)
    · intro u hu
      rw [List.mem_singleton.mp hu]
      exact .plain hclear (by simp)
  · exact .failure

theorem quotations_reads {r : Rules} (hr : r.Reads t) (e : Expect) (follow : Follow) :
    Reads t (quotations r e follow) := by
  intro c hc
  refine .bind (quotation_reads hr e c hc) fun f d hf => ?_
  refine .bind (P := fun g e => Between t c g e ∧ d.Leads t e) (.many ⟨hf, .refl hf.sound⟩ ?_) ?_
  · rintro g e ⟨hg, hde⟩
    exact .bind (quotation_reads hr _ e hg.sound) fun h _ hh =>
      .pure ⟨hg.append hh, hde.trans hh.leads⟩
  · rintro g e ⟨hg, hde⟩
    refine .pure ?_
    split
    · exact hf.leadsTo hde hg.tidy
    · exact hg.node _

section

variable {r : Rules} (hr : r.Reads t)

include hr

/-! ## Lists without brackets -/

theorem expressionList_reads (e : Expect) (follow : Follow) :
    Reads t (expressionList r e follow) := by
  intro c hc
  refine .bind (hr.expression _ e follow c hc) fun f d hf => ?_
  refine .bind (commaSeparated_extends (fun e => hr.expression _ e follow) hf) ?_
  rintro g e ⟨hg, hde⟩
  refine .pure ?_
  split
  · exact hf.leadsTo hde hg.tidy
  · exact hg.node _

theorem yielding_reads (e : Expect) (follow : Follow) : Reads t (yielding r e follow) := by
  intro c hc
  refine .bind (keyword_post hc (by decide)) fun k d hk => ?_
  refine .bind (P := fun f e => Between t c f e) (.orElse ?_ ?_) fun f e hf => .pure (hf.node _)
  · refine .bind ((keyword_reads _ "from" (by decide)).behind hk) fun s e hs => ?_
    exact .bind ((hr.expression _ _ follow).behind hs) fun _ _ hx => .pure hx
  · exact (orNothing_extends (expressionList_reads hr _ follow) hk).mono fun _ _ h => h.1

theorem yieldOrExpression_reads (e : Expect) (follow : Follow) :
    Reads t (yieldOrExpression r e follow) :=
  fun c hc => .orElse (yielding_reads hr e follow c hc) (hr.expression _ e follow c hc)

/-! ## Lists of targets -/

theorem targetList_reads (first : Bool) (e : Expect) (follow : Follow) :
    Reads t (targetList r first e follow) := by
  intro c hc
  refine .bind (hr.target first e follow c hc) fun f d hf => ?_
  refine .orElse (.bind ((mark_reads _ "," (by decide)).behind hf) fun g e hg => ?_) (.pure hf)
  refine .bind (orNothing_extends ?_ hg) fun h e hh => .pure (hh.1.node _)
  intro c hc
  refine .bind (hr.target _ _ _ c hc) fun f d hf => ?_
  exact (commaSeparated_extends (fun e => hr.target _ e _) hf).mono fun _ _ h => h.1

theorem bracketedTargets_reads (first : Bool) (e : Expect) (opening closing' : String) (k : Kind)
    (hopening : IsMark opening.toList)
    (hclosing : IsMark closing'.toList) :
    Reads t (bracketedTargets r first e opening closing' k) := by
  intro c hc
  refine .bind (mark_post hc hopening) fun o d ho => ?_
  refine .bind (orNothing_extends ?_ ho) fun f e hf => ?_
  · intro c hc
    refine .bind (hr.target _ _ _ c hc) fun f d hf => ?_
    exact (commaSeparated_extends (fun e => hr.target _ e _) hf).mono fun _ _ h => h.1
  · exact .bind ((mark_reads _ _ hclosing).behind hf.1) fun _ _ hg => .pure (hg.node k)

/-! ## Comprehensions -/

omit hr in
theorem atClauses_looks : Looks atClauses := (peekWord_looks closing).map

theorem forClause_reads : Reads t (forClause r) := by
  intro c hc
  refine .bind (P := fun f d => Between t c f d) (.orElse ?_ (keyword_post hc (by decide))) ?_
  · refine .bind (keyword_post hc (by decide)) fun f d hf => ?_
    exact .bind ((keyword_reads _ "for" (by decide)).behind hf) fun _ _ hg => .pure hg
  · intro f d hf
    refine .bind (targetList_reads hr _ _ _ d hf.sound) fun t d' ht => ?_
    refine .bind (keyword_post ht.sound (by decide)) fun k d'' hk => ?_
    refine .bind (hr.expression _ _ _ d'' hk.sound) fun x e hx => ?_
    have hg := ((hf.append ht).append hk).append hx
    refine .bind (commaSeparated_extends ?_ hg) fun g e hg => .pure (hg.1.node _)
    intro e c hc
    exact (peekWord_looks e).bind fun _ => .ite .failure (hr.expression _ e _ c hc)

theorem filterClause_reads : Reads t (filterClause r) := by
  intro c hc
  refine .bind (keyword_post hc (by decide)) fun k d hk => ?_
  exact .bind ((hr.expression _ _ _).behind hk) fun _ _ hx => .pure (hx.node _)

omit hr in
theorem hasClauses_looks (f : Fragment) : Looks (hasClauses f) :=
  fun c => .ite (.pure rfl) (atClauses_looks c)

theorem clauses_extends {c d : Cursor} {f : Fragment} (hf : Between t c f d) :
    Post (clauses r f) d fun g e => Between t c g e := by
  refine .bind ((forClause_reads hr).behind hf) fun g e hg => many_extends hg ?_
  intro f d hf
  refine .bind (P := fun g e => Between t d g e)
    (.orElse (forClause_reads hr d hf.sound) (filterClause_reads hr d hf.sound)) ?_
  exact fun _ _ hg => .pure (hf.append hg)

/-! ## Starred elements -/

theorem starred_reads (e : Expect) : Reads t (starred r e) := by
  intro c hc
  refine .bind (mark_post hc (by decide)) fun s d hs => ?_
  exact .bind ((hr.expression _ _ _).behind hs) fun _ _ hx => .pure (hx.node _)

omit hr in
/-- Fragments that were read one behind the other, the last of which comes first. -/
def Stacked (t : Text) (c : Cursor) : List Fragment → Cursor → Prop
  | [], d => c.Leads t d
  | f :: fs, d => ∃ e, Stacked t c fs e ∧ Between t e f d

omit hr in
theorem Stacked.leads {c d : Cursor} {fs : List Fragment} (h : Stacked t c fs d) : c.Leads t d := by
  induction fs generalizing d with
  | nil => exact h
  | cons f fs ih =>
    obtain ⟨e, hfs, hf⟩ := h
    exact (ih hfs).trans hf.leads

omit hr in
theorem marks_stacked (m : String) {c d : Cursor} {f : Fragment} (hc : c.Sound t)
    (hf : Between t c f d) (hm : IsMark m.toList) :
    Post (many (fun fs => do pure ((← mark .operand m) :: fs)) [f]) d fun fs e =>
      Stacked t c fs e := by
  refine .many ⟨c, .refl hc, hf⟩ ?_
  intro fs e hfs
  exact .bind (mark_post hfs.leads.sound hm) fun g _ hg => .pure ⟨e, hfs, hg⟩

omit hr in
theorem openings_stacked (e : Expect) {c : Cursor} (hc : c.Sound t) :
    Post (openings e) c fun fs d => Stacked t c fs d :=
  .bind (mark_post hc (by decide)) fun _ _ ho => marks_stacked _ hc ho (by decide)

omit hr in
/-- Each closing parenthesis belongs to the innermost opening that is left. -/
theorem closings_read (k : Kind) {c d e : Cursor} {fs : List Fragment} {f : Fragment}
    (hfs : Stacked t c fs d) (hf : Between t d f e) :
    Post (fs.foldlM (fun f o => do pure ((o ++ f ++ (← mark closing ")")).node k)) f) e
      fun g e => Between t c g e := by
  induction fs generalizing d e f with
  | nil => exact .pure (hf.after hfs)
  | cons o fs ih =>
    obtain ⟨d', hfs, ho⟩ := hfs
    rw [List.foldlM_cons]
    refine .bind (P := fun g e => Between t d' g e) ?_ fun g e hg => ih hfs hg
    exact .bind ((mark_reads closing ")" (by decide)).behind (ho.append hf)) fun _ _ hg =>
      .pure (hg.node k)

theorem parenthesizedStar_reads (k : Kind) (e : Expect) : Reads t (parenthesizedStar r k e) := by
  intro c hc
  refine .bind (openings_stacked e hc) fun fs d hfs => ?_
  refine .bind (starred_reads hr _ d hfs.leads.sound) fun f e hf => ?_
  exact .bind (closings_read _ hfs hf) fun g e hg => .pure (hg.withKind k)

omit hr in
theorem isLooseStar_looks (e : Expect) : Looks (isLooseStar r e) := by
  intro c
  refine (peek_looks e).bind fun t => .ite ?_ (.pure rfl)
  exact .get (.bind .trivial fun _ _ _ => .set (.pure rfl))

omit hr in
theorem unlessLoose_reads {p : Parser Fragment} (e : Expect) (h : Reads t p) :
    Reads t (unlessLoose r e p) :=
  fun c hc => (isLooseStar_looks e).bind fun _ => .ite .failure (h c hc)

theorem elementExpression_reads (e : Expect) : Reads t (elementExpression r e) :=
  unlessLoose_reads e (yieldOrExpression_reads hr e .bracket)

omit hr in
theorem endsElement_looks : Looks endsElement := by
  intro c
  refine (peek_looks closing).bind fun t => ?_
  split
  · exact .pure rfl
  · exact .pure rfl

/-! ## Elements of displays -/

theorem displayElement_reads (first : Bool) (e : Expect) : Reads t (displayElement r first e) := by
  intro c hc
  refine (peek_looks e).bind fun t => ?_
  split
  · exact starred_reads hr e c hc
  · refine .ite (.orElse ?_ (elementExpression_reads hr e c hc)) ?_
    · refine .bind (parenthesizedStar_reads hr _ e c hc) fun f d hf => ?_
      exact endsElement_looks.bind fun _ => .ite (.pure hf) .failure
    · exact .orElse (elementExpression_reads hr e c hc) (parenthesizedStar_reads hr _ e c hc)

theorem moreElements_extends {c d : Cursor} {f : Fragment} (hf : Between t c f d) :
    Post (moreElements r f) d fun g e => Between t c g e :=
  (commaSeparated_extends (displayElement_reads hr false) hf).mono fun _ _ h => h.1

theorem severalElements_extends (close : String) {c d : Cursor} {o : Fragment}
    (ho : Between t c o d) (hm : IsMark close.toList) :
    Post (severalElements r o close) d fun g e => Between t c g e := by
  refine .bind ((displayElement_reads hr true element).behind ho) fun f e hf => ?_
  refine .bind (moreElements_extends hr hf) fun g e hg => ?_
  exact .bind ((mark_reads closing close hm).behind hg) fun _ _ hh => .pure hh

/-- The clauses of a comprehension and the bracket that closes it. -/
theorem comprehension_extends (close : String) (k : Kind) {c d : Cursor} {f : Fragment}
    (hf : Between t c f d) (hm : IsMark close.toList) :
    Post (do pure (((← clauses r f) ++ (← mark closing close)).node k)) d fun g e =>
      Between t c g e := by
  refine .bind (clauses_extends hr hf) fun g e hg => ?_
  exact .bind ((mark_reads closing close hm).behind hg) fun _ _ hh => .pure (hh.node k)

omit hr in
/-- A bracket that closes a node. -/
theorem closed_extends (e : Expect) (close : String) (k : Kind) {c d : Cursor} {f : Fragment}
    (hf : Between t c f d) (hm : IsMark close.toList) :
    Post (do pure ((f ++ (← mark e close)).node k)) d fun g e => Between t c g e :=
  .bind ((mark_reads e close hm).behind hf) fun _ _ hh => .pure (hh.node k)

theorem parenthesized_reads (follow : Follow) : Reads t (parenthesized r follow) := by
  intro c hc
  refine .bind (mark_post hc (by decide)) fun o d ho => ?_
  refine (peek_looks element).bind fun t => .ite (.orElse ?_ ?_) (.orElse ?_ ?_)
  · refine .bind (elementExpression_reads hr _ d ho.sound) fun f e hf => ?_
    refine (hasClauses_looks f).bind fun _ => .ite ?_ ?_
    · exact comprehension_extends hr _ _ (ho.append hf) (by decide)
    · refine .bind ((mark_reads _ _ (by decide)).behind (ho.append hf)) fun g e hg => ?_
      exact (endsText_looks follow).bind fun _ => .ite .failure (.pure (hg.node _))
  · exact .bind (severalElements_extends hr _ ho (by decide)) fun _ _ hg => .pure (hg.node _)
  · exact closed_extends _ _ _ ho (by decide)
  · refine .bind (yieldOrExpression_reads hr _ _ d ho.sound) fun f e hf => ?_
    have hg := ho.append hf
    refine (hasClauses_looks f).bind fun _ => .ite (comprehension_extends hr _ _ hg (by decide)) ?_
    refine .orElse (closed_extends _ _ _ hg (by decide)) ?_
    exact .bind (moreElements_extends hr hg) fun _ _ hh => closed_extends _ _ _ hh (by decide)

/-- The rest of a display, which has no more elements behind a star. -/
theorem displayEnd_extends (b : Bool) (close : String) (k : Kind) {c d : Cursor} {f : Fragment}
    (hf : Between t c f d) (hm : IsMark close.toList) :
    Post (do
      let g ← if b then pure f else moreElements r f
      pure ((g ++ (← mark closing close)).node k)) d fun g e => Between t c g e :=
  .ite (.bind (.pure hf) fun _ _ hg => closed_extends _ _ _ hg hm)
    (.bind (moreElements_extends hr hf) fun _ _ hg => closed_extends _ _ _ hg hm)

theorem listDisplay_reads : Reads t (listDisplay r) := by
  intro c hc
  refine .bind (mark_post hc (by decide)) fun o d ho => ?_
  refine (peek_looks element).bind fun t => ?_
  refine .orElse (closed_extends _ _ _ ho (by decide)) (.orElse ?_ (.ite ?_ .failure))
  · refine .bind (elementExpression_reads hr _ d ho.sound) fun f e hf => ?_
    have hg := ho.append hf
    refine (hasClauses_looks f).bind fun _ => .ite (comprehension_extends hr _ _ hg (by decide)) ?_
    exact displayEnd_extends hr _ _ _ hg (by decide)
  · exact .bind (severalElements_extends hr _ ho (by decide)) fun _ _ hg => .pure (hg.node _)

theorem pairValue_extends (e : Expect) {c d : Cursor} {key : Fragment} (hk : Between t c key d) :
    Post (pairValue r key e) d fun g e => Between t c g e := by
  refine .bind ((mark_reads e ":" (by decide)).behind hk) fun g e hg => ?_
  exact .bind ((hr.expression _ _ _).behind hg) fun _ _ hh => .pure (hh.node _)

theorem unpacked_reads (e : Expect) : Reads t (unpacked r e) := by
  intro c hc
  refine .bind (mark_post hc (by decide)) fun s d hs => ?_
  exact .bind ((hr.expression _ _ _).behind hs) fun _ _ hx => .pure (hx.node _)

theorem entry_reads (e : Expect) : Reads t (entry r e) := by
  intro c hc
  refine .orElse (unpacked_reads hr e c hc) ?_
  exact .bind (hr.expression _ e _ c hc) fun _ _ hk => pairValue_extends hr _ hk

theorem moreEntries_extends {c d : Cursor} {f : Fragment} (hf : Between t c f d) :
    Post (moreEntries r f) d fun g e => Between t c g e :=
  .bind (commaSeparated_extends (entry_reads hr) hf) fun _ _ hg =>
    closed_extends _ _ _ hg.1 (by decide)

theorem bracedRest_extends {c d e : Cursor} {o first : Fragment} (starred : Bool)
    (ho : Between t c o d) (hf : Between t d first e) :
    Post (bracedRest r o first starred) e fun g e => Between t c g e := by
  refine (peek_looks closing).bind fun t => ?_
  split
  · have hpair : Post (do
        let f := o ++ (← pairValue r first closing)
        if ← atClauses then do
          pure (((← clauses r f) ++ (← mark closing "\x7d")).node .dictionaryComprehension)
        else moreEntries r f) e fun g e => Between t c g e := by
      refine .bind (pairValue_extends hr _ hf) fun p e hp => ?_
      have hg := ho.append hp
      exact atClauses_looks.bind fun _ =>
        .ite (comprehension_extends hr _ _ hg (by decide)) (moreEntries_extends hr hg)
    exact .ite .failure_bind hpair
  · have hg := ho.append hf
    refine (hasClauses_looks first).bind fun _ =>
      .ite (comprehension_extends hr _ _ hg (by decide)) ?_
    exact displayEnd_extends hr _ _ _ hg (by decide)

theorem bracedDisplay_reads : Reads t (bracedDisplay r) := by
  intro c hc
  refine .bind (mark_post hc (by decide)) fun o d ho => ?_
  refine (peek_looks element).bind fun t => ?_
  split
  · exact closed_extends _ _ _ ho (by decide)
  · exact .bind ((mark_reads _ _ (by decide)).behind ho) fun _ _ hg =>
      closed_extends _ _ _ hg (by decide)
  · exact .bind ((unpacked_reads hr _).behind ho) fun _ _ hg => moreEntries_extends hr hg
  · refine .orElse ?_ (.ite ?_ .failure)
    · exact .bind (elementExpression_reads hr _ d ho.sound) fun _ _ hf =>
        bracedRest_extends hr _ ho hf
    · exact .bind (severalElements_extends hr _ ho (by decide)) fun _ _ hg => .pure (hg.node _)

/-! ## Subscripts -/

theorem sliceTail_extends (e : Expect) {c d : Cursor} {p : Parser Fragment}
    (hp : Post p d fun f e => Between t c f e) :
    Post (sliceTail r e p) d fun g e => Between t c g e := by
  have hbound : ∀ {f : Fragment} {d : Cursor}, Between t c f d →
      Post (orNothing f (r.expression .conditional element .bracket)) d fun g e =>
        Between t c g e := fun hf =>
    (orNothing_extends (hr.expression _ _ _) hf).mono fun _ _ h => h.1
  refine .bind hp fun f d hf => .bind (hbound hf) fun f d hf => ?_
  refine .bind (P := fun g e => Between t c g e) (.orElse ?_ (.pure hf)) fun _ _ hg =>
    .pure (hg.node _)
  exact .bind ((mark_reads e ":" (by decide)).behind hf) fun _ _ hg => hbound hg

theorem subscriptItem_reads (e : Expect) : Reads t (subscriptItem r e) := by
  intro c hc
  refine .orElse ?_ (sliceTail_extends hr closing (mark_post hc (by decide)))
  refine .bind (hr.expression _ e _ c hc) fun f d hf => .orElse ?_ (.pure hf)
  exact sliceTail_extends hr closing
    (.bind ((mark_reads closing ":" (by decide)).behind hf) fun _ _ hg => .pure hg)

theorem subscripts_reads (follow : Follow) : Reads t (subscripts r follow) := by
  intro c hc
  refine .bind (mark_post hc (by decide)) fun o d ho => ?_
  refine .bind ((subscriptItem_reads hr _).behind ho) fun f e hf => ?_
  refine .bind (commaSeparated_extends (subscriptItem_reads hr) hf) fun g e hg => ?_
  exact .bind ((mark_reads closing "]" (by decide)).behind hg.1) fun _ _ hh => .pure hh

/-! ## Arguments -/

theorem keywordArgument_reads (e : Expect) : Reads t (keywordArgument r e) := by
  intro c hc
  refine .bind (operandName_reads e c hc) fun f d hf => ?_
  refine .bind ((equals_reads _).behind hf) fun g e hg => ?_
  exact .bind ((hr.expression _ _ _).behind hg) fun _ _ hx => .pure (hx.node _)

theorem parenthesizedArgument_reads (ofCall : Bool) (e : Expect) :
    Reads t (parenthesizedArgument r ofCall e) := by
  intro c hc
  refine (isLooseStar_looks e).bind fun loose => ?_
  refine .orElse (.ite ?_ .failure) (.ite .failure (hr.expression _ e _ c hc))
  refine .bind (parenthesizedStar_reads hr _ e c hc) fun f d hf => ?_
  exact endsElement_looks.bind fun _ => .ite (.pure hf) .failure

theorem argument_reads (ofCall : Bool) (e : Expect) : Reads t (argument r ofCall e) := by
  intro c hc
  refine (peek_looks e).bind fun t => ?_
  split
  · exact unpacked_reads hr e c hc
  · exact starred_reads hr e c hc
  · refine .ite (parenthesizedArgument_reads hr ofCall e c hc) ?_
    exact .orElse (keywordArgument_reads hr e c hc) (hr.expression _ e _ c hc)

theorem moreArguments_extends (ofCall : Bool) {c d : Cursor} {f : Fragment}
    (hf : Between t c f d) : Post (moreArguments r ofCall f) d fun g e => Between t c g e :=
  .bind (commaSeparated_extends (argument_reads hr ofCall) hf) fun _ _ hg =>
    closed_extends _ _ _ hg.1 (by decide)

theorem argumentsBehind_extends (ofCall : Bool) {c d : Cursor} {o : Fragment}
    (ho : Between t c o d) : Post (argumentsBehind r ofCall o) d fun g e => Between t c g e := by
  refine (peek_looks element).bind fun t => ?_
  split
  · exact closed_extends _ _ _ ho (by decide)
  · exact .bind ((mark_reads _ _ (by decide)).behind ho) fun _ _ hg =>
      closed_extends _ _ _ hg (by decide)
  · exact .bind ((argument_reads hr ofCall _).behind ho) fun _ _ hg =>
      moreArguments_extends hr ofCall hg

theorem argumentList_reads (e : Expect) : Reads t (argumentList r e) :=
  fun c hc => .bind (mark_post hc (by decide)) fun _ _ ho => argumentsBehind_extends hr false ho

theorem callArguments_reads (follow : Follow) : Reads t (callArguments r follow) := by
  intro c hc
  refine .bind (mark_post hc (by decide)) fun o d ho => ?_
  have hlist := argumentsBehind_extends hr true ho
  have hgenerator : Post (do
      generatorRest r
        (o ++ (← unlessLoose r element (r.expression .conditional element .bracket)))) d
        fun g e => Between t c g e :=
    .bind ((unlessLoose_reads element (hr.expression _ element _)).behind ho) fun _ _ hf =>
      comprehension_extends hr _ _ hf (by decide)
  refine (peek_looks element).bind fun t => ?_
  split
  · exact hlist
  · exact hlist
  · refine .ite hlist (.ite (.orElse hlist hgenerator) (.get ?_))
    refine .bind ((hr.expression _ element _).behind ho) fun f e hf => ?_
    refine atClauses_looks.bind fun _ => .ite (comprehension_extends hr _ _ hf (by decide)) ?_
    refine (peek_looks closing).bind fun _ => .ite (.set hlist) ?_
    exact moreArguments_extends hr true hf

/-! ## Interpolations -/

omit hr in
theorem optionally_passes {α : Type} {p : Parser α} (h : Passes t p) : Passes t (optionally p) :=
  fun c hc => .orElse (.bind (h c hc) fun _ _ hd => .pure hd) (.pure (.refl hc))

omit hr in
/-- What is read behind something else. -/
theorem Passes.andThen {α β : Type} {p : Parser α} {k : α → Parser β} (h : Passes t p)
    (hk : ∀ x, Passes t (k x)) : Passes t (p >>= k) :=
  fun c hc => .bind (h c hc) fun x d hd =>
    (hk x d hd.sound).mono fun _ _ he => hd.trans he

theorem formatSpecifier_passes : Passes t (formatSpecifier r ()) := by
  intro c hc
  refine .get ?_
  split
  · rename_i hrest
    have h := Cursor.leads_advance hc (show 1 ≤ c.rest.length by simp [hrest])
    exact .set ((hr.interpolation _ h.sound).mono fun _ _ hd => h.trans hd)
  · exact .failure
  · rename_i hrest
    exact .setLast (Cursor.leads_advance hc (by simp [hrest]))
  · exact .ite .failure (.setLast (Cursor.leads_advance hc (Text.length_takeWhile_le _ _)))

theorem interpolation_passes : Passes t (interpolation r) := by
  have hvalue : Passes t (yielding r .operand .bracket <|> expressionList r .operand .bracket) :=
    fun c hc => .orElse ((yielding_reads hr _ _).passes c hc)
      ((expressionList_reads hr _ _).passes c hc)
  have hspecifier : Passes t (do
      let _ ← mark closing ":"
      many (formatSpecifier r) ()) :=
    (mark_reads _ _ (by decide)).passes.andThen fun _ c hc => .many (.refl hc) fun _ d hd =>
      (formatSpecifier_passes hr d hd.sound).mono fun _ _ he => hd.trans he
  refine hvalue.andThen fun _ => ?_
  refine (optionally_passes (equals_reads _).passes).andThen fun _ => ?_
  refine (optionally_passes (token_reads _ conversionLength_inks).passes).andThen fun _ => ?_
  refine (optionally_passes hspecifier).andThen fun _ => ?_
  exact (mark_reads _ _ (by decide)).passes.andThen fun _ _ hc => .pure (.refl hc)

end

end Syntax

end PointMutation
