import PointMutation.Proofs.Mutator.Lifecycle

/-!
# What a failed pass reports

A machine sets its flag where it answers that something is to be changed, before the new text is
read. So behind a pass the flag says that an edit was made, not that it came to anything
(`Builtin.worked_pass`): a pass whose edit cannot be read fails with the flag set, and all further
passes are idle until the machine is reset. A pass that fails before it has made an edit leaves the
flag as it was.
-/

namespace PointMutation

namespace Fold

variable {σ α β : Type} {w : σ → Bool}

/-! ## Folds with a flag -/

/-- An answer that says whether something is to be changed, and sets the flag if it does. It fails
only as long as the flag is not set. -/
def Sets (w : σ → Bool) (changes : α → Prop) (act : ExceptT Fault (StateM σ) α) : Prop :=
  ∀ s, (∃ a s', act s = (.ok a, s') ∧ (changes a ∧ w s' = true ∨ ¬ changes a ∧ w s' = w s)) ∨
    ∃ e s', act s = (.error e, s') ∧ w s' = false

/-- The hooks of a fold set a flag where they change something. No line is removed. -/
structure Flags (f : Fold σ) (w : σ → Bool) : Prop where
  enterCompound : ∀ kind s, w (f.enterCompound kind s).2 = w s
  leaveCompound : ∀ kind s, w (f.leaveCompound kind s).2 = w s
  enterLine : ∀ l s, w (f.enterLine l s).2 = w s
  enterValue : ∀ site s, w (f.enterValue site s).2 = w s
  leaveValue : ∀ site s, w (f.leaveValue site s).2 = w s
  keepsLines : f.KeepsLines
  leaveLine : ∀ l, Sets w (fun answer => answer ≠ .keep) (f.leaveLine l)
  leaveExpression : ∀ e, Sets w (fun answer => answer ≠ none) (f.leaveExpression e)

/-- The flag is set if and only if there is an edit. -/
def Agrees (w : σ → Bool) (p : Progress σ) : Prop := w p.state = true ↔ p.edits ≠ []

/-- A part of a walk keeps the flag in agreement with the edits, and fails only without any. -/
def Marks (w : σ → Bool) (v : Walk σ α) (Q : α → Prop) : Prop :=
  ∀ p, Agrees w p → (∃ a p', v p = (.ok a, p') ∧ Q a ∧ Agrees w p') ∨
    ∃ e p', v p = (.error e, p') ∧ w p'.state = false

namespace Marks

variable {Q : α → Prop} {P : β → Prop}

theorem pure {a : α} (h : Q a) : Marks w (Pure.pure a : Walk σ α) Q :=
  fun p hp => .inl ⟨a, p, rfl, h, hp⟩

theorem bind {v : Walk σ α} {k : α → Walk σ β} (h : Marks w v Q)
    (hk : ∀ a, Q a → Marks w (k a) P) : Marks w (v >>= k) P := by
  intro p hp
  rw [bind_apply]
  rcases h p hp with ⟨a, p', hv, ha, hp'⟩ | ⟨e, p', hv, hp'⟩
  · rw [hv]
    exact hk a ha p' hp'
  · rw [hv]
    exact .inr ⟨e, p', rfl, hp'⟩

theorem tell {act : StateM σ Unit} (h : ∀ s, w (act s).2 = w s) :
    Marks w (Fold.tell act) fun _ => True := by
  refine fun p hp => .inl ⟨(), _, rfl, trivial, ?_⟩
  rw [Agrees, h]
  exact hp

theorem andTell {v : Walk σ α} {act : StateM σ Unit} (hv : Marks w v Q)
    (h : ∀ s, w (act s).2 = w s) : Marks w (Fold.andTell v act) Q := by
  intro p hp
  rcases hv p hp with ⟨a, p', hv, ha, hp'⟩ | ⟨e, p', hv, hp'⟩
  · refine .inl ⟨a, _, by simp only [Fold.andTell, hv]; rfl, ha, ?_⟩
    rw [Agrees, h]
    exact hp'
  · exact .inr ⟨e, _, by simp only [Fold.andTell, hv]; rfl, (h p'.state).trans hp'⟩

theorem shown (source : Text) (start stop : Nat) :
    Marks w (Fold.shown source start stop : Walk σ (Thunk Text)) fun _ => True :=
  fun p hp => .inl ⟨_, p, rfl, trivial, hp⟩

/-- An answer is carried out, and an edit is made if something is to be changed. -/
theorem ask {act : ExceptT Fault (StateM σ) α} {changes : α → Prop} {k : α → Walk σ β}
    (h : Sets w changes act)
    (hkeep : ∀ a p, ¬ changes a → ∃ b, k a p = (.ok b, p) ∧ P b)
    (hchange : ∀ a s s' p, act s = (.ok a, s') → changes a →
      ∃ b e, k a p = (.ok b, { p with edits := Edit.replace e p.edits }) ∧ P b) :
    Marks w (Fold.ask act >>= k) P := by
  intro p hp
  rcases h p.state with ⟨a, s', hact, ha⟩ | ⟨e, s', hact, hs'⟩
  · have hask : Fold.ask act p = (.ok a, { p with state := s' }) := by simp only [Fold.ask, hact]
    rw [bind_apply, hask]
    rcases ha with ⟨ha, hs'⟩ | ⟨ha, hs'⟩
    · obtain ⟨b, e, hk, hb⟩ := hchange a p.state s' { p with state := s' } hact ha
      refine .inl ⟨b, _, hk, hb, ?_⟩
      exact iff_of_true hs' (List.ne_nil_of_mem (Edit.mem_replace.mpr (.inl rfl)))
    · obtain ⟨b, hk, hb⟩ := hkeep a { p with state := s' } ha
      refine .inl ⟨b, _, hk, hb, ?_⟩
      rw [Agrees, hs']
      exact hp
  · refine .inr ⟨e, { p with state := s' }, ?_, hs'⟩
    rw [bind_apply, show Fold.ask act p = (.error e, { p with state := s' }) by
      simp only [Fold.ask, hact]]

end Marks

section

variable {f : Fold σ} {source newline : Text}

mutual

theorem Flags.walk (h : f.Flags w) (o : Outline) :
    Marks w (Fold.walk f source newline o) fun e => e = none := by
  cases o with
  | expression kind start stop inner =>
    rw [Fold.walk]
    refine (h.walkAll inner).bind fun _ _ => (Marks.shown source start stop).bind fun shown _ => ?_
    refine .ask (h.leaveExpression ⟨kind, shown⟩) ?_ ?_
    · intro answer p hanswer
      rw [not_not.mp hanswer]
      exact ⟨none, rfl, rfl⟩
    · intro answer s s' p _ hanswer
      obtain ⟨text, rfl⟩ := Option.ne_none_iff_exists'.mp hanswer
      exact ⟨none, ⟨start, stop, text⟩, rfl, rfl⟩
  | value site inner =>
    rw [Fold.walk]
    refine (Marks.tell (h.enterValue site)).bind fun _ _ => ?_
    exact ((h.walk inner).andTell (h.leaveValue site)).bind fun _ _ => .pure rfl
  | line kinds docstring start stop inner =>
    rw [Fold.walk]
    refine (Marks.shown source start stop).bind fun shown _ => ?_
    refine (Marks.tell (h.enterLine ⟨kinds, docstring, shown⟩)).bind fun _ _ => ?_
    refine (h.walkAll inner).bind fun _ _ => (Marks.shown source start stop).bind fun shown _ => ?_
    refine .ask (h.leaveLine ⟨kinds, docstring, shown⟩) ?_ ?_
    · intro answer p hanswer
      rw [not_not.mp hanswer]
      exact ⟨none, rfl, rfl⟩
    · intro answer s s' p hact hanswer
      have hkept := h.keepsLines _ s answer s' hact
      match answer with
      | .keep => exact absurd rfl hanswer
      | .flatten (sn :: sns) => exact ⟨none, _, rfl, rfl⟩
      | .flatten [] => cases hkept
      | .remove => cases hkept
  | compound kind inner =>
    rw [Fold.walk]
    refine (Marks.tell (h.enterCompound kind)).bind fun _ _ => ?_
    exact ((h.walkAll inner).andTell (h.leaveCompound kind)).bind fun _ _ => .pure rfl
  | block items =>
    rw [Fold.walk]
    refine (h.walkAll items).bind fun es hes => ?_
    rw [allGone_of_none hes]
    exact .pure rfl
  | group inner =>
    rw [Fold.walk]
    exact (h.walkAll inner).bind fun _ _ => .pure rfl

theorem Flags.walkAll (h : f.Flags w) (os : List Outline) :
    Marks w (Fold.walkAll f source newline os) fun es => ∀ e ∈ es, e = none := by
  cases os with
  | nil =>
    rw [Fold.walkAll]
    exact .pure (by simp)
  | cons o os =>
    rw [Fold.walkAll]
    refine (h.walk o).bind fun e he => (h.walkAll os).bind fun es hes => ?_
    exact .pure (by simpa [he] using hes)

end

/-- The flag is set behind a walk if and only if the walk has come to an end and made edits. -/
theorem Flags.edits (h : f.Flags w) (os : List Outline) {m : σ} (hm : w m = false) :
    w (Fold.edits f source newline os m).2 = true ↔
      ∃ es, (Fold.edits f source newline os m).1 = .ok es ∧ es ≠ [] := by
  have hstart : Agrees w ⟨m, []⟩ := iff_of_false (by simp [hm]) (by simp)
  have hedits : ∀ {answer p}, Fold.walkAll f source newline os ⟨m, []⟩ = (answer, p) →
      Fold.edits f source newline os m = (answer.map fun _ => p.edits, p.state) := by
    intro answer p hwalk
    rw [Fold.edits, hwalk]
  have hmarks : Marks w (Fold.walkAll f source newline os) _ := h.walkAll os
  rcases hmarks _ hstart with
    ⟨a, p, hwalk, -, hp⟩ | ⟨e, p, hwalk, hp⟩
  · rw [hedits hwalk]
    refine hp.trans ⟨fun hne => ⟨p.edits, rfl, hne⟩, ?_⟩
    rintro ⟨es, hes, hne⟩
    cases hes
    exact hne
  · rw [hedits hwalk]
    refine iff_of_false (by simp [hp]) ?_
    rintro ⟨es, hes, -⟩
    cases hes

end

end Fold

/-! ## The two machines -/

namespace Insertion

theorem draw_bind_of_error {α : Type} {m m' : Insertion} {e : Fault}
    (h : draw m = (.error e, m')) (k : Snippet → ExceptT Fault (StateM Insertion) α) :
    (draw >>= k) m = (.error e, m') := by
  simp only [Bind.bind, ExceptT.bind, ExceptT.mk, StateT.bind, h, ExceptT.bindCont]
  rfl

/-- At a line where the drawn declaration is rejected, nothing but the place is kept track of. -/
theorem settle_of_draw_error {l : Line} {m m' : Insertion} {e : Fault}
    (h : m.traversal.worked = false) (hl : isLeading l = false)
    (hd : draw { m with traversal := m.traversal.leave.visit } = (.error e, m')) :
    settle l m = (.error e, m') := by
  rw [settle, get_bind, h, if_neg (by decide), track_bind, hl, if_neg (by decide), track_bind,
    draw_bind_of_error (by exact hd)]

/-- A declaration that is rejected leaves the traversal as it is. -/
theorem draw_cases (m : Insertion) :
    (∃ d s r, Declaration.draw m.pattern m.random = (.ok d, r) ∧ snippetOf d.text = .ok s) ∨
      ∃ e m', draw m = (.error e, m') ∧ m'.traversal = m.traversal := by
  cases hd : Declaration.draw m.pattern m.random with
  | mk answer r =>
    cases answer with
    | error e => exact .inr ⟨e, { m with random := r }, by rw [draw, hd]; rfl, rfl⟩
    | ok d =>
      cases hs : snippetOf d.text with
      | ok s => exact .inl ⟨d, s, r, rfl, hs⟩
      | error e =>
        refine .inr ⟨e, { m with random := r }, ?_, rfl⟩
        simp only [draw, hd, Except.bind, hs]

/-- A line is kept, or a declaration goes in front of it and the machine has worked, or the
declaration is rejected and it has not. -/
theorem settle_cases (l : Line) (m : Insertion) :
    (∃ m', settle l m = (.ok .keep, m') ∧ m'.traversal.worked = m.traversal.worked) ∨
      (∃ s m', settle l m = (.ok (.flatten [s, l.snippet]), m') ∧ m'.traversal.worked = true) ∨
      ∃ e m', settle l m = (.error e, m') ∧ m'.traversal.worked = false := by
  cases hworked : m.traversal.worked with
  | true => exact .inl ⟨m, settle_of_worked l hworked, hworked⟩
  | false =>
    cases hl : isLeading l with
    | true => exact .inl ⟨_, settle_of_isLeading hworked hl, hworked⟩
    | false =>
      rcases draw_cases { m with traversal := m.traversal.leave.visit } with
        ⟨d, s, r, hdraw, hs⟩ | ⟨e, m', hdraw, hm'⟩
      · rw [settle_of_draw hworked hl hdraw hs]
        by_cases hcoin : (r.chance m.probability).1
        · rw [if_pos hcoin]
          exact .inr (.inl ⟨_, _, rfl, rfl⟩)
        · rw [if_neg hcoin]
          exact .inl ⟨_, rfl, hworked⟩
      · refine .inr (.inr ⟨e, m', settle_of_draw_error hworked hl hdraw, ?_⟩)
        rw [hm']
        exact hworked

theorem flags_fold : fold.Flags fun m => m.traversal.worked where
  enterCompound _ _ := rfl
  leaveCompound _ _ := rfl
  enterLine _ _ := rfl
  enterValue _ _ := rfl
  leaveValue _ _ := rfl
  keepsLines l m answer m' h := by
    have h : settle l m = (.ok answer, m') := h
    rcases settle_cases l m with ⟨_, hs, -⟩ | ⟨_, _, hs, -⟩ | ⟨_, _, hs, -⟩ <;>
    · rw [hs] at h
      cases h
      try rfl
  leaveLine l m := by
    rcases settle_cases l m with ⟨m', h, hm'⟩ | ⟨_, m', h, hm'⟩ | ⟨e, m', h, hm'⟩
    · exact .inl ⟨_, m', h, .inr ⟨by simp, hm'⟩⟩
    · exact .inl ⟨_, m', h, .inl ⟨by simp, hm'⟩⟩
    · exact .inr ⟨e, m', h, hm'⟩
  leaveExpression _ s := .inl ⟨none, s, rfl, .inr ⟨by simp, rfl⟩⟩

end Insertion

namespace Wrapping

theorem flags_fold : fold.Flags fun m => m.traversal.worked where
  enterCompound _ _ := rfl
  leaveCompound _ _ := rfl
  enterLine _ _ := rfl
  enterValue _ _ := rfl
  leaveValue _ _ := rfl
  keepsLines l m answer m' h := by
    cases h
    rfl
  leaveLine _ s := .inl ⟨.keep, s, rfl, .inr ⟨by simp, rfl⟩⟩
  leaveExpression e m := by
    rcases settle_cases e m with h | ⟨-, h⟩
    · exact .inl ⟨none, m, h, .inr ⟨by simp, rfl⟩⟩
    · exact .inl ⟨_, _, h, .inl ⟨by simp, rfl⟩⟩

end Wrapping

namespace Builtin

/-- The edits that a pass makes, or the fault in front of which it has given up. -/
def edits (s : Source) : Builtin → Except Fault (List Edit)
  | insertion m => (Fold.edits Insertion.fold s.text s.newline (Outline.ofSource s) m).1
  | wrapping m =>
    (Fold.edits Wrapping.fold s.text s.newline (Outline.ofSource s) { m with valueDepth := 0 }).1

/-- A pass applies its edits, and the flag is set behind it if and only if it has made any. -/
theorem worked_edits {b : Builtin} (hworked : Machine.worked b = false) (s : Source) :
    (Machine.pass s b).1 = (b.edits s).bind (Fold.rewritten s) ∧
      (Machine.worked (Machine.pass s b).2 = true ↔ ∃ es, b.edits s = .ok es ∧ es ≠ []) := by
  cases b with
  | insertion m => exact ⟨rfl, Insertion.flags_fold.edits _ hworked⟩
  | wrapping m => exact ⟨rfl, Wrapping.flags_fold.edits (m := { m with valueDepth := 0 }) _ hworked⟩

/-- A machine that draws nothing but declarations fails only where it has made an edit. -/
theorem worked_of_draws {b : Builtin} (h : b.Draws) (hworked : Machine.worked b = false)
    {s : Source} {e : Fault} (hpass : (Machine.pass s b).1 = .error e) :
    Machine.worked (Machine.pass s b).2 = true := by
  cases b with
  | insertion m =>
    obtain ⟨found, -, hfound, hanswer⟩ := Insertion.pass_of_declares h hworked s
    have hpass : (Machine.pass s m).1 = .error e := hpass
    rw [hpass] at hanswer
    cases found with
    | none => cases hanswer
    | some y => exact hfound
  | wrapping m =>
    obtain ⟨hanswer, -, hfound⟩ := Wrapping.pass_eq s hworked
    have hpass : (Machine.pass s m).1 = .error e := hpass
    rw [hpass] at hanswer
    cases hfirst : Wrapping.first m.kinds s with
    | none =>
      rw [hfirst] at hanswer
      cases hanswer
    | some x =>
      rw [hfirst] at hfound
      exact hfound

/-- Behind a pass the flag says that an edit was made. A pass fails with the flag as it was only if
what was drawn is rejected, which no machine does that was set up with an accepted configuration.
Wherever else it fails, because the edited text cannot be read, the flag is set, and all further
passes are idle. -/
theorem worked_pass {b : Builtin} (hworked : Machine.worked b = false) (s : Source) :
    (∀ s', (Machine.pass s b).1 = .ok s' → ∃ es, b.edits s = .ok es ∧
      Fold.rewritten s es = .ok s' ∧ (Machine.worked (Machine.pass s b).2 = true ↔ es ≠ [])) ∧
    ∀ e, (Machine.pass s b).1 = .error e →
      (b.edits s = .error e ∧ Machine.worked (Machine.pass s b).2 = false ∧ ¬ b.Draws) ∨
      ∃ es, b.edits s = .ok es ∧ es ≠ [] ∧ Fold.rewritten s es = .error e ∧
        Machine.worked (Machine.pass s b).2 = true ∧
        ∀ s', (Machine.pass s' (Machine.pass s b).2).1 = .ok s' ∧
          Machine.worked (Machine.pass s' (Machine.pass s b).2).2 = true := by
  obtain ⟨hpass, hflag⟩ := worked_edits hworked s
  cases hedits : b.edits s with
  | error fault =>
    have hfalse : Machine.worked (Machine.pass s b).2 = false := by
      rw [← Bool.not_eq_true, hflag]
      rintro ⟨es, hes, -⟩
      rw [hedits] at hes
      cases hes
    rw [hedits] at hpass
    have hpass : (Machine.pass s b).1 = .error fault := hpass
    refine ⟨fun s' hs' => ?_, fun e he => .inl ?_⟩
    · rw [hpass] at hs'
      cases hs'
    · refine ⟨congrArg _ (Except.error.inj (hpass.symm.trans he)), hfalse, fun hdraws => ?_⟩
      rw [worked_of_draws hdraws hworked he] at hfalse
      cases hfalse
  | ok es =>
    have hflag : Machine.worked (Machine.pass s b).2 = true ↔ es ≠ [] := by
      rw [hflag, hedits]
      simp
    rw [hedits] at hpass
    have hpass : (Machine.pass s b).1 = Fold.rewritten s es := hpass
    refine ⟨fun s' hs' => ⟨es, rfl, hpass.symm.trans hs', hflag⟩, fun e he => .inr ?_⟩
    have hne : es ≠ [] := by
      rintro rfl
      rw [hpass] at he
      cases he
    have hset := hflag.mpr hne
    refine ⟨es, rfl, hne, hpass.symm.trans he, hset, fun s' => ?_⟩
    obtain ⟨hidle, hstill, -⟩ := pass_of_worked hset s'
    exact ⟨hidle, hstill⟩

/-- A machine that draws names without any characters. Its pass fails in front of an edit, and so
does the next one. -/
theorem worked_pass_of_rejected :
    ∃ (b : Builtin) (s : Source), Machine.worked b = false ∧ s.text = "x = 1\n".toList ∧
      (Machine.pass s b).1 = .error (.invalidLength 0) ∧
      b.edits s = .error (.invalidLength 0) ∧
      Machine.worked (Machine.pass s b).2 = false ∧ ¬ b.Draws := by
  let b : Builtin := insertion ⟨.ofInt 1, ⟨0, [.int], false⟩, .seeded 0, {}, 0⟩
  have htrial : Machine.trial "x = 1\n".toList b = some (.error (.invalidLength 0), false) := by
    decide +kernel
  obtain ⟨s, hs, hworked, hanswer⟩ := Machine.exists_of_trial htrial
  have hpass : (Machine.pass s b).1 = .error (.invalidLength 0) := by
    cases h : (Machine.pass s b).1 with
    | error e =>
      rw [h] at hanswer
      cases hanswer
      rfl
    | ok s' =>
      rw [h] at hanswer
      cases hanswer
  rcases (worked_pass (b := b) rfl s).2 _ hpass with
    ⟨hedits, hfalse, hdraws⟩ | ⟨_, _, _, _, hset, _⟩
  · exact ⟨b, s, rfl, hs, hpass, hedits, hfalse, hdraws⟩
  · rw [hworked] at hset
    cases hset

end Builtin

end PointMutation
