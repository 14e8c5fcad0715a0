import PointMutation.Proofs.Rewriting.Refinement
import PointMutation.Proofs.Walk.Triple

/-!
# Invariants of walks

What all hooks of a fold keep to, a walk keeps to, also if a hook fails on the way
(`Fold.Keeps.run`). If the hooks moreover answer that nothing is to be changed, the walk gives the
source that it started from (`Fold.Idles.run`).
-/

namespace PointMutation

namespace Fold

variable {σ α β : Type}

/-- A part of a walk that fails is the end of the walk. -/
theorem bind_apply (w : Walk σ α) (k : α → Walk σ β) (p : Progress σ) :
    (w >>= k) p = match w p with
      | (.ok a, p') => k a p'
      | (.error e, p') => (.error e, p') := by
  simp only [Bind.bind, ExceptT.bind, ExceptT.mk, StateT.bind]
  cases w p with
  | mk answer p' => cases answer <;> rfl

/-! ## States of the fold -/

/-- The hooks of a fold stay in `J`, also where they fail. -/
structure Keeps (f : Fold σ) (J : σ → Prop) : Prop where
  enterCompound : ∀ kind s, J s → J (f.enterCompound kind s).2
  leaveCompound : ∀ kind s, J s → J (f.leaveCompound kind s).2
  enterLine : ∀ l s, J s → J (f.enterLine l s).2
  leaveLine : ∀ l s, J s → J (f.leaveLine l s).2
  enterValue : ∀ site s, J s → J (f.enterValue site s).2
  leaveValue : ∀ site s, J s → J (f.leaveValue site s).2
  leaveExpression : ∀ e s, J s → J (f.leaveExpression e s).2

/-- A part of a walk leaves the state of the fold in `J`, also if it fails. -/
def Stays (J : σ → Prop) (w : Walk σ α) : Prop := ∀ p, J p.state → J (w p).2.state

namespace Stays

variable {J : σ → Prop}

theorem pure (a : α) : Stays J (Pure.pure a : Walk σ α) := fun _ hp => hp

theorem bind {w : Walk σ α} {k : α → Walk σ β} (h : Stays J w) (hk : ∀ a, Stays J (k a)) :
    Stays J (w >>= k) := by
  intro p hp
  have hw := h p hp
  rw [bind_apply]
  cases hanswer : w p with
  | mk answer p' =>
    rw [hanswer] at hw
    cases answer with
    | error e => exact hw
    | ok a => exact hk a p' hw

theorem tell {act : StateM σ Unit} (h : ∀ s, J s → J (act s).2) : Stays J (Fold.tell act) :=
  fun p hp => h p.state hp

theorem ask {act : ExceptT Fault (StateM σ) α} (h : ∀ s, J s → J (act s).2) :
    Stays J (Fold.ask act) :=
  fun p hp => h p.state hp

theorem andTell {w : Walk σ α} {act : StateM σ Unit} (hw : Stays J w)
    (h : ∀ s, J s → J (act s).2) : Stays J (Fold.andTell w act) :=
  fun p hp => h _ (hw p hp)

theorem shown (source : Text) (start stop : Nat) :
    Stays J (Fold.shown source start stop : Walk σ (Thunk Text)) :=
  fun _ hp => hp

theorem edit (e : Edit) : Stays J (Fold.edit e : Walk σ Unit) := fun _ hp => hp

theorem settle (source newline : Text) (start stop : Nat) (answer : Replacement) :
    Stays J (Fold.settle source newline start stop answer : Walk σ (Option Edit)) := by
  unfold Fold.settle
  split
  · exact pure none
  · exact (edit _).bind fun _ => pure none
  · exact (edit _).bind fun _ => pure _

end Stays

section

variable {f : Fold σ} {J : σ → Prop} {source newline : Text}

mutual

theorem Keeps.walk (h : f.Keeps J) (o : Outline) : Stays J (Fold.walk f source newline o) := by
  cases o with
  | expression kind start stop inner =>
    rw [Fold.walk]
    refine (h.walkAll inner).bind fun _ => (Stays.shown source start stop).bind fun shown => ?_
    refine (Stays.ask (h.leaveExpression ⟨kind, shown⟩)).bind fun answer => ?_
    cases answer with
    | none => exact (Stays.pure ()).bind fun _ => .pure none
    | some text => exact (Stays.edit _).bind fun _ => .pure none
  | value site inner =>
    rw [Fold.walk]
    refine (Stays.tell (h.enterValue site)).bind fun _ => ?_
    exact ((h.walk inner).andTell (h.leaveValue site)).bind fun _ => .pure none
  | line kinds docstring start stop inner =>
    rw [Fold.walk]
    refine (Stays.shown source start stop).bind fun shown => ?_
    refine (Stays.tell (h.enterLine ⟨kinds, docstring, shown⟩)).bind fun _ => ?_
    refine (h.walkAll inner).bind fun _ => (Stays.shown source start stop).bind fun shown => ?_
    exact (Stays.ask (h.leaveLine ⟨kinds, docstring, shown⟩)).bind fun answer =>
      .settle source newline start stop answer
  | compound kind inner =>
    rw [Fold.walk]
    refine (Stays.tell (h.enterCompound kind)).bind fun _ => ?_
    exact ((h.walkAll inner).andTell (h.leaveCompound kind)).bind fun _ => .pure none
  | block items =>
    rw [Fold.walk]
    refine (h.walkAll items).bind fun es => ?_
    cases allGone es with
    | none => exact (Stays.pure ()).bind fun _ => .pure none
    | some pass => exact (Stays.edit pass).bind fun _ => .pure none
  | group inner =>
    rw [Fold.walk]
    exact (h.walkAll inner).bind fun _ => .pure none

theorem Keeps.walkAll (h : f.Keeps J) (os : List Outline) :
    Stays J (Fold.walkAll f source newline os) := by
  cases os with
  | nil =>
    rw [Fold.walkAll]
    exact .pure []
  | cons o os =>
    rw [Fold.walkAll]
    exact (h.walk o).bind fun e => (h.walkAll os).bind fun es => .pure (e :: es)

end

/-- What all hooks keep to, a fold keeps to. -/
theorem Keeps.run (h : f.Keeps J) (s : Source) {m : σ} (hm : J m) : J (f.run s m).2 :=
  h.walkAll (Outline.ofSource s) ⟨m, []⟩ hm

/-! ## Folds that change nothing -/

/-- As long as a fold is in `J`, it stays there and leaves everything as it is. -/
structure Idles (f : Fold σ) (J : σ → Prop) : Prop where
  keeps : f.Keeps J
  leaveLine : ∀ l s, J s → (f.leaveLine l s).1 = .ok .keep
  leaveExpression : ∀ e s, J s → (f.leaveExpression e s).1 = .ok none

/-- A fold in `J` that has made no edit. -/
def Unedited (J : σ → Prop) (p : Progress σ) : Prop := J p.state ∧ p.edits = []

theorem Leads.tellIdle {act : StateM σ Unit} (h : ∀ s, J s → J (act s).2) :
    Leads (Unedited J) (Unedited J) (Fold.tell act) fun _ => True :=
  .tell fun p hp => ⟨h p.state hp.1, hp.2⟩

theorem Leads.askIdle {act : ExceptT Fault (StateM σ) α} {a : α} (hkeeps : ∀ s, J s → J (act s).2)
    (hanswer : ∀ s, J s → (act s).1 = .ok a) :
    Leads (Unedited J) (Unedited J) (Fold.ask act) fun b => b = a := by
  refine .ask fun p hp => ⟨a, (act p.state).2, ?_, rfl, hkeeps p.state hp.1, hp.2⟩
  exact Prod.ext (hanswer p.state hp.1) rfl

mutual

theorem Idles.walk (h : f.Idles J) (o : Outline) :
    Leads (Unedited J) (Unedited J) (Fold.walk f source newline o) fun e => e = none := by
  cases o with
  | expression kind start stop inner =>
    rw [Fold.walk]
    refine (h.walkAll inner).bind fun _ _ => .shown source start stop fun es => ?_
    refine Leads.bind (J := Unedited J) (Q := fun a => a = none) ?_ ?_
    · intro p hp
      exact Leads.askIdle (h.keeps.leaveExpression _) (h.leaveExpression _) p hp.1
    · rintro _ rfl
      exact .pure rfl
  | value site inner =>
    rw [Fold.walk]
    refine (Leads.tellIdle (h.keeps.enterValue site)).bind fun _ _ => ?_
    refine ((h.walk inner).andTell fun p hp => ?_).bind fun _ _ => .pure rfl
    exact ⟨h.keeps.leaveValue site p.state hp.1, hp.2⟩
  | line kinds docstring start stop inner =>
    rw [Fold.walk]
    refine .shown source start stop fun es => ?_
    refine Leads.bind (J := Unedited J) (Q := fun _ => True) ?_ fun _ _ => ?_
    · intro p hp
      exact Leads.tellIdle (h.keeps.enterLine _) p hp.1
    · refine (h.walkAll inner).bind fun _ _ => .shown source start stop fun es => ?_
      refine Leads.bind (J := Unedited J) (Q := fun a => a = .keep) ?_ ?_
      · intro p hp
        exact Leads.askIdle (h.keeps.leaveLine _) (h.leaveLine _) p hp.1
      · rintro _ rfl
        exact .pure rfl
  | compound kind inner =>
    rw [Fold.walk]
    refine (Leads.tellIdle (h.keeps.enterCompound kind)).bind fun _ _ => ?_
    refine ((h.walkAll inner).andTell fun p hp => ?_).bind fun _ _ => .pure rfl
    exact ⟨h.keeps.leaveCompound kind p.state hp.1, hp.2⟩
  | block items =>
    rw [Fold.walk]
    refine (h.walkAll items).bind fun es hes => ?_
    rw [allGone_of_none hes]
    exact .pure rfl
  | group inner =>
    rw [Fold.walk]
    exact (h.walkAll inner).bind fun _ _ => .pure rfl

theorem Idles.walkAll (h : f.Idles J) (os : List Outline) :
    Leads (Unedited J) (Unedited J) (Fold.walkAll f source newline os)
      fun es => ∀ e ∈ es, e = none := by
  cases os with
  | nil =>
    rw [Fold.walkAll]
    exact .pure (by simp)
  | cons o os =>
    rw [Fold.walkAll]
    refine (h.walk o).bind fun e he => (h.walkAll os).bind fun es hes => ?_
    exact .pure (by simpa [he] using hes)

end

/-- A fold that leaves everything as it is gives the source itself. -/
theorem Idles.run (h : f.Idles J) (s : Source) {m : σ} (hm : J m) :
    (f.run s m).1 = .ok s ∧ J (f.run s m).2 := by
  obtain ⟨es, p, hwalk, -, hp⟩ : ∃ es p, Fold.walkAll f s.text s.newline (Outline.ofSource s)
      ⟨m, []⟩ = (.ok es, p) ∧ (∀ e ∈ es, e = none) ∧ Unedited J p :=
    h.walkAll (Outline.ofSource s) ⟨m, []⟩ ⟨hm, rfl⟩
  have hrun : f.run s m = (Fold.rewritten s [], p.state) := by
    simp only [Fold.run, Fold.runOver, Fold.edits, hwalk, Except.map, Except.bind, hp.2]
  rw [hrun]
  exact ⟨rfl, hp.1⟩

end

end Fold

end PointMutation
