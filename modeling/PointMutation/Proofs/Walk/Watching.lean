import PointMutation.Proofs.Walk.Score

/-!
# The states in which a fold is asked

A fold that is watched does the same as before, and it is written down what it is told or asked and
in which state it is then. A law about what a fold has been told and how its state has changed
since goes from the parts of a walk to the walk by the rules of this module (`Fold.Watches`).
-/

namespace PointMutation

namespace Fold

/-- What a fold is told or asked, and the state in which it is then. -/
structure Sight (σ : Type) where
  event : Event
  state : σ

section

variable {σ α : Type}

/-- Writes down in which state the fold is told something. -/
def watchTold (e : Event) (act : StateM σ Unit) : StateM (σ × List (Sight σ)) Unit :=
  fun (s, seen) => ((), ((act s).2, seen ++ [⟨e, s⟩]))

/-- Writes down in which state the fold is asked something. -/
def watchAsked (e : Event) (act : ExceptT Fault (StateM σ) α) :
    ExceptT Fault (StateM (σ × List (Sight σ))) α :=
  fun (s, seen) => ((act s).1, ((act s).2, seen ++ [⟨e, s⟩]))

/-- A fold that does the same, while it is written down in which state it is told or asked what. -/
def watching (f : Fold σ) : Fold (σ × List (Sight σ)) where
  enterCompound kind := watchTold (.enter (.compound kind)) (f.enterCompound kind)
  leaveCompound kind := watchTold (.leave (.compound kind)) (f.leaveCompound kind)
  enterLine l := watchTold (.enter (.line l.kinds l.docstring)) (f.enterLine l)
  leaveLine l := watchAsked (.leave (.line l.kinds l.docstring)) (f.leaveLine l)
  enterValue site := watchTold (.enter (.value site)) (f.enterValue site)
  leaveValue site := watchTold (.leave (.value site)) (f.leaveValue site)
  leaveExpression e := watchAsked (.expression e.kind) (f.leaveExpression e)

/-- The progress of a fold with what was seen of it. -/
def Progress.watched (p : Progress σ) (seen : List (Sight σ)) : Progress (σ × List (Sight σ)) :=
  ⟨(p.state, seen), p.edits⟩

end

section

variable {σ α β : Type}

/-- A law about a part of a walk: the state in front of it, whether it does not fail, what is seen
on the way, and the state behind it. -/
abbrev Law (σ : Type) := σ → Bool → List (Sight σ) → σ → Prop

/-- A part of a walk that is watched does the same as the part itself, which keeps to a law. -/
def Watches (L : Law σ) (w : Walk (σ × List (Sight σ)) α) (w' : Walk σ α) : Prop :=
  ∀ p seen, ∃ more, w (p.watched seen) = ((w' p).1, (w' p).2.watched (seen ++ more)) ∧
    L p.state (w' p).1.isOk more (w' p).2.state

namespace Watches

variable {L M N : Law σ} {w : Walk (σ × List (Sight σ)) α} {w' : Walk σ α}
  {k : α → Walk (σ × List (Sight σ)) β} {k' : α → Walk σ β}

theorem mono (h : Watches L w w') (hL : ∀ s b more s', L s b more s' → M s b more s') :
    Watches M w w' := by
  intro p seen
  obtain ⟨more, hw, hlaw⟩ := h p seen
  exact ⟨more, hw, hL _ _ _ _ hlaw⟩

theorem pure {a : α} (h : ∀ s, L s true [] s) :
    Watches L (Pure.pure a : Walk (σ × List (Sight σ)) α) (Pure.pure a : Walk σ α) :=
  fun p seen => ⟨[], by rw [List.append_nil]; rfl, h p.state⟩

theorem shown (source : Text) (start stop : Nat) (h : ∀ s, L s true [] s) :
    Watches L (Fold.shown source start stop : Walk (σ × List (Sight σ)) _)
      (Fold.shown source start stop) :=
  fun p seen => ⟨[], by rw [List.append_nil]; rfl, h p.state⟩

theorem edit (e : Edit) (h : ∀ s, L s true [] s) :
    Watches L (Fold.edit e : Walk (σ × List (Sight σ)) _) (Fold.edit e) :=
  fun p seen => ⟨[], by rw [List.append_nil]; rfl, h p.state⟩

theorem bind (h : Watches L w w') (hk : ∀ a, Watches M (k a) (k' a))
    (hok : ∀ s s₁ s₂ b more more', L s true more s₁ → M s₁ b more' s₂ →
      N s b (more ++ more') s₂)
    (herror : ∀ s s₁ more, L s false more s₁ → N s false more s₁) :
    Watches N (w >>= k) (w' >>= k') := by
  intro p seen
  obtain ⟨more, hw, hlaw⟩ := h p seen
  rw [bind_apply, bind_apply, hw]
  generalize w' p = answer at hlaw
  obtain ⟨answer, p'⟩ := answer
  cases answer with
  | error e => exact ⟨more, rfl, herror _ _ _ hlaw⟩
  | ok a =>
    obtain ⟨more', hk, hlaw'⟩ := hk a p' (seen ++ more)
    refine ⟨more ++ more', ?_, hok _ _ _ _ _ _ hlaw hlaw'⟩
    rw [← List.append_assoc]
    exact hk

theorem tell {act : StateM σ Unit} {e : Event} (h : ∀ s, L s true [⟨e, s⟩] (act s).2) :
    Watches L (Fold.tell (watchTold e act)) (Fold.tell act) :=
  fun p _ => ⟨[⟨e, p.state⟩], rfl, h p.state⟩

theorem ask {act : ExceptT Fault (StateM σ) α} {e : Event}
    (h : ∀ s, L s (act s).1.isOk [⟨e, s⟩] (act s).2) :
    Watches L (Fold.ask (watchAsked e act)) (Fold.ask act) :=
  fun p _ => ⟨[⟨e, p.state⟩], rfl, h p.state⟩

/-- The fold is told something behind a part of the walk, also if that fails. -/
theorem andTell {act : StateM σ Unit} {e : Event} (h : Watches L w w')
    (hL : ∀ s b more s', L s b more s' → M s b (more ++ [⟨e, s'⟩]) (act s').2) :
    Watches M (Fold.andTell w (watchTold e act)) (Fold.andTell w' act) := by
  intro p seen
  obtain ⟨more, hw, hlaw⟩ := h p seen
  refine ⟨more ++ [⟨e, (w' p).2.state⟩], ?_, ?_⟩
  · simp only [Fold.andTell, hw, ← List.append_assoc]
    rfl
  · exact hL _ _ _ _ hlaw

theorem settle (source newline : Text) (start stop : Nat) (answer : Replacement)
    (h : ∀ s, L s true [] s) :
    Watches L (Fold.settle source newline start stop answer : Walk (σ × List (Sight σ)) _)
      (Fold.settle source newline start stop answer) := by
  intro p seen
  refine ⟨[], ?_, ?_⟩
  · rw [List.append_nil]
    cases answer with
    | flatten ss => cases ss <;> rfl
    | _ => rfl
  · cases answer with
    | flatten ss => cases ss <;> exact h p.state
    | _ => exact h p.state

end Watches

end

end Fold

end PointMutation
