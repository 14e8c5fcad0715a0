import PointMutation.Fold

/-!
# Triples of walks

A part of a walk leads from one assertion on the progress to another if it does not fail on any
progress for which the first one holds (`Fold.Leads`). Parts of walks are put together by the rules
of this module.
-/

namespace PointMutation

namespace Fold

variable {σ α β : Type}

/-- From any progress in `I` the walk gives an answer in `Q` and ends with a progress in `J`. -/
def Leads (I J : Progress σ → Prop) (w : Walk σ α) (Q : α → Prop) : Prop :=
  ∀ p, I p → ∃ a p', w p = (.ok a, p') ∧ Q a ∧ J p'

namespace Leads

variable {I J K : Progress σ → Prop} {Q : α → Prop} {P : β → Prop}

theorem pure {a : α} (h : Q a) : Leads I I (Pure.pure a) Q :=
  fun p hp => ⟨a, p, rfl, h, hp⟩

theorem bind {w : Walk σ α} {k : α → Walk σ β} (h : Leads I J w Q)
    (hk : ∀ a, Q a → Leads J K (k a) P) : Leads I K (w >>= k) P := by
  intro p hp
  obtain ⟨a, p₁, hw, ha, hp₁⟩ := h p hp
  obtain ⟨b, p₂, hb, hP, hp₂⟩ := hk a ha p₁ hp₁
  refine ⟨b, p₂, ?_, hP, hp₂⟩
  calc (w >>= k) p = k a p₁ := by simp only [Bind.bind, ExceptT.bind, ExceptT.mk, StateT.bind, hw,
        ExceptT.bindCont]
    _ = (.ok b, p₂) := hb

/-- The fold is told something. -/
theorem tell {act : StateM σ Unit} (h : ∀ p, I p → J { p with state := (act p.state).2 }) :
    Leads I J (Fold.tell act) fun _ => True :=
  fun p hp => ⟨(), _, rfl, trivial, h p hp⟩

/-- The fold is told something behind a part of the walk. -/
theorem andTell {w : Walk σ α} {act : StateM σ Unit} (hw : Leads I J w Q)
    (h : ∀ p, J p → K { p with state := (act p.state).2 }) :
    Leads I K (Fold.andTell w act) Q := by
  intro p hp
  obtain ⟨a, p', hw, ha, hp'⟩ := hw p hp
  exact ⟨a, _, by simp only [Fold.andTell, hw]; rfl, ha, h p' hp'⟩

/-- The text of a stretch is shown as it stands there by now. -/
theorem shown (source : Text) (start stop : Nat)
    {k : Thunk Text → Walk σ β}
    (h : ∀ es, Leads (fun p => I p ∧ p.edits = es) J
      (k (.mk fun _ => Edit.render source es start stop)) P) :
    Leads I J (Fold.shown source start stop >>= k) P :=
  fun p hp => h p.edits p ⟨hp, rfl⟩

/-- The fold is asked something and does not fail. -/
theorem ask {act : ExceptT Fault (StateM σ) α}
    (h : ∀ p, I p → ∃ a s, act p.state = (.ok a, s) ∧ Q a ∧ J { p with state := s }) :
    Leads I J (Fold.ask act) Q := by
  intro p hp
  obtain ⟨a, s, hact, ha, hs⟩ := h p hp
  exact ⟨a, _, by simp only [Fold.ask, hact], ha, hs⟩

end Leads

end Fold

end PointMutation
