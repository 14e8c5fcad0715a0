import PointMutation.Mutator.Run

/-!
# Passes and runs

What a pass makes of a text can be computed, although a source carries the proof that it was read
(`Machine.trial`). What every pass keeps to, a run keeps to (`Machine.Keeps.run`).
-/

namespace PointMutation

instance Except.decidableEq {ε α : Type} [DecidableEq ε] [DecidableEq α] :
    DecidableEq (Except ε α)
  | .ok a, .ok b => decidable_of_iff (a = b) ⟨congrArg _, Except.ok.inj⟩
  | .error a, .error b => decidable_of_iff (a = b) ⟨congrArg _, Except.error.inj⟩
  | .ok _, .error _ => .isFalse fun h => by cases h
  | .error _, .ok _ => .isFalse fun h => by cases h

theorem Except.exists_of_map {ε α β : Type} {x : Except ε α} {f : α → β} {b : β}
    (h : x.toOption.map f = some b) : ∃ a, x = .ok a ∧ f a = b := by
  cases x with
  | error e => cases h
  | ok a => exact ⟨a, rfl, Option.some.inj h⟩

/-- What the source with some text is like can be computed. -/
theorem Source.exists_of_map {α : Type} {t : Text} {f : Source → α} {a : α}
    (h : (Source.read t).toOption.map f = some a) : ∃ s : Source, s.text = t ∧ f s = a := by
  obtain ⟨s, hread, hs⟩ := Except.exists_of_map h
  exact ⟨s, Source.text_of_read hread, hs⟩

theorem Source.exists_of_isOk {t : Text} (h : (Source.read t).isOk = true) :
    ∃ s : Source, s.text = t := by
  cases hread : Source.read t with
  | error e =>
    rw [hread] at h
    cases h
  | ok s => exact ⟨s, Source.text_of_read hread⟩

theorem Source.text_of_mapError {t : Text} {f : SyntaxError → Fault} {s : Source}
    (h : (Source.read t).mapError f = .ok s) : s.text = t := by
  cases hread : Source.read t with
  | error e =>
    rw [hread] at h
    cases h
  | ok s' =>
    rw [hread] at h
    cases h
    exact Source.text_of_read hread

/-- What the tree of a source looks like can be computed if its text needs no repair. -/
theorem Source.tree_of_readTree {α : Type} {s : Source} {f : Tree → α} {a : α}
    (h : (Syntax.readTree s.text).map f = some a) : f s.tree = a := by
  have hparse := s.parse_text
  rw [parse] at hparse
  cases hread : Syntax.readTree s.text with
  | none =>
    rw [hread] at h
    cases h
  | some tree =>
    rw [hread] at h hparse
    cases hparse
    exact Option.some.inj h

namespace Machine

variable {τ : Type} [Machine τ]

/-- The text behind a pass or its fault, and whether it has worked. There is none of that if the
text is no source. -/
def trial (t : Text) (m : τ) : Option (Except Fault Text × Bool) :=
  match Source.read t with
  | .error _ => none
  | .ok s => some ((pass s m).1.map (·.text), worked (pass s m).2)

theorem exists_of_trial {t : Text} {m : τ} {answer : Except Fault Text} {b : Bool}
    (h : trial t m = some (answer, b)) :
    ∃ s : Source, s.text = t ∧ worked (pass s m).2 = b ∧ (pass s m).1.map (·.text) = answer := by
  rw [trial] at h
  cases hread : Source.read t with
  | error e =>
    rw [hread] at h
    cases h
  | ok s =>
    rw [hread] at h
    cases h
    exact ⟨s, Source.text_of_read hread, rfl, rfl⟩

theorem exists_of_trial_ok {t u : Text} {m : τ} {b : Bool} (h : trial t m = some (.ok u, b)) :
    ∃ s s' : Source, s.text = t ∧ s'.text = u ∧ worked (pass s m).2 = b ∧
      (pass s m).1 = .ok s' := by
  obtain ⟨s, hs, hworked, hanswer⟩ := exists_of_trial h
  cases hpass : (pass s m).1 with
  | error e =>
    rw [hpass] at hanswer
    cases hanswer
  | ok s' =>
    rw [hpass] at hanswer
    exact ⟨s, s', hs, Except.ok.inj hanswer, hworked, hpass⟩

/-! ## Runs -/

/-- The machine stays in `I` whatever it does, and its passes fail with faults in `P` only. -/
structure Keeps (τ : Type) [Machine τ] (I : τ → Prop) (P : Fault → Prop) : Prop where
  pass : ∀ s m, I m → worked m = false →
    I (Machine.pass s m).2 ∧ ∀ e, (Machine.pass s m).1 = .error e → P e
  reset : ∀ m, I m → I (Machine.reset m) ∧ worked (Machine.reset m) = false
  acknowledge : ∀ m, I m → I (Machine.acknowledge m)

theorem Keeps.passes {I : τ → Prop} {P : Fault → Prop} (h : Keeps τ I P) (s : Source)
    (made budget : Nat) {m : τ} (hm : I m) (hworked : worked m = false) :
    I (Machine.passes s made budget m).2 ∧
      ∀ e, (Machine.passes s made budget m).1 = .error e → P e := by
  induction budget generalizing made m with
  | zero =>
    refine ⟨hm, fun e he => ?_⟩
    cases he
  | succ budget ih =>
    obtain ⟨hI, hP⟩ := h.pass s m hm hworked
    rw [Machine.passes]
    cases hpass : Machine.pass s m with
    | mk answer m' =>
      rw [hpass] at hI hP
      cases answer with
      | error e =>
        refine ⟨hI, fun e' he' => ?_⟩
        cases he'
        exact hP e rfl
      | ok s' =>
        dsimp only
        cases hworked' : worked m' with
        | false => exact ih (made + 1) hI hworked'
        | true =>
          refine ⟨h.acknowledge m' hI, fun e he => ?_⟩
          cases he

theorem Keeps.run {I : τ → Prop} {P : Fault → Prop} (h : Keeps τ I P) (maxAttempts : Nat)
    (s : Source) {m : τ} (hm : I m) :
    I (Machine.run maxAttempts s m).2 ∧
      ∀ e, (Machine.run maxAttempts s m).1 = .error e → P e :=
  h.passes s 0 maxAttempts (h.reset m hm).1 (h.reset m hm).2

end Machine

end PointMutation
