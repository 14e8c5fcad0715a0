import PointMutation.Mutator.Run
import PointMutation.Mutator.Wrapping
import PointMutation.Proofs.Rewriting.Refinement
import PointMutation.Proofs.Walk.Single
import PointMutation.Proofs.Walk.Triple
import PointMutation.Proofs.Wrapping.Places

/-!
# Passes of a wrapping

A pass wraps the first literal that it leaves in a value, and does nothing else. The reference is
a search through the places of the values in their order (`goOn`), which knows nothing of the walk.
-/

namespace PointMutation

namespace Wrapping

open Outline (Place)

/-! ## The search -/

/-- Whether there is a literal of the given kinds at a place. -/
def isLiteral (kinds : List LiteralKind) (source : Text) (x : Place) : Bool :=
  match Expression.literal? ⟨x.kind, .pure (Text.slice source x.start x.stop)⟩ with
  | some k => kinds.contains k
  | none => false

/-- Searches more places, unless a literal has been found. -/
def goOn (kinds : List LiteralKind) (source : Text) (found : Option Place) (xs : List Place) :
    Option Place :=
  match found with
  | some x => some x
  | none => xs.find? (isLiteral kinds source)

/-- The text of a place in the call of a function. -/
def wrappedText (source : Text) (x : Place) : Text :=
  "(lambda: ".toList ++ Text.slice source x.start x.stop ++ ")()".toList

/-- The edit that wraps what stands at a place. -/
def wrapping (source : Text) (x : Place) : Edit := ⟨x.start, x.stop, wrappedText source x⟩

section

variable {kinds : List LiteralKind} {source newline : Text}

@[simp]
theorem goOn_nil (found : Option Place) : goOn kinds source found [] = found := by
  cases found <;> rfl

theorem goOn_append (found : Option Place) (xs ys : List Place) :
    goOn kinds source found (xs ++ ys) = goOn kinds source (goOn kinds source found xs) ys := by
  cases found with
  | some x => rfl
  | none =>
    simp only [goOn, List.find?_append]
    cases xs.find? (isLiteral kinds source) <;> rfl

/-! ## Parts of a walk -/

/-- A walk `depth` values deep that has found something or nothing. -/
structure At (kinds : List LiteralKind) (source : Text) (depth : Nat) (found : Option Place)
    (p : Fold.Progress Wrapping) : Prop where
  kinds : p.state.kinds = kinds
  depth : p.state.valueDepth = depth
  worked : p.state.traversal.worked = found.isSome
  edits : p.edits = (found.map (wrapping source)).toList

/-- Keeping track of the place. -/
theorem At.track {depth : Nat} {found : Option Place} {p : Fold.Progress Wrapping}
    (h : At kinds source depth found p) {f : Traversal → Traversal}
    (hf : ∀ t, (f t).worked = t.worked) :
    At kinds source depth found { p with state := (track f p.state).2 } :=
  ⟨h.kinds, h.depth, (hf _).trans h.worked, h.edits⟩

theorem accepts_eq {m : Wrapping} (h : m.kinds = kinds) (x : Place) :
    m.accepts ⟨x.kind, .mk fun _ => Edit.render source [] x.start x.stop⟩ =
      isLiteral kinds source x := by
  rw [accepts, isLiteral, h]
  rfl

theorem identityLambda_eq {e : Expression} {x : Place}
    (h : e.text = Text.slice source x.start x.stop) :
    e.identityLambda = wrappedText source x := by
  unfold Expression.identityLambda wrappedText
  rw [h]

/-- What is done at an expression that is to be wrapped. -/
theorem settle_of_isEligible {m : Wrapping} {e : Expression} (hworked : m.traversal.worked = false)
    (he : m.isEligible e = true) :
    settle e m = (.ok (some e.identityLambda), { m with traversal := m.traversal.visit.work }) := by
  show (if m.traversal.worked || !m.isEligible e then _ else _ :
    ExceptT Fault (StateM Wrapping) (Option Text)) m = _
  rw [hworked, he]
  rfl

/-- What is done at any other expression. -/
theorem settle_of_not_isEligible {m : Wrapping} {e : Expression}
    (h : m.traversal.worked = true ∨ m.isEligible e = false) : settle e m = (.ok none, m) := by
  show (if m.traversal.worked || !m.isEligible e then _ else _ :
    ExceptT Fault (StateM Wrapping) (Option Text)) m = _
  rw [if_pos (by rcases h with h | h <;> simp [h])]
  rfl

/-- What a walk does behind an expression. -/
def leave (x : Place) (shown : Thunk Text) : Fold.Walk Wrapping (Option Edit) := do
  match ← Fold.ask (settle ⟨x.kind, shown⟩) with
  | some text => Fold.edit ⟨x.start, x.stop, text⟩
  | none => pure ()
  pure none

theorem leave_of_none {x : Place} {shown : Thunk Text} {p : Fold.Progress Wrapping}
    (h : settle ⟨x.kind, shown⟩ p.state = (.ok none, p.state)) :
    leave x shown p = (.ok none, p) := by
  simp only [leave, Bind.bind, ExceptT.bind, ExceptT.mk, StateT.bind, Fold.ask, h,
    ExceptT.bindCont]
  rfl

theorem leave_of_some {x : Place} {shown : Thunk Text} {p : Fold.Progress Wrapping} {text : Text}
    {m : Wrapping} (h : settle ⟨x.kind, shown⟩ p.state = (.ok (some text), m)) :
    leave x shown p = (.ok none, ⟨m, Edit.replace ⟨x.start, x.stop, text⟩ p.edits⟩) := by
  simp only [leave, Bind.bind, ExceptT.bind, ExceptT.mk, StateT.bind, Fold.ask, h,
    ExceptT.bindCont]
  rfl

/-- What is done behind an expression is the search at it if the walk is in a value. -/
theorem leave_leads (depth : Nat) (found : Option Place) (x : Place) :
    Fold.Leads (At kinds source depth found)
      (At kinds source depth (goOn kinds source found (if 0 < depth then [x] else [])))
      (Fold.shown source x.start x.stop >>= leave x) fun e => e = none := by
  refine .shown source x.start x.stop fun es => ?_
  rintro p ⟨hp, rfl⟩
  let e : Expression := ⟨x.kind, .mk fun _ => Edit.render source p.edits x.start x.stop⟩
  have hkeep : (p.state.traversal.worked = true ∨ p.state.isEligible e = false) →
      goOn kinds source found (if 0 < depth then [x] else []) = found →
      ∃ a p', leave x e.shown p = (.ok a, p') ∧ a = none ∧
        At kinds source depth (goOn kinds source found (if 0 < depth then [x] else [])) p' := by
    intro h hfound
    rw [hfound]
    exact ⟨none, p, leave_of_none (settle_of_not_isEligible h), rfl, hp⟩
  cases found with
  | some y => exact hkeep (.inl hp.worked) rfl
  | none =>
    have hedits : p.edits = [] := hp.edits
    have haccepts : p.state.accepts e = isLiteral kinds source x := by
      rw [← accepts_eq hp.kinds x]
      simp only [e, hedits]
    have heligible : p.state.isEligible e = (decide (0 < depth) && isLiteral kinds source x) := by
      rw [isEligible, haccepts, hp.depth]
    by_cases hdepth : 0 < depth
    · cases hx : isLiteral kinds source x with
      | false =>
        rw [hx, Bool.and_false] at heligible
        exact hkeep (.inr heligible) (by simp [goOn, hdepth, hx])
      | true =>
        have hfound : goOn kinds source none (if 0 < depth then [x] else []) = some x := by
          simp [goOn, hdepth, hx]
        have htext : e.text = Text.slice source x.start x.stop := by
          show Edit.render source p.edits x.start x.stop = _
          rw [hedits, Edit.render_nil]
        have hlambda := identityLambda_eq htext
        have hworked : p.state.traversal.worked = false := hp.worked
        have hanswer := settle_of_isEligible hworked
          (heligible.trans (by rw [hx, decide_eq_true hdepth]; rfl))
        rw [hlambda] at hanswer
        rw [hfound]
        refine ⟨none, _, leave_of_some hanswer, rfl, hp.kinds, hp.depth, rfl, ?_⟩
        show Edit.replace (wrapping source x) p.edits = [wrapping source x]
        rw [hedits]
        rfl
    · rw [decide_eq_false hdepth, Bool.false_and] at heligible
      exact hkeep (.inr heligible) (by simp [hdepth])

/-- Nothing is done at a line. -/
theorem leaveLine_leads {depth : Nat} {found : Option Place} (l : Thunk Text → Line)
    (start stop : Nat) :
    Fold.Leads (At kinds source depth found) (At kinds source depth found)
      (Fold.shown source start stop >>= fun shown => Fold.ask (fold.leaveLine (l shown)) >>=
        Fold.settle source newline start stop) fun e => e = none := by
  refine .shown source start stop fun es => ?_
  rintro p ⟨hp, -⟩
  exact ⟨none, p, rfl, rfl, hp⟩

mutual

theorem walk_leads (depth : Nat) (found : Option Place) (o : Outline) :
    Fold.Leads (At kinds source depth found)
      (At kinds source depth (goOn kinds source found (o.valued (decide (0 < depth)))))
      (Fold.walk fold source newline o) fun e => e = none := by
  cases o with
  | expression kind start stop inner =>
    have hinner := walkAll_leads depth found inner
    have hleave : Fold.Leads
        (At kinds source depth (goOn kinds source found (Outline.valuedAll (decide (0 < depth)) inner)))
        (At kinds source depth
          (goOn kinds source (goOn kinds source found (Outline.valuedAll (decide (0 < depth)) inner))
            (if 0 < depth then [⟨kind, start, stop⟩] else [])))
        (Fold.shown source start stop >>= leave ⟨kind, start, stop⟩) fun e => e = none :=
      leave_leads depth _ ⟨kind, start, stop⟩
    rw [← goOn_append] at hleave
    rw [Fold.walk, Outline.valued]
    simp only [decide_eq_true_eq]
    exact hinner.bind fun _ _ => hleave
  | value site inner =>
    rw [Fold.walk, Outline.valued]
    have henter : Fold.Leads (At kinds source depth found) (At kinds source (depth + 1) found)
        (Fold.tell (fold.enterValue site)) fun _ => True :=
      .tell fun p hp => ⟨hp.kinds, congrArg (· + 1) hp.depth, hp.worked, hp.edits⟩
    have hinner := walk_leads (depth + 1) found inner
    rw [decide_eq_true (Nat.succ_pos depth)] at hinner
    refine henter.bind fun _ _ => (Fold.Leads.andTell hinner ?_).bind fun _ _ => .pure rfl
    exact fun p hp => ⟨hp.kinds, congrArg (· - 1) hp.depth, hp.worked, hp.edits⟩
  | line kinds' docstring start stop inner =>
    rw [Fold.walk, Outline.valued]
    refine .shown source start stop fun es => ?_
    refine Fold.Leads.bind (.tell fun p hp => hp.1) fun _ _ => ?_
    refine (walkAll_leads depth found inner).bind fun _ _ => ?_
    exact leaveLine_leads (fun shown => ⟨kinds', docstring, shown⟩) start stop
  | compound kind inner =>
    rw [Fold.walk, Outline.valued]
    have henter : Fold.Leads (At kinds source depth found) (At kinds source depth found)
        (Fold.tell (fold.enterCompound kind)) fun _ => True :=
      .tell fun p hp => hp.track fun _ => rfl
    refine henter.bind fun _ _ => ?_
    refine ((walkAll_leads depth found inner).andTell fun p hp => ?_).bind fun _ _ => .pure rfl
    exact hp.track fun _ => rfl
  | block items =>
    rw [Fold.walk, Outline.valued]
    refine (walkAll_leads depth found items).bind fun es hes => ?_
    rw [Fold.allGone_of_none hes]
    exact .pure rfl
  | group inner =>
    rw [Fold.walk, Outline.valued]
    exact (walkAll_leads depth found inner).bind fun _ _ => .pure rfl

theorem walkAll_leads (depth : Nat) (found : Option Place) (os : List Outline) :
    Fold.Leads (At kinds source depth found)
      (At kinds source depth
        (goOn kinds source found (Outline.valuedAll (decide (0 < depth)) os)))
      (Fold.walkAll fold source newline os) fun es => ∀ e ∈ es, e = none := by
  cases os with
  | nil =>
    rw [Fold.walkAll, Outline.valuedAll, goOn_nil]
    exact .pure (by simp)
  | cons o os =>
    rw [Fold.walkAll, Outline.valuedAll, goOn_append]
    refine (walk_leads depth found o).bind fun e he => ?_
    refine (walkAll_leads depth _ os).bind fun es hes => ?_
    exact .pure (by simpa [he] using hes)

end

end

/-! ## Whole sources -/

/-- The first literal in a value. -/
def first (kinds : List LiteralKind) (s : Source) : Option Place :=
  (Outline.valuedAll false (Outline.ofSource s)).find? (isLiteral kinds s.text)

/-- A pass makes the edit that wraps the first literal in a value, if there is one. -/
theorem pass_eq (s : Source) {m : Wrapping} (hworked : m.traversal.worked = false) :
    (Machine.pass s m).1 =
        Fold.rewritten s ((first m.kinds s).map (wrapping s.text)).toList ∧
      (Machine.pass s m).2.kinds = m.kinds ∧
      Machine.worked (Machine.pass s m).2 = (first m.kinds s).isSome := by
  have hstart : At m.kinds s.text 0 none ⟨{ m with valueDepth := 0 }, []⟩ :=
    ⟨rfl, rfl, hworked, rfl⟩
  obtain ⟨es, p, hwalk, -, hp⟩ : ∃ es p,
      Fold.walkAll fold s.text s.newline (Outline.ofSource s) ⟨{ m with valueDepth := 0 }, []⟩ =
        (.ok es, p) ∧ (∀ e ∈ es, e = none) ∧ At m.kinds s.text 0 (first m.kinds s) p :=
    walkAll_leads 0 none (Outline.ofSource s) _ hstart
  have hpass : Machine.pass s m =
      (Fold.rewritten s ((first m.kinds s).map (wrapping s.text)).toList, p.state) := by
    show Fold.runOver fold s (Outline.ofSource s) { m with valueDepth := 0 } = _
    simp only [Fold.runOver, Fold.edits, hwalk, Except.map, Except.bind, hp.edits]
  rw [hpass]
  exact ⟨rfl, hp.kinds, hp.worked⟩

end Wrapping

end PointMutation
