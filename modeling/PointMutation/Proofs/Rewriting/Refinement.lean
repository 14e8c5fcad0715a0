import PointMutation.Proofs.Nesting.Outline
import PointMutation.Proofs.Rewriting.Edits
import PointMutation.Proofs.Rewriting.Reference

/-!
# A walk rewrites from below

The edits that a walk makes inside a node form a chain within its stretch, and applying them gives
what the pieces of the rewriting give (`Realises`). The edits made before lie in front of the node
and are not touched any more. This is kept by every step, so that a walk and the rewriting show
the same texts to the fold, and the edits of the whole walk put together what the rewriting does
(`runOver_eq_rewriteOver`).

For this the nodes have to be nested, and no expression or line may be empty: an edit of an empty
stretch would be lost if a node that begins there is replaced later.
-/

namespace PointMutation

/-- Whether nothing is put in place of a line. -/
def Replacement.removes : Replacement → Bool
  | .remove => true
  | .flatten [] => true
  | _ => false

namespace Fold

variable {σ : Type}

/-- No answer of the fold removes a line. -/
def KeepsLines (f : Fold σ) : Prop :=
  ∀ l s answer s', f.leaveLine l s = (.ok answer, s') → answer.removes = false

/-! ## Pieces and edits -/

namespace Piece

/-- The edit that puts a piece in its place. -/
def edit (p : Piece) : Edit := ⟨p.start, p.stop, p.text⟩

theorem fill_eq_apply (source : Text) (b a : Nat) (ps : List Piece) :
    fill source b a ps = Edit.apply source b a (ps.map edit) := by
  induction ps generalizing a with
  | nil => rfl
  | cons p ps ih => rw [fill, List.map_cons, Edit.apply, ih, edit]

end Piece

/-- Edits inside a stretch that give what pieces inside the stretch give. -/
structure Realises (source : Text) (a b : Nat) (ps : List Piece) (es : List Edit) : Prop where
  pieces : Edit.Chain a b (ps.map Piece.edit)
  edits : Edit.Chain a b es
  text : Edit.apply source b a es = Piece.fill source b a ps
  answers : es.map Edit.text = ps.flatMap Piece.answers

namespace Realises

variable {source : Text} {a m b : Nat}

theorem nil (h : a ≤ b) : Realises source a b [] [] :=
  ⟨Edit.chain_nil.mpr h, Edit.chain_nil.mpr h, rfl, rfl⟩

theorem append {ps qs : List Piece} {es fs : List Edit} (h : Realises source a m ps es)
    (h' : Realises source m b qs fs) : Realises source a b (ps ++ qs) (es ++ fs) := by
  have hp : Edit.Chain a b ((ps ++ qs).map Piece.edit) := by
    rw [List.map_append]
    exact h.pieces.append h'.pieces
  refine ⟨hp, h.edits.append h'.edits, ?_, ?_⟩
  · calc Edit.apply source b a (es ++ fs)
        = Edit.apply source m a es ++ Edit.apply source b m fs :=
          Edit.apply_append source h.edits h'.edits
      _ = Piece.fill source m a ps ++ Piece.fill source b m qs := by rw [h.text, h'.text]
      _ = Piece.fill source b a (ps ++ qs) := by
          rw [Piece.fill_eq_apply, Piece.fill_eq_apply, Piece.fill_eq_apply, List.map_append,
            Edit.apply_append source h.pieces h'.pieces]
  · rw [List.map_append, List.flatMap_append, h.answers, h'.answers]

/-- A wider stretch only adds what is copied from the source. -/
theorem mono {a' b' : Nat} {ps : List Piece} {es : List Edit} (h : Realises source a b ps es)
    (ha : a' ≤ a) (hb : b ≤ b') : Realises source a' b' ps es := by
  have hfront : Realises source a' a [] [] := nil ha
  have hwide := (hfront.append h).append (nil hb)
  simpa using hwide

/-- A node that stays keeps the edits inside it. -/
theorem keeping {ps : List Piece} {es : List Edit} (h : Realises source a b ps es)
    (hab : a < b) : Realises source a b [.keeping source a b ps] es := by
  refine ⟨Edit.chain_singleton.mpr ⟨Nat.le_refl a, hab, Nat.le_refl b⟩, h.edits, ?_, ?_⟩
  · rw [h.text]
    simp [Piece.fill, Piece.keeping, Text.slice_self]
  · rw [h.answers]
    simp [Piece.keeping]

/-- An answer is the only edit of its node. -/
theorem answering (t : Text) (hab : a < b) :
    Realises source a b [.answering a b t] [⟨a, b, t⟩] := by
  have h : Edit.Chain a b [⟨a, b, t⟩] :=
    Edit.chain_singleton.mpr ⟨Nat.le_refl a, hab, Nat.le_refl b⟩
  exact ⟨h, h, rfl, rfl⟩

end Realises

/-! ## Following the rewriting -/

/-- What a part of a walk and a part of the rewriting come to: the same state of the fold, and the
same fault or related results. -/
inductive Matches {α β : Type} (Q : α → β → List Edit → Prop) :
    Except Fault α × Progress σ → Except Fault β × σ → Prop
  | failed {e : Fault} {s : σ} {es : List Edit} : Matches Q (.error e, ⟨s, es⟩) (.error e, s)
  | done {x : α} {y : β} {s : σ} {es : List Edit} (h : Q x y es) :
    Matches Q (.ok x, ⟨s, es⟩) (.ok y, s)

/-- A part of a walk that begins with the edits `kept` follows a part of the rewriting. -/
def Follows {α β : Type} (kept : List Edit) (w : Walk σ α) (r : Rewriting σ β)
    (Q : α → β → List Edit → Prop) : Prop :=
  ∀ s, Matches Q (w ⟨s, kept⟩) (r s)

namespace Follows

variable {α β γ δ : Type} {kept : List Edit} {Q : α → β → List Edit → Prop}

theorem pure {x : α} {y : β} (h : Q x y kept) :
    Follows kept (Pure.pure x : Walk σ α) (Pure.pure y : Rewriting σ β) Q :=
  fun _ => .done h

theorem bind {w : Walk σ α} {r : Rewriting σ β} {k : α → Walk σ γ} {l : β → Rewriting σ δ}
    {P : γ → δ → List Edit → Prop} (h : Follows kept w r Q)
    (hk : ∀ x y es, Q x y es → Follows es (k x) (l y) P) :
    Follows kept (w >>= k) (r >>= l) P := by
  intro s
  have hs := h s
  simp only [Bind.bind, ExceptT.bind, ExceptT.mk, StateT.bind]
  generalize w ⟨s, kept⟩ = p at hs ⊢
  generalize r s = q at hs ⊢
  cases hs with
  | failed => exact .failed
  | done hQ => exact hk _ _ _ hQ _

/-- The walk looks up what it shows. -/
theorem shown {source : Text} {a b : Nat} {k : Thunk Text → Walk σ γ} {r : Rewriting σ δ}
    {P : γ → δ → List Edit → Prop}
    (h : Follows kept (k (.mk fun _ => Edit.render source kept a b)) r P) :
    Follows kept (Fold.shown source a b >>= k) r P :=
  h

/-- The walk makes an edit. -/
theorem edit {e : Edit} {k : Unit → Walk σ γ} {r : Rewriting σ δ}
    {P : γ → δ → List Edit → Prop} (h : Follows (Edit.replace e kept) (k ()) r P) :
    Follows kept (Fold.edit e >>= k) r P :=
  h

theorem tell (act : StateM σ Unit) :
    Follows kept (Fold.tell act) (Rewriting.tell act) fun _ _ es => es = kept :=
  fun _ => .done rfl

/-- The fold gives both the same answer. -/
theorem ask {act : ExceptT Fault (StateM σ) α} {P : α → Prop}
    (h : ∀ s x s', act s = (.ok x, s') → P x) :
    Follows kept (Fold.ask act) act fun x y es => x = y ∧ es = kept ∧ P x := by
  intro s
  simp only [Fold.ask]
  cases hact : act s with
  | mk answer s' =>
    cases answer with
    | error e => exact .failed
    | ok x => exact .done ⟨rfl, rfl, h s x s' hact⟩

theorem andTell {w : Walk σ α} {r : Rewriting σ β} (act : StateM σ Unit)
    (h : Follows kept w r Q) : Follows kept (Fold.andTell w act) (Rewriting.andTell r act) Q := by
  intro s
  have hs := h s
  simp only [Fold.andTell, Rewriting.andTell]
  generalize w ⟨s, kept⟩ = p at hs ⊢
  generalize r s = q at hs ⊢
  cases hs with
  | failed => exact .failed
  | done hQ => exact .done hQ

theorem mono {w : Walk σ α} {r : Rewriting σ β} {P : α → β → List Edit → Prop}
    (h : Follows kept w r Q) (hQ : ∀ x y es, Q x y es → P x y es) : Follows kept w r P := by
  intro s
  have hs := h s
  generalize w ⟨s, kept⟩ = p at hs ⊢
  generalize r s = q at hs ⊢
  cases hs with
  | failed => exact .failed
  | done h => exact .done (hQ _ _ _ h)

/-- What the walk does behind a part that the rewriting has already done. -/
theorem andThen {w : Walk σ α} {r : Rewriting σ β} {k : α → Walk σ γ}
    {P : γ → β → List Edit → Prop} (h : Follows kept w r Q)
    (hk : ∀ x y es, Q x y es → Follows es (k x) (Pure.pure y) P) : Follows kept (w >>= k) r P := by
  have hbind := h.bind (l := Pure.pure) hk
  rwa [bind_pure] at hbind

end Follows

/-! ## The walk -/

/-- The edits are those kept from before and ones that give what the pieces give. -/
def Extends (source : Text) (kept : List Edit) (a b : Nat) (ps : List Piece) (es : List Edit) :
    Prop :=
  ∃ new, es = kept ++ new ∧ Realises source a b ps new

theorem allGone_of_none {es : List (Option Edit)} (h : ∀ e ∈ es, e = none) :
    allGone es = none := by
  cases es with
  | nil => rfl
  | cons e es =>
    obtain rfl := h e (by simp)
    simp [allGone]

/-- A line that is left becomes one piece. -/
theorem settle_follows {source newline : Text} {kept new : List Edit} {a b : Nat}
    {below : List Piece} {answer : Replacement} (hk : Edit.Chain 0 a kept)
    (hnew : Realises source a b below new) (hab : a < b) (hr : answer.removes = false) :
    Follows (σ := σ) (kept ++ new) (settle source newline a b answer)
      (pure [settled source newline (.keeping source a b below) answer])
      fun x ps es => x = none ∧ Extends source kept a b ps es := by
  match answer, hr with
  | .keep, _ => exact .pure ⟨rfl, new, rfl, hnew.keeping hab⟩
  | .flatten (s :: ss), _ =>
    rw [settle]
    refine .edit ?_
    rw [Edit.replace_append hk hnew.edits]
    exact .pure ⟨rfl, _, rfl, .answering _ hab⟩

mutual

/-- A walk through an outline follows the rewriting if the edits made before end in front of
it. -/
theorem walk_follows {f : Fold σ} (hf : f.KeepsLines) {source newline : Text} {kept : List Edit}
    {a b : Nat} {o : Outline} (h : o.Within a b) (hs : o.Solid) (hk : Edit.Chain 0 a kept) :
    Follows kept (walk f source newline o) (rewrite f source newline o)
      fun x ps es => x = none ∧ Extends source kept a b ps es := by
  cases o with
  | expression kind start stop inner =>
    obtain ⟨ha, hin, hb⟩ := h
    obtain ⟨hsome, hsin⟩ := hs
    have hk' := hk.mono (Nat.le_refl 0) ha
    rw [walk, rewrite]
    refine (walkAll_follows hf hin hsin hk').bind ?_
    rintro _ below _ ⟨-, new, rfl, hnew⟩
    refine .shown ?_
    rw [Edit.render_append source hk' hnew.edits, hnew.text]
    refine (Follows.ask (P := fun _ => True) fun _ _ _ _ => trivial).bind ?_
    rintro answer _ _ ⟨rfl, rfl, -⟩
    cases answer with
    | none => exact .pure ⟨rfl, new, rfl, (hnew.keeping hsome).mono ha hb⟩
    | some text =>
      refine .edit ?_
      rw [Edit.replace_append hk' hnew.edits]
      exact .pure ⟨rfl, _, rfl, (Realises.answering text hsome).mono ha hb⟩
  | value site inner =>
    rw [Outline.Within] at h
    rw [Outline.Solid] at hs
    rw [walk, rewrite]
    refine (Follows.tell _).bind ?_
    rintro _ _ _ rfl
    refine ((walk_follows hf h hs hk).andTell _).andThen ?_
    rintro _ _ _ ⟨-, hnew⟩
    exact .pure ⟨rfl, hnew⟩
  | line kinds docstring start stop inner =>
    obtain ⟨ha, hin, hb⟩ := h
    obtain ⟨hsome, hsin⟩ := hs
    have hk' := hk.mono (Nat.le_refl 0) ha
    have hshown : Edit.render source kept start stop = Text.slice source start stop := by
      have hempty := Edit.chain_nil.mpr (Nat.le_of_lt hsome)
      have h := Edit.render_append source hk' hempty
      rwa [List.append_nil] at h
    rw [walk, rewrite]
    refine .shown ?_
    rw [hshown]
    refine (Follows.tell _).bind ?_
    rintro _ _ _ rfl
    refine (walkAll_follows hf hin hsin hk').bind ?_
    rintro _ below _ ⟨-, new, rfl, hnew⟩
    refine .shown ?_
    rw [Edit.render_append source hk' hnew.edits, hnew.text]
    refine (Follows.ask (P := fun r => r.removes = false) (hf _)).bind ?_
    rintro answer _ _ ⟨rfl, rfl, hr⟩
    refine (settle_follows hk' hnew hsome hr).mono ?_
    rintro _ _ _ ⟨rfl, new, rfl, hnew⟩
    exact ⟨rfl, new, rfl, hnew.mono ha hb⟩
  | compound kind inner =>
    rw [Outline.Within] at h
    rw [Outline.Solid] at hs
    rw [walk, rewrite]
    refine (Follows.tell _).bind ?_
    rintro _ _ _ rfl
    refine ((walkAll_follows hf h hs hk).andTell _).andThen ?_
    rintro _ _ _ ⟨-, hnew⟩
    exact .pure ⟨rfl, hnew⟩
  | block items =>
    rw [Outline.Within] at h
    rw [Outline.Solid] at hs
    rw [walk, rewrite]
    refine (walkAll_follows hf h hs hk).andThen ?_
    rintro xs _ _ ⟨hxs, hnew⟩
    rw [allGone_of_none hxs]
    exact .pure ⟨rfl, hnew⟩
  | group inner =>
    rw [Outline.Within] at h
    rw [Outline.Solid] at hs
    rw [walk, rewrite]
    refine (walkAll_follows hf h hs hk).andThen ?_
    rintro _ _ _ ⟨-, hnew⟩
    exact .pure ⟨rfl, hnew⟩

theorem walkAll_follows {f : Fold σ} (hf : f.KeepsLines) {source newline : Text}
    {kept : List Edit} {a b : Nat} {os : List Outline} (h : Outline.WithinAll a b os)
    (hs : Outline.SolidAll os) (hk : Edit.Chain 0 a kept) :
    Follows kept (walkAll f source newline os) (rewriteAll f source newline os)
      fun xs ps es => (∀ x ∈ xs, x = none) ∧ Extends source kept a b ps es := by
  cases os with
  | nil =>
    rw [walkAll, rewriteAll]
    refine .pure ⟨by simp, [], by simp, .nil (Outline.withinAll_nil.mp h)⟩
  | cons o os =>
    obtain ⟨m, ho, hos⟩ := Outline.withinAll_cons.mp h
    obtain ⟨hso, hsos⟩ := hs
    rw [walkAll, rewriteAll]
    refine (walk_follows hf ho hso hk).bind ?_
    rintro _ ps _ ⟨rfl, new, rfl, hnew⟩
    have hk' := hk.append hnew.edits
    refine (walkAll_follows hf hos hsos hk').bind ?_
    rintro xs qs _ ⟨hxs, new', rfl, hnew'⟩
    refine .pure ⟨?_, new ++ new', by simp, hnew.append hnew'⟩
    intro x hx
    cases hx with
    | head => rfl
    | tail _ hx => exact hxs x hx

end

/-! ## Whole sources -/

/-- A chain of edits applied to a source gives what the pieces are assembled to. -/
theorem Realises.rewritten {s : Source} {ps : List Piece} {es : List Edit}
    (h : Realises s.text 0 s.text.length ps es) : rewritten s es = Piece.assemble s ps := by
  have hrender : Edit.render s.text es 0 s.text.length = Piece.fill s.text s.text.length 0 ps := by
    rw [Edit.render_all s.text h.edits, h.text]
  have hempty : es.isEmpty = true ↔ ps.flatMap Piece.answers = [] := by
    rw [← h.answers, List.isEmpty_iff, List.map_eq_nil_iff]
  rw [Fold.rewritten, Piece.assemble, hrender, h.answers]
  by_cases he : ps.flatMap Piece.answers = []
  · rw [if_pos (hempty.mpr he), if_pos he]
  · exact (if_neg (mt hempty.mp he)).trans (if_neg he).symm

/-- Walking through nested outlines is rewriting from below. -/
theorem runOver_eq_rewriteOver_of_within {f : Fold σ} (hf : f.KeepsLines) {s : Source}
    {os : List Outline} (h : Outline.WithinAll 0 s.text.length os) (hs : Outline.SolidAll os)
    (state : σ) : runOver f s os state = rewriteOver f s os state := by
  have hfollows : Follows [] (walkAll f s.text s.newline os) (rewriteAll f s.text s.newline os)
      fun xs ps es => (∀ x ∈ xs, x = none) ∧ Extends s.text [] 0 s.text.length ps es :=
    walkAll_follows hf h hs (Edit.chain_nil.mpr (Nat.le_refl 0))
  have hwalk := hfollows state
  simp only [runOver, rewriteOver, edits]
  generalize walkAll f s.text s.newline os ⟨state, []⟩ = p at hwalk ⊢
  generalize rewriteAll f s.text s.newline os state = q at hwalk ⊢
  cases hwalk with
  | failed => rfl
  | done hQ =>
    obtain ⟨-, new, rfl, hnew⟩ := hQ
    simp only [Except.map, Except.bind]
    rw [hnew.rewritten]

/-- The fold that puts every whole number in parentheses, and counts them. -/
def parenthesising : Fold Nat where
  leaveExpression e := do
    if e.kind = .integer then
      modify (· + 1)
      return some ('(' :: e.text ++ [')'])
    else return none

end Fold

end PointMutation
