import PointMutation.Mutator.Insertion
import PointMutation.Proofs.Insertion.Spots
import PointMutation.Proofs.Rewriting.Refinement
import PointMutation.Proofs.Walk.Single

/-!
# Passes of an insertion

A pass draws a declaration and a coin at each line that need not stay first, one line after the
other in the order of the text, and stops at the first coin that succeeds. It inserts the
declaration in front of that line and does nothing else.

The reference is `sequence`, which knows nothing of the walk: a list of lines goes in. Each part of
the walk goes on with the draws where the part before has left them (`Passes`).
-/

namespace PointMutation

namespace Insertion

open Outline (Spot)

/-! ## Draws one after the other -/

/-- Whether a declaration may stand in front of a line. -/
def isFree (x : Spot) : Bool := !(x.docstring || x.kinds.contains .futureImportStatement)

/-- The lines of a source in front of which a declaration may stand. -/
def spots (s : Source) : List Spot := (Outline.spotsAll (Outline.ofSource s)).filter isFree

/-- A declaration and a coin for each line, up to the first coin that succeeds. -/
def sequence (pattern : Declaration.Pattern) (probability : Double) :
    List Spot → RandomSource → Except Fault (Option (Declaration × Spot)) × RandomSource
  | [], r => (.ok none, r)
  | x :: xs, r =>
    match Declaration.draw pattern r with
    | (.error e, r) => (.error e, r)
    | (.ok d, r) =>
      let (success, r) := r.chance probability
      if success then (.ok (some (d, x)), r) else sequence pattern probability xs r

section

variable {pattern : Declaration.Pattern} {probability : Double} {r r₁ r' : RandomSource}
  {d : Declaration} {x : Spot} {xs : List Spot} {found : Option (Declaration × Spot)}

/-- A coin that succeeds ends the draws. -/
theorem sequence_of_success (hdraw : Declaration.draw pattern r = (.ok d, r₁))
    (hcoin : (r₁.chance probability).1 = true) (x : Spot) (xs : List Spot) :
    sequence pattern probability (x :: xs) r =
      (.ok (some (d, x)), (r₁.chance probability).2) := by
  rw [sequence, hdraw]
  exact if_pos hcoin

/-- A coin that fails leaves the other lines. -/
theorem sequence_of_failure (hdraw : Declaration.draw pattern r = (.ok d, r₁))
    (hcoin : ¬ (r₁.chance probability).1 = true) (x : Spot) (xs : List Spot) :
    sequence pattern probability (x :: xs) r =
      sequence pattern probability xs (r₁.chance probability).2 := by
  rw [sequence, hdraw]
  exact if_neg hcoin

/-- Draws that come to an end have drawn at the first line, and a coin there. -/
theorem sequence_cases (h : sequence pattern probability (x :: xs) r = (.ok found, r')) :
    ∃ d r₁, Declaration.draw pattern r = (.ok d, r₁) ∧
      ((r₁.chance probability).1 = true ∧ found = some (d, x) ∧ r' = (r₁.chance probability).2 ∨
        ¬ (r₁.chance probability).1 = true ∧
          sequence pattern probability xs (r₁.chance probability).2 = (.ok found, r')) := by
  cases hdraw : Declaration.draw pattern r with
  | mk answer r₁ =>
    cases answer with
    | error e =>
      rw [sequence, hdraw] at h
      cases h
    | ok d =>
      refine ⟨d, r₁, rfl, ?_⟩
      by_cases hcoin : (r₁.chance probability).1 = true
      · rw [sequence_of_success hdraw hcoin] at h
        cases h
        exact .inl ⟨hcoin, rfl, rfl⟩
      · rw [sequence_of_failure hdraw hcoin] at h
        exact .inr ⟨hcoin, h⟩

end

/-- The draws at more lines. There are none if a coin has succeeded. -/
def goOn (pattern : Declaration.Pattern) (probability : Double)
    (found : Option (Declaration × Spot)) (xs : List Spot) (r : RandomSource) :
    Except Fault (Option (Declaration × Spot)) × RandomSource :=
  match found with
  | some x => (.ok (some x), r)
  | none => sequence pattern probability xs r

@[simp]
theorem goOn_nil {pattern : Declaration.Pattern} {probability : Double}
    (found : Option (Declaration × Spot)) (r : RandomSource) :
    goOn pattern probability found [] r = (.ok found, r) := by
  cases found <;> rfl

theorem goOn_append {pattern : Declaration.Pattern} {probability : Double}
    {found found' : Option (Declaration × Spot)} {xs : List Spot} (ys : List Spot)
    {r r' : RandomSource} (h : goOn pattern probability found xs r = (.ok found', r')) :
    goOn pattern probability found (xs ++ ys) r = goOn pattern probability found' ys r' := by
  cases found with
  | some x =>
    cases h
    rfl
  | none =>
    simp only [goOn] at h
    show sequence pattern probability (xs ++ ys) r = _
    induction xs generalizing r with
    | nil =>
      cases h
      rfl
    | cons x xs ih =>
      obtain ⟨d, r₁, hdraw, ⟨hcoin, rfl, rfl⟩ | ⟨hcoin, hrest⟩⟩ := sequence_cases h
      · exact sequence_of_success hdraw hcoin x (xs ++ ys)
      · rw [List.cons_append, sequence_of_failure hdraw hcoin]
        exact ih hrest

/-! ## What a pass does with them -/

/-- The text with a declaration and a line end in front of a line. -/
def inserted (s : Source) (d : Declaration) (x : Spot) : Text :=
  s.text.take x.start ++ d.text ++ s.newline ++ Fold.indentBefore s.text x.start ++
    s.text.drop x.start

/-- The source with a declaration in front of a line. The complaint shows the line as well. -/
def insertedAt (s : Source) (d : Declaration) (x : Spot) : Except Fault Source :=
  (Source.read (inserted s d x)).mapError fun e =>
    .mismatch (d.text ++ s.newline ++ Fold.indentBefore s.text x.start ++
      Text.slice s.text x.start x.stop) (Fault.describe (.unparsable e))

/-- Every declaration that is drawn is a simple statement by itself. -/
def Declares (pattern : Declaration.Pattern) : Prop :=
  ∀ r, ∃ d r', Declaration.draw pattern r = (.ok d, r') ∧
    snippetOf d.text = .ok (.free d.text false) ∧ Text.lines d.text = [d.text]

/-- The edit that inserts a declaration. -/
def insertion (source newline : Text) (d : Declaration) (x : Spot) : Edit :=
  ⟨x.start, x.stop, d.text ++ newline ++ Fold.indentBefore source x.start ++
    Text.slice source x.start x.stop⟩

/-- The edits that come of what has been found. -/
def editsOf (source newline : Text) (found : Option (Declaration × Spot)) : List Edit :=
  (found.map fun x => insertion source newline x.1 x.2).toList

theorem stack_declaration (source newline : Text) {d : Declaration} (x : Spot)
    (h : Text.lines d.text = [d.text]) :
    Fold.stack (Fold.indentBefore source x.start) newline
        [.free d.text false, .anchored (Text.slice source x.start x.stop)] =
      (insertion source newline d x).text := by
  simp [Fold.stack, Snippet.render, h, Snippet.indentLines, insertion, List.intercalate,
    List.intersperse]

/-! ## Parts of a walk -/

section

variable {pattern : Declaration.Pattern} {probability : Double} {source newline : Text}

/-- A walk behind some draws: what it draws from, and what has come of them. -/
structure At (pattern : Declaration.Pattern) (probability : Double) (source newline : Text)
    (found : Option (Declaration × Spot)) (r : RandomSource) (p : Fold.Progress Insertion) :
    Prop where
  pattern : p.state.pattern = pattern
  probability : p.state.probability = probability
  random : p.state.random = r
  worked : p.state.traversal.worked = found.isSome
  edits : p.edits = editsOf source newline found

/-- A part of a walk makes the draws at some lines, and nothing else. -/
def Passes {α : Type} (pattern : Declaration.Pattern) (probability : Double)
    (source newline : Text) (xs : List Spot) (w : Fold.Walk Insertion α) (Q : α → Prop) : Prop :=
  ∀ found r p, At pattern probability source newline found r p →
    ∃ a p' found' r', w p = (.ok a, p') ∧ Q a ∧
      goOn pattern probability found xs r = (.ok found', r') ∧
      At pattern probability source newline found' r' p'

namespace Passes

variable {α β : Type} {xs ys : List Spot} {Q : α → Prop} {P : β → Prop}

theorem pure {a : α} (h : Q a) :
    Passes pattern probability source newline [] (Pure.pure a) Q := by
  intro found r p hp
  exact ⟨a, p, found, r, rfl, h, goOn_nil found r, hp⟩

theorem bind {w : Fold.Walk Insertion α} {k : α → Fold.Walk Insertion β}
    (h : Passes pattern probability source newline xs w Q)
    (hk : ∀ a, Q a → Passes pattern probability source newline ys (k a) P) :
    Passes pattern probability source newline (xs ++ ys) (w >>= k) P := by
  intro found r p hp
  obtain ⟨a, p₁, found₁, r₁, hw, ha, hfound, hp₁⟩ := h found r p hp
  obtain ⟨b, p₂, found₂, r₂, hb, hP, hfound', hp₂⟩ := hk a ha found₁ r₁ p₁ hp₁
  refine ⟨b, p₂, found₂, r₂, ?_, hP, ?_, hp₂⟩
  · calc (w >>= k) p = k a p₁ := by simp only [Bind.bind, ExceptT.bind, ExceptT.mk, StateT.bind, hw,
          ExceptT.bindCont]
      _ = (.ok b, p₂) := hb
  · rw [goOn_append ys hfound, hfound']

/-- A step without a draw in front of others. -/
theorem andThen {w : Fold.Walk Insertion α} {k : α → Fold.Walk Insertion β}
    (h : Passes pattern probability source newline [] w Q)
    (hk : ∀ a, Q a → Passes pattern probability source newline ys (k a) P) :
    Passes pattern probability source newline ys (w >>= k) P :=
  h.bind hk

/-- A step without a draw behind others. -/
theorem thenAt {w : Fold.Walk Insertion α} {k : α → Fold.Walk Insertion β}
    (h : Passes pattern probability source newline xs w Q)
    (hk : ∀ a, Q a → Passes pattern probability source newline [] (k a) P) :
    Passes pattern probability source newline xs (w >>= k) P := by
  have hbind := h.bind hk
  rwa [List.append_nil] at hbind

/-- Keeping track of the place. -/
theorem track {f : Traversal → Traversal} (hf : ∀ t, (f t).worked = t.worked) :
    Passes pattern probability source newline [] (Fold.tell (Insertion.track f))
      fun _ => True := by
  intro found r p hp
  refine ⟨(), _, found, r, rfl, trivial, goOn_nil found r, ?_⟩
  exact ⟨hp.pattern, hp.probability, hp.random, (hf _).trans hp.worked, hp.edits⟩

/-- Keeping track of the place behind a part. -/
theorem andTrack {w : Fold.Walk Insertion α} {f : Traversal → Traversal}
    (h : Passes pattern probability source newline xs w Q)
    (hf : ∀ t, (f t).worked = t.worked) :
    Passes pattern probability source newline xs (Fold.andTell w (Insertion.track f)) Q := by
  intro found r p hp
  obtain ⟨a, p', found', r', hw, ha, hfound, hp'⟩ := h found r p hp
  refine ⟨a, _, found', r', by simp only [Fold.andTell, hw]; rfl, ha, hfound, ?_⟩
  exact ⟨hp'.pattern, hp'.probability, hp'.random, (hf _).trans hp'.worked, hp'.edits⟩

/-- Nothing is done. -/
theorem tellNothing : Passes pattern probability source newline [] (Fold.tell (Pure.pure ()))
    fun _ => True := by
  intro found r p hp
  exact ⟨(), p, found, r, rfl, trivial, goOn_nil found r, hp⟩

theorem andTellNothing {w : Fold.Walk Insertion α}
    (h : Passes pattern probability source newline xs w Q) :
    Passes pattern probability source newline xs (Fold.andTell w (Pure.pure ())) Q := by
  intro found r p hp
  obtain ⟨a, p', found', r', hw, ha, hfound, hp'⟩ := h found r p hp
  exact ⟨a, p', found', r', by simp only [Fold.andTell, hw]; rfl, ha, hfound, hp'⟩

/-- No expression is replaced. -/
theorem askNothing : Passes pattern probability source newline []
    (Fold.ask (Pure.pure none : ExceptT Fault (StateM Insertion) (Option α)))
    fun a => a = none := by
  intro found r p hp
  exact ⟨none, p, found, r, rfl, rfl, goOn_nil found r, hp⟩

theorem shown (start stop : Nat) : Passes pattern probability source newline []
    (Fold.shown source start stop) fun _ => True := by
  intro found r p hp
  exact ⟨_, p, found, r, rfl, trivial, goOn_nil found r, hp⟩

end Passes

end

/-! ## At a line -/

section

variable {α : Type} {m : Insertion}

theorem get_bind (k : Insertion → ExceptT Fault (StateM Insertion) α) :
    (get >>= k) m = k m m := rfl

theorem track_bind (f : Traversal → Traversal) (k : Unit → ExceptT Fault (StateM Insertion) α) :
    ((liftM (track f) : ExceptT Fault (StateM Insertion) Unit) >>= k) m =
      k () { m with traversal := f m.traversal } := rfl

theorem coin_bind (k : Bool → ExceptT Fault (StateM Insertion) α) :
    (coin >>= k) m =
      k (m.random.chance m.probability).1
        { m with random := (m.random.chance m.probability).2 } := rfl

theorem draw_bind {d : Declaration} {s : Snippet} {r : RandomSource}
    (hd : Declaration.draw m.pattern m.random = (.ok d, r)) (hs : snippetOf d.text = .ok s)
    (k : Snippet → ExceptT Fault (StateM Insertion) α) :
    (draw >>= k) m = k s { m with random := r } := by
  simp only [Bind.bind, ExceptT.bind, ExceptT.mk, StateT.bind, draw, hd, Except.bind, hs,
    ExceptT.bindCont]

end

theorem settle_of_worked (l : Line) {m : Insertion} (h : m.traversal.worked = true) :
    settle l m = (.ok .keep, m) := by
  rw [settle, get_bind, if_pos h]
  rfl

theorem settle_of_isLeading {l : Line} {m : Insertion} (h : m.traversal.worked = false)
    (hl : isLeading l = true) :
    settle l m = (.ok .keep, { m with traversal := m.traversal.leave }) := by
  rw [settle, get_bind, h, if_neg (by decide), track_bind, if_pos hl]
  rfl

theorem settle_of_draw {l : Line} {m : Insertion} {d : Declaration} {s : Snippet}
    {r : RandomSource} (h : m.traversal.worked = false) (hl : isLeading l = false)
    (hd : Declaration.draw m.pattern m.random = (.ok d, r)) (hs : snippetOf d.text = .ok s) :
    settle l m =
      if (r.chance m.probability).1 then
        (.ok (.flatten [s, l.snippet]), { m with
          random := (r.chance m.probability).2
          traversal := m.traversal.leave.visit.work })
      else
        (.ok .keep, { m with
          random := (r.chance m.probability).2
          traversal := m.traversal.leave.visit }) := by
  rw [settle, get_bind, h, if_neg (by decide), track_bind, hl, if_neg (by decide), track_bind,
    draw_bind (by exact hd) hs, coin_bind]
  by_cases hc : (r.chance m.probability).1
  · rw [if_pos hc, if_pos hc, track_bind]
    rfl
  · rw [if_neg hc, if_neg hc]
    rfl

section

variable {pattern : Declaration.Pattern} {probability : Double} {source newline : Text}

theorem ask_bind {α β : Type} {act : ExceptT Fault (StateM Insertion) α}
    {p : Fold.Progress Insertion} {a : α} {m : Insertion} (h : act p.state = (.ok a, m))
    (k : α → Fold.Walk Insertion β) : (Fold.ask act >>= k) p = k a { p with state := m } := by
  simp only [Bind.bind, ExceptT.bind, ExceptT.mk, StateT.bind, Fold.ask, h, ExceptT.bindCont]

/-- What is done behind a line is the draw at it. -/
theorem leaveLine_passes (hd : Declares pattern) (x : Spot) :
    Passes pattern probability source newline ([x].filter isFree)
      (Fold.shown source x.start x.stop >>= fun shown =>
        Fold.ask (settle ⟨x.kinds, x.docstring, shown⟩) >>=
          Fold.settle source newline x.start x.stop)
      fun e => e = none := by
  intro found r p hp
  let l : Line := ⟨x.kinds, x.docstring, .mk fun _ => Edit.render source p.edits x.start x.stop⟩
  have hwalk : ∀ {answer : Replacement} {m : Insertion}, settle l p.state = (.ok answer, m) →
      (Fold.shown source x.start x.stop >>= fun shown =>
        Fold.ask (settle ⟨x.kinds, x.docstring, shown⟩) >>=
          Fold.settle source newline x.start x.stop) p =
      Fold.settle source newline x.start x.stop answer { p with state := m } := by
    intro answer m h
    exact ask_bind h _
  have hfree : isFree x = !isLeading l := rfl
  cases found with
  | some y =>
    have hworked : p.state.traversal.worked = true := hp.worked
    exact ⟨none, p, some y, r, hwalk (settle_of_worked l hworked), rfl, rfl, hp⟩
  | none =>
    have hworked : p.state.traversal.worked = false := hp.worked
    by_cases hl : isLeading l
    · refine ⟨none, _, none, r, hwalk (settle_of_isLeading hworked hl), rfl, ?_, ?_⟩
      · simp [hfree, hl]
      · exact ⟨hp.pattern, hp.probability, hp.random, hworked, hp.edits⟩
    · have hl : isLeading l = false := by simpa using hl
      have hxs : [x].filter isFree = [x] := by simp [hfree, hl]
      obtain ⟨d, r', hdraw, hsnippet, hlines⟩ := hd r
      have hdraw' : Declaration.draw p.state.pattern p.state.random = (.ok d, r') := by
        rw [hp.pattern, hp.random, hdraw]
      have hsettle := settle_of_draw hworked hl hdraw' hsnippet
      rw [hp.probability] at hsettle
      rw [hxs]
      by_cases hc : (r'.chance probability).1
      · rw [if_pos hc] at hsettle
        refine ⟨none, _, some (d, x), (r'.chance probability).2, hwalk hsettle, rfl, ?_, ?_⟩
        · simp only [goOn, sequence, hdraw, if_pos hc]
        · refine ⟨hp.pattern, rfl, rfl, rfl, ?_⟩
          have hedits : p.edits = [] := hp.edits
          have hshown : l.snippet = .anchored (Text.slice source x.start x.stop) := by
            show Snippet.anchored (Edit.render source p.edits x.start x.stop) = _
            rw [hedits, Edit.render_nil]
          show Edit.replace ⟨x.start, x.stop, _⟩ p.edits = [insertion source newline d x]
          rw [hedits, hshown, stack_declaration source newline x hlines]
          rfl
      · rw [if_neg hc] at hsettle
        refine ⟨none, _, none, (r'.chance probability).2, hwalk hsettle, rfl, ?_, ?_⟩
        · simp only [goOn, sequence, hdraw, if_neg hc]
        · exact ⟨hp.pattern, rfl, rfl, hworked, hp.edits⟩

mutual

theorem walk_passes (hd : Declares pattern) (o : Outline) :
    Passes pattern probability source newline (o.spots.filter isFree)
      (Fold.walk fold source newline o) fun e => e = none := by
  cases o with
  | expression kind start stop inner =>
    rw [Fold.walk, Outline.spots]
    refine (walkAll_passes hd inner).thenAt fun _ _ => ?_
    refine (Passes.shown start stop).andThen fun _ _ => ?_
    refine Passes.askNothing.andThen ?_
    rintro _ rfl
    exact .pure rfl
  | value site inner =>
    rw [Fold.walk, Outline.spots]
    refine Passes.tellNothing.andThen fun _ _ => ?_
    exact (walk_passes hd inner).andTellNothing.thenAt fun _ _ => .pure rfl
  | line kinds docstring start stop inner =>
    rw [Fold.walk, Outline.spots, List.filter_append]
    refine (Passes.shown start stop).andThen fun _ _ => ?_
    refine (Passes.track (f := .enter) fun _ => rfl).andThen fun _ _ => ?_
    exact (walkAll_passes hd inner).bind fun _ _ =>
      leaveLine_passes hd ⟨kinds, docstring, start, stop⟩
  | compound kind inner =>
    rw [Fold.walk, Outline.spots]
    refine (Passes.track (f := .enter) fun _ => rfl).andThen fun _ _ => ?_
    exact ((walkAll_passes hd inner).andTrack (f := .leave) fun _ => rfl).thenAt fun _ _ => .pure rfl
  | block items =>
    rw [Fold.walk, Outline.spots]
    refine (walkAll_passes hd items).thenAt fun es hes => ?_
    rw [Fold.allGone_of_none hes]
    exact .pure rfl
  | group inner =>
    rw [Fold.walk, Outline.spots]
    exact (walkAll_passes hd inner).thenAt fun _ _ => .pure rfl

theorem walkAll_passes (hd : Declares pattern) (os : List Outline) :
    Passes pattern probability source newline ((Outline.spotsAll os).filter isFree)
      (Fold.walkAll fold source newline os) fun es => ∀ e ∈ es, e = none := by
  cases os with
  | nil =>
    rw [Fold.walkAll, Outline.spotsAll]
    exact .pure (by simp)
  | cons o os =>
    rw [Fold.walkAll, Outline.spotsAll, List.filter_append]
    refine (walk_passes hd o).bind fun e he => ?_
    refine (walkAll_passes hd os).thenAt fun es hes => ?_
    exact .pure (by simpa [he] using hes)

end

end

/-! ## Whole sources -/

theorem mem_of_sequence {pattern : Declaration.Pattern} {probability : Double} {xs : List Spot}
    {r r' : RandomSource} {d : Declaration} {x : Spot}
    (h : sequence pattern probability xs r = (.ok (some (d, x)), r')) : x ∈ xs := by
  induction xs generalizing r with
  | nil => cases h
  | cons y ys ih =>
    obtain ⟨d', r₁, -, ⟨-, hfound, -⟩ | ⟨-, hrest⟩⟩ := sequence_cases h
    · cases hfound
      exact List.mem_cons_self
    · exact List.mem_cons_of_mem y (ih hrest)

/-- The lines lie one behind the other in the text. -/
theorem spots_bounds (s : Source) :
    (∀ x ∈ spots s, x.start ≤ x.stop ∧ x.stop ≤ s.text.length) ∧
      (spots s).Pairwise fun x y => x.stop ≤ y.start := by
  have h := ((Outline.spotsIn_ofSource s).sublist (List.filter_sublist (p := isFree))).bounds
  exact ⟨fun x hx => (h.1 x hx).2, h.2⟩

theorem rewritten_insertion {s : Source} (d : Declaration) {x : Spot} (hx : x.start ≤ x.stop)
    (hb : x.stop ≤ s.text.length) :
    Fold.rewritten s [insertion s.text s.newline d x] = insertedAt s d x := by
  have htext : s.text.take x.start ++ (insertion s.text s.newline d x).text ++
      s.text.drop x.stop = inserted s d x := by
    simp only [insertion, inserted, List.append_assoc, Text.slice_drop hx hb]
  have hrewritten := Fold.rewritten_singleton (e := insertion s.text s.newline d x) hb
  rw [hrewritten, insertedAt]
  exact congrArg (fun t => (Source.read t).mapError _) htext

/-- A pass draws as the reference does, and makes the edits that come of what that finds. -/
theorem pass_eq {m : Insertion} (hd : Declares m.pattern) (hworked : m.traversal.worked = false)
    (s : Source) :
    ∃ found p, sequence m.pattern m.probability (spots s) m.random =
        (.ok found, (Machine.pass s m).2.random) ∧
      At m.pattern m.probability s.text s.newline found (Machine.pass s m).2.random p ∧
      Machine.pass s m = (Fold.rewritten s (editsOf s.text s.newline found), p.state) := by
  have hstart : At m.pattern m.probability s.text s.newline none m.random ⟨m, []⟩ :=
    ⟨rfl, rfl, rfl, hworked, rfl⟩
  obtain ⟨es, p, found, r, hwalk, -, hfound, hp⟩ :=
    walkAll_passes hd (Outline.ofSource s) none m.random ⟨m, []⟩ hstart
  have hpass : Machine.pass s m = (Fold.rewritten s (editsOf s.text s.newline found), p.state) := by
    show Fold.runOver fold s (Outline.ofSource s) m = _
    simp only [Fold.runOver, Fold.edits, hwalk, Except.map, Except.bind, hp.edits]
  have hrandom : (Machine.pass s m).2.random = r := by
    rw [hpass]
    exact hp.random
  rw [hrandom]
  exact ⟨found, p, hfound, hp, hpass⟩

/-- A pass leaves alone what declarations are drawn from. -/
theorem pass_pattern {m : Insertion} (hd : Declares m.pattern)
    (hworked : m.traversal.worked = false) (s : Source) :
    (Machine.pass s m).2.pattern = m.pattern := by
  obtain ⟨found, p, -, hp, hpass⟩ := pass_eq hd hworked s
  rw [hpass]
  exact hp.pattern

/-- A pass draws as the reference does, and inserts what that finds. -/
theorem pass_of_declares {m : Insertion} (hd : Declares m.pattern)
    (hworked : m.traversal.worked = false) (s : Source) :
    ∃ found, sequence m.pattern m.probability (spots s) m.random =
        (.ok found, (Machine.pass s m).2.random) ∧
      Machine.worked (Machine.pass s m).2 = found.isSome ∧
      (Machine.pass s m).1 = match found with
        | none => .ok s
        | some (d, x) => insertedAt s d x := by
  obtain ⟨found, p, hsequence, hp, hpass⟩ := pass_eq hd hworked s
  refine ⟨found, hsequence, ?_, ?_⟩
  · rw [hpass]
    exact hp.worked
  · rw [hpass]
    cases found with
    | none => rfl
    | some y =>
      obtain ⟨d, x⟩ := y
      obtain ⟨hx, hb⟩ := (spots_bounds s).1 x (mem_of_sequence hsequence)
      exact rewritten_insertion d hx hb

end Insertion

end PointMutation
