import PointMutation.Proofs.Insertion.Chances
import PointMutation.Proofs.Mutator.Commits
import PointMutation.Proofs.Walk.Watching

/-!
# The counters of an insertion

An insertion counts how deep it is and how many lines it has drawn at. Before it has worked, a line
is left as it was entered. From the line at which it works on, lines are entered only, so that the
depth is too great by one for each of those behind it (`Leaves`).

The depth is never made less than zero: what lies within something is never left less deep than it
was entered, also if the walk fails there (`Counts`).
-/

namespace PointMutation

namespace Insertion

open Outline (Spot)
open Fold (Sight Watches)

/-! ## Lines one after the other -/

/-- The machine within something that it has entered. -/
def deeper (m : Insertion) : Insertion := { m with traversal := m.traversal.enter }

/-- The machine behind a line at which it has drawn a declaration and then a coin. -/
def tossed (m : Insertion) (r : RandomSource) : Insertion :=
  { m with
    random := (r.chance m.probability).2
    traversal :=
      if (r.chance m.probability).1 then m.traversal.visit.work else m.traversal.visit }

theorem deeper_tossed (m : Insertion) (r : RandomSource) :
    (m.tossed r).deeper = m.deeper.tossed r := by
  cases hcoin : (r.chance m.probability).1 <;>
    simp [tossed, deeper, hcoin, Traversal.enter, Traversal.visit, Traversal.work]

/-- How a machine comes past lines without failing. -/
inductive Leaves : List Spot → Insertion → Insertion → Prop
  | nil (m : Insertion) : Leaves [] m m
  /-- A line behind the one at which the machine has worked is entered and not left. -/
  | behind {x : Spot} {xs : List Spot} {m m' : Insertion} (hworked : m.traversal.worked = true)
    (hrest : Leaves xs m.deeper m') : Leaves (x :: xs) m m'
  | leading {x : Spot} {xs : List Spot} {m m' : Insertion} (hworked : m.traversal.worked = false)
    (hx : isFree x = false) (hrest : Leaves xs m m') : Leaves (x :: xs) m m'
  | drawn {x : Spot} {xs : List Spot} {m m' : Insertion} {d : Declaration} {r : RandomSource}
    (hworked : m.traversal.worked = false) (hx : isFree x = true)
    (hdraw : Declaration.draw m.pattern m.random = (.ok d, r))
    (hrest : Leaves xs (m.tossed r) m') : Leaves (x :: xs) m m'

namespace Leaves

variable {xs ys : List Spot} {m m' m'' : Insertion}

theorem append (h : Leaves xs m m') (h' : Leaves ys m' m'') : Leaves (xs ++ ys) m m'' := by
  induction h with
  | nil => exact h'
  | behind hworked _ ih => exact .behind hworked (ih h')
  | leading hworked hx _ ih => exact .leading hworked hx (ih h')
  | drawn hworked hx hdraw _ ih => exact .drawn hworked hx hdraw (ih h')

/-- Within something the machine comes past lines as it does outside. -/
theorem of_deeper (h : Leaves xs m.deeper m'') : ∃ m', m'' = m'.deeper ∧ Leaves xs m m' := by
  generalize hm : m.deeper = n at h
  induction h generalizing m with
  | nil => exact ⟨m, hm.symm, .nil m⟩
  | behind hworked _ ih =>
    subst hm
    obtain ⟨m', rfl, hrest⟩ := ih rfl
    exact ⟨m', rfl, .behind hworked hrest⟩
  | leading hworked hx _ ih =>
    subst hm
    obtain ⟨m', rfl, hrest⟩ := ih rfl
    exact ⟨m', rfl, .leading hworked hx hrest⟩
  | @drawn _ _ _ _ d r hworked hx hdraw _ ih =>
    subst hm
    obtain ⟨m', rfl, hrest⟩ := ih (deeper_tossed m r)
    exact ⟨m', rfl, .drawn hworked hx hdraw hrest⟩

/-- A machine that has worked becomes deeper by one at each line. -/
theorem of_worked (h : Leaves xs m m') (hworked : m.traversal.worked = true) :
    m'.traversal = ⟨m.traversal.depth + xs.length, m.traversal.visited, true⟩ := by
  induction h with
  | nil m => rw [← hworked]; rfl
  | behind _ _ ih =>
    rw [ih hworked, List.length_cons]
    simp only [deeper, Traversal.enter]
    congr 1
    omega
  | leading hfalse _ _ _ => cases hworked.symm.trans hfalse
  | drawn hfalse _ _ _ _ => cases hworked.symm.trans hfalse

/-- A machine that does not work is as deep as before, and has seen all lines at which it may. -/
theorem of_not_worked (h : Leaves xs m m') (hworked : m'.traversal.worked = false) :
    m.traversal.worked = false ∧
      m'.traversal =
        ⟨m.traversal.depth, m.traversal.visited + (xs.filter isFree).length, false⟩ := by
  induction h with
  | nil m => exact ⟨hworked, by rw [← hworked]; rfl⟩
  | behind htrue _ ih => cases htrue.symm.trans (ih hworked).1
  | leading hfalse hx _ ih =>
    rw [List.filter_cons_of_neg (by rw [hx]; exact Bool.false_ne_true)]
    exact ⟨hfalse, (ih hworked).2⟩
  | @drawn _ _ m _ d r hfalse hx _ _ ih =>
    obtain ⟨hvain, hcounts⟩ := ih hworked
    have hcoin : (r.chance m.probability).1 = false := by
      by_contra hcoin
      simp only [tossed, if_pos (Bool.eq_true_of_not_eq_false hcoin)] at hvain
      cases hvain
    refine ⟨hfalse, hcounts.trans ?_⟩
    rw [List.filter_cons_of_pos hx, List.length_cons]
    simp only [tossed, hcoin, Bool.false_eq_true, if_false, Traversal.visit]
    congr 1
    omega

/-- A machine that works has drawn in vain before that, and draws nothing behind it. -/
theorem of_works (h : Leaves xs m m') (hworked : m.traversal.worked = false)
    (hworked' : m'.traversal.worked = true) :
    ∃ before x rest d r r', xs = before ++ x :: rest ∧ isFree x = true ∧
      sequence m.pattern m.probability (before.filter isFree) m.random = (.ok none, r) ∧
      sequence m.pattern m.probability [x] r = (.ok (some (d, x)), r') ∧
      m'.traversal = ⟨m.traversal.depth + rest.length,
        m.traversal.visited + ((before.filter isFree).length + 1), true⟩ := by
  induction h with
  | nil => cases hworked.symm.trans hworked'
  | behind htrue _ _ => cases hworked.symm.trans htrue
  | @leading y _ _ _ _ hy _ ih =>
    obtain ⟨before, x, rest, d, r, r', rfl, hx, hvain, hline, hcounts⟩ := ih hworked hworked'
    have hfilter : (y :: before).filter isFree = before.filter isFree :=
      List.filter_cons_of_neg (by rw [hy]; exact Bool.false_ne_true)
    exact ⟨y :: before, x, rest, d, r, r', rfl, hx, hfilter ▸ hvain, hline, hfilter ▸ hcounts⟩
  | @drawn y ys m _ d₁ r₁ _ hy hdraw hrest ih =>
    by_cases hcoin : (r₁.chance m.probability).1 = true
    · have hcounts := hrest.of_worked (by simp only [tossed, if_pos hcoin]; rfl)
      simp only [tossed, if_pos hcoin] at hcounts
      exact ⟨[], y, ys, d₁, m.random, _, rfl, hy, rfl, sequence_of_success hdraw hcoin y [],
        hcounts⟩
    · have hfalse : (m.tossed r₁).traversal.worked = false := by
        simp only [tossed, if_neg hcoin]
        exact hworked
      obtain ⟨before, x, rest, d, r, r', rfl, hx, hvain, hline, hcounts⟩ := ih hfalse hworked'
      refine ⟨y :: before, x, rest, d, r, r', rfl, hx, ?_, hline, hcounts.trans ?_⟩
      · rw [List.filter_cons_of_pos hy, sequence_of_failure hdraw hcoin]
        exact hvain
      · rw [List.filter_cons_of_pos hy, List.length_cons]
        simp only [tossed, if_neg hcoin, Traversal.visit]
        congr 1
        omega

end Leaves

/-! ## Parts of a walk -/

/-- At a line the machine comes past it, unless it fails, and it is no less deep behind it. -/
theorem settle_leaves (x : Spot) (shown : Thunk Text) (m : Insertion) :
    m.traversal.depth ≤ (settle ⟨x.kinds, x.docstring, shown⟩ m.deeper).2.traversal.depth ∧
      ((settle ⟨x.kinds, x.docstring, shown⟩ m.deeper).1.isOk = true →
        Leaves [x] m (settle ⟨x.kinds, x.docstring, shown⟩ m.deeper).2) := by
  let l : Line := ⟨x.kinds, x.docstring, shown⟩
  have hfree : isFree x = !isLeading l := rfl
  show m.traversal.depth ≤ (settle l m.deeper).2.traversal.depth ∧
    ((settle l m.deeper).1.isOk = true → Leaves [x] m (settle l m.deeper).2)
  cases hworked : m.traversal.worked with
  | true =>
    rw [settle_of_worked l (m := m.deeper) hworked]
    exact ⟨Nat.le_succ _, fun _ => .behind hworked (.nil _)⟩
  | false =>
    cases hl : isLeading l with
    | true =>
      rw [settle_of_isLeading (m := m.deeper) hworked hl]
      exact ⟨Nat.le_refl _, fun _ => .leading hworked (by rw [hfree, hl]; rfl) (.nil m)⟩
    | false =>
      rcases draw_cases { m.deeper with traversal := m.deeper.traversal.leave.visit } with
        ⟨d, s, r, hdraw, hs⟩ | ⟨e, m', hdraw, hm'⟩
      · have htossed : (settle l m.deeper).2 = m.tossed r := by
          rw [settle_of_draw (m := m.deeper) hworked hl hdraw hs, tossed]
          by_cases hcoin : (r.chance m.probability).1 = true
          · rw [if_pos (by exact hcoin), if_pos hcoin]
            rfl
          · rw [if_neg (by exact hcoin), if_neg hcoin]
            rfl
        rw [htossed]
        refine ⟨?_, fun _ => .drawn hworked (by rw [hfree, hl]; rfl) hdraw (.nil _)⟩
        rw [tossed]
        split <;> exact Nat.le_refl _
      · rw [settle_of_draw_error (m := m.deeper) hworked hl hdraw, hm']
        exact ⟨Nat.le_refl _, fun hok => by cases hok⟩

/-- Where the depth is made less by one, it is not zero. -/
def Spared (c : Sight Insertion) : Prop :=
  match c.event with
  | .leave (.compound _) => 0 < c.state.traversal.depth
  | .leave (.line _ _) => c.state.traversal.worked = false → 0 < c.state.traversal.depth
  | _ => True

/-- The line that is left. -/
def lineLeft (c : Sight Insertion) : Option (List Kind × Bool) :=
  match c.event with
  | .leave (.line kinds docstring) => some (kinds, docstring)
  | _ => none

/-- The law of a part of a walk in which some lines are left. -/
structure Counts (xs : List Spot) (m : Insertion) (ok : Bool) (seen : List (Sight Insertion))
    (m' : Insertion) : Prop where
  spared : ∀ c ∈ seen, Spared c
  depth : m.traversal.depth ≤ m'.traversal.depth
  leaves : ok = true → Leaves xs m m'
  told : ok = true → seen.filterMap lineLeft = xs.map fun x => (x.kinds, x.docstring)

namespace Counts

variable {xs ys : List Spot} {m m₁ m' : Insertion} {ok : Bool} {seen seen' : List (Sight Insertion)}

theorem nil (m : Insertion) : Counts [] m true [] m :=
  ⟨by simp, Nat.le_refl _, fun _ => .nil m, fun _ => rfl⟩

theorem append (h : Counts xs m true seen m₁) (h' : Counts ys m₁ ok seen' m') :
    Counts (xs ++ ys) m ok (seen ++ seen') m' where
  spared c hc := (List.mem_append.mp hc).elim (h.spared c) (h'.spared c)
  depth := Nat.le_trans h.depth h'.depth
  leaves hok := (h.leaves rfl).append (h'.leaves hok)
  told hok := by rw [List.filterMap_append, List.map_append, h.told rfl, h'.told hok]

/-- A part that fails is the end of the walk. -/
theorem failed (h : Counts xs m false seen m') (zs : List Spot) : Counts zs m false seen m' :=
  ⟨h.spared, h.depth, fun hok => (by cases hok), fun hok => (by cases hok)⟩

/-- Something that is neither a compound statement nor a line. -/
theorem skip {c : Sight Insertion} (hspared : Spared c) (hline : lineLeft c = none)
    (m : Insertion) : Counts [] m true [c] m :=
  ⟨by simpa using hspared, Nat.le_refl _, fun _ => .nil m, fun _ => by simp [hline]⟩

/-- A compound statement around lines, which is left also if the walk has failed. -/
theorem compound {kind : Kind} (h : Counts xs m.deeper ok seen m₁) :
    Counts xs m ok (⟨.enter (.compound kind), m⟩ :: (seen ++ [⟨.leave (.compound kind), m₁⟩]))
      { m₁ with traversal := m₁.traversal.leave } := by
  have hdepth : m.traversal.depth + 1 ≤ m₁.traversal.depth := h.depth
  refine ⟨fun c hc => ?_, ?_, fun hok => ?_, fun hok => ?_⟩
  · rcases List.mem_cons.mp hc with rfl | hc
    · trivial
    rcases List.mem_append.mp hc with hc | hc
    · exact h.spared c hc
    · rw [List.mem_singleton.mp hc]
      exact Nat.lt_of_lt_of_le (Nat.succ_pos _) hdepth
  · exact Nat.le_sub_one_of_lt hdepth
  · obtain ⟨m', rfl, hleaves⟩ := (h.leaves hok).of_deeper
    exact hleaves
  · rw [List.filterMap_cons_none rfl, List.filterMap_append, h.told hok]
    exact List.append_nil _

/-- A line around what lies in it, up to where it is left. -/
theorem line {x : Spot} {shown : Thunk Text} (h : Counts xs m.deeper true seen m₁) :
    Counts (xs ++ [x]) m (settle ⟨x.kinds, x.docstring, shown⟩ m₁).1.isOk
      (⟨.enter (.line x.kinds x.docstring), m⟩ ::
        (seen ++ [⟨.leave (.line x.kinds x.docstring), m₁⟩]))
      (settle ⟨x.kinds, x.docstring, shown⟩ m₁).2 := by
  obtain ⟨m', rfl, hleaves⟩ := (h.leaves rfl).of_deeper
  have hdepth : m.traversal.depth ≤ m'.traversal.depth := Nat.le_of_succ_le_succ h.depth
  obtain ⟨hle, hleave⟩ := settle_leaves x shown m'
  refine ⟨fun c hc => ?_, Nat.le_trans hdepth hle, fun hok => hleaves.append (hleave hok),
    fun _ => ?_⟩
  · rcases List.mem_cons.mp hc with rfl | hc
    · trivial
    rcases List.mem_append.mp hc with hc | hc
    · exact h.spared c hc
    · rw [List.mem_singleton.mp hc]
      exact fun _ => Nat.succ_pos _
  · rw [List.filterMap_cons_none rfl, List.filterMap_append, h.told rfl, List.map_append]
    rfl

/-- A line in which the walk has failed stays entered. -/
theorem openLine {x : Spot} (h : Counts xs m.deeper false seen m') :
    Counts (xs ++ [x]) m false (⟨.enter (.line x.kinds x.docstring), m⟩ :: seen) m' :=
  ⟨List.forall_mem_cons.mpr ⟨trivial, h.spared⟩, Nat.le_of_succ_le h.depth,
    fun hok => (by cases hok), fun hok => (by cases hok)⟩

/-- A value is left behind lines. -/
theorem value (site : Site) (h : Counts xs m ok seen m') :
    Counts xs m ok (seen ++ [⟨.leave (.value site), m'⟩]) m' where
  spared := List.forall_mem_append.mpr ⟨h.spared, List.forall_mem_singleton.mpr trivial⟩
  depth := h.depth
  leaves := h.leaves
  told hok := by
    rw [List.filterMap_append, h.told hok]
    exact List.append_nil _

end Counts

section

variable {source newline : Text} {α β : Type} {xs ys : List Spot}
  {w : Fold.Walk (Insertion × List (Sight Insertion)) α} {w' : Fold.Walk Insertion α}
  {k : α → Fold.Walk (Insertion × List (Sight Insertion)) β} {k' : α → Fold.Walk Insertion β}

/-- A part of a walk keeps to the law. -/
def Counted (xs : List Spot) (w : Fold.Walk (Insertion × List (Sight Insertion)) α)
    (w' : Fold.Walk Insertion α) : Prop := Watches (Counts xs) w w'

/-- The law of a part of a walk right behind an event at which something is entered. -/
def Inside (e : Fold.Event) (xs : List Spot) : Fold.Law Insertion :=
  fun n ok seen m' => ∀ m, n = m.deeper → Counts xs m ok (⟨e, m⟩ :: seen) m'

/-- The law of a part of a walk in which nothing is heard and that does not fail. -/
def Quiet : Fold.Law Insertion := fun m ok seen m' => ok = true ∧ seen = [] ∧ m' = m

/-- The law of what is done where a line is left. -/
def Leaving (x : Spot) : Fold.Law Insertion := fun m ok seen m' =>
  ∃ shown, ok = (settle ⟨x.kinds, x.docstring, shown⟩ m).1.isOk ∧
    seen = [⟨.leave (.line x.kinds x.docstring), m⟩] ∧
    m' = (settle ⟨x.kinds, x.docstring, shown⟩ m).2

namespace Counted

theorem pure (a : α) : Counted [] (Pure.pure a) (Pure.pure a : Fold.Walk Insertion α) :=
  Watches.pure .nil

theorem shown (start stop : Nat) :
    Counted [] (Fold.shown source start stop) (Fold.shown source start stop) :=
  Watches.shown source start stop .nil

theorem edit (e : Edit) : Counted [] (Fold.edit e) (Fold.edit e) := Watches.edit e .nil

/-- Lines in one part of a walk and lines in the next one. -/
theorem bind (h : Counted xs w w') (hk : ∀ a, Counted ys (k a) (k' a)) :
    Counted (xs ++ ys) (w >>= k) (w' >>= k') :=
  Watches.bind h hk (fun _ _ _ _ _ _ => Counts.append) fun _ _ _ h => h.failed _

/-- A part of a walk behind which no line is left. -/
theorem bindNil (h : Counted xs w w') (hk : ∀ a, Counted [] (k a) (k' a)) :
    Counted xs (w >>= k) (w' >>= k') := by
  have hbind := bind h hk
  rwa [List.append_nil] at hbind

/-- A part of a walk in front of which no line is left. -/
theorem nilBind (h : Counted [] w w') (hk : ∀ a, Counted xs (k a) (k' a)) :
    Counted xs (w >>= k) (w' >>= k') :=
  bind h hk

/-- Something is entered in front of a part of a walk. -/
theorem enter {e : Fold.Event} {act : StateM Insertion Unit} (hact : ∀ m, (act m).2 = m.deeper)
    (h : Watches (Inside e xs) w w') :
    Counted xs (Fold.tell (Fold.watchTold e act) >>= fun _ => w)
      (Fold.tell act >>= fun _ => w') :=
  Watches.bind (L := fun m ok seen m' => ok = true ∧ seen = [⟨e, m⟩] ∧ m' = m.deeper)
    (.tell fun m => ⟨rfl, rfl, hact m⟩) (fun _ => h)
    (by
      rintro m n m' ok seen seen' ⟨-, rfl, hn⟩ hinside
      exact hinside m hn)
    (by
      rintro m n seen ⟨hok, -, -⟩
      cases hok)

/-- A compound statement around a part of a walk. -/
theorem compound (kind : Kind) (h : Counted xs w w') :
    Counted xs
      (Fold.tell (fold.watching.enterCompound kind) >>= fun _ =>
        Fold.andTell w (fold.watching.leaveCompound kind) >>= fun _ =>
          (Pure.pure none : Fold.Walk _ (Option Edit)))
      (Fold.tell (fold.enterCompound kind) >>= fun _ =>
        Fold.andTell w' (fold.leaveCompound kind) >>= fun _ => Pure.pure none) := by
  refine enter (fun _ => rfl) ?_
  refine Watches.bind (L := Inside (.enter (.compound kind)) xs) (M := Counts []) ?_
    (fun _ => pure none) (fun n m₁ m' ok seen seen' h h' m hm => ?_) fun n m' seen h => h
  · refine Watches.andTell h fun n ok seen m₁ hcounts m hm => ?_
    subst hm
    exact hcounts.compound
  · have happend := (h m hm).append h'
    rwa [List.append_nil] at happend

/-- An expression is not replaced. -/
theorem askNothing (e : Expression) :
    Counted [] (Fold.ask (fold.watching.leaveExpression e)) (Fold.ask (fold.leaveExpression e)) :=
  Watches.ask fun m => .skip (c := ⟨.expression e.kind, m⟩) trivial rfl m

theorem enterValue (site : Site) :
    Counted [] (Fold.tell (fold.watching.enterValue site)) (Fold.tell (fold.enterValue site)) :=
  Watches.tell fun m => .skip (c := ⟨.enter (.value site), m⟩) trivial rfl m

/-- A value is left behind a part of a walk. -/
theorem value (site : Site) (h : Counted xs w w') :
    Counted xs (Fold.andTell w (fold.watching.leaveValue site))
      (Fold.andTell w' (fold.leaveValue site)) :=
  Watches.andTell h fun _ _ _ _ hcounts => hcounts.value site

/-- What is done where a line is left. -/
theorem leaving (x : Spot) :
    Watches (Leaving x)
      (Fold.shown source x.start x.stop >>= fun shown =>
        Fold.ask (fold.watching.leaveLine ⟨x.kinds, x.docstring, shown⟩) >>=
          Fold.settle source newline x.start x.stop)
      (Fold.shown source x.start x.stop >>= fun shown =>
        Fold.ask (fold.leaveLine ⟨x.kinds, x.docstring, shown⟩) >>=
          Fold.settle source newline x.start x.stop) := by
  refine Watches.bind (L := Quiet) (M := Leaving x)
    (.shown source x.start x.stop fun m => ⟨rfl, rfl, rfl⟩)
    (fun shown => ?_) ?_ ?_
  · refine Watches.bind (L := Leaving x) (M := Quiet) (.ask fun m => ⟨shown, rfl, rfl, rfl⟩)
      (fun answer => .settle source newline x.start x.stop answer fun m => ⟨rfl, rfl, rfl⟩) ?_
      fun m m' seen h => h
    rintro m m₁ _ _ seen _ h ⟨rfl, rfl, rfl⟩
    rwa [List.append_nil]
  · rintro m _ m' ok _ seen ⟨-, rfl, rfl⟩ h
    exact h
  · rintro m _ _ ⟨hok, -, -⟩
    cases hok

/-- A line around a part of a walk. -/
theorem line (x : Spot) (first : Thunk Text) (h : Counted xs w w') :
    Counted (xs ++ [x])
      (Fold.tell (fold.watching.enterLine ⟨x.kinds, x.docstring, first⟩) >>= fun _ =>
        w >>= fun _ => Fold.shown source x.start x.stop >>= fun shown =>
          Fold.ask (fold.watching.leaveLine ⟨x.kinds, x.docstring, shown⟩) >>=
            Fold.settle source newline x.start x.stop)
      (Fold.tell (fold.enterLine ⟨x.kinds, x.docstring, first⟩) >>= fun _ =>
        w' >>= fun _ => Fold.shown source x.start x.stop >>= fun shown =>
          Fold.ask (fold.leaveLine ⟨x.kinds, x.docstring, shown⟩) >>=
            Fold.settle source newline x.start x.stop) := by
  refine enter (fun _ => rfl) ?_
  refine Watches.bind h (fun _ => leaving x) (fun n m₁ m' ok seen seen' hcounts hleaving m hm => ?_)
    fun n m' seen hcounts m hm => ?_
  · subst hm
    obtain ⟨shown, rfl, rfl, rfl⟩ := hleaving
    exact hcounts.line
  · subst hm
    exact hcounts.openLine

end Counted

mutual

theorem walk_counted (o : Outline) :
    Counted o.spots (Fold.walk fold.watching source newline o)
      (Fold.walk fold source newline o) := by
  cases o with
  | expression kind start stop inner =>
    rw [Fold.walk, Fold.walk, Outline.spots]
    refine .bindNil (walkAll_counted inner) fun _ => .bindNil (.shown start stop) fun shown => ?_
    refine .bindNil (.askNothing ⟨kind, shown⟩) fun answer => ?_
    cases answer with
    | none => exact .bindNil (.pure ()) fun _ => .pure none
    | some text => exact .bindNil (.edit _) fun _ => .pure none
  | value site inner =>
    rw [Fold.walk, Fold.walk, Outline.spots]
    refine .nilBind (.enterValue site) fun _ => ?_
    exact .bindNil (.value site (walk_counted inner)) fun _ => .pure none
  | line kinds docstring start stop inner =>
    rw [Fold.walk, Fold.walk, Outline.spots]
    refine .nilBind (.shown start stop) fun first => ?_
    exact .line ⟨kinds, docstring, start, stop⟩ first (walkAll_counted inner)
  | compound kind inner =>
    rw [Fold.walk, Fold.walk, Outline.spots]
    exact .compound kind (walkAll_counted inner)
  | block items =>
    rw [Fold.walk, Fold.walk, Outline.spots]
    refine .bindNil (walkAll_counted items) fun es => ?_
    cases Fold.allGone es with
    | none => exact .bindNil (.pure ()) fun _ => .pure none
    | some pass => exact .bindNil (.edit pass) fun _ => .pure none
  | group inner =>
    rw [Fold.walk, Fold.walk, Outline.spots]
    exact .bindNil (walkAll_counted inner) fun _ => .pure none

theorem walkAll_counted (os : List Outline) :
    Counted (Outline.spotsAll os) (Fold.walkAll fold.watching source newline os)
      (Fold.walkAll fold source newline os) := by
  cases os with
  | nil =>
    rw [Fold.walkAll, Fold.walkAll, Outline.spotsAll]
    exact .pure []
  | cons o os =>
    rw [Fold.walkAll, Fold.walkAll, Outline.spotsAll]
    exact .bind (walk_counted o) fun e => .bindNil (walkAll_counted os) fun es => .pure (e :: es)

end

end

/-! ## Passes -/

/-- The lines that a walk offers, in their order. -/
def offered (s : Source) : List Spot := Outline.spotsAll (Outline.ofSource s)

theorem spots_eq (s : Source) : spots s = (offered s).filter isFree := rfl

theorem isOk_map {ε α β : Type} (x : Except ε α) (f : α → β) : (x.map f).isOk = x.isOk := by
  cases x <;> rfl

/-- What is seen of a pass. -/
theorem pass_counts (s : Source) (m : Insertion) :
    ∃ seen, Fold.edits fold.watching s.text s.newline (Outline.ofSource s) (m, []) =
        ((Fold.edits fold s.text s.newline (Outline.ofSource s) m).1,
          ((Machine.pass s m).2, seen)) ∧
      Counts (offered s) m (Fold.edits fold s.text s.newline (Outline.ofSource s) m).1.isOk seen
        (Machine.pass s m).2 := by
  have hcounted : Counted (Outline.spotsAll (Outline.ofSource s))
      (Fold.walkAll fold.watching s.text s.newline (Outline.ofSource s))
      (Fold.walkAll fold s.text s.newline (Outline.ofSource s)) := walkAll_counted _
  obtain ⟨seen, hwalk, hcounts⟩ := hcounted ⟨m, []⟩ []
  refine ⟨seen, ?_, ?_⟩
  · have hwalk : Fold.walkAll fold.watching s.text s.newline (Outline.ofSource s) ⟨(m, []), []⟩ = _ :=
      hwalk
    simp only [Fold.edits, hwalk, List.nil_append]
    rfl
  · have hok : (Fold.edits fold s.text s.newline (Outline.ofSource s) m).1.isOk =
        (Fold.walkAll fold s.text s.newline (Outline.ofSource s) ⟨m, []⟩).1.isOk :=
      isOk_map _ _
    rw [hok]
    exact hcounts

/-- A pass that gives a source has made its edits. -/
theorem edits_of_pass {s s' : Source} {m : Insertion} (h : (Machine.pass s m).1 = .ok s') :
    (Fold.edits fold s.text s.newline (Outline.ofSource s) m).1.isOk = true := by
  have hpass : ((Fold.edits fold s.text s.newline (Outline.ofSource s) m).1.bind
      (Fold.rewritten s)) = .ok s' := h
  cases hedits : (Fold.edits fold s.text s.newline (Outline.ofSource s) m).1 with
  | ok es => rfl
  | error e =>
    rw [hedits] at hpass
    cases hpass

/-- A pass in vain leaves the depth as it was. -/
theorem traversal_of_vain {s s' : Source} {m : Insertion} (h : (Machine.pass s m).1 = .ok s')
    (hvain : Machine.worked (Machine.pass s m).2 = false) :
    (Machine.pass s m).2.traversal =
      ⟨m.traversal.depth, m.traversal.visited + (spots s).length, false⟩ := by
  obtain ⟨seen, -, hcounts⟩ := pass_counts s m
  exact ((hcounts.leaves (edits_of_pass h)).of_not_worked hvain).2

/-- A pass of a machine that has worked before makes it deeper by one at each line. -/
theorem traversal_of_worked {s : Source} {m : Insertion} (h : m.traversal.worked = true) :
    (Machine.pass s m).2.traversal =
      ⟨m.traversal.depth + (offered s).length, m.traversal.visited, true⟩ := by
  obtain ⟨hpass, -⟩ := (idles m.random).run s ⟨h, rfl⟩
  obtain ⟨seen, -, hcounts⟩ := pass_counts s m
  exact (hcounts.leaves (edits_of_pass hpass)).of_worked h

theorem nameLength_of_draw {p : Declaration.Pattern} {r r' : RandomSource} {d : Declaration}
    (h : Declaration.draw p r = (.ok d, r')) : p.nameLength ≠ 0 := by
  intro hzero
  obtain ⟨length, kinds, annotated⟩ := p
  cases hzero
  have herror : (Declaration.draw ⟨0, kinds, annotated⟩ r).1 = .error (.invalidLength 0) := rfl
  rw [h] at herror
  cases herror

/-- A pass that works leaves the lines behind the one at which it does entered. -/
theorem traversal_of_works {s : Source} {m : Insertion} (h : m.traversal.worked = false)
    (hworked : Machine.worked (Machine.pass s m).2 = true) :
    ∃ k before x rest, WorksAt s m k ∧ offered s = before ++ x :: rest ∧ isFree x = true ∧
      (before.filter isFree).length = k ∧
      (Machine.pass s m).2.traversal =
        ⟨m.traversal.depth + rest.length, m.traversal.visited + (k + 1), true⟩ := by
  obtain ⟨seen, -, hcounts⟩ := pass_counts s m
  obtain ⟨es, hedits, -⟩ : ∃ es,
      (Fold.edits fold s.text s.newline (Outline.ofSource s) m).1 = .ok es ∧ es ≠ [] :=
    (flags_fold.edits (Outline.ofSource s) h).mp hworked
  obtain ⟨before, x, rest, d, r, r', hoffered, hx, hvain, hline, htraversal⟩ :=
    (hcounts.leaves (by rw [hedits]; rfl)).of_works h hworked
  have hspots : spots s = before.filter isFree ++ x :: rest.filter isFree := by
    rw [spots_eq, hoffered, List.filter_append, List.filter_cons_of_pos hx]
  obtain ⟨d', r₁, hdraw, -⟩ := sequence_cases hline
  have hd : Declares m.pattern := declares_of_nameLength (nameLength_of_draw hdraw)
  have htake : (spots s).take (before.filter isFree).length = before.filter isFree := by
    rw [hspots, List.take_left']
    rfl
  have hget : (spots s)[(before.filter isFree).length]? = some x := by
    rw [hspots, List.getElem?_append_right (Nat.le_refl _), Nat.sub_self]
    rfl
  obtain ⟨hworks, -⟩ := worksAt_of_sequence hd h hget (by rw [htake]; exact hvain) hline
  exact ⟨_, before, x, rest, hworks, hoffered, hx, rfl, htraversal⟩

/-! ## Runs -/

/-- Passes in vain leave the depth as it was. -/
theorem traversal_of_idle {s : Source} {k : Nat} {m m' : Insertion} (h : Machine.Idle s k m m')
    (hworked : m.traversal.worked = false) :
    m'.traversal =
      ⟨m.traversal.depth, m.traversal.visited + k * (spots s).length, false⟩ := by
  induction h with
  | none m =>
    rw [Nat.zero_mul, ← hworked]
    rfl
  | @more k m m₁ m' s' hpass hvain _ ih =>
    have hanswer : (Machine.pass s m).1 = .ok s' := by rw [hpass]
    have htraversal := traversal_of_vain hanswer (by rw [hpass]; exact hvain)
    rw [hpass] at htraversal
    rw [ih hvain, htraversal, Nat.succ_mul, Nat.add_comm (k * _), ← Nat.add_assoc]

/-- A run that does not fail ends at depth zero. -/
theorem depth_of_run {s : Source} {n : Nat} {m m' : Insertion} {o : Outcome}
    (h : Machine.run n s m = (.ok o, m')) : m'.traversal.depth = 0 := by
  have hends := Machine.run_ends n s m
  rw [h] at hends
  cases hends with
  | spent hidle => rw [traversal_of_idle hidle rfl]; rfl
  | worked _ _ _ _ => rfl

/-- The counters behind a pass. If the machine has worked before, it is deeper by one for each line
that the walk offers, and has seen nothing. If it does not work and does not fail, it is as deep as
before and has seen each line that need not stay first. If it works at a line, it is deeper by one
for each line behind that one, and has seen the lines up to it that need not stay first. On the way
the depth is made less by one only where it is not zero. So behind any number of passes of a run
that are in vain it is zero, and behind a run that does not fail too. -/
theorem counters_exact (s : Source) (m : Insertion) :
    (m.traversal.worked = true → (Machine.pass s m).2.traversal =
      ⟨m.traversal.depth + (offered s).length, m.traversal.visited, true⟩) ∧
    (m.traversal.worked = false → Machine.worked (Machine.pass s m).2 = false →
      (∃ s', (Machine.pass s m).1 = .ok s') → (Machine.pass s m).2.traversal =
        ⟨m.traversal.depth, m.traversal.visited + ((offered s).filter isFree).length, false⟩) ∧
    (m.traversal.worked = false →
      (Machine.worked (Machine.pass s m).2 = true ↔ ∃ k, WorksAt s m k) ∧
      ∀ k, WorksAt s m k → ∃ before x rest, offered s = before ++ x :: rest ∧ isFree x = true ∧
        (before.filter isFree).length = k ∧ (Machine.pass s m).2.traversal =
          ⟨m.traversal.depth + rest.length, m.traversal.visited + (k + 1), true⟩) ∧
    (∃ seen, Fold.edits fold.watching s.text s.newline (Outline.ofSource s) (m, []) =
        ((Fold.edits fold s.text s.newline (Outline.ofSource s) m).1,
          ((Machine.pass s m).2, seen)) ∧
      (∀ c ∈ seen, Spared c) ∧
      ((Fold.edits fold s.text s.newline (Outline.ofSource s) m).1.isOk = true →
        seen.filterMap lineLeft = (offered s).map fun x => (x.kinds, x.docstring))) ∧
    (∀ k m', Machine.Idle s k (Machine.reset m) m' →
      m'.traversal = ⟨0, k * ((offered s).filter isFree).length, false⟩) ∧
    ∀ n o m', Machine.run n s m = (.ok o, m') → m'.traversal.depth = 0 := by
  refine ⟨traversal_of_worked, fun _ hvain ⟨s', hpass⟩ => traversal_of_vain hpass hvain,
    fun h => ⟨⟨fun hworked => ?_, fun ⟨k, hk⟩ => hk.worked⟩, fun k hk => ?_⟩, ?_,
    fun k m' hidle => ?_, fun n o m' hrun => depth_of_run hrun⟩
  · obtain ⟨k, -, -, -, hk, -⟩ := traversal_of_works h hworked
    exact ⟨k, hk⟩
  · obtain ⟨k', before, x, rest, hk', hoffered, hx, hlength, htraversal⟩ :=
      traversal_of_works h hk.worked
    obtain rfl := hk.unique hk'
    exact ⟨before, x, rest, hoffered, hx, hlength, htraversal⟩
  · obtain ⟨seen, hedits, hcounts⟩ := pass_counts s m
    exact ⟨seen, hedits, hcounts.spared, hcounts.told⟩
  · rw [traversal_of_idle hidle rfl, spots_eq]
    exact congrArg (fun n => (⟨0, n, false⟩ : Traversal)) (Nat.zero_add _)

/-- A quotation and two lines, one of them in a body. -/
theorem counters_exact_of_body :
    ∃ (s : Source) (sure never : Insertion), s.text = "'d'\nif a:\n    x = 1\ny = x\n".toList ∧
      sure.traversal = ⟨3, 5, false⟩ ∧ never.traversal = ⟨3, 5, false⟩ ∧
      (Machine.pass s { sure with traversal := ⟨3, 5, true⟩ }).2.traversal = ⟨6, 5, true⟩ ∧
      (Machine.pass s never).2.traversal = ⟨3, 7, false⟩ ∧
      (∃ before x rest, offered s = before ++ x :: rest ∧ isFree x = true ∧
        (before.filter isFree).length = 0 ∧
        (Machine.pass s sure).2.traversal = ⟨3 + rest.length, 6, true⟩) ∧
      ∃ o m', Machine.run 2 s never = (.ok o, m') ∧ m'.traversal.depth = 0 := by
  let sure : Insertion := ⟨.ofInt 1, ⟨1, [.int], false⟩, .seeded 0, ⟨3, 5, false⟩, 0⟩
  let never : Insertion := ⟨.zero, ⟨1, [.int], false⟩, .seeded 0, ⟨3, 5, false⟩, 0⟩
  obtain ⟨s, hs, hvalue⟩ := Source.exists_of_map (t := "'d'\nif a:\n    x = 1\ny = x\n".toList)
    (f := fun s => ((offered s).length, ((offered s).filter isFree).length,
      (Machine.pass s sure).2.traversal, Machine.worked (Machine.pass s never).2,
      (Machine.pass s never).1.isOk && (Machine.run 2 s never).1.isOk))
    (a := (3, 2, ⟨4, 6, true⟩, false, true)) (by decide +kernel)
  simp only [Prod.mk.injEq, Bool.and_eq_true] at hvalue
  obtain ⟨hoffered, hfree, hsure, hvain, hok, hrun⟩ := hvalue
  obtain ⟨hbehind, -, -, -, -, -⟩ := counters_exact s { sure with traversal := ⟨3, 5, true⟩ }
  obtain ⟨-, -, hworks, -, -, -⟩ := counters_exact s sure
  obtain ⟨-, hnever, -, -, -, hruns⟩ := counters_exact s never
  have hanswer : ∀ {α : Type} {x : Except Fault α}, x.isOk = true → ∃ a, x = .ok a := by
    rintro α (e | a) h
    · cases h
    · exact ⟨a, rfl⟩
  obtain ⟨o, hrun⟩ := hanswer hrun
  refine ⟨s, sure, never, hs, rfl, rfl, ?_, ?_, ?_, o, _, Prod.ext hrun rfl,
    hruns 2 o _ (Prod.ext hrun rfl)⟩
  · rw [hbehind rfl, hoffered]
  · rw [hnever rfl hvain (hanswer hok), hfree]
  · obtain ⟨hiff, hcounts⟩ := hworks rfl
    obtain ⟨k, hk⟩ := hiff.mp (congrArg Traversal.worked hsure)
    obtain ⟨before, x, rest, hsplit, hx, hlength, htraversal⟩ := hcounts k hk
    have hvisited : 5 + (k + 1) = 6 :=
      congrArg Traversal.visited (htraversal.symm.trans hsure)
    obtain rfl : k = 0 := by omega
    exact ⟨before, x, rest, hsplit, hx, hlength, htraversal⟩

end Insertion

end PointMutation
