import PointMutation.Proofs.Nesting.Within
import PointMutation.Proofs.Removal.Reference

/-!
# Bodies that lose all their lines

A walk through a source comes by the bodies that `Tree.bodiesWithin` lists. The lines that make room
for `pass` are the first ones of those of them that begin behind the row of their header, hold
simple statements only and lose all their lines (`Outline.vacatedAll_ofSource`).
-/

namespace PointMutation

namespace Tree

mutual

/-- The bodies of a statement that is not simple. -/
def bodies : Tree → List Tree
  | .node k _ _ _ cs => if k == .decoratedDefinition then decoratedBodies cs else partBodies cs

/-- The bodies of what decorators belong to. -/
def decoratedBodies : List Tree → List Tree
  | [] => []
  | t :: ts => (if t.kind.isCompound then bodies t else []) ++ decoratedBodies ts

/-- The bodies among the parts of a statement, and those within them. -/
def partBodies : List Tree → List Tree
  | [] => []
  | .node k r a b cs :: ts =>
    (if k == .block then .node k r a b cs :: bodiesWithin cs
      else if k.isClause then partBodies cs else []) ++ partBodies ts

/-- The bodies within the statements of a file or a body. -/
def bodiesWithin : List Tree → List Tree
  | [] => []
  | t :: ts =>
    (if t.kind == .comment || t.kind.isSimple then [] else bodies t) ++ bodiesWithin ts

end

/-- A body is a block below a node. -/
def IsBodyOf (t b : Tree) : Prop := Within t b ∧ b.kind = .block

theorem IsBodyOf.child {t c b : Tree} (hc : c ∈ t.children) (h : IsBodyOf c b) : IsBodyOf t b :=
  ⟨.child hc h.1, h.2⟩

mutual

theorem isBodyOf_of_mem_bodies {t b : Tree} (h : b ∈ bodies t) : IsBodyOf t b := by
  cases t with
  | node k r s e cs =>
    have hall : ∀ u ∈ cs, u ∈ (node k r s e cs).children := fun _ hu => hu
    rw [bodies] at h
    split at h
    · obtain ⟨u, hu, hb⟩ := exists_of_mem_decoratedBodies h
      exact hb.child (hall u hu)
    · obtain ⟨u, hu, hb⟩ := exists_of_mem_partBodies h
      exact hb.child (hall u hu)

theorem exists_of_mem_decoratedBodies {ts : List Tree} {b : Tree} (h : b ∈ decoratedBodies ts) :
    ∃ t ∈ ts, IsBodyOf t b := by
  cases ts with
  | nil => cases h
  | cons t ts =>
    rw [decoratedBodies, List.mem_append] at h
    rcases h with h | h
    · split at h
      · exact ⟨t, List.mem_cons_self, isBodyOf_of_mem_bodies h⟩
      · cases h
    · obtain ⟨u, hu, hb⟩ := exists_of_mem_decoratedBodies h
      exact ⟨u, List.mem_cons_of_mem t hu, hb⟩

theorem exists_of_mem_partBodies {ts : List Tree} {b : Tree} (h : b ∈ partBodies ts) :
    ∃ t ∈ ts, IsBodyOf t b := by
  cases ts with
  | nil => cases h
  | cons t ts =>
    cases t with
    | node k r s e cs =>
      have hall : ∀ u ∈ cs, u ∈ (node k r s e cs).children := fun _ hu => hu
      rw [partBodies, List.mem_append] at h
      rcases h with h | h
      · refine ⟨_, List.mem_cons_self, ?_⟩
        split at h
        · next hk =>
          rcases List.mem_cons.mp h with rfl | h
          · exact ⟨.self _, beq_iff_eq.mp hk⟩
          · obtain ⟨u, hu, hb⟩ := exists_of_mem_bodiesWithin h
            exact hb.child (hall u hu)
        split at h
        · obtain ⟨u, hu, hb⟩ := exists_of_mem_partBodies h
          exact hb.child (hall u hu)
        · cases h
      · obtain ⟨u, hu, hb⟩ := exists_of_mem_partBodies h
        exact ⟨u, List.mem_cons_of_mem _ hu, hb⟩

theorem exists_of_mem_bodiesWithin {ts : List Tree} {b : Tree} (h : b ∈ bodiesWithin ts) :
    ∃ t ∈ ts, IsBodyOf t b := by
  cases ts with
  | nil => cases h
  | cons t ts =>
    rw [bodiesWithin, List.mem_append] at h
    rcases h with h | h
    · split at h
      · cases h
      · exact ⟨t, List.mem_cons_self, isBodyOf_of_mem_bodies h⟩
    · obtain ⟨u, hu, hb⟩ := exists_of_mem_bodiesWithin h
      exact ⟨u, List.mem_cons_of_mem t hu, hb⟩

end

end Tree

namespace Outline

open PointMutation.Tree (bodies decoratedBodies partBodies bodiesWithin)

/-! ## The lines of a body -/

/-- The lines of a body that begins behind the row of its header. -/
def bodyLines (text : Text) (b : Tree) : List Spot :=
  spotsAll (ofStatements text false none b.children)

/-- Whether nothing is left of a body when lines are gone. -/
def isEmptied (text : Text) (gone : List Spot) (b : Tree) : Bool :=
  !isInline text b.children && b.parts.all (·.kind.isSimple) &&
    (bodyLines text b).all fun x => decide (x ∈ gone)

/-- The first line of a body of which nothing is left. -/
def roomIn (text : Text) (gone : List Spot) (b : Tree) : List Spot :=
  if isEmptied text gone b then (bodyLines text b).take 1 else []

theorem isGone_of_asLine {gone : List Spot} {o : Outline} (h : o.asLine = none) :
    isGone gone o = false := by
  rw [isGone, h]
  rfl

theorem Line.asLine_outline (l : Line) (inline : Bool) :
    (l.outline inline).asLine =
      if inline then none else some ⟨l.kinds, l.docstring, l.start, l.stop⟩ := by
  unfold Line.outline
  split <;> rfl

theorem asLine_ofCompound (text : Text) (t : Tree) : (ofCompound text t).asLine = none := by
  cases t with
  | node k r a b cs =>
    rw [ofCompound]
    split
    · rfl
    · split <;> rfl

/-- Statements on the row of their header are no lines. -/
theorem asLine_of_inline {text : Text} {l : Option Line} {ts : List Tree} {o : Outline}
    (h : o ∈ ofStatements text true l ts) : o.asLine = none := by
  have hline : ∀ {l : Option Line}, o ∈ lineIfAny true l → o.asLine = none := by
    intro l h
    cases l with
    | none => cases h
    | some l =>
      rw [List.mem_singleton.mp h, l.asLine_outline]
      rfl
  induction ts generalizing l with
  | nil => exact hline h
  | cons t ts ih =>
    rw [ofStatements.eq_def] at h
    dsimp only at h
    split at h
    · exact ih h
    split at h
    · cases l with
      | none => exact ih h
      | some l =>
        dsimp only at h
        split at h
        · exact ih h
        · rcases List.mem_cons.mp h with rfl | h
          · exact l.asLine_outline true
          · exact ih h
    · rcases List.mem_append.mp h with h | h
      · exact hline h
      · rcases List.mem_cons.mp h with rfl | h
        · exact asLine_ofCompound text t
        · exact ih h

theorem isGone_line {gone : List Spot} {l : Line} (hl : spotsAll l.inner = []) :
    isGone gone (l.outline false) = true ↔ ∀ x ∈ spots (l.outline false), x ∈ gone := by
  have hspots := (l.shallow_outline false hl).spots_of_asLine (l.asLine_outline false)
  rw [hspots, isGone, l.asLine_outline]
  simp

theorem all_isGone_lineIfAny {gone : List Spot} {l : Option Line}
    (hl : ∀ x ∈ l, spotsAll x.inner = []) :
    (lineIfAny false l).all (isGone gone) = true ↔
      ∀ x ∈ spotsAll (lineIfAny false l), x ∈ gone := by
  cases l with
  | none => simp [lineIfAny]
  | some l => simpa [lineIfAny] using isGone_line (hl l rfl)

/-- All of a body is gone if it has simple statements only and all its lines are gone. -/
theorem all_isGone_ofStatements (text : Text) (gone : List Spot) {l : Option Line}
    (ts : List Tree) (hl : ∀ x ∈ l, spotsAll x.inner = []) :
    (ofStatements text false l ts).all (isGone gone) = true ↔
      (∀ t ∈ ts, t.kind = .comment ∨ t.kind.isSimple = true) ∧
        ∀ x ∈ spotsAll (ofStatements text false l ts), x ∈ gone := by
  induction ts generalizing l with
  | nil =>
    rw [ofStatements, all_isGone_lineIfAny hl]
    simp
  | cons t ts ih =>
    have halone : ∀ x ∈ some (Line.ofStatement t), spotsAll x.inner = [] := by
      rintro x ⟨⟩
      exact spotsAll_ofSimple t
    rw [ofStatements.eq_def]
    dsimp only
    split
    · next hk =>
      rw [ih hl, List.forall_mem_cons]
      simp [beq_iff_eq.mp hk]
    split
    · next hsimple =>
      have hfirst : t.kind = .comment ∨ t.kind.isSimple = true := .inr hsimple
      cases l with
      | none =>
        dsimp only
        rw [ih halone, List.forall_mem_cons, and_iff_right hfirst]
      | some l =>
        have hinner := hl l rfl
        dsimp only
        split
        · rw [ih (l := some (l.add t.kind t.stop (ofSimple t))), List.forall_mem_cons,
            and_iff_right hfirst]
          rintro x ⟨⟩
          simp [Line.add, hinner, spotsAll_ofSimple]
        · rw [List.all_cons, Bool.and_eq_true, isGone_line hinner, ih halone, List.forall_mem_cons,
            and_iff_right hfirst, spotsAll_cons, List.forall_mem_append]
          exact and_left_comm
    · next hcomment hsimple =>
      -- A statement with a body of its own stays.
      have hstays : ¬ (t.kind = .comment ∨ t.kind.isSimple = true) := by
        rintro (h | h)
        · exact hcomment (beq_iff_eq.mpr h)
        · exact hsimple h
      rw [List.forall_mem_cons]
      simp [isGone_of_asLine (asLine_ofCompound text t), hstays]

/-! ## The room for `pass` -/

theorem ShallowAll.take_spots {gone : List Spot} {os : List Outline} (h : ShallowAll os)
    (hgone : os.all (isGone gone) = true) : (os.take 1).filterMap asLine = (spotsAll os).take 1 := by
  cases os with
  | nil => rfl
  | cons o os =>
    obtain ⟨x, hline, -⟩ := isGone_iff.mp (List.all_eq_true.mp hgone o List.mem_cons_self)
    rw [spotsAll_cons, h.1.spots_of_asLine hline]
    simp [hline]

theorem isEmptied_iff {text : Text} {gone : List Spot} {b : Tree} :
    isEmptied text gone b = true ↔ isInline text b.children = false ∧
      (∀ u ∈ b.parts, u.kind.isSimple = true) ∧ ∀ x ∈ bodyLines text b, x ∈ gone := by
  simp [isEmptied, and_assoc]

theorem spotsAll_ne_nil_of_some (text : Text) (l : Line) (ts : List Tree) :
    spotsAll (ofStatements text false (some l) ts) ≠ [] := by
  have hline : spots (l.outline false) ≠ [] := by simp [Line.outline, spots]
  induction ts generalizing l with
  | nil => simpa [ofStatements, lineIfAny] using hline
  | cons t ts ih =>
    have hnew : ∀ l : Line, spots (l.outline false) ≠ [] := by simp [Line.outline, spots]
    rw [ofStatements.eq_def]
    dsimp only
    split
    · exact ih l hline
    split
    · split
      · exact ih _ (hnew _)
      · simp [hline]
    · simp [lineIfAny, hline]

theorem spotsAll_ne_nil_of_simple (text : Text) {ts : List Tree}
    (hsimple : ∀ t ∈ ts, t.kind ≠ .comment → t.kind.isSimple = true)
    (hts : ∃ t ∈ ts, t.kind ≠ .comment) : spotsAll (ofStatements text false none ts) ≠ [] := by
  induction ts with
  | nil => simp at hts
  | cons t ts ih =>
    obtain ⟨ht, hrest⟩ := List.forall_mem_cons.mp hsimple
    rw [ofStatements.eq_def]
    dsimp only
    by_cases hk : t.kind = .comment
    · rw [if_pos (beq_iff_eq.mpr hk)]
      refine ih hrest ?_
      simpa [hk] using hts
    · rw [if_neg (by simpa using hk), if_pos (ht hk)]
      exact spotsAll_ne_nil_of_some text _ ts

/-- A body of simple statements of which nothing is left has room for `pass` in one place. -/
theorem roomIn_of_isEmptied {text : Text} {gone : List Spot} {b : Tree}
    (h : isEmptied text gone b = true) (hb : b.parts ≠ []) :
    ∃ x ∈ gone, roomIn text gone b = [x] := by
  obtain ⟨-, hsimple, hgone⟩ := isEmptied_iff.mp h
  have hlines : bodyLines text b ≠ [] := by
    obtain ⟨u, hu⟩ := List.exists_mem_of_ne_nil _ hb
    refine spotsAll_ne_nil_of_simple text (fun t ht hk => hsimple t ?_) ⟨u, ?_⟩
    · simpa [Tree.parts] using ⟨ht, hk⟩
    · simpa [Tree.parts] using hu
  obtain ⟨x, xs, hxs⟩ := List.exists_cons_of_ne_nil hlines
  exact ⟨x, hgone x (by simp [hxs]), by simp [roomIn, h, hxs]⟩

theorem vacated_block (text : Text) (gone : List Spot) (b : Tree) :
    vacated gone (.block (ofStatements text (isInline text b.children) none b.children)) =
      roomIn text gone b ++
        vacatedAll gone (ofStatements text (isInline text b.children) none b.children) := by
  have hnone : ∀ x ∈ (none : Option Line), spotsAll x.inner = [] := by simp
  have hshallow := shallowAll_ofStatements text (isInline text b.children) b.children hnone
  rw [vacated]
  cases hinline : isInline text b.children with
  | true =>
    have hroom : roomIn text gone b = [] := by simp [roomIn, isEmptied, hinline]
    rw [hroom, List.nil_append]
    split
    · next hall =>
      rw [hinline] at hshallow
      rw [hshallow.vacatedAll_of_isGone hall]
      refine List.filterMap_eq_nil_iff.mpr fun o ho => ?_
      exact asLine_of_inline (List.mem_of_mem_take ho)
    · rfl
  | false =>
    rw [hinline] at hshallow
    have hparts : (∀ t ∈ b.children, t.kind = .comment ∨ t.kind.isSimple = true) ↔
        ∀ u ∈ b.parts, u.kind.isSimple = true := by
      simp [Tree.parts, or_iff_not_imp_left]
    have hiff : (ofStatements text false none b.children).all (isGone gone) = true ↔
        isEmptied text gone b = true := by
      rw [all_isGone_ofStatements text gone b.children hnone, isEmptied_iff, hparts, bodyLines,
        and_iff_right hinline]
    by_cases hall : (ofStatements text false none b.children).all (isGone gone) = true
    · rw [if_pos hall, roomIn, if_pos (hiff.mp hall), hshallow.take_spots hall,
        hshallow.vacatedAll_of_isGone hall, List.append_nil, bodyLines]
    · rw [if_neg hall, roomIn, if_neg (mt hiff.mpr hall), List.nil_append]

theorem vacatedAll_append (gone : List Spot) (os ps : List Outline) :
    vacatedAll gone (os ++ ps) = vacatedAll gone os ++ vacatedAll gone ps := by
  induction os with
  | nil => rfl
  | cons o os ih => rw [List.cons_append, vacatedAll, vacatedAll, ih, List.append_assoc]

mutual

theorem vacatedAll_ofStatements (text : Text) (gone : List Spot) (inline : Bool)
    {l : Option Line} (ts : List Tree) (hl : ∀ x ∈ l, spotsAll x.inner = []) :
    vacatedAll gone (ofStatements text inline l ts) =
      (bodiesWithin ts).flatMap (roomIn text gone) := by
  have hnone : ∀ {l : Line}, spotsAll l.inner = [] → vacated gone (l.outline inline) = [] := by
    intro l hl
    unfold Line.outline
    split <;> rw [vacated, vacatedAll_of_spots gone hl]
  have hfront : ∀ {l : Option Line}, (∀ x ∈ l, spotsAll x.inner = []) →
      vacatedAll gone (lineIfAny inline l) = [] := by
    intro l hl
    cases l with
    | none => rfl
    | some l => rw [lineIfAny, vacatedAll, vacatedAll, hnone (hl l rfl), List.append_nil]
  cases ts with
  | nil =>
    rw [ofStatements, hfront hl]
    rfl
  | cons t ts =>
    have hrest : ∀ {l : Option Line}, (∀ x ∈ l, spotsAll x.inner = []) →
        vacatedAll gone (ofStatements text inline l ts) =
          (bodiesWithin ts).flatMap (roomIn text gone) :=
      vacatedAll_ofStatements text gone inline ts
    have halone : ∀ x ∈ some (Line.ofStatement t), spotsAll x.inner = [] := by
      rintro x ⟨⟩
      exact spotsAll_ofSimple t
    rw [ofStatements.eq_def, bodiesWithin]
    dsimp only
    split
    · next hk => rw [hrest hl, hk, Bool.true_or, if_pos rfl, List.nil_append]
    split
    · next hsimple =>
      rw [hsimple, Bool.or_true, if_pos rfl, List.nil_append]
      cases l with
      | none => exact hrest halone
      | some l =>
        have hinner := hl l rfl
        dsimp only
        split
        · refine hrest ?_
          rintro x ⟨⟩
          simp [Line.add, hinner, spotsAll_ofSimple]
        · rw [vacatedAll, hnone hinner, List.nil_append, hrest halone]
    · next hcomment hsimple =>
      have hcompound : ¬ (t.kind == .comment || t.kind.isSimple) = true := by
        simp [hcomment, hsimple]
      rw [vacatedAll_append, hfront hl, List.nil_append, vacatedAll,
        vacated_ofCompound text gone t, hrest (by simp), if_neg hcompound, List.flatMap_append]

theorem vacated_ofCompound (text : Text) (gone : List Spot) (t : Tree) :
    vacated gone (ofCompound text t) = (bodies t).flatMap (roomIn text gone) := by
  cases t with
  | node k r a b cs =>
    rw [ofCompound, bodies]
    split
    · rw [vacated, vacatedAll_ofDecorated text gone cs]
    split
    · rw [vacated, vacatedAll_ofClauses text gone _ cs]
    · rw [vacated, vacatedAll_ofClauses text gone _ cs]

theorem vacatedAll_ofDecorated (text : Text) (gone : List Spot) (ts : List Tree) :
    vacatedAll gone (ofDecorated text ts) = (decoratedBodies ts).flatMap (roomIn text gone) := by
  cases ts with
  | nil => rfl
  | cons t ts =>
    have hrest := vacatedAll_ofDecorated text gone ts
    rw [ofDecorated, decoratedBodies]
    split
    · next hk =>
      have hcompound : t.kind.isCompound = false := by rw [beq_iff_eq.mp hk]; rfl
      rw [hcompound, if_neg Bool.false_ne_true, List.nil_append, hrest]
    · rw [vacatedAll, List.flatMap_append, hrest]
      split
      · rw [vacated_ofCompound text gone t]
      · rw [vacated_of_spots gone (spots_ofExpression t)]
        rfl

theorem vacatedAll_ofClauses (text : Text) (gone : List Spot) (definition : Bool)
    (ts : List Tree) :
    vacatedAll gone (ofClauses text definition ts) =
      (partBodies ts).flatMap (roomIn text gone) := by
  cases ts with
  | nil => rfl
  | cons t ts =>
    cases t with
    | node k r a b cs =>
      have hrest := vacatedAll_ofClauses text gone definition ts
      rw [ofClauses, partBodies, List.flatMap_append, ← hrest]
      split
      · next hk =>
        rw [beq_iff_eq.mp hk]
        rfl
      split
      · have hbody := vacated_block text gone (.node k r a b cs)
        rw [vacatedAll, List.flatMap_cons]
        rw [Tree.children] at hbody
        rw [hbody, vacatedAll_ofStatements text gone _ cs (by simp)]
      split
      · next hk =>
        have hkind : k = .parameters := by simpa using And.left (by simpa using hk)
        have hspots : spotsAll (cs.flatMap ofParameter) = [] :=
          spotsAll_flatMap fun u _ => spotsAll_ofParameter u
        rw [vacatedAll_append, vacatedAll_of_spots gone hspots, hkind]
        rfl
      split
      · rw [vacatedAll, vacated, vacatedAll_ofClauses text gone false cs]
      · rw [vacatedAll, vacated_of_spots gone (spots_ofExpression _)]
        rfl

end

/-- The first lines of all bodies of a source of which nothing is left. -/
def room (s : Source) (gone : List Spot) : List Spot :=
  (bodiesWithin s.tree.children).flatMap (roomIn s.text gone)

/-- The lines of a source that make room for `pass` are the first ones of the bodies of which
nothing is left. -/
theorem vacatedAll_ofSource (s : Source) (gone : List Spot) :
    vacatedAll gone (ofSource s) = room s gone :=
  vacatedAll_ofStatements s.text gone false s.tree.children (by simp)

end Outline

end PointMutation
