import PointMutation.Proofs.Insertion.Spots
import PointMutation.Proofs.Nesting.Within

/-!
# What lines are made of

A line that a walk leaves is made of simple statements that stand side by side in a file or a body,
and the walk comes to that body through compound statements and their clauses only
(`Outline.leaves_ofSource`). So a definition that the line begins in has the walk come through it
(`Outline.Leaves.crosses`).
-/

namespace PointMutation

namespace Outline

/-! ## The statements of a line -/

/-- Whether statements are one quotation and nothing else. -/
def isQuotation : List Tree → Bool
  | [u] => isDocstring u.kind u.children
  | _ => false

/-- A line holds some simple statements. -/
structure Spot.Holds (x : Spot) (us : List Tree) : Prop where
  simple : ∀ u ∈ us, u.kind.isSimple = true
  kinds : x.kinds = us.map (·.kind)
  docstring : x.docstring = isQuotation us
  start : us.head?.map (·.start) = some x.start
  stop : us.getLast?.map (·.stop) = some x.stop

/-- A line holds statements that stand side by side in a file or a body. -/
structure IsLine (b : Tree) (us : List Tree) (x : Spot) : Prop where
  consecutive : us <:+: b.parts
  holds : x.Holds us

/-- The line that is being collected as one that is left. -/
def Line.spot (l : Line) : Spot := ⟨l.kinds, l.docstring, l.start, l.stop⟩

/-- The line that is being collected, if there is any, holds some statements. -/
def Collects (l : Option Line) (us : List Tree) : Prop :=
  match l with
  | none => us = []
  | some l => spotsAll l.inner = [] ∧ l.spot.Holds us

theorem collects_none : Collects none [] := rfl

theorem parts_eq (b : Tree) :
    b.parts = [] ++ [] ++ b.children.filter fun t => t.kind != .comment := rfl

theorem collects_ofStatement {t : Tree} (ht : t.kind.isSimple = true) :
    Collects (some (.ofStatement t)) [t] :=
  ⟨spotsAll_ofSimple t, by simpa using ht, rfl, rfl, rfl, rfl⟩

theorem Collects.add {l : Line} {us : List Tree} {t : Tree} (h : Collects (some l) us)
    (ht : t.kind.isSimple = true) :
    Collects (some (l.add t.kind t.stop (ofSimple t))) (us ++ [t]) := by
  obtain ⟨hinner, hsimple, hkinds, -, hstart, -⟩ := h
  have hne : us ≠ [] := by
    rintro rfl
    cases hstart
  obtain ⟨u, us', rfl⟩ := List.exists_cons_of_ne_nil hne
  refine ⟨by simp [Line.add, hinner, spotsAll_ofSimple], ?_, ?_, ?_, hstart, ?_⟩
  · intro v hv
    rcases List.mem_append.mp hv with hv | hv
    · exact hsimple v hv
    · rwa [List.mem_singleton.mp hv]
  · have hkinds : l.kinds = (u :: us').map (·.kind) := hkinds
    simp [Line.spot, Line.add, hkinds]
  · cases us' <;> rfl
  · rw [List.getLast?_concat]
    rfl

/-! ## The way of the walk -/

/-- How a walk comes by a node. -/
inductive Mode
  /-- As a file or a body. -/
  | body
  /-- As a statement of a body that is not simple, or as what decorators belong to. -/
  | statement
  /-- As a compound statement or a clause whose parts are gone through. -/
  | parts

/-- A walk that comes by a node leaves a line within it. -/
inductive Leaves : Mode → Tree → Spot → Prop
  | line {b : Tree} {us : List Tree} {x : Spot} (h : IsLine b us x) : Leaves .body b x
  | statement {b t : Tree} {x : Spot} (ht : t ∈ b.parts) (hsimple : t.kind.isSimple = false)
    (h : Leaves .statement t x) : Leaves .body b x
  | decorated {t u : Tree} {x : Spot} (ht : t.kind = .decoratedDefinition) (hu : u ∈ t.children)
    (h : Leaves .statement u x) : Leaves .statement t x
  | compound {t : Tree} {x : Spot} (ht : t.kind ≠ .decoratedDefinition) (h : Leaves .parts t x) :
    Leaves .statement t x
  | block {t b : Tree} {x : Spot} (hb : b ∈ t.children) (hk : b.kind = .block)
    (h : Leaves .body b x) : Leaves .parts t x
  | clause {t u : Tree} {x : Spot} (hu : u ∈ t.children) (hk : u.kind.isClause = true)
    (h : Leaves .parts u x) : Leaves .parts t x

theorem mem_outline {l : Line} {inline : Bool} {x : Spot} (hl : spotsAll l.inner = [])
    (hx : x ∈ spots (l.outline inline)) : x = l.spot := by
  rw [Line.outline] at hx
  split at hx
  · rw [spots, hl] at hx
    cases hx
  · rwa [spots, hl, List.nil_append, List.mem_singleton] at hx

theorem mem_lineIfAny {l : Option Line} {inline : Bool} {us : List Tree} {x : Spot}
    (hl : Collects l us) (hx : x ∈ spotsAll (lineIfAny inline l)) : x.Holds us := by
  cases l with
  | none => cases hx
  | some l =>
    rw [lineIfAny, spotsAll_cons, spotsAll_nil, List.append_nil] at hx
    rw [mem_outline hl.1 hx]
    exact hl.2

mutual

/-- The lines of statements: `us` are those of the line that is being collected, and `pre` those in
front of it. -/
theorem leaves_ofStatements (text : Text) (inline : Bool) {b : Tree} {pre us ts : List Tree}
    {l : Option Line} {x : Spot}
    (hparts : b.parts = pre ++ us ++ ts.filter fun t => t.kind != .comment) (hl : Collects l us)
    (hx : x ∈ spotsAll (ofStatements text inline l ts)) : Leaves .body b x := by
  have hline : x.Holds us → Leaves .body b x := fun h => .line ⟨⟨pre, _, hparts.symm⟩, h⟩
  cases ts with
  | nil =>
    rw [ofStatements] at hx
    exact hline (mem_lineIfAny hl hx)
  | cons t ts =>
    rw [ofStatements.eq_def] at hx
    dsimp only at hx
    split at hx
    · rename_i hcomment
      rw [List.filter_cons_of_neg (by simpa using hcomment)] at hparts
      exact leaves_ofStatements text inline hparts hl hx
    · rename_i hcomment
      rw [List.filter_cons_of_pos (by simpa using hcomment)] at hparts
      have hmore : b.parts = pre ++ us ++ [t] ++ ts.filter fun t => t.kind != .comment := by
        rw [hparts, List.append_assoc _ [t], List.singleton_append]
      split at hx
      · rename_i hsimple
        -- The statement begins a line, goes on with one, or ends it and begins another.
        have halone : x ∈ spotsAll (ofStatements text inline (some (.ofStatement t)) ts) →
            Leaves .body b x :=
          leaves_ofStatements text inline hmore (collects_ofStatement hsimple)
        cases l with
        | none => exact halone hx
        | some l =>
          dsimp only at hx
          split at hx
          · have hadded : b.parts =
                pre ++ (us ++ [t]) ++ ts.filter fun t => t.kind != .comment := by
              rw [hmore, List.append_assoc pre]
            exact leaves_ofStatements text inline hadded (hl.add hsimple) hx
          · rw [spotsAll_cons, List.mem_append] at hx
            rcases hx with hx | hx
            · exact hline (mem_outline hl.1 hx ▸ hl.2)
            · exact halone hx
      · rename_i hsimple
        rw [spotsAll_append, spotsAll_cons, List.mem_append, List.mem_append] at hx
        rcases hx with hx | hx | hx
        · exact hline (mem_lineIfAny hl hx)
        · refine .statement ?_ (by simpa using hsimple) (leaves_ofCompound text hx)
          rw [hmore]
          simp
        · exact leaves_ofStatements text inline (by rw [hmore, List.append_nil]) collects_none hx
termination_by structural ts

theorem leaves_ofCompound (text : Text) {t : Tree} {x : Spot} (hx : x ∈ spots (ofCompound text t)) :
    Leaves .statement t x := by
  cases t with
  | node k r s e cs =>
    have hall : ∀ u ∈ cs, u ∈ (Tree.node k r s e cs).children := fun _ hu => hu
    rw [ofCompound] at hx
    split at hx
    · rename_i hk
      rw [spots] at hx
      exact leaves_ofDecorated text (beq_iff_eq.mp hk) hall hx
    · rename_i hk
      have hne : k ≠ .decoratedDefinition := by simpa using hk
      split at hx
      · rw [spots] at hx
        exact .compound hne (leaves_ofParts text _ hall hx)
      · rw [spots] at hx
        exact .compound hne (leaves_ofParts text _ hall hx)
termination_by structural t

theorem leaves_ofDecorated (text : Text) {t : Tree} {ts : List Tree} {x : Spot}
    (ht : t.kind = .decoratedDefinition) (hts : ∀ u ∈ ts, u ∈ t.children)
    (hx : x ∈ spotsAll (ofDecorated text ts)) : Leaves .statement t x := by
  cases ts with
  | nil =>
    rw [ofDecorated, spotsAll] at hx
    cases hx
  | cons u ts =>
    have hrest : x ∈ spotsAll (ofDecorated text ts) → Leaves .statement t x :=
      leaves_ofDecorated text ht fun v hv => hts v (List.mem_cons_of_mem u hv)
    rw [ofDecorated] at hx
    split at hx
    · exact hrest hx
    · rw [spotsAll_cons, List.mem_append] at hx
      rcases hx with hx | hx
      · split at hx
        · exact .decorated ht (hts u List.mem_cons_self) (leaves_ofCompound text hx)
        · rw [spots_ofExpression] at hx
          cases hx
      · exact hrest hx
termination_by structural ts

theorem leaves_ofParts (text : Text) (definition : Bool) {t : Tree} {ts : List Tree} {x : Spot}
    (hts : ∀ u ∈ ts, u ∈ t.children) (hx : x ∈ spotsAll (ofClauses text definition ts)) :
    Leaves .parts t x := by
  cases ts with
  | nil =>
    rw [ofClauses, spotsAll] at hx
    cases hx
  | cons u ts =>
    have hu := hts u List.mem_cons_self
    have hrest : x ∈ spotsAll (ofClauses text definition ts) → Leaves .parts t x :=
      leaves_ofParts text definition fun v hv => hts v (List.mem_cons_of_mem u hv)
    cases u with
    | node k r s e cs =>
      rw [ofClauses] at hx
      split at hx
      · exact hrest hx
      split at hx
      · rename_i hk
        rw [spotsAll_cons, spots, List.mem_append] at hx
        rcases hx with hx | hx
        · exact .block hu (beq_iff_eq.mp hk)
            (leaves_ofStatements text _ (parts_eq (.node k r s e cs)) collects_none hx)
        · exact hrest hx
      split at hx
      · rw [spotsAll_append, spotsAll_flatMap fun u _ => spotsAll_ofParameter u,
          List.nil_append] at hx
        exact hrest hx
      split at hx
      · rename_i hk
        have hall : ∀ v ∈ cs, v ∈ (Tree.node k r s e cs).children := fun _ hv => hv
        rw [spotsAll_cons, spots, List.mem_append] at hx
        rcases hx with hx | hx
        · exact .clause hu hk (leaves_ofParts text false hall hx)
        · exact hrest hx
      · rw [spotsAll_cons, spots_ofExpression, List.nil_append] at hx
        exact hrest hx
termination_by structural ts

end

/-- The lines that a walk leaves on its way through a source. -/
theorem leaves_ofSource {s : Source} {x : Spot} (hx : x ∈ spotsAll (ofSource s)) :
    Leaves .body s.tree x :=
  leaves_ofStatements s.text false (parts_eq s.tree) collects_none hx

/-! ## Nodes that a line begins in -/

/-- A line begins with a simple statement of its body. -/
theorem IsLine.head {b : Tree} {us : List Tree} {x : Spot} (h : IsLine b us x) :
    ∃ u us', us = u :: us' ∧ u ∈ b.parts ∧ u.kind.isSimple = true ∧ u.start = x.start := by
  obtain ⟨hconsecutive, hholds⟩ := h
  cases us with
  | nil => cases hholds.start
  | cons u us' =>
    exact ⟨u, us', rfl, hconsecutive.subset List.mem_cons_self, hholds.simple u List.mem_cons_self,
      Option.some.inj hholds.start⟩

theorem bounds_of_child {t c : Tree} {i : Nat} (hc : c ∈ t.children) (ht : t.Nested)
    (h : c.Nested → c.start ≤ i ∧ i ≤ c.stop) : t.start ≤ i ∧ i ≤ t.stop := by
  obtain ⟨hstart, hstop, hnested⟩ := ht.children.of_mem hc
  obtain ⟨hstart', hstop'⟩ := h hnested
  exact ⟨by omega, by omega⟩

/-- A walk leaves only lines within the node that it has come by. -/
theorem Leaves.bounds {mode : Mode} {t : Tree} {x : Spot} (h : Leaves mode t x) (ht : t.Nested) :
    t.start ≤ x.start ∧ x.start ≤ t.stop := by
  induction h with
  | line h =>
    obtain ⟨u, us', rfl, hu, -, hstart⟩ := h.head
    refine bounds_of_child (Tree.mem_children_of_mem_parts hu) ht fun hnested => ?_
    rw [← hstart]
    exact ⟨Nat.le_refl _, hnested.le⟩
  | statement hc _ _ ih => exact bounds_of_child (Tree.mem_children_of_mem_parts hc) ht ih
  | decorated _ hu _ ih => exact bounds_of_child hu ht ih
  | compound _ _ ih => exact ih ht
  | block hb _ _ ih => exact bounds_of_child hb ht ih
  | clause hu _ _ ih => exact bounds_of_child hu ht ih

/-- The walk comes by a node below the file, as a body only if it is one, and leaves a line within
it. -/
def Crosses (n : Tree) (x : Spot) : Prop :=
  ∃ mode, Leaves mode n x ∧ (mode = .body → n.kind = .block)

/-- The child through which a line was reached is the one around the nodes that the line begins
in. -/
theorem Leaves.crosses_child {mode : Mode} {t c n : Tree} {x : Spot} (h : Leaves mode c x)
    (hbody : mode = .body → c.kind = .block) (hc : c ∈ t.children) (ht : t.Nested)
    (hn : ∃ d ∈ t.children, Tree.Within d n) (hstart : n.start < x.start) (hstop : x.start < n.stop)
    (ih : c.Nested → (∃ d ∈ c.children, Tree.Within d n) → Crosses n x) : Crosses n x := by
  obtain ⟨d, hd, hdn⟩ := hn
  obtain ⟨-, -, hcnested⟩ := ht.children.of_mem hc
  obtain ⟨-, -, hdnested⟩ := ht.children.of_mem hd
  obtain ⟨hcstart, hcstop⟩ := h.bounds hcnested
  obtain ⟨-, hnstart, hnstop⟩ := hdn.spec hdnested
  rcases eq_or_ne c d with rfl | hne
  · cases hdn with
    | self => exact ⟨mode, h, hbody⟩
    | child he hen => exact ih hcnested ⟨_, he, hen⟩
  · rcases ht.children.apart_of_mem hc hd hne with hle | hle <;> omega

/-- A node that a line begins in, but not with, is one that the walk has come by. -/
theorem Leaves.crosses {mode : Mode} {t n : Tree} {x : Spot} (h : Leaves mode t x)
    (ht : t.Nested) (hn : ∃ c ∈ t.children, Tree.Within c n) (hstart : n.start < x.start)
    (hstop : x.start < n.stop) : Crosses n x := by
  induction h with
  | line h =>
    -- The line begins with a child, so that the node would have to reach over the start of it.
    obtain ⟨u, us', rfl, hu, -, hustart⟩ := h.head
    obtain ⟨d, hd, hdn⟩ := hn
    have hu := Tree.mem_children_of_mem_parts hu
    obtain ⟨-, -, hunested⟩ := ht.children.of_mem hu
    obtain ⟨-, -, hdnested⟩ := ht.children.of_mem hd
    obtain ⟨-, hnstart, hnstop⟩ := hdn.spec hdnested
    have hle := hunested.le
    rcases eq_or_ne u d with rfl | hne
    · omega
    · rcases ht.children.apart_of_mem hu hd hne with hle' | hle' <;> omega
  | statement hc _ h ih =>
    exact h.crosses_child (by rintro ⟨⟩) (Tree.mem_children_of_mem_parts hc) ht hn hstart hstop
      fun hc hn => ih hc hn hstart hstop
  | decorated _ hu h ih =>
    exact h.crosses_child (by rintro ⟨⟩) hu ht hn hstart hstop fun hc hn => ih hc hn hstart hstop
  | compound _ _ ih => exact ih ht hn hstart hstop
  | block hb hk h ih =>
    exact h.crosses_child (fun _ => hk) hb ht hn hstart hstop fun hc hn => ih hc hn hstart hstop
  | clause hu _ h ih =>
    exact h.crosses_child (by rintro ⟨⟩) hu ht hn hstart hstop fun hc hn => ih hc hn hstart hstop

/-- A definition in which a line begins has its parts gone through. -/
theorem Leaves.definition {mode : Mode} {t n : Tree} {x : Spot} (h : Leaves mode t x)
    (ht : t.Nested) (hn : ∃ c ∈ t.children, Tree.Within c n) (hblock : n.kind ≠ .block)
    (hdecorated : n.kind ≠ .decoratedDefinition) (hstart : n.start < x.start)
    (hstop : x.start < n.stop) : Leaves .parts n x := by
  obtain ⟨mode', h', hbody⟩ := h.crosses ht hn hstart hstop
  cases mode' with
  | body => exact absurd (hbody rfl) hblock
  | statement =>
    cases h' with
    | decorated hk _ _ => exact absurd hk hdecorated
    | compound _ h' => exact h'
  | parts => exact h'

end Outline

end PointMutation
