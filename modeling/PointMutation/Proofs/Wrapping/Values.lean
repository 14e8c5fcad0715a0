import PointMutation.Proofs.Nesting.Tree

/-!
# Values

A value is the right side of an assignment, the default of a parameter, or what is returned
(`Tree.ValueIn`), and the nodes of a value are the value and all nodes below that are not inside a
quotation (`Tree.Inside`). This module lists both in the order of the text, and the nodes of an
expression behind the nodes inside them (`Tree.Walked`).
-/

namespace PointMutation

namespace Tree

/-! ## Nodes of an expression -/

/-- Whether what lies inside a node does not count. -/
def isQuotation (t : Tree) : Bool := t.kind == .string || t.kind == .concatenatedString

/-- A node of an expression: the expression itself, or a node of one of its parts unless the
expression is a quotation. -/
inductive Inside : Tree → Tree → Prop
  | self (t : Tree) : Inside t t
  | part {t c e : Tree} (ht : t.isQuotation = false) (hc : c ∈ t.parts) (h : Inside c e) :
      Inside t e

/-- A node of an expression other than the expression itself. -/
def Below (t e : Tree) : Prop := t.isQuotation = false ∧ ∃ c ∈ t.parts, Inside c e

mutual

/-- The nodes of an expression, each behind those inside it. -/
def nodes : Tree → List Tree
  | .node k r a b cs =>
    (if k == .string || k == .concatenatedString then [] else nodesOf cs) ++ [.node k r a b cs]

/-- The nodes of several expressions. -/
def nodesOf : List Tree → List Tree
  | [] => []
  | t :: ts => (if t.kind == .comment then [] else nodes t) ++ nodesOf ts

end

theorem nodes_eq (t : Tree) :
    nodes t = (if t.isQuotation then [] else nodesOf t.children) ++ [t] := by
  cases t with
  | node k r a b cs => rw [nodes, isQuotation, kind, children]

theorem mem_nodesOf_iff {d : Tree} {ts : List Tree} :
    d ∈ nodesOf ts ↔ ∃ t ∈ ts, t.kind ≠ .comment ∧ d ∈ nodes t := by
  induction ts with
  | nil => simp [nodesOf]
  | cons t ts ih =>
    by_cases hk : t.kind = .comment <;> simp [nodesOf, ih, hk]

theorem mem_parts {t c : Tree} : c ∈ t.parts ↔ c ∈ t.children ∧ c.kind ≠ .comment := by
  simp [parts]

theorem mem_nodes_of_inside {t d : Tree} (h : Inside t d) : d ∈ nodes t := by
  induction h with
  | self t => simp [nodes_eq]
  | part ht hc _ ih =>
    obtain ⟨hc, hk⟩ := mem_parts.mp hc
    rw [nodes_eq, ht]
    exact List.mem_append_left _ (mem_nodesOf_iff.mpr ⟨_, hc, hk, ih⟩)

theorem inside_of_mem_nodes {t d : Tree} (h : d ∈ nodes t) : Inside t d := by
  rw [nodes_eq] at h
  rcases List.mem_append.mp h with h | h
  · cases ht : t.isQuotation with
    | true =>
      rw [ht] at h
      cases h
    | false =>
      rw [ht] at h
      obtain ⟨c, hc, hk, hd⟩ := mem_nodesOf_iff.mp h
      have hlt := sizeOf_lt_of_mem_children hc
      exact .part ht (mem_parts.mpr ⟨hc, hk⟩) (inside_of_mem_nodes hd)
  · rw [List.mem_singleton.mp h]
    exact .self t
termination_by sizeOf t

theorem mem_nodes {t d : Tree} : d ∈ nodes t ↔ Inside t d :=
  ⟨inside_of_mem_nodes, mem_nodes_of_inside⟩

/-- The nodes below come first in the list of all nodes. -/
theorem exists_nodes (t : Tree) :
    ∃ below, nodes t = below ++ [t] ∧ ∀ d, d ∈ below ↔ Below t d := by
  refine ⟨_, nodes_eq t, fun d => ?_⟩
  cases ht : t.isQuotation with
  | true => simp [Below, ht]
  | false =>
    simp only [Bool.false_eq_true, if_false, mem_nodesOf_iff, Below, ht, true_and, mem_parts,
      mem_nodes]
    exact exists_congr fun c => by rw [and_assoc]

/-! ## The order of nodes -/

/-- Behind the nodes of `seen`, each node comes when all below it were seen. -/
def Settled : List Tree → List Tree → Prop
  | _, [] => True
  | seen, t :: ts => (∀ d, Below t d → d ∈ seen) ∧ Settled (seen ++ [t]) ts

theorem Settled.mono {seen seen' ts : List Tree} (h : Settled seen ts) (hs : seen ⊆ seen') :
    Settled seen' ts := by
  induction ts generalizing seen seen' with
  | nil => exact trivial
  | cons t ts ih =>
    refine ⟨fun d hd => hs (h.1 d hd), ih h.2 ?_⟩
    exact List.append_subset.mpr ⟨fun d hd => List.mem_append_left _ (hs hd), by simp⟩

theorem settled_append {seen ts us : List Tree} :
    Settled seen (ts ++ us) ↔ Settled seen ts ∧ Settled (seen ++ ts) us := by
  induction ts generalizing seen with
  | nil => simp [Settled]
  | cons t ts ih => simp [Settled, ih, and_assoc]

/-- Nodes between two places. Of each two the first one ends in front of the second or is below
it, and no node comes in front of one below it. -/
structure Walked (a b : Nat) (ts : List Tree) : Prop where
  bounds : ∀ t ∈ ts, a ≤ t.start ∧ t.stop ≤ b
  order : ts.Pairwise fun t u => t.stop ≤ u.start ∨ Below u t
  settled : Settled [] ts

namespace Walked

variable {a a' b b' c : Nat} {ts us : List Tree}

theorem nil : Walked a b [] := ⟨by simp, .nil, trivial⟩

theorem mono (h : Walked a b ts) (ha : a' ≤ a) (hb : b ≤ b') : Walked a' b' ts := by
  refine ⟨fun t ht => ?_, h.order, h.settled⟩
  obtain ⟨hstart, hstop⟩ := h.bounds t ht
  omega

theorem append (h : Walked a b ts) (h' : Walked b c us) (hab : a ≤ b) (hbc : b ≤ c) :
    Walked a c (ts ++ us) := by
  refine ⟨fun t ht => ?_, ?_, settled_append.mpr ⟨h.settled, h'.settled.mono (by simp)⟩⟩
  · rcases List.mem_append.mp ht with ht | ht
    · obtain ⟨hstart, hstop⟩ := h.bounds t ht
      omega
    · obtain ⟨hstart, hstop⟩ := h'.bounds t ht
      omega
  · refine List.pairwise_append.mpr ⟨h.order, h'.order, fun t ht u hu => .inl ?_⟩
    exact Nat.le_trans (h.bounds t ht).2 (h'.bounds u hu).1

/-- An expression behind all the nodes below it. -/
theorem above {t : Tree} (h : Walked t.start t.stop ts) (hts : ∀ d, d ∈ ts ↔ Below t d) :
    Walked t.start t.stop (ts ++ [t]) := by
  refine ⟨fun u hu => ?_, ?_, settled_append.mpr ⟨h.settled, ?_, trivial⟩⟩
  · rcases List.mem_append.mp hu with hu | hu
    · exact h.bounds u hu
    · rw [List.mem_singleton.mp hu]
      exact ⟨Nat.le_refl _, Nat.le_refl _⟩
  · refine List.pairwise_append.mpr ⟨h.order, List.pairwise_singleton _ _, fun u hu v hv => ?_⟩
    rw [List.mem_singleton.mp hv]
    exact .inr ((hts u).mp hu)
  · exact fun d hd => (hts d).mpr hd

end Walked

mutual

theorem walked_nodes {t : Tree} (h : t.Nested) : Walked t.start t.stop (nodes t) := by
  cases t with
  | node k r a b cs =>
    have hcs := nested_node.mp h
    obtain ⟨below, hnodes, hbelow⟩ := exists_nodes (.node k r a b cs)
    have heq : below = if k == .string || k == .concatenatedString then [] else nodesOf cs := by
      rw [nodes] at hnodes
      exact (List.append_cancel_right hnodes).symm
    have hwalked : Walked a b below := by
      rw [heq]
      split
      · exact .nil
      · exact walked_nodesOf hcs
    rw [hnodes]
    exact Walked.above (t := .node k r a b cs) hwalked hbelow

theorem walked_nodesOf {a b : Nat} {ts : List Tree} (h : NestedIn a b ts) :
    Walked a b (nodesOf ts) := by
  cases ts with
  | nil =>
    rw [nodesOf]
    exact .nil
  | cons t ts =>
    obtain ⟨ha, ht, hts⟩ := nestedIn_cons.mp h
    have hrest := walked_nodesOf hts
    have hle := ht.le
    rw [nodesOf]
    refine .append (b := t.stop) ?_ hrest (by omega) hts.le
    split
    · exact .nil
    · exact (walked_nodes ht).mono ha (Nat.le_refl _)

end

/-- The nodes of expressions that lie one behind the other. -/
theorem walked_flatMap {a b : Nat} {ts : List Tree} (h : NestedIn a b ts) :
    Walked a b (ts.flatMap nodes) := by
  induction ts generalizing a with
  | nil => exact .nil
  | cons t ts ih =>
    obtain ⟨ha, ht, hts⟩ := nestedIn_cons.mp h
    have hle := ht.le
    rw [List.flatMap_cons]
    exact ((walked_nodes ht).mono ha (Nat.le_refl _)).append (ih hts) (by omega) hts.le

/-! ## Values of statements -/

/-- The innermost right side of an assignment. -/
inductive Assigned : Tree → Tree → Prop
  | right {t v : Tree} (hv : v ∈ t.children) (hr : v.role = some .right)
      (hk : v.kind ≠ .assignment) : Assigned t v
  | chain {t u v : Tree} (hu : u ∈ t.children) (hr : u.role = some .right)
      (hk : u.kind = .assignment) (h : Assigned u v) : Assigned t v

mutual

/-- A value in a statement. -/
inductive ValueIn : Tree → Tree → Prop
  | assigned {t c v : Tree} (ht : t.kind = .expressionStatement) (hc : c ∈ t.parts)
      (hk : c.kind = .assignment) (h : Assigned c v) : ValueIn t v
  | augmented {t c v : Tree} (ht : t.kind = .expressionStatement) (hc : c ∈ t.parts)
      (hk : c.kind = .augmentedAssignment) (hv : v ∈ c.children) (hr : v.role = some .right) :
      ValueIn t v
  | returned {t v : Tree} (ht : t.kind = .returnStatement) (hv : v ∈ t.parts) : ValueIn t v
  | decorated {t c v : Tree} (ht : t.kind = .decoratedDefinition) (hc : c ∈ t.children)
      (hk : c.kind.isCompound = true) (h : ValueIn c v) : ValueIn t v
  | compound {t v : Tree} (ht : t.kind.isSimple = false) (hk : t.kind ≠ .decoratedDefinition)
      (h : ValueInPart t v) : ValueIn t v

/-- A value in a compound statement or in one of its clauses. -/
inductive ValueInPart : Tree → Tree → Prop
  | body {t c s v : Tree} (hc : c ∈ t.children) (hk : c.kind = .block) (hs : s ∈ c.parts)
      (h : ValueIn s v) : ValueInPart t v
  | clause {t c v : Tree} (hc : c ∈ t.children) (hk : c.kind.isClause = true)
      (h : ValueInPart c v) : ValueInPart t v
  | parameter {t c d v : Tree} (ht : t.kind = .functionDefinition) (hc : c ∈ t.children)
      (hk : c.kind = .parameters) (hd : d ∈ c.children)
      (hkd : d.kind = .defaultParameter ∨ d.kind = .typedDefaultParameter) (hv : v ∈ d.children)
      (hr : v.role = some .value) : ValueInPart t v

end

/-! ## Values in their order -/

mutual

/-- The innermost right sides among the parts of an assignment. -/
def assignedValues : List Tree → List Tree
  | [] => []
  | t :: ts => assignedValue t ++ assignedValues ts

/-- The innermost right side of a part of an assignment. -/
def assignedValue : Tree → List Tree
  | .node k r a b cs =>
    if r == some .right then if k == .assignment then assignedValues cs else [.node k r a b cs]
    else []

end

/-- The values of what an expression statement is made of. -/
def expressionValues (t : Tree) : List Tree :=
  if t.kind == .assignment then assignedValues t.children
  else if t.kind == .augmentedAssignment then t.children.filter fun c => c.role == some .right
  else []

/-- The values of a simple statement. -/
def simpleValues (t : Tree) : List Tree :=
  if t.kind == .expressionStatement then t.parts.flatMap expressionValues
  else if t.kind == .returnStatement then t.parts
  else []

/-- The default of a parameter. -/
def defaultValues (t : Tree) : List Tree :=
  if t.kind == .defaultParameter || t.kind == .typedDefaultParameter then
    t.children.filter fun c => c.role == some .value
  else []

mutual

/-- The values of a statement. -/
def values : Tree → List Tree
  | .node k r a b cs =>
    if k.isSimple then simpleValues (.node k r a b cs)
    else if k == .decoratedDefinition then decoratedValues cs
    else partValues (k == .functionDefinition) cs

/-- The values of what is decorated. -/
def decoratedValues : List Tree → List Tree
  | [] => []
  | t :: ts => (if t.kind.isCompound then values t else []) ++ decoratedValues ts

/-- The values of the parts of a compound statement or a clause. -/
def partValues (definition : Bool) : List Tree → List Tree
  | [] => []
  | .node k _ _ _ cs :: ts =>
    (if k == .block then bodyValues cs
      else if k == .parameters && definition then cs.flatMap defaultValues
      else if k.isClause then partValues false cs
      else []) ++ partValues definition ts

/-- The values of several statements. -/
def bodyValues : List Tree → List Tree
  | [] => []
  | t :: ts => (if t.kind == .comment then [] else values t) ++ bodyValues ts

end

/-! ## The lists hold the values and nothing else -/

theorem mem_assignedValues {ts : List Tree} {v : Tree} :
    v ∈ assignedValues ts ↔ ∃ t ∈ ts, v ∈ assignedValue t := by
  induction ts with
  | nil => simp [assignedValues]
  | cons t ts ih => simp [assignedValues, ih]

theorem assignedValue_eq (t : Tree) :
    assignedValue t =
      if t.role == some .right then
        if t.kind == .assignment then assignedValues t.children else [t]
      else [] := by
  cases t with
  | node k r a b cs => rw [assignedValue, role, kind, children]

theorem mem_assignedValues_of_assigned {t v : Tree} (h : Assigned t v) :
    v ∈ assignedValues t.children := by
  induction h with
  | right hv hr hk => exact mem_assignedValues.mpr ⟨_, hv, by simp [assignedValue_eq, hr, hk]⟩
  | chain hu hr hk _ ih =>
    exact mem_assignedValues.mpr ⟨_, hu, by simpa [assignedValue_eq, hr, hk] using ih⟩

theorem assigned_of_mem_assignedValues {t v : Tree} (h : v ∈ assignedValues t.children) :
    Assigned t v := by
  obtain ⟨u, hu, hv⟩ := mem_assignedValues.mp h
  rw [assignedValue_eq] at hv
  by_cases hr : u.role = some .right
  · by_cases hk : u.kind = .assignment
    · simp only [hr, hk, BEq.rfl, if_true] at hv
      have hlt := sizeOf_lt_of_mem_children hu
      exact .chain hu hr hk (assigned_of_mem_assignedValues hv)
    · simp only [hr, BEq.rfl, if_true, beq_iff_eq, hk, if_false, List.mem_singleton] at hv
      subst hv
      exact .right hu hr hk
  · simp [hr] at hv
termination_by sizeOf t

theorem values_eq (t : Tree) :
    values t =
      if t.kind.isSimple then simpleValues t
      else if t.kind == .decoratedDefinition then decoratedValues t.children
      else partValues (t.kind == .functionDefinition) t.children := by
  cases t with
  | node k r a b cs => rw [values, kind, children]

theorem mem_decoratedValues {ts : List Tree} {v : Tree} :
    v ∈ decoratedValues ts ↔ ∃ t ∈ ts, t.kind.isCompound = true ∧ v ∈ values t := by
  induction ts with
  | nil => simp [decoratedValues]
  | cons t ts ih => cases hk : t.kind.isCompound <;> simp [decoratedValues, ih, hk]

theorem mem_bodyValues {ts : List Tree} {v : Tree} :
    v ∈ bodyValues ts ↔ ∃ t ∈ ts, t.kind ≠ .comment ∧ v ∈ values t := by
  induction ts with
  | nil => simp [bodyValues]
  | cons t ts ih => by_cases hk : t.kind = .comment <;> simp [bodyValues, ih, hk]

/-- The values of one part of a compound statement or a clause. -/
def partValue (definition : Bool) (t : Tree) : List Tree :=
  if t.kind == .block then bodyValues t.children
  else if t.kind == .parameters && definition then t.children.flatMap defaultValues
  else if t.kind.isClause then partValues false t.children
  else []

theorem partValues_eq (definition : Bool) (ts : List Tree) :
    partValues definition ts = ts.flatMap (partValue definition) := by
  induction ts with
  | nil => rw [partValues, List.flatMap_nil]
  | cons t ts ih =>
    cases t with
    | node k r a b cs => rw [partValues, ih, List.flatMap_cons, partValue, kind, children]

theorem mem_defaultValues {d v : Tree} :
    v ∈ defaultValues d ↔ (d.kind = .defaultParameter ∨ d.kind = .typedDefaultParameter) ∧
      v ∈ d.children ∧ v.role = some .value := by
  unfold defaultValues
  split <;> simp_all

theorem simple_of_expressionStatement {t : Tree} (h : t.kind = .expressionStatement) :
    values t = t.parts.flatMap expressionValues := by
  simp [values_eq, simpleValues, h, Kind.isSimple]

mutual

theorem mem_values_of_valueIn {t v : Tree} : ValueIn t v → v ∈ values t
  | .assigned ht hc hk h => by
    rw [simple_of_expressionStatement ht]
    refine List.mem_flatMap.mpr ⟨_, hc, ?_⟩
    simpa [expressionValues, hk] using mem_assignedValues_of_assigned h
  | .augmented ht hc hk hv hr => by
    rw [simple_of_expressionStatement ht]
    exact List.mem_flatMap.mpr ⟨_, hc, by simp [expressionValues, hk, hv, hr]⟩
  | .returned ht hv => by simpa [values_eq, simpleValues, ht, Kind.isSimple] using hv
  | .decorated ht hc hk h => by
    have hv := mem_values_of_valueIn h
    have hsimple : t.kind.isSimple = false := by rw [ht]; rfl
    rw [values_eq, hsimple, ht]
    exact mem_decoratedValues.mpr ⟨_, hc, hk, hv⟩
  | .compound ht hk h => by
    have hv := mem_partValues_of_valueInPart h
    simpa [values_eq, ht, hk] using hv

theorem mem_partValues_of_valueInPart {t v : Tree} :
    ValueInPart t v → v ∈ partValues (t.kind == .functionDefinition) t.children
  | .body hc hk hs h => by
    have hv := mem_values_of_valueIn h
    obtain ⟨hs, hcomment⟩ := mem_parts.mp hs
    rw [partValues_eq]
    refine List.mem_flatMap.mpr ⟨_, hc, ?_⟩
    simpa [partValue, hk] using mem_bodyValues.mpr ⟨_, hs, hcomment, hv⟩
  | .clause (c := c) hc hk h => by
    have hv := mem_partValues_of_valueInPart h
    have hdefinition : (c.kind == .functionDefinition) = false := by
      cases hck : c.kind <;> simp_all [Kind.isClause]
    have hblock : (c.kind == .block) = false := by
      cases hck : c.kind <;> simp_all [Kind.isClause]
    have hparameters : (c.kind == .parameters) = false := by
      cases hck : c.kind <;> simp_all [Kind.isClause]
    rw [hdefinition] at hv
    rw [partValues_eq]
    refine List.mem_flatMap.mpr ⟨c, hc, ?_⟩
    simpa [partValue, hblock, hparameters, hk] using hv
  | .parameter (c := c) ht hc hk hd hkd hv hr => by
    rw [partValues_eq]
    refine List.mem_flatMap.mpr ⟨c, hc, ?_⟩
    have hdefault := mem_defaultValues.mpr ⟨hkd, hv, hr⟩
    simpa [partValue, hk, ht] using ⟨_, hd, hdefault⟩

end

mutual

theorem valueIn_of_mem_values {t v : Tree} (h : v ∈ values t) : ValueIn t v := by
  rw [values_eq] at h
  split at h
  · unfold simpleValues at h
    split at h
    · rename_i ht
      obtain ⟨c, hc, hv⟩ := List.mem_flatMap.mp h
      unfold expressionValues at hv
      split at hv
      · rename_i hk
        exact .assigned (by simpa using ht) hc (by simpa using hk)
          (assigned_of_mem_assignedValues hv)
      · split at hv
        · rename_i hk
          obtain ⟨hv, hr⟩ := List.mem_filter.mp hv
          exact .augmented (by simpa using ht) hc (by simpa using hk) hv (by simpa using hr)
        · cases hv
    · split at h
      · rename_i ht
        exact .returned (by simpa using ht) h
      · cases h
  · rename_i hsimple
    split at h
    · rename_i ht
      obtain ⟨c, hc, hk, hv⟩ := mem_decoratedValues.mp h
      have hlt := sizeOf_lt_of_mem_children hc
      exact .decorated (by simpa using ht) hc hk (valueIn_of_mem_values hv)
    · rename_i ht
      exact .compound (by simpa using hsimple) (by simpa using ht)
        (valueInPart_of_mem_partValues (by simp) h)
termination_by (sizeOf t, 1)

theorem valueInPart_of_mem_partValues {t v : Tree} {definition : Bool}
    (hd : definition = true → t.kind = .functionDefinition)
    (h : v ∈ partValues definition t.children) : ValueInPart t v := by
  rw [partValues_eq] at h
  obtain ⟨c, hc, hv⟩ := List.mem_flatMap.mp h
  have hlt := sizeOf_lt_of_mem_children hc
  unfold partValue at hv
  split at hv
  · rename_i hk
    obtain ⟨s, hs, hcomment, hv⟩ := mem_bodyValues.mp hv
    have hlt' := sizeOf_lt_of_mem_children hs
    exact .body hc (by simpa using hk) (mem_parts.mpr ⟨hs, hcomment⟩) (valueIn_of_mem_values hv)
  · split at hv
    · rename_i hk
      obtain ⟨hk, hdefinition⟩ : c.kind = .parameters ∧ definition = true := by simpa using hk
      obtain ⟨d, hmem, hv⟩ := List.mem_flatMap.mp hv
      obtain ⟨hkd, hv, hr⟩ := mem_defaultValues.mp hv
      exact .parameter (hd hdefinition) hc hk hmem hkd hv hr
    · split at hv
      · rename_i hk
        exact .clause hc hk (valueInPart_of_mem_partValues (by simp) hv)
      · cases hv
termination_by (sizeOf t, 0)

end

theorem mem_values {t v : Tree} : v ∈ values t ↔ ValueIn t v :=
  ⟨valueIn_of_mem_values, mem_values_of_valueIn⟩

/-! ## Values lie one behind the other -/

theorem nestedIn_flatMap {a b : Nat} {ts : List Tree} {f : Tree → List Tree}
    (h : NestedIn a b ts) (hf : ∀ t ∈ ts, t.Nested → NestedIn t.start t.stop (f t)) :
    NestedIn a b (ts.flatMap f) := by
  induction ts generalizing a with
  | nil => exact h
  | cons t ts ih =>
    obtain ⟨ha, ht, hts⟩ := nestedIn_cons.mp h
    have hfirst := (hf t (by simp) ht).mono ha (Nat.le_refl _)
    rw [List.flatMap_cons]
    exact hfirst.append (ih hts fun u hu => hf u (by simp [hu]))

theorem nestedIn_none {t : Tree} (h : t.Nested) : NestedIn t.start t.stop [] :=
  nestedIn_nil.mpr h.le

theorem assignedValues_eq (ts : List Tree) : assignedValues ts = ts.flatMap assignedValue := by
  induction ts with
  | nil => rw [assignedValues, List.flatMap_nil]
  | cons t ts ih => rw [assignedValues, ih, List.flatMap_cons]

theorem nestedIn_assignedValue {t : Tree} (h : t.Nested) :
    NestedIn t.start t.stop (assignedValue t) := by
  rw [assignedValue_eq]
  split
  · split
    · rw [assignedValues_eq]
      refine nestedIn_flatMap h.children fun c hc hn => ?_
      have hlt := sizeOf_lt_of_mem_children hc
      exact nestedIn_assignedValue hn
    · exact .singleton h (Nat.le_refl _) (Nat.le_refl _)
  · exact nestedIn_none h
termination_by sizeOf t

theorem nestedIn_expressionValues {t : Tree} (h : t.Nested) :
    NestedIn t.start t.stop (expressionValues t) := by
  unfold expressionValues
  split
  · rw [assignedValues_eq]
    exact nestedIn_flatMap h.children fun c _ hn => nestedIn_assignedValue hn
  · split
    · exact h.children.sublist List.filter_sublist
    · exact nestedIn_none h

theorem nestedIn_simpleValues {t : Tree} (h : t.Nested) :
    NestedIn t.start t.stop (simpleValues t) := by
  unfold simpleValues
  split
  · exact nestedIn_flatMap h.parts fun c _ hn => nestedIn_expressionValues hn
  · split
    · exact h.parts
    · exact nestedIn_none h

theorem nestedIn_defaultValues {t : Tree} (h : t.Nested) :
    NestedIn t.start t.stop (defaultValues t) := by
  unfold defaultValues
  split
  · exact h.children.sublist List.filter_sublist
  · exact nestedIn_none h

theorem decoratedValues_eq (ts : List Tree) :
    decoratedValues ts = ts.flatMap fun t => if t.kind.isCompound then values t else [] := by
  induction ts with
  | nil => rw [decoratedValues, List.flatMap_nil]
  | cons t ts ih => rw [decoratedValues, ih, List.flatMap_cons]

theorem bodyValues_eq (ts : List Tree) :
    bodyValues ts = ts.flatMap fun t => if t.kind == .comment then [] else values t := by
  induction ts with
  | nil => rw [bodyValues, List.flatMap_nil]
  | cons t ts ih => rw [bodyValues, ih, List.flatMap_cons]

mutual

theorem nestedIn_values {t : Tree} (h : t.Nested) : NestedIn t.start t.stop (values t) := by
  rw [values_eq]
  split
  · exact nestedIn_simpleValues h
  · split
    · rw [decoratedValues_eq]
      refine nestedIn_flatMap h.children fun c hc hn => ?_
      have hlt := sizeOf_lt_of_mem_children hc
      split
      · exact nestedIn_values hn
      · exact nestedIn_none hn
    · rw [partValues_eq]
      refine nestedIn_flatMap h.children fun c hc hn => ?_
      have hlt := sizeOf_lt_of_mem_children hc
      exact nestedIn_partValue hn
termination_by (sizeOf t, 0)

theorem nestedIn_partValue {definition : Bool} {t : Tree} (h : t.Nested) :
    NestedIn t.start t.stop (partValue definition t) := by
  unfold partValue
  split
  · rw [bodyValues_eq]
    refine nestedIn_flatMap h.children fun c hc hn => ?_
    have hlt := sizeOf_lt_of_mem_children hc
    split
    · exact nestedIn_none hn
    · exact nestedIn_values hn
  · split
    · exact nestedIn_flatMap h.children fun c _ hn => nestedIn_defaultValues hn
    · split
      · rw [partValues_eq]
        refine nestedIn_flatMap h.children fun c hc hn => ?_
        have hlt := sizeOf_lt_of_mem_children hc
        exact nestedIn_partValue hn
      · exact nestedIn_none h
termination_by (sizeOf t, 0)

end

theorem nestedIn_bodyValues {a b : Nat} {ts : List Tree} (h : NestedIn a b ts) :
    NestedIn a b (bodyValues ts) := by
  rw [bodyValues_eq]
  refine nestedIn_flatMap h fun t _ ht => ?_
  split
  · exact nestedIn_none ht
  · exact nestedIn_values ht

end Tree

end PointMutation
