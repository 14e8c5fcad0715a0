import PointMutation.Mutator.Insertion
import PointMutation.Proofs.Declaration.Drawing
import PointMutation.Proofs.Declaration.Reading
import PointMutation.Proofs.Text.Lines

/-!
# Declarations as statements

A declaration that is well formed is read as one assignment to its name, with a type if it is
annotated, and its text is a snippet that can be inserted (`Declaration.WellFormed.isAssignment`).
So is every declaration that is drawn, however long the names take
(`Declaration.drawn_isAssignment`).
-/

namespace PointMutation

open Syntax (IsName IsValue Assigned nameNode typeNode valueNode statementNode literalKind)

/-! ## Letters -/

namespace RandomSource

theorem mem_of_toNat {alphabet : List Char} {c : Char} (h : c.toNat ∈ alphabet.map Char.toNat) :
    c ∈ alphabet := by
  obtain ⟨d, hd, heq⟩ := List.mem_map.mp h
  rwa [← Char.toNat_inj.mp heq]

theorem mem_lowercase {c : Char} (h : c.isLower = true) : c ∈ lowercase := by
  have hall : ∀ n < 123, 97 ≤ n → n ∈ lowercase.map Char.toNat := by decide +kernel
  delta Char.isLower at h
  simp only [Bool.and_eq_true, decide_eq_true_eq, ge_iff_le, UInt32.le_iff_toNat_le] at h
  exact mem_of_toNat (hall c.toNat (Nat.lt_succ_of_le h.2) h.1)

theorem mem_alphanumeric {c : Char} (h : c.isAlphanum = true) : c ∈ alphanumeric := by
  have hall : ∀ n < 123, 48 ≤ n ∧ n ≤ 57 ∨ 65 ≤ n ∧ n ≤ 90 ∨ 97 ≤ n ∧ n ≤ 122 →
      n ∈ alphanumeric.map Char.toNat := by decide +kernel
  delta Char.isAlphanum Char.isAlpha Char.isUpper Char.isLower Char.isDigit at h
  simp only [Bool.or_eq_true, Bool.and_eq_true, decide_eq_true_eq, ge_iff_le,
    UInt32.le_iff_toNat_le] at h
  change ((65 ≤ c.toNat ∧ c.toNat ≤ 90) ∨ 97 ≤ c.toNat ∧ c.toNat ≤ 122) ∨
    48 ≤ c.toNat ∧ c.toNat ≤ 57 at h
  exact mem_of_toNat (hall c.toNat (by omega) (by omega))

end RandomSource

namespace Declaration

/-! ## Names and values -/

theorem IsNameOf.isName {n : Nat} {w : Text} (h : IsNameOf n w) : IsName w := by
  obtain ⟨-, hword, hfree⟩ := h
  cases hword with
  | mk hc hcs => exact ⟨⟨_, _, rfl, RandomSource.mem_lowercase hc,
      fun d hd => RandomSource.mem_alphanumeric (hcs d hd)⟩, hfree⟩

/-- The kind of the node that a value is. -/
def operandKind : ValueKind → Kind
  | .int => .integer
  | .float | .double => .float
  | .str => .string

theorem IsFraction.isValue {v : Text} (h : IsFraction v) :
    IsValue v ∧ literalKind v = .float := by
  obtain ⟨hdecimal, -⟩ := h
  exact ⟨.decimal hdecimal.front_ne hdecimal.front hdecimal.behind,
    Syntax.literalKind_decimal hdecimal.front_ne hdecimal.front hdecimal.behind⟩

theorem IsValueOf.isValue {k : ValueKind} {v : Text} (h : IsValueOf k v) :
    IsValue v ∧ literalKind v = operandKind k := by
  cases h with
  | @int n hlow hhigh =>
    have hdigits : ∀ d ∈ Nat.toDigits 10 n, d.isDigit = true := fun d =>
      Double.isDigit_of_mem_toDigits
    exact ⟨.whole Nat.toDigits_ne_nil hdigits,
      Syntax.literalKind_whole Nat.toDigits_ne_nil hdigits⟩
  | float h => exact h.isValue
  | double h => exact h.isValue
  | str h hlow hhigh =>
    obtain ⟨hc, hcs⟩ := h
    refine ⟨.quoted (by simp) fun d hd => RandomSource.mem_alphanumeric ?_,
      Syntax.literalKind_quoted _⟩
    rcases List.mem_cons.mp hd with rfl | hd
    · show (_ || d.isLower || d.isDigit) = true
      simp [hc]
    · exact hcs d hd

theorem kindName_isName (kind : ValueKind) : IsName kind.name.toList := by
  refine ⟨?_, by cases kind <;> decide⟩
  cases kind with
  | int => exact ⟨'i', "nt".toList, rfl, by decide, Text.forall_of_all (by decide)⟩
  | float => exact ⟨'f', "loat".toList, rfl, by decide, Text.forall_of_all (by decide)⟩
  | double => exact ⟨'d', "ouble".toList, rfl, by decide, Text.forall_of_all (by decide)⟩
  | str => exact ⟨'s', "tr".toList, rfl, by decide, Text.forall_of_all (by decide)⟩

theorem kindName_ne_match (kind : ValueKind) : kind.name.toList ≠ "match".toList := by
  cases kind <;> decide

/-! ## Assignments -/

/-- The parts of the assignment that a declaration is. -/
def nodes (d : Declaration) : List Tree :=
  .node .identifier (some .left) 0 d.name.length [] ::
    ((if d.annotated then [typeNode d.kind.name.toList (d.name.length + 2)] else []) ++
      [.node (operandKind d.kind) (some .right) (d.text.length - d.value.length) d.text.length []])

/-- The text of a declaration is an assignment with certain parts, and nothing else. It can be
inserted as it is. -/
structure IsAssignment (d : Declaration) : Prop where
  tree : parse d.text =
    .ok (.node .file none 0 d.text.length [statementNode 0 d.text.length d.nodes])
  snippet : Insertion.snippetOf d.text = .ok (.free d.text false)

theorem WellFormed.assigned {p : Pattern} {d : Declaration} (h : WellFormed p d) :
    ∃ t, d.text = d.name ++ t ∧ Assigned d.name 0 t d.nodes := by
  obtain ⟨hvalue, hkind⟩ := h.value.isValue
  obtain ⟨name, kind, value, annotated⟩ := d
  cases annotated with
  | false =>
    have htext : text ⟨name, kind, value, false⟩ = name ++ ' ' :: '=' :: ' ' :: value := by
      simp [text]
    have hnodes : nodes ⟨name, kind, value, false⟩ =
        [nameNode name 0, valueNode value (0 + name.length + 3)] := by
      simp [nodes, nameNode, valueNode, htext, hkind]
      omega
    rw [hnodes]
    exact ⟨_, htext, .plain hvalue⟩
  | true =>
    have htext : text ⟨name, kind, value, true⟩ =
        name ++ ':' :: ' ' :: (kind.name.toList ++ ' ' :: '=' :: ' ' :: value) := by
      simp [text]
    have hnodes : nodes ⟨name, kind, value, true⟩ =
        [nameNode name 0, typeNode kind.name.toList (0 + name.length + 2),
          valueNode value (0 + name.length + 2 + kind.name.toList.length + 3)] := by
      simp [nodes, nameNode, valueNode, htext, hkind]
      omega
    rw [hnodes]
    exact ⟨_, htext, .annotated (kindName_isName kind) (kindName_ne_match kind) hvalue⟩

/-- A text that is one statement and nothing else is a snippet as it is. -/
theorem snippetOf_of_parse {t : Text} {ts : List Tree}
    (h : parse t = .ok (.node .file none 0 t.length [statementNode 0 t.length ts])) :
    Insertion.snippetOf t = .ok (.free t false) := by
  have hread : Snippet.read t = .ok (.free t false) := by
    delta Snippet.read
    rw [h]
    have hslice : Text.slice t 0 t.length = t := List.take_length
    exact congrArg (fun u => Except.ok (Snippet.free u false)) hslice
  delta Insertion.snippetOf
  rw [hread]
  rfl

theorem WellFormed.isAssignment {p : Pattern} {d : Declaration} (h : WellFormed p d) :
    IsAssignment d := by
  obtain ⟨t, htext, hassigned⟩ := h.assigned
  have hread := Syntax.readTree_declaration h.name.isName hassigned
  rw [← htext] at hread
  generalize hnodes : d.nodes = ts at hread
  have hparse : parse d.text =
      .ok (.node .file none 0 d.text.length [statementNode 0 d.text.length d.nodes]) := by
    rw [hnodes]
    generalize d.text = u at hread ⊢
    rw [parse, hread]
  exact ⟨hparse, snippetOf_of_parse hparse⟩

end Declaration

/-! ## Breaks -/

namespace Syntax

theorem IsValue.noBreak {v : Text} (h : IsValue v) : '\n' ∉ v := by
  have hdigits : ∀ ds : Text, (∀ d ∈ ds, d.isDigit = true) → '\n' ∉ ds :=
    fun ds h hmem => absurd (h _ hmem) (by decide)
  have hletters : '\n' ∉ RandomSource.alphanumeric := by decide
  cases h with
  | whole hne h => exact hdigits _ h
  | decimal hne h h' => simp [hdigits _ h, hdigits _ h']
  | quoted hne h =>
    simp only [List.cons_append, List.mem_cons, List.mem_append, List.not_mem_nil, or_false,
      not_or]
    exact ⟨by decide, fun hmem => hletters (h _ hmem), by decide⟩

theorem IsName.noBreak {w : Text} (h : IsName w) : '\n' ∉ w := by
  obtain ⟨c, cs, rfl, hc, hcs⟩ := h.letters
  have hlower : '\n' ∉ RandomSource.lowercase := by decide
  have hletters : '\n' ∉ RandomSource.alphanumeric := by decide
  rintro (_ | ⟨_, hmem⟩)
  · exact hlower hc
  · exact hletters (hcs _ hmem)

theorem Declared.noBreak {t : Text} (h : Declared t) : '\n' ∉ t := by
  cases h with
  | plain hv => simp [hv.noBreak]
  | annotated hk hmatch hv => simp [hk.noBreak, hv.noBreak]

end Syntax

namespace Declaration

theorem WellFormed.noBreak {p : Pattern} {d : Declaration} (h : WellFormed p d) :
    '\n' ∉ d.text := by
  obtain ⟨t, htext, hassigned⟩ := h.assigned
  rw [htext]
  simp [h.name.isName.noBreak, hassigned.declared.noBreak]

theorem WellFormed.text_ne_nil {p : Pattern} {d : Declaration} (h : WellFormed p d) :
    d.text ≠ [] := by
  obtain ⟨t, htext, -⟩ := h.assigned
  rw [htext]
  exact List.append_ne_nil_of_left_ne_nil h.name.isName.ne_nil t

/-! ## Drawn declarations -/

/-- Whatever is drawn for names of at least one character is a well-formed declaration, and its
text is an assignment and nothing else, however many names that takes. So is what is drawn by giving
up behind a thousand reserved names, so that a machine draws a snippet in any state. -/
theorem drawn_isAssignment {p : Pattern} (h : 1 ≤ p.nameLength) (r : RandomSource) :
    (∀ d r', Draws p r d r' → WellFormed p d ∧ IsAssignment d) ∧
    ∃ d r', draw p r = (.ok d, r') ∧
      (Draws p r d r' ∨ ∃ r₁, DrawsReserved p.nameLength 1000 r r₁) ∧
      WellFormed p d ∧ IsAssignment d ∧
      ∀ m : Insertion, m.pattern = p → m.random = r →
        Insertion.draw m = (.ok (.free d.text false), { m with random := r' }) := by
  refine ⟨fun d r' hd => ⟨hd.wellFormed, hd.wellFormed.isAssignment⟩, ?_⟩
  obtain ⟨d, r', hdraw, hd, hdraws⟩ := draw_wellFormed (Nat.one_le_iff_ne_zero.mp h) r
  refine ⟨d, r', hdraw, hdraws, hd, hd.isAssignment, fun m hpattern hrandom => ?_⟩
  rw [Insertion.draw, hpattern, hrandom, hdraw]
  exact Prod.ext hd.isAssignment.snippet rfl

/-- A name of one letter with a number. -/
theorem drawn_isAssignment_single :
    ∃ (p : Pattern) (r : RandomSource) (d : Declaration) (r' : RandomSource), 1 ≤ p.nameLength ∧
      d.text = "u = 774".toList ∧ draw p r = (.ok d, r') ∧ Draws p r d r' ∧ WellFormed p d ∧
      IsAssignment d := by
  let p : Pattern := ⟨1, [.int], false⟩
  obtain ⟨-, d, r', hdraw, hdraws, hd, hassignment, -⟩ :=
    drawn_isAssignment (p := p) (by decide) (.seeded 0)
  have hvalue : (draw p (.seeded 0)).1 = .ok ⟨['u'], .int, "774".toList, false⟩ := by
    decide +kernel
  rw [hdraw] at hvalue
  cases hvalue
  refine ⟨p, .seeded 0, _, r', by decide, by decide, hdraw, ?_, hd, hassignment⟩
  exact hdraws.resolve_right fun ⟨_, hreserved⟩ => not_drawsReserved_one hreserved

end Declaration

end PointMutation
