import PointMutation.Declaration
import PointMutation.Proofs.Number.Literal
import PointMutation.Proofs.Random.Ranges

/-!
# Drawing a declaration

Names are drawn until one of them is not reserved (`Declaration.DrawsName`). That need not come to
an end, so a drawing gives up behind a thousand reserved ones and takes a row of the same letter.
Either way what is drawn is well formed: a name of the length that was asked for, and a value of the
kind that was chosen (`Declaration.WellFormed`).
-/

namespace PointMutation

/-! ## Letters -/

namespace RandomSource

theorem isLower_of_mem : ∀ c ∈ lowercase, c.isLower = true := Text.forall_of_all (by decide)

theorem isAlphanum_of_mem : ∀ c ∈ alphanumeric, c.isAlphanum = true :=
  Text.forall_of_all (by decide)

theorem letters_mem (n : Nat) (r : RandomSource) : ∀ c ∈ (r.letters n).1, c ∈ alphanumeric := by
  induction n generalizing r with
  | zero => simp [letters]
  | succ n ih =>
    intro c hc
    rcases List.mem_cons.mp hc with rfl | hc
    · exact pick_mem (by decide) r
    · exact ih _ c hc

theorem letters_length (n : Nat) (r : RandomSource) : (r.letters n).1.length = n := by
  induction n generalizing r with
  | zero => rfl
  | succ n ih => exact congrArg (· + 1) (ih _)

end RandomSource

namespace Declaration

/-- A lowercase letter with letters and digits behind it. -/
inductive IsWord : Text → Prop
  | mk {c : Char} {cs : Text} (hc : c.isLower = true) (hcs : ∀ d ∈ cs, d.isAlphanum = true) :
    IsWord (c :: cs)

theorem identifier_isWord (n : Nat) (r : RandomSource) :
    ∃ w r', r.identifier (n + 1) = (.ok w, r') ∧ w.length = n + 1 ∧ IsWord w := by
  refine ⟨_, _, rfl, congrArg (· + 1) (RandomSource.letters_length n _), .mk ?_ fun d hd => ?_⟩
  · exact RandomSource.isLower_of_mem _ (RandomSource.pick_mem (by decide) r)
  · exact RandomSource.isAlphanum_of_mem d (RandomSource.letters_mem n _ d hd)

/-! ## Names -/

/-- Words are drawn from a source until one is not reserved. -/
inductive DrawsName (length : Nat) : RandomSource → Text → RandomSource → Prop
  | free {r r' : RandomSource} {w : Text} (hdraw : r.identifier length = (.ok w, r'))
      (hfree : w ∉ reservedNames) : DrawsName length r w r'
  | again {r r₁ r' : RandomSource} {v w : Text} (hdraw : r.identifier length = (.ok v, r₁))
      (hreserved : v ∈ reservedNames) (hrest : DrawsName length r₁ w r') : DrawsName length r w r'

/-- So many words are drawn from a source, and all of them are reserved. -/
inductive DrawsReserved (length : Nat) : Nat → RandomSource → RandomSource → Prop
  | none (r : RandomSource) : DrawsReserved length 0 r r
  | more {k : Nat} {r r₁ r' : RandomSource} {v : Text} (hdraw : r.identifier length = (.ok v, r₁))
      (hreserved : v ∈ reservedNames) (hrest : DrawsReserved length k r₁ r') :
    DrawsReserved length (k + 1) r r'

/-- A word of some length that is not reserved. -/
structure IsNameOf (length : Nat) (w : Text) : Prop where
  length : w.length = length
  word : IsWord w
  free : w ∉ reservedNames

theorem isWord_of_identifier {n : Nat} {r r' : RandomSource} {w : Text}
    (h : r.identifier n = (.ok w, r')) : w.length = n ∧ IsWord w := by
  cases n with
  | zero => cases h
  | succ n =>
    obtain ⟨v, r₁, hdraw, hv⟩ := identifier_isWord n r
    rw [hdraw] at h
    cases h
    exact hv

theorem DrawsName.isNameOf {length : Nat} {r r' : RandomSource} {w : Text}
    (h : DrawsName length r w r') : IsNameOf length w := by
  induction h with
  | free hdraw hfree =>
    obtain ⟨hlength, hword⟩ := isWord_of_identifier hdraw
    exact ⟨hlength, hword, hfree⟩
  | again _ _ _ ih => exact ih

/-- No single letter is reserved. -/
theorem not_drawsReserved_one {k : Nat} {r r' : RandomSource} :
    ¬ DrawsReserved 1 (k + 1) r r' := by
  have hlength : ∀ w ∈ reservedNames, w.length ≠ 1 := by decide
  intro h
  cases h with
  | more hdraw hreserved _ => exact hlength _ hreserved (isWord_of_identifier hdraw).1

/-- The letter that a drawing takes when it gives up begins no reserved word. -/
theorem isNameOf_replicate (n : Nat) : IsNameOf (n + 1) (List.replicate (n + 1) 'x') := by
  refine ⟨List.length_replicate, .mk (by decide) fun d hd => ?_, fun hmem => ?_⟩
  · rw [List.eq_of_mem_replicate hd]
    decide
  · have hx : ∀ w ∈ reservedNames, w.head? ≠ some 'x' := by decide
    exact hx _ hmem rfl

/-- A drawing with an end draws until a word is not reserved, unless it gives up behind reserved
words only. -/
theorem drawNameWithin_draws (n fuel : Nat) (r : RandomSource) :
    ∃ w r', drawNameWithin (n + 1) fuel r = (.ok w, r') ∧
      (DrawsName (n + 1) r w r' ∨
        w = List.replicate (n + 1) 'x' ∧ DrawsReserved (n + 1) fuel r r') := by
  induction fuel generalizing r with
  | zero => exact ⟨_, _, rfl, .inr ⟨rfl, .none r⟩⟩
  | succ fuel ih =>
    obtain ⟨v, r₁, hdraw, -, -⟩ := identifier_isWord n r
    rw [drawNameWithin, hdraw]
    dsimp only
    split
    · next hreserved =>
      obtain ⟨w, r', hrest, hw⟩ := ih r₁
      rw [List.contains_iff_mem] at hreserved
      refine ⟨w, r', hrest, ?_⟩
      rcases hw with hw | ⟨hw, hall⟩
      · exact .inl (.again hdraw hreserved hw)
      · exact .inr ⟨hw, .more hdraw hreserved hall⟩
    · next hfree =>
      rw [List.contains_iff_mem] at hfree
      exact ⟨v, r₁, rfl, .inl (.free hdraw hfree)⟩

/-! ## Values -/

/-- A decimal from zero up to one, exactly and as it is read. -/
structure IsBelowOne (n : Nat) (k : Int) : Prop where
  lt : Double.decimalValue n k < 1
  readNonneg : Double.le .zero (.ofDecimal false n k) = true
  readLt : Double.lt (.ofDecimal false n k) (.ofInt 1) = true

/-- Digits with a point that spell a decimal from zero up to one. -/
inductive IsFraction : Text → Prop
  | mk {whole part : Text} (hdecimal : Double.IsDecimal whole part)
      (hvalue : IsBelowOne (Double.spelled (whole ++ part)) (-(part.length : Int))) :
    IsFraction (whole ++ '.' :: part)

/-- A value of some kind, as it is written. -/
inductive IsValueOf : ValueKind → Text → Prop
  | int {n : Nat} (hlow : 2 ≤ n) (hhigh : n ≤ 1000) : IsValueOf .int (Nat.toDigits 10 n)
  | float {v : Text} (h : IsFraction v) : IsValueOf .float v
  | double {v : Text} (h : IsFraction v) : IsValueOf .double v
  | str {w : Text} (h : IsWord w) (hlow : 3 ≤ w.length) (hhigh : w.length ≤ 30) :
    IsValueOf .str ('"' :: w ++ ['"'])

/-- The literal of a number below one is a fraction. -/
theorem isFraction_literal {m : Nat} {e : Int} (hm : Double.IsMantissa m e) (he : e ≤ -53) :
    IsFraction (Double.finite false m e).literal := by
  obtain ⟨whole, part, hdecimal, htext, hzero, hnear⟩ := Double.literal_near false hm
  have hread := Double.ofDecimal_of_near_zero false hm hzero hnear
  have hpow : (2 : ℚ) ^ (53 + e) ≤ 1 := zpow_le_one_of_nonpos₀ (by norm_num) (by omega)
  have hratio : Double.ratio false m e < 1 :=
    (Double.lt_pow_of_near hm (Double.near_self m e)).trans_le hpow
  rw [htext]
  refine .mk hdecimal ⟨(Double.lt_pow_of_near hm hnear).trans_le hpow, ?_, ?_⟩
  · have hnonneg : (0 : ℚ) ≤ m * 2 ^ e := by positivity
    rw [hread, Double.zero, Double.le_finite_iff]
    simpa [Double.ratio] using hnonneg
  · rw [hread, show Double.ofInt 1 = .finite false (2 ^ 52) (-52) by rfl, Double.lt_finite_iff]
    refine hratio.trans_eq ?_
    norm_num [Double.ratio]

theorem isFraction_unit (r : RandomSource) : IsFraction r.unit.1.literal := by
  obtain ⟨m, e, h, hm, he, -⟩ := r.unit_eq
  rw [h]
  exact isFraction_literal hm he

theorem drawValue_isValueOf (kind : ValueKind) (r : RandomSource) :
    ∃ v r', drawValue kind r = (.ok v, r') ∧ IsValueOf kind v := by
  cases kind with
  | int =>
    obtain ⟨hlow, hhigh⟩ := r.intIn_mem (show (2 : Int) ≤ 1000 by decide) (by decide)
    refine ⟨_, _, rfl, ?_⟩
    generalize (r.intIn 2 1000).1 = i at hlow hhigh
    obtain ⟨n, rfl⟩ := Int.eq_ofNat_of_zero_le (by omega : 0 ≤ i)
    show IsValueOf .int (toString (Int.ofNat n)).toList
    rw [Int.toString_eq_repr, Int.repr, Nat.toList_repr]
    exact .int (by omega) (by omega)
  | float => exact ⟨_, _, rfl, .float (isFraction_unit r)⟩
  | double => exact ⟨_, _, rfl, .double (isFraction_unit r)⟩
  | str =>
    obtain ⟨hlow, hhigh⟩ := r.intIn_mem (show (3 : Int) ≤ 30 by decide) (by decide)
    rw [drawValue]
    generalize r.intIn 3 30 = drawn at hlow hhigh
    obtain ⟨i, r₁⟩ := drawn
    obtain ⟨n, rfl⟩ := Int.eq_ofNat_of_zero_le (by omega : 0 ≤ i)
    obtain ⟨n, rfl⟩ := Nat.exists_eq_add_of_lt (by omega : 0 < n)
    obtain ⟨w, r', hdraw, hlength, hw⟩ := identifier_isWord (0 + n) r₁
    refine ⟨_, r', ?_, .str hw (by omega) (by omega)⟩
    dsimp only
    rw [drawQuoted, Int.toNat_natCast, hdraw]

/-! ## Declarations -/

/-- What a declaration comes to behind its name. -/
def finish (p : Pattern) (name : Text) (r : RandomSource) :
    Except Fault Declaration × RandomSource :=
  let kind := (r.choose p.kinds).1.getD .int
  match drawValue kind (r.choose p.kinds).2 with
  | (.error e, r) => (.error e, r)
  | (.ok value, r) => (.ok ⟨name, kind, value, p.annotated⟩, r)

theorem draw_eq (p : Pattern) (r : RandomSource) :
    draw p r = match drawName p.nameLength r with
      | (.error e, r) => (.error e, r)
      | (.ok name, r) => finish p name r := rfl

/-- A declaration is drawn, with as many names as it takes. -/
inductive Draws (p : Pattern) (r : RandomSource) (d : Declaration) (r' : RandomSource) : Prop
  | mk {name : Text} {r₁ : RandomSource} (hname : DrawsName p.nameLength r name r₁)
      (hrest : finish p name r₁ = (.ok d, r'))

/-- A declaration that a pattern asks for. -/
structure WellFormed (p : Pattern) (d : Declaration) : Prop where
  name : IsNameOf p.nameLength d.name
  kind : d.kind ∈ p.kinds ∨ p.kinds = [] ∧ d.kind = .int
  value : IsValueOf d.kind d.value
  annotated : d.annotated = p.annotated

theorem finish_wellFormed {p : Pattern} {name : Text} (hname : IsNameOf p.nameLength name)
    (r : RandomSource) :
    ∃ d r', finish p name r = (.ok d, r') ∧ d.name = name ∧ WellFormed p d := by
  have hkind : (r.choose p.kinds).1.getD .int ∈ p.kinds ∨
      p.kinds = [] ∧ (r.choose p.kinds).1.getD .int = .int := by
    by_cases hempty : p.kinds = []
    · rw [hempty]
      exact .inr ⟨rfl, rfl⟩
    · obtain ⟨k, r₁, hchoose, hmem⟩ := r.choose_mem hempty
      rw [hchoose]
      exact .inl hmem
  obtain ⟨v, r', hvalue, hv⟩ := drawValue_isValueOf ((r.choose p.kinds).1.getD .int)
    (r.choose p.kinds).2
  refine ⟨⟨name, (r.choose p.kinds).1.getD .int, v, p.annotated⟩, r', ?_, rfl,
    ⟨hname, hkind, hv, rfl⟩⟩
  rw [finish, hvalue]

theorem Draws.wellFormed {p : Pattern} {r r' : RandomSource} {d : Declaration}
    (h : Draws p r d r') : WellFormed p d := by
  obtain ⟨hname, hrest⟩ := h
  obtain ⟨d', r₁, hfinish, -, hd⟩ := finish_wellFormed hname.isNameOf _
  rw [hfinish] at hrest
  cases hrest
  exact hd

/-- A drawing gives a well-formed declaration, even if it gives up the names behind a thousand
reserved ones. -/
theorem draw_wellFormed {p : Pattern} (h : p.nameLength ≠ 0) (r : RandomSource) :
    ∃ d r', draw p r = (.ok d, r') ∧ WellFormed p d ∧
      (Draws p r d r' ∨ ∃ r₁, DrawsReserved p.nameLength 1000 r r₁) := by
  obtain ⟨n, hn⟩ := Nat.exists_eq_succ_of_ne_zero h
  obtain ⟨w, r₁, hdraw, hw⟩ := drawNameWithin_draws n 1000 r
  rw [← Nat.succ_eq_add_one, ← hn] at hdraw hw
  have hname : IsNameOf p.nameLength w := by
    rcases hw with hw | ⟨rfl, -⟩
    · exact hw.isNameOf
    · rw [hn]
      exact isNameOf_replicate n
  obtain ⟨d, r', hfinish, rfl, hd⟩ := finish_wellFormed hname r₁
  refine ⟨d, r', ?_, hd, hw.imp (fun hw => .mk hw hfinish) fun hw => ⟨r₁, hw.2⟩⟩
  rw [draw_eq, drawName, hdraw]
  exact hfinish

end Declaration

end PointMutation
