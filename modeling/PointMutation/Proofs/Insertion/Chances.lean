import PointMutation.Proofs.Insertion.Setup
import PointMutation.Proofs.Mutator.Attempts
import PointMutation.Proofs.Random.Ranges

/-!
# Insertions with a greater probability

What is drawn at a line does not depend on the probability, only whether the coin there succeeds
does. So two machines that draw from the same source draw alike up to the first line at which the
one with the greater probability works, and the other one has worked at no line before it
(`Bolder.pass_worksAt`). As long as both work nowhere, a pass leaves them with the same source
again, so that the same holds of the passes of a run (`Bolder.passes`).
-/

namespace PointMutation

namespace Insertion

open Outline (Spot)

/-! ## Draws with different probabilities -/

section

variable {pattern : Declaration.Pattern} {p p' : Double} {xs : List Spot} {r r' : RandomSource}

/-- The draws come to an end. -/
theorem sequence_ok (hd : Declares pattern) (p : Double) (xs : List Spot) (r : RandomSource) :
    ∃ found r', sequence pattern p xs r = (.ok found, r') := by
  induction xs generalizing r with
  | nil => exact ⟨none, r, rfl⟩
  | cons x xs ih =>
    obtain ⟨d, r₁, hdraw, -, -⟩ := hd r
    by_cases hcoin : (r₁.chance p).1 = true
    · exact ⟨_, _, sequence_of_success hdraw hcoin x xs⟩
    · rw [sequence_of_failure hdraw hcoin]
      exact ih _

theorem sequence_append_of_none (h : sequence pattern p xs r = (.ok none, r')) (ys : List Spot) :
    sequence pattern p (xs ++ ys) r = sequence pattern p ys r' :=
  show goOn pattern p none (xs ++ ys) r = goOn pattern p none ys r' from goOn_append ys h

theorem sequence_append_of_some {y : Declaration × Spot}
    (h : sequence pattern p xs r = (.ok (some y), r')) (ys : List Spot) :
    sequence pattern p (xs ++ ys) r = (.ok (some y), r') :=
  show goOn pattern p none (xs ++ ys) r = goOn pattern p (some y) ys r' from goOn_append ys h

/-- Where a coin succeeds, those at the lines before it have failed. -/
theorem exists_take_of_sequence {d : Declaration} {x : Spot}
    (h : sequence pattern p xs r = (.ok (some (d, x)), r')) :
    ∃ k r₁, xs[k]? = some x ∧ sequence pattern p (xs.take k) r = (.ok none, r₁) ∧
      sequence pattern p [x] r₁ = (.ok (some (d, x)), r') := by
  induction xs generalizing r with
  | nil => cases h
  | cons y ys ih =>
    obtain ⟨d', r₁, hdraw, ⟨hcoin, hfound, rfl⟩ | ⟨hcoin, hrest⟩⟩ := sequence_cases h
    · cases hfound
      exact ⟨0, r, rfl, rfl, sequence_of_success hdraw hcoin x []⟩
    · obtain ⟨k, r₂, hx, hvain, hline⟩ := ih hrest
      refine ⟨k + 1, r₂, hx, ?_, hline⟩
      rw [List.take_succ_cons, sequence_of_failure hdraw hcoin]
      exact hvain

/-- Where all coins fail, they fail with a smaller probability too, and leave the same source. -/
theorem sequence_none_of_le (hle : Double.le p p' = true)
    (h : sequence pattern p' xs r = (.ok none, r')) :
    sequence pattern p xs r = (.ok none, r') := by
  induction xs generalizing r with
  | nil => exact h
  | cons x xs ih =>
    obtain ⟨d, r₁, hdraw, ⟨-, hfound, -⟩ | ⟨hcoin, hrest⟩⟩ := sequence_cases h
    · cases hfound
    · have hcoin' : ¬ (r₁.chance p).1 = true := fun hp =>
        hcoin (RandomSource.chance_of_le hle hp)
      rw [sequence_of_failure hdraw hcoin']
      exact ih hrest

/-- A coin that succeeds at a line succeeds with a greater probability too. -/
theorem sequence_singleton_of_le (hle : Double.le p p' = true) {d : Declaration} {x : Spot}
    (h : sequence pattern p [x] r = (.ok (some (d, x)), r')) :
    sequence pattern p' [x] r = (.ok (some (d, x)), r') := by
  obtain ⟨d', r₁, hdraw, ⟨hcoin, hfound, rfl⟩ | ⟨-, hrest⟩⟩ := sequence_cases h
  · cases hfound
    exact sequence_of_success hdraw (RandomSource.chance_of_le hle hcoin) x []
  · cases hrest

end

/-! ## The line at which a pass works -/

/-- A pass works at the line with a number among those in front of which a declaration may stand:
the coins at the lines before it fail, the one at it succeeds, and what is drawn there is
inserted. -/
structure WorksAt (s : Source) (m : Insertion) (k : Nat) : Prop where
  worked : Machine.worked (Machine.pass s m).2 = true
  inserts : ∃ d x r, (spots s)[k]? = some x ∧
    sequence m.pattern m.probability ((spots s).take k) m.random = (.ok none, r) ∧
    sequence m.pattern m.probability [x] r = (.ok (some (d, x)), (Machine.pass s m).2.random) ∧
    (Machine.pass s m).1 = insertedAt s d x

section

variable {m m' : Insertion} {s : Source}

/-- The draws up to a line decide what a pass does. -/
theorem worksAt_of_sequence (hd : Declares m.pattern) (hm : m.traversal.worked = false) {k : Nat}
    {d : Declaration} {x : Spot} {r r' : RandomSource} (hx : (spots s)[k]? = some x)
    (hvain : sequence m.pattern m.probability ((spots s).take k) m.random = (.ok none, r))
    (hline : sequence m.pattern m.probability [x] r = (.ok (some (d, x)), r')) :
    WorksAt s m k ∧ (Machine.pass s m).1 = insertedAt s d x ∧
      (Machine.pass s m).2.random = r' := by
  obtain ⟨found, hsequence, hworked, hpass⟩ := pass_of_declares hd hm s
  obtain ⟨hk, hget⟩ := List.getElem?_eq_some_iff.mp hx
  have hspots : spots s = (spots s).take k ++ ([x] ++ (spots s).drop (k + 1)) := by
    rw [List.singleton_append, ← hget, List.getElem_cons_drop, List.take_append_drop]
  have hfound : sequence m.pattern m.probability (spots s) m.random = (.ok (some (d, x)), r') := by
    rw [hspots, sequence_append_of_none hvain, sequence_append_of_some hline]
  rw [hfound] at hsequence
  obtain ⟨hsome, hrandom⟩ := Prod.ext_iff.mp hsequence
  cases hsome
  dsimp only at hrandom
  rw [hrandom] at hline
  exact ⟨⟨hworked, d, x, r, hx, hvain, hline, hpass⟩, hpass, hrandom.symm⟩

theorem worked_iff_worksAt (hd : Declares m.pattern) (hm : m.traversal.worked = false)
    (s : Source) : Machine.worked (Machine.pass s m).2 = true ↔ ∃ k, WorksAt s m k := by
  refine ⟨fun h => ?_, fun ⟨k, h⟩ => h.worked⟩
  obtain ⟨found, hsequence, hworked, -⟩ := pass_of_declares hd hm s
  cases found with
  | none => exact absurd (h.symm.trans hworked) (by decide)
  | some y =>
    obtain ⟨k, r, hx, hvain, hline⟩ := exists_take_of_sequence hsequence
    exact ⟨k, (worksAt_of_sequence hd hm hx hvain hline).1⟩

/-- A pass works at one line only. -/
theorem WorksAt.unique {k l : Nat} (hk : WorksAt s m k) (hl : WorksAt s m l) : k = l := by
  have hle : ∀ {k l : Nat}, WorksAt s m k → WorksAt s m l → l ≤ k := by
    intro k l hk hl
    obtain ⟨-, d, x, r, hx, hvain, hline, -⟩ := hk
    obtain ⟨-, -, -, r', -, hvain', -, -⟩ := hl
    by_contra hlt
    -- The line is one of those at which the coins are to fail.
    obtain ⟨hk, hget⟩ := List.getElem?_eq_some_iff.mp hx
    have htake : (spots s).take l =
        (spots s).take k ++ ([x] ++ ((spots s).drop (k + 1)).take (l - (k + 1))) := by
      rw [← List.take_append_drop (k + 1) ((spots s).take l), List.take_take, List.drop_take,
        min_eq_left (by omega), List.take_succ_eq_append_getElem hk, hget, List.append_assoc]
    rw [htake, sequence_append_of_none hvain, sequence_append_of_some hline] at hvain'
    cases hvain'
  exact Nat.le_antisymm (hle hl hk) (hle hk hl)

/-! ## Two machines -/

/-- The second machine draws as the first one does, and inserts at least as probably. -/
structure Bolder (m m' : Insertion) : Prop where
  pattern : m'.pattern = m.pattern
  random : m'.random = m.random
  probability : Double.le m.probability m'.probability = true

namespace Bolder

/-- The bolder machine works no later. If it works at the same line, it does the same. -/
theorem pass_worksAt (h : Bolder m m') (hd : Declares m.pattern)
    (hm' : m'.traversal.worked = false) {k : Nat} (hk : WorksAt s m k) :
    ∃ k' ≤ k, WorksAt s m' k' ∧ (k' = k → (Machine.pass s m').1 = (Machine.pass s m).1 ∧
      (Machine.pass s m').2.random = (Machine.pass s m).2.random) := by
  have hd' : Declares m'.pattern := h.pattern ▸ hd
  obtain ⟨-, d, x, r, hx, hvain, hline, hpass⟩ := hk
  obtain ⟨found, r', hbefore⟩ := sequence_ok hd' m'.probability ((spots s).take k) m'.random
  cases found with
  | none =>
    -- The bolder machine comes to the line in the same state and works there as well.
    have hsame := sequence_none_of_le h.probability hbefore
    rw [h.pattern, h.random, hvain] at hsame
    obtain rfl : r = r' := (Prod.ext_iff.mp hsame).2
    have hline' := sequence_singleton_of_le h.probability hline
    rw [← h.pattern] at hline'
    obtain ⟨hworks, hpass', hrandom'⟩ := worksAt_of_sequence hd' hm' hx hbefore hline'
    exact ⟨k, Nat.le_refl k, hworks, fun _ => ⟨hpass'.trans hpass.symm, hrandom'⟩⟩
  | some y =>
    obtain ⟨k', r₁, hx', hvain', hline'⟩ := exists_take_of_sequence hbefore
    have hlt : k' < k := by
      have hlength := (List.getElem?_eq_some_iff.mp hx').1
      exact hlength.trans_le (List.length_take_le k (spots s))
    rw [List.getElem?_take_of_lt hlt] at hx'
    rw [List.take_take, min_eq_left hlt.le] at hvain'
    obtain ⟨hworks, -, -⟩ := worksAt_of_sequence hd' hm' hx' hvain' hline'
    exact ⟨k', hlt.le, hworks, fun heq => absurd heq hlt.ne⟩

/-- Where the bolder machine does not work, the other one does not either, and the two go on
alike. -/
theorem pass_in_vain (h : Bolder m m') (hd : Declares m.pattern) (hm : m.traversal.worked = false)
    (hm' : m'.traversal.worked = false) (hvain : Machine.worked (Machine.pass s m').2 = false) :
    (Machine.pass s m).1 = .ok s ∧ Machine.worked (Machine.pass s m).2 = false ∧
      Bolder (Machine.pass s m).2 (Machine.pass s m').2 := by
  have hd' : Declares m'.pattern := h.pattern ▸ hd
  obtain ⟨found, p, hsequence, hp, hpass⟩ := pass_eq hd hm s
  obtain ⟨found', p', hsequence', hp', hpass'⟩ := pass_eq hd' hm' s
  have hnone : found' = none := by
    rw [← Option.not_isSome_iff_eq_none, ← hp'.worked]
    rw [hpass'] at hvain
    exact Bool.not_eq_true _ ▸ hvain
  subst hnone
  have hsame := sequence_none_of_le h.probability hsequence'
  rw [h.pattern, h.random, hsequence] at hsame
  obtain ⟨hfound, hrandom⟩ := Prod.ext_iff.mp hsame
  cases hfound
  refine ⟨by rw [hpass]; rfl, by rw [hpass]; exact hp.worked, ?_, hrandom.symm, ?_⟩
  · rw [pass_pattern hd hm, pass_pattern hd' hm', h.pattern]
  · rw [hpass, hpass', hp.probability, hp'.probability]
    exact h.probability

/-- To begin anew makes a machine no less bold. -/
theorem reset (h : Bolder m m') : Bolder (Machine.reset m) (Machine.reset m') :=
  ⟨h.pattern, h.random, h.probability⟩

/-- Where the passes of the other machine come to work, those of the bolder one do so no later. -/
theorem passes {budget made : Nat} {o o' : Outcome} {m₁ m₁' : Insertion} (h : Bolder m m')
    (hd : Declares m.pattern) (hm : m.traversal.worked = false)
    (hm' : m'.traversal.worked = false)
    (hpasses : Machine.passes s made budget m = (.ok o, m₁))
    (hpasses' : Machine.passes s made budget m' = (.ok o', m₁')) (ho : o.worked = true) :
    o'.worked = true ∧ o'.attempts ≤ o.attempts := by
  induction budget generalizing made m m' with
  | zero =>
    cases hpasses
    cases ho
  | succ budget ih =>
    have hmade := Machine.lt_attempts_of_passes hpasses ho
    rw [Machine.passes] at hpasses hpasses'
    cases hpass' : Machine.pass s m' with
    | mk answer' n' =>
      cases answer' with
      | error e =>
        rw [hpass'] at hpasses'
        cases hpasses'
      | ok s' =>
        rw [hpass'] at hpasses'
        dsimp only at hpasses'
        cases hworked' : Machine.worked n' with
        | true =>
          rw [hworked', if_pos rfl] at hpasses'
          cases hpasses'
          exact ⟨rfl, hmade⟩
        | false =>
          -- Both have made a pass in vain and stand in front of the next one alike.
          rw [hworked'] at hpasses'
          have hvain : Machine.worked (Machine.pass s m').2 = false := by rw [hpass', hworked']
          obtain ⟨hanswer, hworked, hbolder⟩ := h.pass_in_vain hd hm hm' hvain
          have hd' : Declares (Machine.pass s m).2.pattern := (pass_pattern hd hm s).symm ▸ hd
          rw [← Prod.mk.eta (p := Machine.pass s m), hanswer] at hpasses
          dsimp only at hpasses
          rw [hworked] at hpasses
          rw [hpass'] at hbolder
          exact ih hbolder hd' hworked hworked' hpasses hpasses'

end Bolder

end

/-- With a greater probability and the same random source a pass works no later. It works at a line
with no greater number, and if that is the same line, it comes to the same source and leaves the
same random source. Of two runs with the same number of passes to make, it takes no more of them. -/
theorem pass_works_sooner {c : InsertionConfig} {p' : Double} (hc : c.validate = .ok ())
    (hle : Double.le c.probability p' = true) {m m' : Insertion} (hm : IsSetUp c m)
    (hm' : IsSetUp { c with probability := p' } m') (hrandom : m'.random = m.random) (s : Source) :
    (m.traversal.worked = false → m'.traversal.worked = false →
      (Machine.worked (Machine.pass s m).2 = true ↔ ∃ k, WorksAt s m k) ∧
      ∀ k, WorksAt s m k → ∃ k' ≤ k, (∀ l, WorksAt s m' l ↔ l = k') ∧
        (k' = k → (Machine.pass s m').1 = (Machine.pass s m).1 ∧
          (Machine.pass s m').2.random = (Machine.pass s m).2.random)) ∧
    ∀ n o o' m₁ m₁', Machine.run n s m = (.ok o, m₁) → Machine.run n s m' = (.ok o', m₁') →
      o.worked = true → o'.worked = true ∧ o'.attempts ≤ o.attempts := by
  have hd := hm.declares hc
  have hbolder : Bolder m m' := by
    refine ⟨hm'.pattern.trans hm.pattern.symm, hrandom, ?_⟩
    rw [hm.probability, hm'.probability]
    exact hle
  constructor
  · intro hworked hworked'
    refine ⟨worked_iff_worksAt hd hworked s, fun k hk => ?_⟩
    obtain ⟨k', hlek, hk', hsame⟩ := hbolder.pass_worksAt hd hworked' hk
    exact ⟨k', hlek, fun l => ⟨fun hl => hl.unique hk', fun hl => hl ▸ hk'⟩, hsame⟩
  · intro n o o' m₁ m₁' hrun hrun' ho
    exact hbolder.reset.passes hd rfl rfl hrun hrun' ho

/-- With a half the coin at the first of two lines fails and the one at the second succeeds, with
one the pass works at the first line. -/
theorem pass_works_sooner_half :
    ∃ (c : InsertionConfig) (p' : Double) (m m' : Insertion) (s : Source), c.validate = .ok () ∧
      Double.le c.probability p' = true ∧ IsSetUp c m ∧ IsSetUp { c with probability := p' } m' ∧
      m'.random = m.random ∧ s.text = "x = 1
y = x
".toList ∧
      (Machine.pass s m).1.toOption.map (·.text) = some "x = 1
q = 605
y = x
".toList ∧
      (∃ k k', k' ≤ k ∧ WorksAt s m k ∧ WorksAt s m' k') ∧
      ∃ o o', (Machine.run 2 s m).1 = .ok o ∧ (Machine.run 2 s m').1 = .ok o' ∧
        o.worked = true ∧ o'.worked = true ∧ o'.attempts ≤ o.attempts := by
  let c : InsertionConfig := ⟨.ofDecimal false 5 (-1), false, .ofList [.int], 1⟩
  let m : Insertion := ⟨.ofDecimal false 5 (-1), ⟨1, [.int], false⟩, .seeded 8, {}, 0⟩
  let m' : Insertion := ⟨.ofInt 1, ⟨1, [.int], false⟩, .seeded 8, {}, 0⟩
  have hc : c.validate = .ok () := by decide +kernel
  have hle : Double.le c.probability (.ofInt 1) = true := by decide +kernel
  have hm : IsSetUp c m := ⟨rfl, rfl⟩
  have hm' : IsSetUp { c with probability := .ofInt 1 } m' := ⟨rfl, rfl⟩
  obtain ⟨s, hs, hvalue⟩ := Source.exists_of_map (t := "x = 1\ny = x\n".toList)
    (f := fun s => ((Machine.pass s m).1.toOption.map (·.text), Machine.worked (Machine.pass s m).2,
      (Machine.run 2 s m).1.toOption.map (·.worked), (Machine.run 2 s m').1.toOption.map (·.worked)))
    (a := (some "x = 1\nq = 605\ny = x\n".toList, true, some true, some true)) (by decide +kernel)
  simp only [Prod.mk.injEq] at hvalue
  obtain ⟨htext, hworked, hrun, hrun'⟩ := hvalue
  obtain ⟨o, hrun, ho⟩ := Except.exists_of_map hrun
  obtain ⟨o', hrun', -⟩ := Except.exists_of_map hrun'
  obtain ⟨hpass, hruns⟩ := pass_works_sooner hc hle hm hm' rfl s
  obtain ⟨hiff, hsooner⟩ := hpass rfl rfl
  obtain ⟨k, hk⟩ := hiff.mp hworked
  obtain ⟨k', hlek, hk', -⟩ := hsooner k hk
  obtain ⟨ho', hattempts⟩ := hruns 2 o o' _ _ (Prod.ext hrun rfl) (Prod.ext hrun' rfl) ho
  exact ⟨c, .ofInt 1, m, m', s, hc, hle, hm, hm', rfl, hs, htext, ⟨k, k', hlek, hk, (hk' k').mpr rfl⟩,
    o, o', hrun, hrun', ho, ho', hattempts⟩

end Insertion

end PointMutation
