import PointMutation.Proofs.Wrapping.First

/-!
# Rounds

A round is a reset and a pass. As long as the wrapped texts can be read and the literal in the wraps
is the first one again, every round puts one more wrap around it, and nothing else changes.
-/

namespace PointMutation

/-- Several rounds, each over what the one before it came to. -/
def Machine.rounds {τ : Type} [Machine τ] : Nat → Source → τ → Except Fault Source × τ
  | 0, s, m => (.ok s, m)
  | k + 1, s, m =>
    match Machine.pass s (Machine.reset m) with
    | (.error e, m) => (.error e, m)
    | (.ok s, m) => rounds k s m

namespace Wrapping

open Outline (Place placeOf)

/-- The place of the first of all eligible literals. -/
def FirstAt (kinds : List LiteralKind) (s : Source) (start stop : Nat) : Prop :=
  ∃ e, Eligible kinds s e ∧ (∀ e', Eligible kinds s e' → e' = e ∨ e.stop ≤ e'.start) ∧
    e.start = start ∧ e.stop = stop

/-- A text several times. -/
def times (k : Nat) (t : Text) : Text := (List.replicate k t).flatten

/-- The text with several wraps around what stands between two places. -/
def nested (t : Text) (start stop k : Nat) : Text :=
  t.take start ++ times k "(lambda: ".toList ++ Text.slice t start stop ++
    times k ")()".toList ++ t.drop stop

/-- What stands in the wraps is the first literal until there are `k` of them, and then the text
can still be read. -/
structure Accumulates (kinds : List LiteralKind) (t : Text) (start stop k : Nat) : Prop where
  first : ∀ i < k, ∃ s : Source, s.text = nested t start stop i ∧
    FirstAt kinds s (start + 9 * i) (stop + 9 * i)
  last : ∃ s : Source, s.text = nested t start stop k

/-- The literal is the first one, and the text with one more wrap is a source. -/
theorem Accumulates.source_succ {kinds : List LiteralKind} {t : Text} {s : Source}
    {start stop i k : Nat} (h : Accumulates kinds t start stop (i + (k + 1)))
    (hs : s.text = nested t start stop i) :
    ∃ s' : Source, s'.text = nested t start stop (i + 1) ∧
      FirstAt kinds s (start + 9 * i) (stop + 9 * i) := by
  obtain ⟨s₀, hs₀, hfirst⟩ := h.first i (by omega)
  obtain rfl : s₀ = s := Source.ext_text (hs₀.trans hs.symm)
  rcases Nat.eq_zero_or_pos k with rfl | hk
  · obtain ⟨s', hs'⟩ := h.last
    exact ⟨s', hs', hfirst⟩
  · obtain ⟨s', hs', -⟩ := h.first (i + 1) (by omega)
    exact ⟨s', hs', hfirst⟩

/-! ## Nested texts -/

theorem times_succ (k : Nat) (t : Text) : times (k + 1) t = t ++ times k t := by
  rw [times, List.replicate_succ, List.flatten_cons, times]

theorem times_append (k : Nat) (t : Text) : times k t ++ t = times (k + 1) t := by
  rw [times, times, List.replicate_succ', List.flatten_append, List.flatten_singleton]

theorem length_times (k : Nat) (t : Text) : (times k t).length = k * t.length := by
  rw [times, List.length_flatten, List.map_replicate, List.sum_replicate_nat]

theorem nested_zero {t : Text} {start stop : Nat} (h : start ≤ stop) (h' : stop ≤ t.length) :
    nested t start stop 0 = t := by
  have hcut : t.take start ++ (Text.slice t start stop ++ t.drop stop) = t := by
    rw [Text.slice_drop h h', List.take_append_drop]
  simpa [nested, times] using hcut

theorem wrapped_of_parts {s : Source} {e : Tree} {front literal behind : Text}
    (hs : s.text = front ++ (literal ++ behind)) (hstart : e.start = front.length)
    (hstop : e.stop = front.length + literal.length) :
    wrapped s e = front ++ "(lambda: ".toList ++ literal ++ ")()".toList ++ behind := by
  have hslice : Text.slice s.text e.start e.stop = literal := by
    rw [Text.slice, hs, hstart, List.drop_left, hstop, Nat.add_sub_cancel_left, List.take_left]
  have hfront : s.text.take e.start = front := by rw [hs, hstart, List.take_left]
  have hbehind : s.text.drop e.stop = behind := by
    rw [hs, hstop, List.drop_append, Nat.add_sub_cancel_left, List.drop_left,
      List.drop_eq_nil_of_le (Nat.le_add_right _ _), List.nil_append]
  rw [wrapped, hslice, hfront, hbehind]

/-- One more wrap around the literal in the wraps. -/
theorem wrapped_nested {t : Text} {s : Source} {e : Tree} {start stop k : Nat}
    (hstart : start ≤ stop) (hstop : stop ≤ t.length) (hs : s.text = nested t start stop k)
    (he : e.start = start + 9 * k) (he' : e.stop = stop + 9 * k) :
    wrapped s e = nested t start stop (k + 1) := by
  have hfront : (t.take start ++ times k "(lambda: ".toList).length = start + 9 * k := by
    rw [List.length_append, List.length_take, length_times, Nat.min_eq_left (by omega)]
    show start + k * 9 = _
    omega
  have hliteral : (Text.slice t start stop).length = stop - start := by
    rw [Text.slice, List.length_take, List.length_drop]
    omega
  have hparts : s.text = (t.take start ++ times k "(lambda: ".toList) ++
      (Text.slice t start stop ++ (times k ")()".toList ++ t.drop stop)) := by
    rw [hs, nested]
    simp only [List.append_assoc]
  rw [wrapped_of_parts hparts (he.trans hfront.symm) (by omega), nested, ← times_append,
    times_succ]
  simp only [List.append_assoc]

/-! ## One round -/

theorem nested_of_inside {t e : Tree} (h : Tree.Inside t e) (ht : t.Nested) : e.Nested := by
  induction h with
  | self t => exact ht
  | part _ hc _ ih => exact ih (ht.parts.of_mem hc).2.2

theorem Eligible.le {kinds : List LiteralKind} {s : Source} {e : Tree} (h : Eligible kinds s e) :
    e.start ≤ e.stop := by
  obtain ⟨v, hv, he⟩ := List.mem_flatMap.mp (mem_nodesOf.mpr h.value)
  have hnested := ((Tree.nestedIn_bodyValues s.nestedIn).of_mem hv).2.2
  exact (nested_of_inside (Tree.mem_nodes.mp he) hnested).le

/-- The search finds the first eligible literal. -/
theorem first_of_firstAt {kinds : List LiteralKind} {s : Source} {start stop : Nat}
    (h : FirstAt kinds s start stop) :
    ∃ e, first kinds s = some (placeOf e) ∧ Eligible kinds s e ∧ e.start = start ∧
      e.stop = stop := by
  obtain ⟨e, he, hleast, rfl, rfl⟩ := h
  cases hfirst : first kinds s with
  | none => exact absurd he (first_of_none hfirst e)
  | some x =>
    obtain ⟨d, rfl, hd, hleast'⟩ := first_of_some hfirst
    refine ⟨d, rfl, hd, ?_⟩
    rcases hleast d hd with rfl | hle
    · exact ⟨rfl, rfl⟩
    · rcases hleast' e he with rfl | hle'
      · exact ⟨rfl, rfl⟩
      · have := he.le
        have := hd.le
        omega

theorem exists_of_search (kinds : List LiteralKind) {t : Text} {x : Place}
    (h : (Source.read t).toOption.map (first kinds) = some (some x)) :
    ∃ s : Source, s.text = t ∧ FirstAt kinds s x.start x.stop := by
  obtain ⟨s, hs, hfirst⟩ := Source.exists_of_map h
  obtain ⟨e, rfl, he, hleast⟩ := first_of_some hfirst
  exact ⟨s, hs, e, he, hleast, rfl, rfl⟩

/-- A pass puts one more wrap around the literal. -/
theorem pass_nested {m : Wrapping} {t : Text} {s s' : Source} {start stop i : Nat}
    (hworked : m.traversal.worked = false) (hstart : start ≤ stop) (hstop : stop ≤ t.length)
    (hs : s.text = nested t start stop i)
    (hfirst : FirstAt m.kinds s (start + 9 * i) (stop + 9 * i))
    (hs' : s'.text = nested t start stop (i + 1)) :
    (Machine.pass s m).1 = .ok s' ∧ (Machine.pass s m).2.kinds = m.kinds ∧
      Machine.worked (Machine.pass s m).2 = true := by
  obtain ⟨hpass, hkinds, hworked'⟩ := pass_eq s hworked
  obtain ⟨e, hfind, he, hestart, hestop⟩ := first_of_firstAt hfirst
  have hone : Fold.rewritten s ((some (placeOf e)).map (wrapping s.text)).toList = wrappedAt s e :=
    rewritten_wrapping he.bounds
  rw [hfind, hone] at hpass
  rw [hfind] at hworked'
  refine ⟨?_, hkinds, hworked'⟩
  rw [hpass, wrappedAt, wrapped_nested hstart hstop hs hestart hestop, ← hs', Source.read_text]
  rfl

/-- A run needs one pass to put one more wrap around the literal. -/
theorem run_nested {m : Wrapping} {t : Text} {s s' : Source} {start stop i : Nat} (n : Nat)
    (hstart : start ≤ stop) (hstop : stop ≤ t.length) (hs : s.text = nested t start stop i)
    (hfirst : FirstAt m.kinds s (start + 9 * i) (stop + 9 * i))
    (hs' : s'.text = nested t start stop (i + 1)) :
    (Machine.run (n + 1) s m).1 = .ok ⟨s', true, 1⟩ ∧ (Machine.run (n + 1) s m).2.kinds = m.kinds := by
  obtain ⟨hpass, hkinds, hworked⟩ := pass_nested (m := Machine.reset m) rfl hstart hstop hs hfirst
    hs'
  rw [Machine.run, Machine.passes]
  cases hp : Machine.pass s (Machine.reset m) with
  | mk answer m' =>
    rw [hp] at hpass hkinds hworked
    obtain rfl : answer = .ok s' := hpass
    simp only at hworked
    simp only [hworked, if_true, true_and]
    exact hkinds

/-- Every round puts one more wrap around the literal. -/
theorem rounds_nested {m : Wrapping} {t : Text} {s : Source} {start stop : Nat} (i k : Nat)
    (hstart : start ≤ stop) (hstop : stop ≤ t.length)
    (h : Accumulates m.kinds t start stop (i + k)) (hs : s.text = nested t start stop i) :
    ∃ s', (Machine.rounds k s m).1 = .ok s' ∧ s'.text = nested t start stop (i + k) ∧
      (0 < k → Machine.worked (Machine.rounds k s m).2 = true) := by
  induction k generalizing i s m with
  | zero => exact ⟨s, rfl, hs, fun h => absurd h (Nat.lt_irrefl 0)⟩
  | succ k ih =>
    obtain ⟨s₂, hs₂, hfirst⟩ := h.source_succ hs
    obtain ⟨hpass, hkinds, hworked⟩ := pass_nested (m := Machine.reset m) rfl hstart hstop hs hfirst
      hs₂
    have hround : Machine.rounds (k + 1) s m =
        Machine.rounds k s₂ (Machine.pass s (Machine.reset m)).2 := by
      rw [Machine.rounds]
      cases hp : Machine.pass s (Machine.reset m) with
      | mk answer m' =>
        rw [hp] at hpass
        obtain rfl : answer = .ok s₂ := hpass
        rfl
    have hkinds' : (Machine.pass s (Machine.reset m)).2.kinds = m.kinds := hkinds
    have hshift : i + 1 + k = i + (k + 1) := by omega
    obtain ⟨s', hrounds, hs', hlast⟩ := ih (m := (Machine.pass s (Machine.reset m)).2) (i + 1)
      (by rwa [hkinds', hshift]) hs₂
    rw [hround]
    refine ⟨s', hrounds, by rwa [hshift] at hs', fun _ => ?_⟩
    rcases Nat.eq_zero_or_pos k with rfl | hk
    · exact hworked
    · exact hlast hk

end Wrapping

end PointMutation
