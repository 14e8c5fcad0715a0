import PointMutation.Files.Path
import Mathlib.Data.List.TakeWhile

/-!
# The parts of a path

A path is cut at its slashes, so texts without slashes are got back from the path made of them, and
a path below a folder has the parts of both.
-/

namespace PointMutation.Path

/-- A text that can be the name of a file. -/
structure IsName (p : Text) : Prop where
  noSlash : '/' ∉ p
  moves : isStill p = false
  notUp : p ≠ up

instance (p : Text) : Decidable (IsName p) :=
  decidable_of_iff ('/' ∉ p ∧ isStill p = false ∧ p ≠ up)
    ⟨fun ⟨a, b, c⟩ => ⟨a, b, c⟩, fun h => ⟨h.noSlash, h.moves, h.notUp⟩⟩

theorem IsName.ne_nil {p : Text} (h : IsName p) : p ≠ [] := by
  rintro rfl
  exact absurd h.moves (by decide)

theorem isStill_nil : isStill [] = true := rfl

theorem not_isStill_up : isStill up = false := rfl

/-! ## Cutting -/

theorem parts_of_noSlash {p : Text} (h : '/' ∉ p) : parts p = [p] := by
  induction p with
  | nil => rfl
  | cons c r ih =>
    obtain ⟨hc, hr⟩ : c ≠ '/' ∧ '/' ∉ r := by simpa [eq_comm] using h
    rw [parts, if_neg hc, ih hr]

theorem parts_append_slash (a b : Text) : parts (a ++ '/' :: b) = parts a ++ parts b := by
  induction a with
  | nil => rfl
  | cons c r ih =>
    rw [List.cons_append, parts, parts]
    split
    · rw [ih, List.cons_append]
    · obtain ⟨p, ps, hps⟩ := List.exists_cons_of_ne_nil (parts_ne_nil r)
      simp [ih, hps]

theorem noSlash_of_mem_parts {p q : Text} (h : q ∈ parts p) : '/' ∉ q := by
  induction p generalizing q with
  | nil =>
    rw [List.mem_singleton.mp h]
    exact List.not_mem_nil
  | cons c r ih =>
    obtain ⟨p, ps, hps⟩ := List.exists_cons_of_ne_nil (parts_ne_nil r)
    rw [hps] at ih
    rw [parts, hps] at h
    split at h
    · rcases List.mem_cons.mp h with rfl | h
      · exact List.not_mem_nil
      · exact ih h
    · next hc =>
      rcases List.mem_cons.mp h with rfl | h
      · simpa [eq_comm, hc] using ih List.mem_cons_self
      · exact ih (List.mem_cons_of_mem _ h)

theorem ofParts_singleton (p : Text) : ofParts [p] = p := by
  simp [ofParts]

theorem ofParts_cons_cons (p q : Text) (ps : List Text) :
    ofParts (p :: q :: ps) = p ++ '/' :: ofParts (q :: ps) := by
  simp [ofParts, List.intercalate, List.intersperse]

/-- Texts without slashes are the parts of the path made of them. -/
theorem parts_ofParts {ps : List Text} (hne : ps ≠ []) (h : ∀ p ∈ ps, '/' ∉ p) :
    parts (ofParts ps) = ps := by
  induction ps with
  | nil => exact absurd rfl hne
  | cons p ps ih =>
    have hp : '/' ∉ p := h p List.mem_cons_self
    cases ps with
    | nil => rw [ofParts_singleton, parts_of_noSlash hp]
    | cons q ps =>
      rw [ofParts_cons_cons, parts_append_slash, parts_of_noSlash hp,
        ih (List.cons_ne_nil q ps) fun r hr => h r (List.mem_cons_of_mem p hr)]
      rfl

theorem ofParts_parts (p : Text) : ofParts (parts p) = p := by
  induction p with
  | nil => rfl
  | cons c r ih =>
    obtain ⟨p, ps, hps⟩ := List.exists_cons_of_ne_nil (parts_ne_nil r)
    rw [hps] at ih
    rw [parts, hps]
    split
    · next hc => rw [ofParts_cons_cons, ih, hc]; rfl
    · cases ps with
      | nil =>
        rw [ofParts_singleton] at ih ⊢
        rw [ih]
      | cons q ps =>
        rw [ofParts_cons_cons] at ih ⊢
        rw [List.cons_append, ih]

theorem parts_injective {p q : Text} (h : parts p = parts q) : p = q := by
  rw [← ofParts_parts p, h, ofParts_parts]

/-! ## Joining -/

theorem head?_ofParts {p : Text} {ps : List Text} (hp : p ≠ []) :
    (ofParts (p :: ps)).head? = p.head? := by
  cases ps with
  | nil => rw [ofParts_singleton]
  | cons q ps =>
    obtain ⟨c, r, rfl⟩ := List.exists_cons_of_ne_nil hp
    rw [ofParts_cons_cons]
    rfl

/-- A path below a folder has the parts of the folder, except for an empty one at its end, in front
of the parts that lead on from there. -/
theorem parts_join (folder : Text) {way : List Text} (hne : way ≠ [])
    (h : ∀ p ∈ way, '/' ∉ p) :
    (folder = [] ∧ join folder (ofParts way) = ofParts way ∧
        parts (join folder (ofParts way)) = way) ∨
      ∃ front, (parts folder = front ∨ parts folder = front ++ [[]]) ∧
        (join folder (ofParts way)).head? = folder.head? ∧
        parts (join folder (ofParts way)) = front ++ way := by
  rcases eq_or_ne folder [] with rfl | hfolder
  · exact .inl ⟨rfl, rfl, parts_ofParts hne h⟩
  refine .inr ?_
  have hempty : folder.isEmpty = false := by simpa using hfolder
  rw [join, hempty]
  by_cases hend : Text.endsIn folder '/' = true
  · -- A slash at the end of the folder is the one in front of what is below.
    obtain ⟨f, rfl⟩ : ∃ f, folder = f ++ ['/'] :=
      List.getLast?_eq_some_iff.mp (by simpa [Text.endsIn] using hend)
    refine ⟨parts f, .inr (parts_append_slash f []), ?_, ?_⟩
    · simp [hend]
    · simp [hend, parts_append_slash, parts_ofParts hne h]
  · refine ⟨parts folder, .inl rfl, ?_, ?_⟩
    · obtain ⟨c, r, rfl⟩ := List.exists_cons_of_ne_nil hfolder
      simp [hend]
    · simp [hend, parts_append_slash, parts_ofParts hne h]

/-! ## The root -/

/-- A path starts from the root if its first part is empty and not its only one. -/
theorem exists_slash_iff (p : Text) :
    (∃ r, p = '/' :: r) ↔ ∃ q ps, parts p = [] :: q :: ps := by
  cases p with
  | nil => simp [parts]
  | cons c r =>
    obtain ⟨p, ps, hps⟩ := List.exists_cons_of_ne_nil (parts_ne_nil r)
    by_cases hc : c = '/' <;> simp [parts, hps, hc]

/-! ## Folders around -/

/-- The path of the folder around has the parts in front of the last one, without those at their
end that stay where they are. If nothing is left then it is the path of a place to start from. -/
theorem parent_cases (p : Text) :
    ∃ front still, (parts p).dropLast = front ++ still ∧ (∀ q ∈ still, isStill q = true) ∧
      ((front = [] ∧ (parent p = [] ∨ parent p = here ∨ parent p = ['/'])) ∨
        ∃ ini q, front = ini ++ [q] ∧ isStill q = false ∧ parts (parent p) = front) := by
  refine ⟨((parts p).dropLast.reverse.dropWhile isStill).reverse,
    ((parts p).dropLast.reverse.takeWhile isStill).reverse, ?_, ?_, ?_⟩
  · rw [← List.reverse_append, List.takeWhile_append_dropWhile, List.reverse_reverse]
  · intro q hq
    exact List.mem_takeWhile_imp (List.mem_reverse.mp hq)
  rw [parent]
  cases hdrop : (parts p).dropLast.reverse.dropWhile isStill with
  | nil =>
    refine .inl ⟨rfl, ?_⟩
    have hall : ∀ q ∈ (parts p).dropLast, isStill q = true := by
      simpa using List.dropWhile_eq_nil_iff.mp hdrop
    rcases hfront : (parts p).dropLast with _ | ⟨_ | ⟨c, q⟩, front⟩
    · exact .inl rfl
    · exact .inr (.inr rfl)
    · have hstill := hall (c :: q) (by simp [hfront])
      exact .inr (.inl (by simpa [isStill] using hstill))
  | cons q ini =>
    have hq : isStill q = false := by
      have := List.head?_dropWhile_not isStill (parts p).dropLast.reverse
      simpa [hdrop] using this
    refine .inr ⟨ini.reverse, q, by simp, hq, parts_ofParts (by simp) fun r hr => ?_⟩
    have hmem : r ∈ (parts p).dropLast := by
      have : r ∈ (parts p).dropLast.reverse.dropWhile isStill := by simpa [hdrop, or_comm] using hr
      exact List.mem_reverse.mp ((List.dropWhile_suffix _).mem this)
    exact noSlash_of_mem_parts (List.dropLast_subset _ hmem)

end PointMutation.Path
