import PointMutation.Proofs.Nesting.Branch
import PointMutation.Proofs.Nesting.Display

/-!
# Tokens of a faulty text

Each token that is found for a reading lies behind the place of the reading and within the text.
-/

namespace PointMutation

namespace Repair

open PointMutation.Grammar PointMutation.Syntax

/-! ## Layout and quotations -/

/-- A stretch at the front of a text. -/
def Within (t : Text) (start stop : Nat) : Prop := start ≤ stop ∧ stop ≤ t.length

theorem scanLayout_within {may : Terminal → Bool} {o : Opened} {t : Text} {n : Nat} {s : Scanned}
    (hn : n ≤ t.length) (h : scanLayout may o t n = some s) : Within t s.start s.stop := by
  unfold scanLayout at h
  dsimp only at h
  split at h
  · cases h
  · rename_i b hb
    have hrest := blanks_length_le hb
    rw [List.length_drop] at hrest
    have hhere : Within t (if n = 0 || (t.drop n).length - b.rest.length = 0 then 0 else n) n := by
      refine ⟨?_, hn⟩
      split
      · exact Nat.zero_le n
      · exact Nat.le_refl n
    split at h
    · cases h
      exact hhere
    split at h
    · cases h
      exact hhere
    split at h
    · cases h
      exact hhere
    split at h
    · obtain ⟨⟨q, length⟩, hq, rfl⟩ := Option.map_eq_some_iff.mp h
      have hlength := opening_length_le hq
      simp only [Within, List.length_drop]
      constructor
      · split
        · exact Nat.zero_le _
        · exact Nat.le_add_right _ _
      · omega
    · cases h

theorem scan_within {may : Terminal → Bool} {o : Opened} {t : Text} {s : Scanned}
    (h : scan may o t = some s) : Within t s.start s.stop := by
  unfold scan at h
  split at h
  · exact scanLayout_within (Nat.zero_le _) h
  · rename_i q outer _
    split at h
    · exact scanLayout_within (Nat.zero_le _) h
    split at h
    · split at h
      · rename_i hbrace
        cases h
        exact ⟨Nat.zero_le _, doubledBrace_length hbrace⟩
      · cases h
    split at h
    · have hfits := content_fits q t .asIs 0 false
      rw [Nat.zero_add] at hfits
      split at h
      all_goals
        rename_i hcontent
        rw [hcontent] at hfits
      · cases h
        exact ⟨Nat.zero_le _, hfits⟩
      · cases h
        exact ⟨Nat.zero_le _, hfits⟩
      · exact scanLayout_within hfits h
      · cases h
    · exact scanLayout_within (Nat.zero_le _) h

/-! ## Ordinary tokens -/

/-- Where an ordinary token lies. -/
def Lexed.Within (t : Text) : Lexed → Prop
  | .token _ start stop => Repair.Within t start stop
  | .word start stop => Repair.Within t start stop

theorem formatText_within {t : Text} {a b : Nat} (h : formatText? t = some (a, b)) :
    Within t a b := by
  have hbreaks := Text.length_takeWhile_le (· == '\n') t
  have hrest := Text.length_takeWhile_le
    (fun c => c != '\x7b' && c != '\x7d' && c != '\n' && c != '\x00')
    (t.drop (t.takeWhile (· == '\n')).length)
  rw [List.length_drop] at hrest
  simp only [formatText?] at h
  split at h
  · cases h
  · cases h
    exact ⟨Nat.le_add_right _ _, by omega⟩

theorem candidates_length_le {l : Lexicon} {t : Text} {p : Nat × Nat}
    (h : p ∈ candidates l t) : p.2 ≤ t.length := by
  simp only [candidates, List.partition_eq_filter_filter] at h
  rcases List.mem_append.mp h with h | h
  · have hmark := (List.mem_append.mp h).elim (fun h => (List.mem_filter.mp h).1)
      fun h => (List.mem_filter.mp h).1
    obtain ⟨⟨w, n⟩, _, hw⟩ := List.mem_filterMap.mp hmark
    dsimp only at hw
    split at hw
    · rename_i hs
      cases hw
      exact Text.length_le_of_startsWith hs
    · cases hw
  · obtain ⟨q, hq, rfl⟩ := List.mem_map.mp h
    rcases List.mem_append.mp hq with hq | hq
    · simp only [List.mem_cons, List.not_mem_nil, or_false] at hq
      rcases hq with rfl | rfl | rfl
      · exact integerLength_le t
      · exact floatLength_le t
      · cases hc : conversionLength? t with
        | none => exact Nat.zero_le _
        | some n => exact conversionLength_fits t n hc
    · cases he : extra? t with
      | none => simp [he] at hq
      | some r =>
        have hr := extra_length_le he
        simp only [he, Option.map_some, Option.mem_toList, Option.some.injEq] at hq
        rw [← hq]
        exact hr

theorem longest_mem {may : Nat → Bool} {cs : List (Nat × Nat)} {p : Nat × Nat}
    (h : longest may cs = some p) : p ∈ cs := by
  have hbest : ∀ q ∈ longest may cs, q ∈ cs := by
    rw [longest]
    refine List.foldlRecOn (motive := fun best : Option (Nat × Nat) => ∀ q ∈ best, q ∈ cs)
      cs _ (by simp) ?_
    intro best hbest d hd
    dsimp only
    split
    · rintro _ ⟨⟩
      exact hd
    · exact hbest
  exact hbest p h

theorem some_of_orElse {α : Type} {a b : Option α} {x : α} (h : (a <|> b) = some x) :
    a = some x ∨ b = some x := by
  cases a with
  | none => exact .inr h
  | some y => exact .inl h

/-- A token behind a backslash. -/
theorem backslash_within {l : Lexicon} {may : Nat → Bool} {r : Text} {x : Lexed}
    (h : ((if may (l.number .escape) then escapedLength? r else none).map
        (fun n => Lexed.token (l.number .escape) 0 (n + 1)) <|>
      if may (l.number .backslash) then
        match r with
        | '\n' :: _ => some (.token (l.number (.leaf .lineContinuation)) 0 2)
        | '\r' :: '\n' :: _ => some (.token (l.number (.leaf .lineContinuation)) 0 3)
        | _ => some (.token (l.number .backslash) 0 1)
      else none) = some x) : x.Within ('\\' :: r) := by
  rcases some_of_orElse h with h | h
  · obtain ⟨n, hn, rfl⟩ := Option.map_eq_some_iff.mp h
    split at hn
    · have := escapedLength_fits r n hn
      exact ⟨Nat.zero_le _, Nat.succ_le_succ this⟩
    · cases hn
  · split at h
    · split at h
      all_goals
        cases h
        exact ⟨Nat.zero_le _, by simp⟩
    · cases h

theorem lex_within {l : Lexicon} {may : Nat → Bool} {t : Text} {x : Lexed}
    (h : lex l may t = some x) : x.Within t := by
  rcases some_of_orElse h with h | h
  · rcases some_of_orElse h with h | h
    · obtain ⟨⟨a, b⟩, hab, rfl⟩ := Option.map_eq_some_iff.mp h
      split at hab
      · exact formatText_within hab
      · cases hab
    · split at h
      · exact backslash_within h
      · cases h
  · have hskip := Text.length_takeWhile_le isSeparator t
    generalize (t.takeWhile isSeparator).length = skipped at h hskip
    have hword := Text.word_length_le (t.drop skipped)
    rw [List.length_drop] at hword
    dsimp only at h
    split at h
    · cases h
      exact ⟨Nat.le_refl _, hskip⟩
    split at h
    · cases h
      exact ⟨Nat.le_add_right _ _, by omega⟩
    · obtain ⟨⟨n, length⟩, hl, rfl⟩ := Option.map_eq_some_iff.mp h
      have hlength := candidates_length_le (longest_mem hl)
      rw [List.length_drop] at hlength
      dsimp only at hlength
      exact ⟨Nat.le_add_right _ _, by omega⟩

theorem failure_within (t : Text) : Within t (failure t).1 (failure t).2 := by
  have hskip := Text.length_takeWhile_le isSeparator t
  simp only [failure]
  generalize (t.takeWhile isSeparator).length = skipped at hskip ⊢
  refine ⟨Nat.le_add_right _ _, ?_⟩
  have hdrop : (t.drop skipped).length = t.length - skipped := List.length_drop
  split
  all_goals
    rename_i hrest
    try rw [hrest] at hdrop
    try simp only [List.length_cons] at hdrop
    omega

/-! ## Tokens of a task -/

/-- The text of a task has so many characters. -/
structure Task.Covers (c : Task) (n : Nat) : Prop where
  size : c.site.rests.size = n + 1
  rest (place : Nat) : (c.site.rest place).length ≤ n - place

/-- The rests of a text from its first `k` places are put down, none of them too long. -/
def Site.Holds (s : Site) (n k : Nat) : Prop :=
  s.rests.size = k + 1 ∧ ∀ place, (s.rest place).length ≤ n - place

/-- One more character of a text is put down. -/
theorem Site.Holds.push {s : Site} {n k : Nat} (h : s.Holds n k) (bytes rows : Array Nat) :
    Site.Holds ⟨s.rests.push ((s.rests.back?.getD []).drop 1), bytes, rows⟩ n (k + 1) := by
  obtain ⟨hsize, hrest⟩ := h
  have hlast := hrest k
  rw [Site.rest, Array.getD_eq_getD_getElem?] at hlast
  rw [Site.Holds, Array.back?, hsize, Nat.add_sub_cancel]
  refine ⟨by rw [Array.size_push, hsize], ?_⟩
  intro place
  have hplace := hrest place
  rw [Site.rest, Array.getD_eq_getD_getElem?] at hplace ⊢
  rw [Array.getElem?_push, hsize]
  split
  · rename_i heq
    rw [Option.getD_some, List.length_drop]
    omega
  · exact hplace

theorem site_holds (t : Text) : (Site.ofText t).Holds t.length t.length := by
  have hfold : ∀ (step : Site → Char → Site),
      (∀ s c k, s.Holds t.length k → (step s c).Holds t.length (k + 1)) →
      ∀ (u : Text) (s : Site) (k : Nat), s.Holds t.length k →
        (u.foldl step s).Holds t.length (k + u.length) := by
    intro step hstep u
    induction u with
    | nil => exact fun _ _ hs => hs
    | cons c u ih =>
      intro s k hs
      have hnext := ih _ (k + 1) (hstep s c k hs)
      rwa [Nat.add_assoc, Nat.add_comm 1] at hnext
  have hstart : Site.Holds ⟨#[t], #[0], #[0]⟩ t.length 0 := by
    refine ⟨rfl, ?_⟩
    intro place
    cases place with
    | zero => exact Nat.le_refl _
    | succ place => exact Nat.zero_le _
  have hall : (Site.ofText t).Holds t.length (0 + t.length) := by
    refine hfold _ ?_ t _ 0 hstart
    intro s c k hs
    exact hs.push _ _
  rwa [Nat.zero_add] at hall

theorem covers_task (r : Reader) (t : Text) : (r.task t).Covers t.length :=
  ⟨(site_holds t).1, (site_holds t).2⟩

/-- A token as a branch. -/
theorem leaf_in (c : Task) (k lead : Nat) {a b start stop : Nat} (ha : a ≤ start)
    (h : start ≤ stop) (hb : stop ≤ b) : (Branch.node (c.leaf k lead start stop) []).In a b :=
  ⟨ha, nested_node.mpr (partsIn_nil.mpr h), hb⟩

theorem word_in (c : Task) (state lead : Nat) {a b start stop : Nat} (ha : a ≤ start)
    (h : start ≤ stop) (hb : stop ≤ b) : (c.word state lead start stop).In a b := by
  unfold Task.word
  dsimp only
  split
  · exact leaf_in c _ lead ha h hb
  · exact ⟨ha, nested_node.mpr (partsIn_nil.mpr h), hb⟩

theorem tokenAt_in {c : Task} {n : Nat} (hc : c.Covers n) {state mode : Nat}
    {progressed : Bool} {opened : Option Opened} {lead place : Nat} (hplace : place ≤ n)
    {b : Branch} (h : c.tokenAt state mode progressed opened lead place = some b) :
    b.In place n := by
  have hrest := hc.rest place
  unfold Task.tokenAt at h
  dsimp only at h
  rcases some_of_orElse h with h | h
  · split at h
    · cases h
    · rename_i s hs
      obtain ⟨h₁, h₂⟩ := scan_within hs
      split at h
      · cases h
        exact ⟨Nat.le_add_right _ _, nested_node.mpr (partsIn_nil.mpr (Nat.add_le_add_left h₁ _)),
          by change place + s.stop ≤ n; omega⟩
      · cases h
  · split at h
    · rename_i k start stop hl
      obtain ⟨h₁, h₂⟩ := lex_within hl
      cases h
      exact leaf_in c k lead (Nat.le_add_right _ _) (Nat.add_le_add_left h₁ _) (by omega)
    · rename_i start stop hl
      obtain ⟨h₁, h₂⟩ := lex_within hl
      cases h
      exact word_in c state lead (Nat.le_add_right _ _) (Nat.add_le_add_left h₁ _) (by omega)
    · cases h

/-- A token is found behind the place of the reading. -/
theorem findToken_in {c : Task} {n : Nat} (hc : c.Covers n) {state : Nat} {progressed : Bool}
    {opened : Option Opened} {lead fuel mode place : Nat} {skipped : Option (Nat × Nat)}
    (hlead : lead ≤ place) (hplace : place ≤ n)
    (hskipped : ∀ p ∈ skipped, mode = 0 ∧ lead ≤ p.1 ∧ p.1 ≤ p.2 ∧ p.2 ≤ place) {b : Branch}
    (h : c.findToken state progressed opened lead fuel mode place skipped = some b) :
    b.In lead n := by
  have hsize : c.site.rests.size - 1 = n := by rw [hc.size, Nat.add_sub_cancel]
  induction fuel generalizing mode place skipped with
  | zero => cases h
  | succ fuel ih =>
    have hfault : ∀ p : Nat × Nat, lead ≤ p.1 → p.1 ≤ p.2 → p.2 ≤ n →
        (Branch.node { label := .fault, lead, start := p.1, stop := p.2, shown := true } []).In
          lead n := fun p h₁ h₂ h₃ => ⟨h₁, nested_node.mpr (partsIn_nil.mpr h₂), h₃⟩
    rw [Task.findToken, hsize] at h
    dsimp only at h
    split at h
    · rename_i b' hb
      cases h
      cases skipped with
      | none => exact (tokenAt_in hc hplace hb).mono hlead (Nat.le_refl _)
      | some p =>
        obtain ⟨_, h₁, h₂, h₃⟩ := hskipped p rfl
        exact hfault p h₁ h₂ (Nat.le_trans h₃ hplace)
    split at h
    · -- where a state knows none of the tokens, nothing was skipped so far
      rename_i hmode
      refine ih (Nat.le_refl _) (Nat.le_trans hlead hplace) ?_ h
      intro p hp
      exact absurd (hskipped p hp).1 (by simpa using hmode)
    · obtain ⟨hstart, hstop⟩ := failure_within (c.site.rest place)
      have hrest := hc.rest place
      generalize failure (c.site.rest place) = span at h hstart hstop
      have hspan : lead ≤ (skipped.getD (place + span.1, place + span.1)).1 ∧
          (skipped.getD (place + span.1, place + span.1)).1 ≤
            (skipped.getD (place + span.1, place + span.1)).2 ∧
          (skipped.getD (place + span.1, place + span.1)).2 ≤ place + span.2 := by
        cases skipped with
        | none => exact ⟨by simp; omega, Nat.le_refl _, by simp; omega⟩
        | some p =>
          obtain ⟨_, h₁, h₂, h₃⟩ := hskipped p rfl
          exact ⟨h₁, h₂, by simp; omega⟩
      generalize skipped.getD (place + span.1, place + span.1) = p at h hspan
      obtain ⟨h₁, h₂, h₃⟩ := hspan
      split at h
      · split at h
        · cases h
          exact hfault p h₁ h₂ (by omega)
        · refine ih (by omega) (by omega) ?_ h
          rintro _ ⟨⟩
          exact ⟨rfl, h₁, by dsimp only; omega, Nat.le_refl _⟩
      · refine ih (by omega) (by omega) ?_ h
        rintro _ ⟨⟩
        exact ⟨rfl, h₁, by dsimp only; omega, Nat.le_refl _⟩

end Repair

end PointMutation
