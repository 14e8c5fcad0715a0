import PointMutation.Proofs.Nesting.Session

/-!
# Ways down

The branches on a way down from a reading lie one behind the other between the vertex that the way
leads to and the reading. New readings that come of it start no further in the text than the one
that they come of.
-/

namespace PointMutation

namespace Repair

open PointMutation.Grammar

/-! ## Walking down -/

/-- The branches of a way down lie between the vertex that it has come to and `top`. -/
structure Path.Descends (ps : List Nat) (top : Nat) (p : Path) : Prop where
  vertex : p.vertex < ps.length
  place : ps.getD p.vertex 0 ≤ top
  branches : PartsIn (ps.getD p.vertex 0) top p.branches

/-- All vertices have sound ways down and are as far as `ps` says. -/
def Grounded (ps : List Nat) (vertices : Array Vertex) : Prop :=
  ∀ i, (vertices.getD i { state := 0 }).Rests ps ∧
    (vertices.getD i { state := 0 }).place = ps.getD i 0

theorem Session.Sound.grounded {n : Nat} {s : Session} (h : s.Sound n) :
    Grounded s.places s.vertices :=
  fun i => ⟨h.vertexAt i, place_vertexAt s i⟩

theorem Path.Descends.follow {ps : List Nat} {top : Nat} {p : Path} (h : p.Descends ps top)
    {l : Link} (hl : l.Leads ps (ps.getD p.vertex 0)) : (p.follow l).Descends ps top := by
  obtain ⟨target, branch⟩ := l
  have hbelow := hl.below
  cases branch with
  | none =>
    exact ⟨hl.target, Nat.le_trans hbelow h.place, h.branches.mono hbelow (Nat.le_refl _)⟩
  | some b =>
    have hb := hl.branch b rfl
    refine ⟨hl.target, Nat.le_trans hbelow h.place, partsIn_cons.mpr ⟨hb.start, hb.nested, ?_⟩⟩
    exact h.branches.mono hb.stop (Nat.le_refl _)

/-- All ways down under search are such ways. -/
structure Walk.All {σ : Type} (D : Path → Prop) (w : Walk σ) : Prop where
  found : ∀ p ∈ w.found, D p
  kept : ∀ p ∈ w.kept, D p
  added : ∀ p ∈ w.added, D p

section

variable {σ : Type} {ps : List Nat} {top : Nat} {vertices : Array Vertex}

theorem walkLevel_all (hground : Grounded ps vertices) (judge : σ → Path → σ × Verdict)
    {paths : List Path} {w : Walk σ} (hpaths : ∀ p ∈ paths, p.Descends ps top)
    (hw : w.All (Path.Descends ps top)) :
    (walkLevel vertices judge paths w).All (Path.Descends ps top) := by
  induction paths generalizing w with
  | nil => exact hw
  | cons p paths ih =>
    have hp := hpaths p (by simp)
    have hrest : ∀ q ∈ paths, q.Descends ps top := fun q hq => hpaths q (by simp [hq])
    have hfound : ∀ q ∈ (if (judge w.memory p).2.found then w.found ++ [p] else w.found),
        q.Descends ps top := by
      intro q hq
      split at hq
      · rcases List.mem_append.mp hq with hq | hq
        · exact hw.found q hq
        · exact List.mem_singleton.mp hq ▸ hp
      · exact hw.found q hq
    obtain ⟨hrests, hplace⟩ := hground p.vertex
    rw [walkLevel]
    dsimp only
    split
    · rename_i l ls hlinks _
      have hfollow : ∀ k ∈ l :: ls, (p.follow k).Descends ps top := by
        intro k hk
        refine hp.follow ?_
        rw [← hplace]
        exact hrests k (hlinks ▸ hk)
      refine ih hrest ⟨hfound, ?_, ?_⟩
      · intro q hq
        rcases List.mem_append.mp hq with hq | hq
        · exact hw.kept q hq
        · exact List.mem_singleton.mp hq ▸ hfollow l (by simp)
      · intro q hq
        rcases List.mem_append.mp hq with hq | hq
        · exact hw.added q hq
        · obtain ⟨k, hk, rfl⟩ := List.mem_map.mp hq
          exact hfollow k (by simp [List.mem_of_mem_take hk])
    · exact ih hrest ⟨hfound, hw.kept, hw.added⟩

theorem walk_found (hground : Grounded ps vertices) (judge : σ → Path → σ × Verdict) (fuel : Nat)
    {paths : List Path} {w : Walk σ} (hpaths : ∀ p ∈ paths, p.Descends ps top)
    (hw : ∀ p ∈ w.found, p.Descends ps top) :
    ∀ p ∈ (walk vertices judge fuel paths w).found, p.Descends ps top := by
  induction fuel generalizing paths w with
  | zero => exact hw
  | succ fuel ih =>
    cases paths with
    | nil => exact hw
    | cons p paths =>
      have hlevel := walkLevel_all hground judge hpaths
        (w := { w with kept := [], added := [] }) ⟨hw, by simp, by simp⟩
      rw [walk]
      · refine ih ?_ hlevel.found
        intro q hq
        rcases List.mem_append.mp hq with hq | hq
        · exact hlevel.kept q hq
        · exact hlevel.added q hq
      · simp

end

/-- Ways down from a reading lie below it. -/
theorem waysDown_holds {σ : Type} {n : Nat} {l : List Stand} {ps : List Nat} (i : Nat)
    (memory : σ) (judge : σ → Path → σ × Verdict) :
    Holds (fun s => s.places = ps ∧ s.Has n l) (waysDown i memory judge) fun r s =>
      (∀ p ∈ r.1, p.Descends ps (l.getD i {}).place) ∧ s.places = ps ∧ s.Has n l := by
  rintro s ⟨rfl, hs, rfl⟩
  refine ⟨?_, rfl, hs, rfl⟩
  have hplace : s.places.getD (s.headAt i).vertex 0 = (s.stands.getD i {}).place := by
    rw [← stand_headAt hs i, Head.stand]
  refine walk_found hs.grounded judge _ ?_ (by simp)
  intro p hp
  rw [List.mem_singleton.mp hp]
  refine ⟨(hs.headAt i).vertex, ?_, ?_⟩
  · exact Nat.le_of_eq hplace
  · exact partsIn_nil.mpr (Nat.le_of_eq hplace)

/-! ## New readings -/

/-- A reading that is free to go on, no further than `top`, behind which some rows of branches
fit. -/
structure Stand.Takes (top : Nat) (x : Stand) (ways : List (List Branch)) : Prop where
  free : x.free = true
  place : x.place ≤ top
  ways : ∀ w ∈ ways, PartsIn x.place top w

/-- New readings from the `k`-th on, each with the branches that fit behind it. -/
def Await (top : Nat) : Nat → List Stand → List (Nat × List (List Branch)) → Prop
  | _, [], [] => True
  | k, x :: xs, (m, ways) :: groups => m = k ∧ x.Takes top ways ∧ Await top (k + 1) xs groups
  | _, _, _ => False

/-- The vertices and branches of groups are those of ways down. -/
def Grouped (ps : List Nat) (top : Nat) (groups : List (Nat × List (List Branch))) : Prop :=
  ∀ g ∈ groups, g.1 < ps.length ∧ ps.getD g.1 0 ≤ top ∧
    ∀ w ∈ g.2, PartsIn (ps.getD g.1 0) top w

theorem groupPaths_grouped {ps : List Nat} {top : Nat} {paths : List Path}
    (h : ∀ p ∈ paths, p.Descends ps top) : Grouped ps top (groupPaths paths) := by
  rw [groupPaths]
  refine List.foldlRecOn (motive := Grouped ps top) paths _ (by simp [Grouped]) ?_
  intro groups hgroups q hmem
  have hq := h q hmem
  dsimp only
  split
  · intro g hg
    obtain ⟨⟨v, bs⟩, hv, rfl⟩ := List.mem_map.mp hg
    have hold := hgroups (v, bs) hv
    dsimp only
    by_cases heq : v = q.vertex
    · rw [if_pos heq]
      refine ⟨hold.1, hold.2.1, ?_⟩
      intro w hw
      rcases List.mem_append.mp hw with hw | hw
      · exact hold.2.2 w hw
      · rw [List.mem_singleton.mp hw, heq]
        exact hq.branches
    · rw [if_neg heq]
      exact hold
  · intro g hg
    rcases List.mem_append.mp hg with hg | hg
    · exact hgroups g hg
    · rw [List.mem_singleton.mp hg]
      refine ⟨hq.vertex, hq.place, ?_⟩
      intro w hw
      rw [List.mem_singleton.mp hw]
      exact hq.branches

section

variable {n : Nat} {l : List Stand}

theorem headsAt_holds {ps : List Nat} {top : Nat} (i : Nat)
    {groups : List (Nat × List (List Branch))} (h : Grouped ps top groups) :
    Holds (fun s => s.places = ps ∧ s.Has n l) (headsAt i groups) fun r s =>
      ∃ new, Await top l.length new r ∧ s.Has n (l ++ new) := by
  induction groups generalizing l with
  | nil =>
    refine .pure fun s hs => ⟨[], trivial, ?_⟩
    rw [List.append_nil]
    exact hs.2
  | cons g groups ih =>
    obtain ⟨v, ways⟩ := g
    obtain ⟨hv, hplace, hways⟩ := h (v, ways) (by simp)
    refine .bind (addHead_holds hv) fun m => .and_left fun hm => ?_
    refine .bind (ih fun g hg => h g (by simp [hg])) fun r => .pure ?_
    rintro s ⟨new, hnew, hs⟩
    refine ⟨⟨ps.getD v 0, true⟩ :: new, ⟨hm, ⟨rfl, hplace, hways⟩, ?_⟩, ?_⟩
    · rwa [List.length_append] at hnew
    · rwa [List.append_assoc] at hs

/-- New readings at the ways down that are looked for. -/
theorem spawn_holds {σ : Type} (i : Nat) (memory : σ) (judge : σ → Path → σ × Verdict) :
    Holds (Session.Has n l)
      (waysDown i memory judge >>= fun r => headsAt i (groupPaths r.1)) fun r s =>
        ∃ new, Await (l.getD i {}).place l.length new r ∧ s.Has n (l ++ new) := by
  refine .start (fun s t => t.places = s.places ∧ t.Has n l) (fun s hs => ⟨rfl, hs⟩) fun s _ => ?_
  refine .bind (waysDown_holds i memory judge) fun r => .and_left fun hr => ?_
  exact headsAt_holds i (groupPaths_grouped hr)

theorem pop_holds (i m : Nat) : Holds (Session.Has n l) (pop i m) fun r s =>
    ∃ new, Await (l.getD i {}).place l.length new r ∧ s.Has n (l ++ new) :=
  spawn_holds i () _

theorem popAll_holds (i : Nat) : Holds (Session.Has n l) (popAll i) fun r s =>
    ∃ new, Await (l.getD i {}).place l.length new r ∧ s.Has n (l ++ new) :=
  .bind (Q := fun _ => Session.Has n l) (fun _ hs => hs) fun _ => spawn_holds i () _

theorem popFault_holds (i : Nat) : Holds (Session.Has n l) (popFault i) fun r s =>
    ∃ new, Await (l.getD i {}).place l.length new r ∧ s.Has n (l ++ new) :=
  spawn_holds i false _

theorem descents_quiet (i : Nat) : Quiet (descents i) :=
  Looks.quiet fun _ => rfl

end

end Repair

end PointMutation
