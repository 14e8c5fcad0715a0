import PointMutation.Proofs.Nesting.Descent

/-!
# Finishing phrases

While one reading is dealt with, it and the readings that come of it are calm: free to go on, and
no further than where the reading was. Finishing a phrase keeps them so.
-/

namespace PointMutation

namespace Repair

open PointMutation.Grammar

/-! ## Calm readings -/

/-- A reading that is free to go on and no further than `top`. -/
def Stand.Calm (top : Nat) (x : Stand) : Prop := x.place ≤ top ∧ x.free = true

/-- The `i`-th reading and all from the `first`-th on are calm. -/
structure Calm (top i first : Nat) (l : List Stand) : Prop where
  before : i < first
  after : first ≤ l.length
  calm (k : Nat) : k = i ∨ first ≤ k → (l.getD k {}).Calm top

theorem getD_modify (l : List Stand) (f : Stand → Stand) (i k : Nat) :
    (l.modify i f).getD k {} =
      if i = k ∧ k < l.length then f (l.getD k {}) else l.getD k {} := by
  rw [List.getD_eq_getElem?_getD, List.getD_eq_getElem?_getD, List.getElem?_modify]
  by_cases hk : k < l.length
  · by_cases hi : i = k
    · simp [hi, hk]
    · simp [hi]
  · simp [hk]

theorem getD_eraseIdx (l : List Stand) (i k : Nat) :
    (l.eraseIdx i).getD k {} = if k < i then l.getD k {} else l.getD (k + 1) {} := by
  rw [List.getD_eq_getElem?_getD, List.getElem?_eraseIdx]
  split
  · rw [List.getD_eq_getElem?_getD]
  · rw [List.getD_eq_getElem?_getD]

theorem getD_append (l l' : List Stand) (k : Nat) :
    (l ++ l').getD k {} = if k < l.length then l.getD k {} else l'.getD (k - l.length) {} := by
  rw [List.getD_eq_getElem?_getD, List.getElem?_append]
  split
  · rw [List.getD_eq_getElem?_getD]
  · rw [List.getD_eq_getElem?_getD]

theorem calm_default (top : Nat) : ({} : Stand).Calm top := ⟨Nat.zero_le top, rfl⟩

theorem calm_getD {top : Nat} {l : List Stand} (h : ∀ x ∈ l, x.Calm top) (k : Nat) :
    (l.getD k {}).Calm top := by
  rw [List.getD_eq_getElem?_getD]
  cases hk : l[k]? with
  | none => exact calm_default top
  | some x => exact h x (List.mem_of_getElem? hk)

namespace Calm

variable {top i first : Nat} {l : List Stand}

theorem self (h : Calm top i first l) : (l.getD i {}).Calm top := h.calm i (.inl rfl)

/-- New readings are those behind all that there are. -/
theorem fresh (hi : i < l.length) (hcalm : (l.getD i {}).Calm top) : Calm top i l.length l := by
  refine ⟨hi, Nat.le_refl _, ?_⟩
  rintro k (rfl | hk)
  · exact hcalm
  · rw [List.getD_eq_getElem?_getD, List.getElem?_eq_none hk]
    exact calm_default top

theorem modify (h : Calm top i first l) {k : Nat} {f : Stand → Stand}
    (hf : (f (l.getD k {})).Calm top) : Calm top i first (l.modify k f) := by
  refine ⟨h.before, by rw [List.length_modify]; exact h.after, ?_⟩
  intro j hj
  rw [getD_modify]
  split
  · rename_i hk
    rw [← hk.1]
    exact hf
  · exact h.calm j hj

theorem eraseIdx (h : Calm top i first l) {k : Nat} (hk : first ≤ k) :
    Calm top i first (l.eraseIdx k) := by
  have hbefore := h.before
  have hafter := h.after
  refine ⟨hbefore, ?_, ?_⟩
  · rw [List.length_eraseIdx]
    split
    · omega
    · exact hafter
  · intro j hj
    rw [getD_eraseIdx]
    split
    · exact h.calm j hj
    · exact h.calm (j + 1) (by omega)

theorem append (h : Calm top i first l) {new : List Stand} (hnew : ∀ x ∈ new, x.Calm top) :
    Calm top i first (l ++ new) := by
  refine ⟨h.before, ?_, ?_⟩
  · rw [List.length_append]
    exact Nat.le_trans h.after (Nat.le_add_right _ _)
  · intro k hk
    rw [getD_append]
    split
    · exact h.calm k hk
    · exact calm_getD hnew _

/-- The readings behind some place are left out, or others of them put there. -/
theorem take_append (h : Calm top i first l) {m : Nat} (hm : first ≤ m) {new : List Stand}
    (hnew : ∀ x ∈ new, x.Calm top) : Calm top i first (l.take m ++ new) := by
  refine append ⟨h.before, ?_, ?_⟩ hnew
  · rw [List.length_take]
    exact Nat.le_min.mpr ⟨hm, h.after⟩
  · intro k hk
    by_cases hkm : k < m
    · have hcalm := h.calm k hk
      rwa [List.getD_eq_getElem?_getD, List.getElem?_take_of_lt hkm,
        ← List.getD_eq_getElem?_getD]
    · have hlength : (l.take m).length ≤ k := by
        rw [List.length_take]
        omega
      rw [List.getD_eq_getElem?_getD, List.getElem?_eq_none hlength]
      exact calm_default top

/-- Readings behind some place are calm. -/
theorem drop (h : Calm top i first l) {m : Nat} (hm : first ≤ m) :
    ∀ x ∈ l.drop m, x.Calm top := by
  intro x hx
  obtain ⟨k, hk⟩ := List.mem_iff_getElem?.mp hx
  rw [List.getElem?_drop] at hk
  have hcalm := h.calm (m + k) (by omega)
  rwa [List.getD_eq_getElem?_getD, hk] at hcalm

theorem replace (h : Calm top i first l) {j k : Nat} (hj : first ≤ j) :
    Calm top i first (if j = k then l else (l.modify k fun _ => l.getD j {}).eraseIdx j) := by
  split
  · exact h
  · exact (h.modify (h.calm j (.inr hj))).eraseIdx hj

end Calm

/-- A sound session with calm readings. -/
def Session.Calm (n top i first : Nat) (s : Session) : Prop :=
  s.Sound n ∧ Repair.Calm top i first s.stands

section

variable {n top i first : Nat} {l : List Stand}

theorem Session.Has.calm {s : Session} (h : s.Has n l) (hc : Repair.Calm top i first l) :
    s.Calm n top i first := by
  obtain ⟨hs, rfl⟩ := h
  exact ⟨hs, hc⟩

theorem Session.Has.getD_le {s : Session} (h : s.Has n l) (k : Nat) :
    (l.getD k {}).place ≤ n := by
  obtain ⟨hs, rfl⟩ := h
  rw [← stand_headAt hs k]
  exact hs.getD_le _

/-- Readings are within the text. -/
theorem Holds.known {α : Type} {p : Search α} {Q : α → Session → Prop} (k : Nat)
    (h : (l.getD k {}).place ≤ n → Holds (Session.Has n l) p Q) : Holds (Session.Has n l) p Q :=
  fun s hs => h (hs.getD_le k) s hs

/-- The readings may be named. -/
theorem Holds.calm {α : Type} {p : Search α} {Q : α → Session → Prop}
    (h : ∀ l, Repair.Calm top i first l → Holds (Session.Has n l) p Q) :
    Holds (Session.Calm n top i first) p Q :=
  fun s ⟨hs, hc⟩ => h s.stands hc s ⟨hs, rfl⟩

theorem Quiet.calm {α : Type} {p : Search α} (hp : Quiet p) :
    Holds (Session.Calm n top i first) p fun _ => Session.Calm n top i first :=
  .calm fun l hc => (hp n l).mono (fun _ hs => hs) fun _ _ hs => hs.calm hc

/-! ## Putting branches on readings -/

/-- A branch within the text of a calm reading leaves it calm. -/
theorem push_calm {k : Nat} {branch : Option Branch} (state : Nat)
    (hc : Repair.Calm top i first l) (hk : (l.getD k {}).Calm top)
    (hbranch : ∀ b ∈ branch, b.In (l.getD k {}).place top) (htop : top ≤ n) :
    Holds (Session.Has n l) (push k branch state) fun _ => Session.Calm n top i first := by
  refine (push_holds state hk.2 fun b hb => (hbranch b hb).mono (Nat.le_refl _) htop).mono
    (fun _ hs => hs) fun _ s hs => hs.calm (hc.modify ⟨Nat.max_le.mpr ⟨hk.1, ?_⟩, rfl⟩)
  cases branch with
  | none => exact Nat.zero_le top
  | some b => exact (hbranch b rfl).stop

end

section

variable {n top : Nat} {front rest : List Stand} {x : Stand}

theorem getD_middle (front rest : List Stand) (x : Stand) :
    (front ++ x :: rest).getD front.length {} = x := by
  simp

theorem modify_middle (front rest : List Stand) (x : Stand) (f : Stand → Stand) :
    (front ++ x :: rest).modify front.length f = front ++ f x :: rest := by
  induction front with
  | nil => rfl
  | cons y front ih =>
    rw [List.cons_append, List.length_cons, List.modify_succ_cons, ih, List.cons_append]

theorem eraseIdx_middle (front rest : List Stand) (x : Stand) :
    (front ++ x :: rest).eraseIdx front.length = front ++ rest := by
  rw [List.eraseIdx_append_of_length_le (Nat.le_refl _), Nat.sub_self, List.eraseIdx_cons_zero]

theorem top_middle : Holds (Session.Has n (front ++ x :: rest)) (Repair.top front.length)
    fun v s => v.place = x.place ∧ s.Has n (front ++ x :: rest) := by
  intro s hs
  refine ⟨?_, hs⟩
  have hstand := stand_headAt hs.1 front.length
  rw [hs.2, getD_middle] at hstand
  rw [← hstand]
  exact place_vertexAt s _

/-- A reading among others takes a branch. -/
theorem push_middle {branch : Option Branch} (state : Nat) (hfree : x.free = true)
    (hbranch : ∀ b ∈ branch, b.In x.place n) :
    Holds (Session.Has n (front ++ x :: rest)) (push front.length branch state) fun _ =>
      Session.Has n
        (front ++ ⟨max x.place ((branch.map Branch.stop).getD 0), true⟩ :: rest) := by
  have hpush := @push_holds n (front ++ x :: rest) front.length branch state
  rw [getD_middle, modify_middle] at hpush
  exact hpush hfree hbranch

/-- A reading among others takes branches in a row. -/
theorem pushExtras_middle {m : Nat} (state : Nat) {bs : List Branch} (hfree : x.free = true)
    (hplace : x.place ≤ m) (hbs : PartsIn m top bs) (htop : top ≤ n) :
    Holds (Session.Has n (front ++ x :: rest)) (pushExtras front.length state bs) fun _ s =>
      ∃ y : Stand, y.Calm top ∧ s.Has n (front ++ y :: rest) := by
  induction bs generalizing x m with
  | nil =>
    have hle := partsIn_nil.mp hbs
    exact .pure fun s hs => ⟨x, ⟨Nat.le_trans hplace hle, hfree⟩, hs⟩
  | cons b bs ih =>
    obtain ⟨hb, hnested, hrest⟩ := partsIn_cons.mp hbs
    have hin : b.In x.place n :=
      ⟨Nat.le_trans hplace hb, hnested, Nat.le_trans hrest.le htop⟩
    refine .bind (push_middle state hfree ?_) fun _ => ih rfl ?_ hrest
    · rintro _ ⟨⟩
      exact hin
    · exact Nat.max_le.mpr ⟨Nat.le_trans hplace (Nat.le_trans hb hnested.le), Nat.le_refl _⟩

/-! ## Finishing a phrase -/

/-- A branch made of some parts lies where they lie. -/
theorem make_in_of_ne_nil (g : Grammar) (site : Site) (label : Label) (traces : List Trace)
    {a b : Nat} (place : Nat) {ps : List Branch} (h : PartsIn a b ps) (hps : ps ≠ []) :
    (Branch.make g site label traces ps place).In a b := by
  cases ps with
  | nil => exact absurd rfl hps
  | cons p ps =>
    have hat : (Branch.make g site label traces (p :: ps) a).In a b :=
      make_in g site label traces h (Nat.le_refl a) h.le
    exact hat

theorem finish_in (c : Task) (r : Reduction) {place top : Nat} {ways : List (List Branch)}
    (h : ∀ w ∈ ways, PartsIn place top w) {b : Branch} {extras : List Branch}
    (hfinish : c.finish r place ways = some (b, extras)) :
    ∃ m, b.In place m ∧ PartsIn m top extras := by
  have hmake : ∀ w ∈ ways, ∃ m,
      (c.make (.phrase r.phrase) r.parts (Task.splitExtras w).1 place).In place m ∧
        PartsIn m top (Task.splitExtras w).2 := by
    intro w hw
    obtain ⟨m, hparts, hextras⟩ := partsIn_splitExtras (h w hw)
    exact ⟨m, make_in c.grammar c.site _ _ hparts (Nat.le_refl _) hparts.le, hextras⟩
  cases ways with
  | nil => cases hfinish
  | cons w ways =>
    have hbest := Option.some.inj hfinish
    have hfold : ∀ best, best = (b, extras) →
        (∃ m, best.1.In place m ∧ PartsIn m top best.2) →
        ∃ m, b.In place m ∧ PartsIn m top extras := by
      rintro _ rfl hgood
      exact hgood
    refine hfold _ hbest ?_
    refine List.foldlRecOn (motive := fun best : Branch × List Branch =>
      ∃ m, best.1.In place m ∧ PartsIn m top best.2) ways _ ?_ ?_
    · exact hmake w (by simp)
    · intro best hgood v hv
      dsimp only
      split
      · exact hmake v (by simp [hv])
      · exact hgood

theorem mergeInto_holds (c : Task) (i : Nat) (others : List Nat) {l : List Stand} :
    Holds (Session.Has n l) (c.mergeInto i others) fun merged =>
      Session.Has n (if merged then l.eraseIdx i else l) := by
  unfold Task.mergeInto
  induction others with
  | nil => exact .pure fun _ hs => hs
  | cons j others ih =>
    rw [List.anyM]
    refine .bind (mergeHeads_holds c.site j i) fun merged => ?_
    cases merged with
    | true => exact .pure fun _ hs => hs
    | false => exact ih

/-- A new reading takes the phrase, or it is given up. -/
theorem place_holds (c : Task) (i halted : Nat) (r : Reduction) {ways : List (List Branch)}
    (hx : x.Takes top ways) (htop : top ≤ n) :
    Holds (Session.Has n (front ++ x :: rest)) (c.place i halted r front.length ways)
      fun gone s => ∃ y : Stand, y.Calm top ∧
        s.Has n (if gone then front ++ rest else front ++ y :: rest) := by
  refine .ite (fun _ => ?_) fun _ => ?_
  · refine .bind (removeHead_holds front.length) fun _ => .pure fun s hs => ?_
    rw [eraseIdx_middle] at hs
    exact ⟨x, ⟨hx.place, hx.free⟩, hs⟩
  · refine .bind (Q := fun v s => v.place = x.place ∧ s.Has n (front ++ x :: rest)) ?_
      fun v => .and_left fun hv => ?_
    · exact top_middle
    split
    · exact .pure fun s hs => ⟨x, ⟨hx.place, hx.free⟩, hs⟩
    · rename_i b extras hfinish
      rw [hv] at hfinish
      obtain ⟨m, hb, hextras⟩ := finish_in c r hx.ways hfinish
      have hbn := (hb.addWeight r.weight).mono (Nat.le_refl _) (Nat.le_trans hextras.le htop)
      refine .bind (push_middle _ hx.free ?_) fun _ => ?_
      · rintro _ ⟨⟩
        exact hbn
      refine .bind (pushExtras_middle (m := m) _ rfl ?_ hextras htop) fun _ => ?_
      · exact Nat.max_le.mpr ⟨hb.le, (hb.addWeight r.weight).stop⟩
      rintro s ⟨y, hy, hs⟩
      have hmerge := mergeInto_holds c front.length ((List.range front.length).filter (· != i))
        s hs
      rw [eraseIdx_middle] at hmerge
      exact ⟨y, hy, hmerge⟩

theorem placeAll_holds (c : Task) (i halted : Nat) (r : Reduction) (removed : Nat)
    {new : List Stand} {groups : List (Nat × List (List Branch))} {p first : Nat}
    (hnew : Await top (front.length + removed) new groups)
    (hc : Repair.Calm top p first (front ++ new)) (hfirst : first ≤ front.length)
    (htop : top ≤ n) :
    Holds (Session.Has n (front ++ new)) (c.placeAll i halted r removed groups) fun _ =>
      Session.Calm n top p first := by
  induction groups generalizing front new removed with
  | nil => exact .pure fun s hs => hs.calm hc
  | cons g groups ih =>
    obtain ⟨m, ways⟩ := g
    cases new with
    | nil => exact hnew.elim
    | cons x new =>
      obtain ⟨rfl, hx, hnew⟩ := hnew
      rw [Task.placeAll, Nat.add_sub_cancel]
      refine .bind (place_holds c i halted r hx htop) fun gone => ?_
      refine .exists fun y => .and_left fun hy => ?_
      cases gone with
      | true =>
        refine ih (removed + 1) hnew ?_ hfirst
        have herase := hc.eraseIdx hfirst
        rwa [eraseIdx_middle] at herase
      | false =>
        have hmodify := hc.modify (k := front.length) (f := fun _ => y) hy
        rw [modify_middle, List.append_cons] at hmodify
        have hlength : (front ++ [y]).length + removed = front.length + removed + 1 := by
          rw [List.length_append, List.length_singleton, Nat.add_right_comm]
        have hfront : first ≤ (front ++ [y]).length := by
          rw [List.length_append]
          exact Nat.le_trans hfirst (Nat.le_add_right _ _)
        have hrest := ih removed (hlength ▸ hnew) hmodify hfront
        rwa [← List.append_cons] at hrest

/-- New readings from the end on are calm. -/
theorem Await.calm {k : Nat} {new : List Stand} {groups : List (Nat × List (List Branch))}
    (h : Await top k new groups) : ∀ x ∈ new, x.Calm top := by
  induction new generalizing k groups with
  | nil => simp
  | cons x new ih =>
    cases groups with
    | nil => exact h.elim
    | cons g groups =>
      obtain ⟨_, hx, hnew⟩ := h
      intro y hy
      rcases List.mem_cons.mp hy with rfl | hy
      · exact ⟨hx.place, hx.free⟩
      · exact ih hnew y hy

theorem Await.mono {top' k : Nat} {new : List Stand} {groups : List (Nat × List (List Branch))}
    (h : Await top k new groups) (htop : top ≤ top') : Await top' k new groups := by
  induction new generalizing k groups with
  | nil =>
    cases groups with
    | nil => trivial
    | cons g groups => exact h.elim
  | cons x new ih =>
    cases groups with
    | nil => exact h.elim
    | cons g groups =>
      obtain ⟨hk, hx, hnew⟩ := h
      exact ⟨hk, ⟨hx.free, Nat.le_trans hx.place htop,
        fun w hw => (hx.ways w hw).mono (Nat.le_refl _) htop⟩, ih hnew⟩

end

section

variable {n top p first : Nat}

/-- Finishing a phrase keeps calm readings calm. -/
theorem reduce_holds (c : Task) {i : Nat} (r : Reduction) (hi : i = p ∨ first ≤ i)
    (htop : top ≤ n) :
    Holds (Session.Calm n top p first) (c.reduce i r) fun last s =>
      (∀ j ∈ last, first ≤ j) ∧ s.Calm n top p first := by
  refine .calm fun l hc => ?_
  refine .bind headCount_holds fun before => .and_left fun hbefore => ?_
  refine .bind (pop_holds i r.parts.length) fun groups => .exists fun new => .and_left fun hnew => ?_
  have hawait := hnew.mono (hc.calm i hi).1
  refine .bind (Q := fun _ => Session.Has n (l ++ new)) (fun _ hs => hs) fun t => ?_
  refine .bind (placeAll_holds c i _ r 0 hawait (hc.append hawait.calm) hc.after htop) fun _ => ?_
  refine .look headCount_looks fun after => .pure fun s hs => ⟨?_, hs.2⟩
  intro j hj
  split at hj
  · cases hj
    exact hbefore ▸ hc.after
  · cases hj

/-- So does finishing several phrases one after the other. -/
theorem reduceEach_holds (c : Task) {i : Nat} (hi : i = p ∨ first ≤ i) (htop : top ≤ n)
    {last : Option Nat} (hlast : ∀ j ∈ last, first ≤ j) (rs : List Reduction) :
    Holds (Session.Calm n top p first) (c.reduceEach i last rs) fun last s =>
      (∀ j ∈ last, first ≤ j) ∧ s.Calm n top p first := by
  induction rs generalizing last with
  | nil => exact .pure fun s hs => ⟨hlast, hs⟩
  | cons r rs ih =>
    refine .bind (reduce_holds c r hi htop) fun last' => .and_left fun hlast' => ?_
    exact ih hlast'

theorem mergeInto_calm (c : Task) {i : Nat} (hi : first ≤ i) (others : List Nat) :
    Holds (Session.Calm n top p first) (c.mergeInto i others) fun _ =>
      Session.Calm n top p first := by
  refine .calm fun l hc => (mergeInto_holds c i others).mono (fun _ hs => hs) ?_
  intro merged s hs
  refine hs.calm ?_
  split
  · exact hc.eraseIdx hi
  · exact hc

theorem replaceHead_calm {j i : Nat} (hj : first ≤ j) :
    Holds (Session.Calm n top p first) (replaceHead j i) fun _ => Session.Calm n top p first :=
  .calm fun _ hc => (replaceHead_holds j i).mono (fun _ hs => hs) fun _ _ hs =>
    hs.calm (hc.replace hj)

theorem removeHead_calm {i : Nat} (hi : first ≤ i) :
    Holds (Session.Calm n top p first) (removeHead i) fun _ => Session.Calm n top p first :=
  .calm fun _ hc => (removeHead_holds i).mono (fun _ hs => hs) fun _ _ hs =>
    hs.calm (hc.eraseIdx hi)

/-- Finishing all phrases that can be finished keeps calm readings calm. Only new readings are
given up for a token that they cannot take, and only they become part of others. -/
theorem reduceAll_holds (c : Task) (token : Option Nat) {start from' : Nat} (hfrom : p ≤ from')
    (htop : top ≤ n) (fuel round : Nat) {i : Nat} (can : Bool)
    (hi : first ≤ i ∨ i = p ∧ start = p ∧ token = none) :
    Holds (Session.Calm n top p first) (c.reduceAll token start from' fuel round i can) fun _ =>
      Session.Calm n top p first := by
  induction fuel generalizing round i can with
  | zero => exact .pure fun _ hs => hs
  | succ fuel ih =>
    refine .calm fun l hc => ?_
    refine .bind headCount_holds fun count => .and_left fun hcount => ?_
    refine .ite (fun _ => .pure fun s hs => hs.calm hc) fun _ => ?_
    have hself : i = p ∨ first ≤ i := by
      rcases hi with hi | hi
      · exact .inr hi
      · exact .inl hi.1
    have hmerge : Holds (Session.Calm n top p first)
        (c.mergeInto i ((List.range (i - from')).map (· + from'))) fun _ =>
          Session.Calm n top p first := by
      rcases hi with hi | ⟨rfl, _, _⟩
      · exact mergeInto_calm c hi _
      · rw [Nat.sub_eq_zero_of_le hfrom]
        exact .pure fun _ hs => hs
    refine .mono (P := Session.Calm n top p first) ?_ (fun s hs => hs.calm hc) fun _ _ hs => hs
    refine .bind hmerge fun merged => .ite (fun _ => ih _ _ hi) fun _ => ?_
    refine .bind (top_looks i).quiet.calm fun v => ?_
    refine .bind (reduceEach_holds c hself htop (by simp) _) fun last => .and_left fun hlast => ?_
    have hremove : token.isSome = true → Holds (Session.Calm n top p first) (removeHead i)
        fun _ => Session.Calm n top p first := by
      intro htoken
      rcases hi with hi | ⟨_, _, rfl⟩
      · exact removeHead_calm hi
      · cases htoken
    have hfollowing : first ≤ (if i = start then count else i + 1) := by
      split
      · exact hcount ▸ hc.after
      · omega
    generalize (if i = start then count else i + 1) = following at hfollowing
    split
    · exact ih _ _ (.inl hfollowing)
    · rename_i j _
      refine .ite (fun _ => ?_) fun _ => ?_
      · exact .bind (replaceHead_calm (hlast j rfl)) fun _ => ih _ _ hi
      · refine .ite (fun htoken => ?_) fun _ => ih _ _ (.inl hfollowing)
        exact .bind (hremove htoken) fun _ => ih _ _ (.inl hfollowing)
    · refine .ite (fun htoken => ?_) fun _ => ih _ _ (.inl hfollowing)
      exact .bind (hremove htoken) fun _ => ih _ _ (.inl hfollowing)

end

end Repair

end PointMutation
