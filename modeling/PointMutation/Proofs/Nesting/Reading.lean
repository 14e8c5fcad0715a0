import PointMutation.Proofs.Nesting.Recovery
import PointMutation.Proofs.Nesting.Statement
import PointMutation.Source

/-!
# Nested sources

Reading a faulty text keeps sessions sound, so that the tree of its best reading is nested. The
tree of each source is nested then, whichever way it was read.
-/

namespace PointMutation

namespace Repair

open PointMutation.Grammar

section

variable {n top p first : Nat}

/-! ## Missing tokens -/

/-- A new reading like another that is free to go on. -/
theorem copyHead_holds {l : List Stand} {i : Nat} {h : Head} :
    Holds (fun s => h = s.headAt i ∧ s.Has n l)
      (modify fun s => { s with
        heads := s.heads.push { h with descents := none, lookahead := none } })
      fun _ => Session.Has n (l ++ [⟨(l.getD i {}).place, true⟩]) := by
  refine .modify ?_
  rintro s ⟨rfl, hs, rfl⟩
  constructor
  · refine hs.setHeads ?_
    intro x hx
    rw [Array.toList_push] at hx
    rcases List.mem_append.mp hx with hx | hx
    · exact hs.heads x hx
    · rw [List.mem_singleton.mp hx]
      exact ⟨(hs.headAt i).vertex, by simp, fun _ => rfl⟩
  · show (s.heads.push _).toList.map (Head.stand s.places) = _
    rw [Array.toList_push, List.map_append, ← stand_headAt hs i]
    rfl

theorem insertMissing_holds (c : Task) {i : Nat} (t : Nat) (hi : i = p ∨ first ≤ i)
    (htop : top ≤ n) (ms : List Nat) :
    Holds (Session.Calm n top p first) (c.insertMissing i t ms) fun _ =>
      Session.Calm n top p first := by
  induction ms with
  | nil => exact .pure fun _ hs => hs
  | cons m ms ih =>
    refine .calm fun l hc => ?_
    have hcalm := hc.calm i hi
    refine .bind (Q := fun h s => h = s.headAt i ∧ s.Has n l) (fun s hs => ⟨rfl, hs⟩) fun h => ?_
    refine .bind (Q := fun v s => v.place = (l.getD i {}).place ∧ h = s.headAt i ∧ s.Has n l) ?_
      fun v => .and_left fun hv => ?_
    · rintro s ⟨rfl, hs, rfl⟩
      refine ⟨?_, rfl, hs, rfl⟩
      rw [← stand_headAt hs i]
      exact place_vertexAt s _
    have hskip : Holds (fun s => h = s.headAt i ∧ s.Has n l) (c.insertMissing i t ms) fun _ =>
        Session.Calm n top p first :=
      ih.mono (fun s hs => hs.2.calm hc) fun _ _ hs => hs
    dsimp only
    split
    · refine .bind (Q := fun j s => j = l.length ∧ h = s.headAt i ∧ s.Has n l) ?_
        fun j => .and_left fun hj => ?_
      · rintro s ⟨hh, hs⟩
        exact ⟨(headCount_holds s hs).1, hh, hs⟩
      refine .bind copyHead_holds fun _ => ?_
      have hnew : ∀ x ∈ [(⟨(l.getD i {}).place, true⟩ : Stand)], x.Calm top := by
        intro x hx
        rw [List.mem_singleton.mp hx]
        exact ⟨hcalm.1, rfl⟩
      have hc' := hc.append hnew
      rw [hj]
      refine .bind (push_calm _ hc' ?_ ?_ htop) fun _ => ?_
      · rw [getD_middle]
        exact ⟨hcalm.1, rfl⟩
      · rintro _ ⟨⟩
        rw [getD_middle]
        have hle : v.place ≤ top := hv ▸ hcalm.1
        exact ⟨Nat.le_of_eq hv.symm, nested_node.mpr (partsIn_nil.mpr (Nat.le_refl _)), hle⟩
      refine .bind (reduceAll_holds c _ ?_ htop _ _ _ (.inl hc.after)) fun done => ?_
      · have hbefore := hc.before
        have hafter := hc.after
        omega
      exact .ite (fun _ => .pure fun _ hs => hs) fun _ => ih
    · exact hskip

/-! ## Pausing readings -/

theorem breakOff_holds (c : Task) (b : Branch) (from' : Nat) (inserted : Bool) (htop : top ≤ n)
    {is : List Nat} (his : ∀ i ∈ is, i = p ∨ first ≤ i) :
    Holds (Session.Calm n top p first) (c.breakOff b from' inserted is) fun _ =>
      Session.Calm n top p first := by
  induction is generalizing inserted with
  | nil => exact .pure fun _ hs => hs
  | cons i is ih =>
    have hi := his i (by simp)
    have hrest : ∀ inserted : Bool, Holds (Session.Calm n top p first) (do
        push i none 0
        c.breakOff b from' inserted is) fun _ => Session.Calm n top p first := by
      intro inserted
      refine .bind (.calm fun l hc => push_calm _ hc (hc.calm i hi) (by simp) htop) fun _ => ?_
      exact ih _ fun j hj => his j (by simp [hj])
    rw [Task.breakOff.eq_def]
    dsimp only
    split
    · exact .bind (insertMissing_holds c _ hi htop _) hrest
    · exact .bind (.pure fun _ hs => hs) hrest

theorem mergeFollowing_holds (site : Site) {i j : Nat} (hj : first ≤ j) (k : Nat) :
    Holds (Session.Calm n top p first) (mergeFollowing site i j k) fun _ =>
      Session.Calm n top p first := by
  induction k with
  | zero => exact .pure fun _ hs => hs
  | succ k ih =>
    refine .bind (.calm fun l hc => ?_) fun merged => ih
    refine (mergeHeads_holds site i j).mono (fun _ hs => hs) fun merged s hs => hs.calm ?_
    split
    · exact hc.eraseIdx hj
    · exact hc

/-- Dealing with a reading that paused keeps the session sound. -/
theorem handle_holds (c : Task) {l : List Stand} {i : Nat} (hi : i < l.length)
    (hfree : (l.getD i {}).free = true) {b : Branch} (hb : b.In (l.getD i {}).place n) :
    Holds (Session.Has n l) (c.handle i b) fun _ => Session.Sound n := by
  have hc : Repair.Calm (l.getD i {}).place i l.length l := .fresh hi ⟨Nat.le_refl _, hfree⟩
  refine .bind headCount_holds fun before => .and_left fun hbefore => ?_
  subst hbefore
  refine .mono (P := Session.Calm n (l.getD i {}).place i l.length) ?_ (fun s hs => hs.calm hc)
    fun _ _ hs => hs
  refine .bind (reduceAll_holds c none (Nat.le_of_lt hi) hb.le _ _ _ (.inr ⟨rfl, rfl, rfl⟩))
    fun can => ?_
  refine .bind headCount_looks.quiet.calm fun after => ?_
  refine .bind (breakOff_holds c b _ _ hb.le ?_) fun _ => ?_
  · intro j hj
    rcases List.mem_cons.mp hj with rfl | hj
    · exact .inl rfl
    · obtain ⟨k, _, rfl⟩ := List.mem_map.mp hj
      exact .inr (Nat.le_add_left _ _)
  refine .bind (mergeFollowing_holds _ (Nat.le_refl _) _) fun _ => ?_
  refine .bind (descents_quiet i).calm fun ds => ?_
  have hkeeps : Keeps fun h => { h with descents := some ds } :=
    ⟨fun _ => rfl, fun _ => rfl, fun _ h => h⟩
  have hquiet : Quiet (changeHead i fun h => { h with descents := some ds }) :=
    fun _ _ => changeHead_holds hkeeps i
  exact .bind hquiet.calm fun _ => recover_holds c hb

end

/-! ## Taking tokens -/

section

variable {n : Nat} {l : List Stand}

/-- What is known of a reading. -/
theorem head_facts (i : Nat) : Holds (Session.Has n l) (head i) fun h s =>
    ((h.status ≠ .halted → i < l.length) ∧ (h.status = .active → (l.getD i {}).free = true) ∧
      ∀ b ∈ h.lookahead, b.In (l.getD i {}).place n) ∧ s.Has n l := by
  rintro s ⟨hs, rfl⟩
  have hstands := hs.headAt i
  have hstand := stand_headAt hs i
  refine ⟨⟨?_, ?_, ?_⟩, hs, rfl⟩
  · intro h
    by_cases hi : i < s.heads.size
    · rwa [Session.stands, List.length_map, Array.length_toList]
    · refine absurd ?_ h
      show (s.headAt i).status = .halted
      rw [Session.headAt, Array.getD_eq_getD_getElem?,
        Array.getElem?_eq_none (Nat.le_of_not_lt hi)]
      rfl
  · intro h
    have hnone := hstands.active h
    rw [← hstand, Head.stand, hnone]
    rfl
  · rw [← hstand]
    exact hstands.lookahead

theorem progressed_looks (c : Task) (h : Head) (fuel i : Nat) : Looks (c.progressed h fuel i) := by
  induction fuel generalizing i with
  | zero => exact .pure false
  | succ fuel ih =>
    refine .bind (vertex_looks i) fun v => ?_
    split
    · exact .ite (.pure true) (.ite (ih _) (.pure false))
    · exact .pure false

/-- The next token of a reading lies behind it. -/
theorem nextToken_holds {c : Task} (hc : c.Covers n) (i : Nat) :
    Holds (Session.Has n l) (c.nextToken i) fun b s =>
      b.In (l.getD i {}).place n ∧ s.Has n l := by
  refine .bind (standing_holds i) fun h => .bind (vertexAt_holds h.vertex) fun v =>
    .and_left fun hv => .known i fun hle => ?_
  have hfind : ∀ progressed : Bool, Holds (Session.Has n l) (pure
      ((c.findToken v.state progressed h.opened v.place c.bound v.state v.place none).getD
        (.node (c.leaf c.stop v.place v.place v.place) []))) fun b s =>
      b.In (l.getD i {}).place n ∧ s.Has n l := by
    refine fun progressed => .pure fun s hs => ⟨?_, hs⟩
    rw [← hv] at hle ⊢
    cases hb : c.findToken v.state progressed h.opened v.place c.bound v.state v.place none with
    | none => exact leaf_in c _ _ (Nat.le_refl _) (Nat.le_refl _) hle
    | some b => exact findToken_in hc (Nat.le_refl _) hle (by simp) hb
  refine .ite (fun _ => .bind (.pure fun _ hs => hs) hfind) fun _ => ?_
  exact .bind ((progressed_looks c h _ _).quiet n l) hfind

end

section

variable {n top i first : Nat}

/-- What holds after the actions on a token: a reading that has not taken the token is calm, and
so are the readings that came of it. -/
def Task.Progress.Fine (n top i first : Nat) (r : Task.Progress) (s : Session) : Prop :=
  match r with
  | .done => s.Sound n
  | .reduced last => (∀ j ∈ last, first ≤ j) ∧ s.Calm n top i first
  | .stuck => s.Calm n top i first

/-- A calm reading takes a token. -/
theorem takeToken_holds {b : Branch} (state : Nat) (hb : b.In top n) :
    Holds (Session.Calm n top i first) (Task.takeToken i b state) fun _ => Session.Sound n := by
  refine .calm fun l hc => ?_
  refine .bind (push_holds state hc.self.2 ?_) fun _ => ?_
  · rintro _ ⟨⟩
    exact hb.mono hc.self.1 (Nat.le_refl _)
  refine .ite (fun _ => ?_) fun _ => .pure fun s hs => hs.1
  have hkeeps : Keeps fun h => { h with opened := b.summary.opened } :=
    ⟨fun _ => rfl, fun _ => rfl, fun _ h => h⟩
  exact (changeHead_holds hkeeps i).mono (fun _ hs => hs) fun _ s hs => hs.1

theorem act_holds (c : Task) {b : Branch} (state : Nat) (hb : b.In top n)
    {r : Task.Progress} (hr : r ≠ .done ∧ ∀ last, r = .reduced last → ∀ j ∈ last, first ≤ j)
    (as : List Action) :
    Holds (Session.Calm n top i first) (c.act i state b r as) (Task.Progress.Fine n top i first) := by
  induction as generalizing r with
  | nil =>
    refine .pure fun s hs => ?_
    cases r with
    | done => exact absurd rfl hr.1
    | reduced last => exact ⟨hr.2 last rfl, hs⟩
    | stuck => exact hs
  | cons a as ih =>
    have htop := hb.le
    cases a with
    | shift m repeated =>
      cases repeated with
      | true => exact ih hr
      | false => exact .bind (takeToken_holds m hb) fun _ => .pure fun _ hs => hs
    | pass => exact .bind (takeToken_holds state hb.asExtra) fun _ => .pure fun _ hs => hs
    | reduce rule =>
      refine .bind (reduce_holds c rule (.inl rfl) htop) fun last => .and_left fun hlast => ?_
      refine ih ⟨by simp, ?_⟩
      rintro _ ⟨⟩ j hj
      split at hj
      · rename_i last'
        rcases some_of_orElse hj with hj | hj
        · exact hlast j hj
        · exact hr.2 last' rfl j hj
      · exact hlast j hj
    | accept => exact .bind (accept_holds c hb) fun _ => .pure fun _ hs => hs
    | recover => exact .bind (recover_holds c hb) fun _ => .pure fun _ hs => hs

theorem asName_in (c : Task) {a b : Nat} {x : Branch} (h : x.In a b) : (c.asName x).In a b := by
  cases x with
  | node s ps => exact ⟨h.start, nested_node.mpr (nested_node.mp h.nested), h.stop⟩

/-- A calm reading is brought past a token, or pauses in front of it. -/
theorem advanceOn_holds (c : Task) (fuel : Nat) {b : Branch} (hb : b.In top n) :
    Holds (Session.Calm n top i first) (c.advanceOn i fuel b) fun _ => Session.Sound n := by
  have hhalt : Holds (Session.Calm n top i first) (setStatus i .halted) fun _ =>
      Session.Sound n :=
    .calm fun l _ => (setStatus_holds i).mono (fun _ hs => hs) fun _ _ hs => hs.1
  induction fuel generalizing b with
  | zero => exact hhalt
  | succ fuel ih =>
    refine .bind (top_looks i).quiet.calm fun v => ?_
    refine .bind (act_holds c v.state hb ⟨by simp, by simp⟩ _) fun r => ?_
    cases r with
    | done => exact .pure fun _ hs => hs
    | reduced last =>
      refine .and_left fun hlast => ?_
      cases last with
      | none => exact hhalt
      | some j => exact .bind (replaceHead_calm (hlast j rfl)) fun _ => ih hb
    | stuck =>
      refine .ite (fun _ => ih (asName_in c hb)) fun _ => .ite (fun _ => recover_holds c hb)
        fun _ => ?_
      refine .bind (top_looks i).quiet.calm fun w => .calm fun l hc => .modify fun s hs => ?_
      refine (hs.modify (k := fun x => ⟨x.place, false⟩) ?_ fun x _ => rfl).1
      intro x hx
      have hstands := hs.1.heads x (List.mem_of_getElem? hx)
      have hplace : (x.stand s.places).place ≤ top := by
        rw [(hs.headAt hx).2]
        exact hc.self.1
      refine ⟨hstands.vertex, ?_, fun h => by cases h⟩
      rintro _ ⟨⟩
      exact hb.mono hplace (Nat.le_refl _)

end

/-! ## Reading on -/

section

variable {n : Nat}

/-- Each reading of a session may be named. -/
theorem Holds.sound {α : Type} {p : Search α} {Q : α → Session → Prop}
    (h : ∀ l, Holds (Session.Has n l) p Q) : Holds (Session.Sound n) p Q :=
  fun s hs => h s.stands s ⟨hs, rfl⟩

theorem Quiet.sound {α : Type} {p : Search α} (hp : Quiet p) :
    Holds (Session.Sound n) p fun _ => Session.Sound n :=
  .sound fun l => (hp n l).mono (fun _ hs => hs) fun _ _ hs => hs.1

theorem removeHead_sound (i : Nat) :
    Holds (Session.Sound n) (removeHead i) fun _ => Session.Sound n :=
  .sound fun _ => (removeHead_holds i).mono (fun _ hs => hs) fun _ _ hs => hs.1

theorem mergeHeads_sound (site : Site) (i j : Nat) :
    Holds (Session.Sound n) (mergeHeads site i j) fun _ => Session.Sound n :=
  .sound fun _ => (mergeHeads_holds site i j).mono (fun _ hs => hs) fun _ _ hs => hs.1

theorem advance_holds {c : Task} (hc : c.Covers n) {l : List Stand} {i : Nat}
    (hi : i < l.length) (hfree : (l.getD i {}).free = true) :
    Holds (Session.Has n l) (c.advance i) fun _ => Session.Sound n := by
  refine .bind (nextToken_holds hc i) fun b => .and_left fun hb => ?_
  have hc : Repair.Calm (l.getD i {}).place i l.length l := .fresh hi ⟨Nat.le_refl _, hfree⟩
  exact (advanceOn_holds c c.bound hb).mono (fun s hs => hs.calm hc) fun _ _ hs => hs

theorem advanceFurther_holds {c : Task} (hc : c.Covers n) (i fuel last : Nat) :
    Holds (Session.Sound n) (c.advanceFurther i fuel last) fun _ => Session.Sound n := by
  induction fuel generalizing last with
  | zero => exact .pure fun _ hs => hs
  | succ fuel ih =>
    refine .sound fun l => .bind (head_facts i) fun h => .and_left fun ⟨hi, hfree, _⟩ => ?_
    refine .ite (fun _ => .pure fun _ hs => hs.1) fun hactive => ?_
    have hstatus : h.status = .active := by simpa using hactive
    have hlt := hi (by simp [hstatus])
    refine .bind (advance_holds hc hlt (hfree hstatus)) fun _ => ?_
    refine .bind (top_looks i).quiet.sound fun v => ?_
    exact .ite (fun _ => .pure fun _ hs => hs) fun _ => ih _

theorem advanceAll_holds {c : Task} (hc : c.Covers n) (fuel i last : Nat) :
    Holds (Session.Sound n) (c.advanceAll fuel i last) fun _ => Session.Sound n := by
  induction fuel generalizing i last with
  | zero => exact .pure fun _ hs => hs
  | succ fuel ih =>
    refine .bind headCount_looks.quiet.sound fun count => ?_
    refine .ite (fun _ => ?_) fun _ => .pure fun _ hs => hs
    exact .bind (advanceFurther_holds hc i _ last) fun last => ih _ _

theorem contest_holds (c : Task) (m : Merit) (fuel i j : Nat) :
    Holds (Session.Sound n) (c.contest m fuel i j) fun _ => Session.Sound n := by
  induction fuel generalizing i j with
  | zero => exact .pure fun _ hs => hs
  | succ fuel ih =>
    refine .ite (fun _ => .pure fun _ hs => hs) fun _ => ?_
    refine .bind (merit_quiet j).sound fun own => ?_
    split
    · exact .bind (removeHead_sound i) fun _ => .pure fun _ hs => hs
    · exact .bind (removeHead_sound j) fun _ => ih _ _
    · refine .bind (mergeHeads_sound _ j i) fun merged => .ite (fun _ => .pure fun _ hs => hs)
        fun _ => ?_
      refine .bind (.sound fun l => (swapHeads_holds i j).mono (fun _ hs => hs)
        fun _ _ hs => hs.1) fun _ => ih _ _
    · refine .bind (mergeHeads_sound _ j i) fun merged => .ite (fun _ => .pure fun _ hs => hs)
        fun _ => ih _ _

theorem weed_holds (c : Task) (fuel i : Nat) (least : Option Nat) :
    Holds (Session.Sound n) (c.weed fuel i least) fun _ => Session.Sound n := by
  induction fuel generalizing i least with
  | zero => exact .pure fun _ hs => hs
  | succ fuel ih =>
    refine .bind headCount_looks.quiet.sound fun count => .ite (fun _ => .pure fun _ hs => hs)
      fun _ => ?_
    refine .bind (head_looks i).quiet.sound fun h => .ite (fun _ => ?_) fun _ => ?_
    · exact .bind (removeHead_sound i) fun _ => ih _ _
    · refine .bind (merit_quiet i).sound fun m => ?_
      refine .bind headCount_looks.quiet.sound fun count => ?_
      exact .bind (contest_holds c m _ i 0) fun i => ih _ _

/-- A reading that paused goes on. -/
theorem release_holds {l : List Stand} (i : Nat) :
    Holds (Session.Has n l)
      (changeHead i fun h => { h with status := .active, lookahead := none }) fun _ =>
        Session.Has n (l.modify i fun x => ⟨x.place, true⟩) := by
  refine .modify fun s hs => hs.modify ?_ fun _ _ => rfl
  intro x hx
  exact ⟨(hs.1.heads x (List.mem_of_getElem? hx)).vertex, by simp, fun _ => rfl⟩

theorem resume_holds (c : Task) (fuel i count : Nat) (going : Bool) (least : Option Nat) :
    Holds (Session.Sound n) (c.resume fuel i count going least) fun _ => Session.Sound n := by
  induction fuel generalizing i count going least with
  | zero => exact .pure fun _ hs => hs
  | succ fuel ih =>
    refine .ite (fun _ => .pure fun _ hs => hs) fun _ => ?_
    refine .sound fun l => .bind (head_facts i) fun h => .and_left fun ⟨hi, _, hlook⟩ => ?_
    refine .ite (fun _ => (ih _ _ _ _).mono (fun _ hs => hs.1) fun _ _ hs => hs) fun hpaused => ?_
    have hstatus : h.status = .paused := by simpa using hpaused
    have hlt := hi (by simp [hstatus])
    have hget : ∀ f : Stand → Stand, (l.modify i f).getD i {} = f (l.getD i {}) := by
      intro f
      rw [getD_modify, if_pos ⟨rfl, hlt⟩]
    refine .bind (Q := fun _ => Session.Has n l) (fun _ hs => hs) fun t => ?_
    refine .ite (fun _ => ?_) fun _ => ?_
    · refine .bind ((headCost_looks i).quiet n l) fun cost => .bind (release_holds i) fun _ => ?_
      split
      · rename_i b hb
        refine .bind (handle_holds c ?_ ?_ ?_) fun _ => ih _ _ _ _
        · rwa [List.length_modify]
        · rw [hget]
        · rw [hget]
          exact hlook b hb
      · exact .bind (.pure fun _ hs => hs.1) fun _ => ih _ _ _ _
    · refine .bind (removeHead_holds i) fun _ => ?_
      exact (ih _ _ _ _).mono (fun _ hs => hs.1) fun _ _ hs => hs

theorem condense_holds (c : Task) :
    Holds (Session.Sound n) c.condense fun _ => Session.Sound n := by
  refine .bind (weed_holds c _ 0 none) fun least => ?_
  refine .bind (.sound fun l => (extract_holds headLimit).mono (fun _ hs => hs)
    fun _ _ hs => hs.1) fun _ => ?_
  exact .bind headCount_looks.quiet.sound fun count => resume_holds c _ _ _ _ _

theorem run_holds {c : Task} (hc : c.Covers n) (fuel last : Nat) :
    Holds (Session.Sound n) (c.run fuel last) fun _ => Session.Sound n := by
  induction fuel generalizing last with
  | zero => exact .pure fun _ hs => hs
  | succ fuel ih =>
    refine .bind (advanceAll_holds hc _ 0 last) fun last => ?_
    refine .bind (condense_holds c) fun least => ?_
    refine .bind (Q := fun _ => Session.Sound n) (fun _ hs => hs) fun s => ?_
    exact .ite (fun _ => .pure fun _ hs => hs) fun _ => ih _

end

/-! ## The best tree -/

/-- A reading of the whole text in front of it. -/
theorem sound_start (state n : Nat) : Session.Sound n
    { vertices := #[{ state := state }], heads := #[{ vertex := 0 }] } := by
  constructor
  · rfl
  · intro p hp
    rw [List.mem_singleton.mp hp]
    exact Nat.zero_le n
  · intro v hv l hl
    rw [List.mem_singleton.mp hv] at hl
    cases hl
  · intro h hh
    rw [List.mem_singleton.mp hh]
    exact ⟨Nat.zero_lt_one, by simp, fun _ => rfl⟩
  · simp

theorem best_parts (r : Reader) (t : Text) {b : Branch} (h : (r.task t).best = some b) :
    PartsIn 0 t.length b.parts := by
  have hcovers := covers_task r t
  unfold Task.best at h
  generalize r.task t = c at h hcovers
  generalize c.bound = fuel at h
  exact (run_holds hcovers fuel 0 _ (sound_start _ _)).best b h

/-- A tree that is found by repair is nested. -/
theorem nested_of_diagnose {r : Reader} {t : Text} {tree : Tree} (h : diagnose r t = .ok tree) :
    tree.start = 0 ∧ tree.stop = t.length ∧ tree.Nested := by
  unfold diagnose at h
  split at h
  · cases h
  · rename_i b hb
    split at h
    · cases h
    · cases h
      refine ⟨rfl, rfl, Tree.nested_node.mpr ?_⟩
      exact nestedIn_partTrees r.grammar (best_parts r t hb)

end Repair

theorem nested_of_parse {t : Text} {tree : Tree} (h : parse t = .ok tree) :
    tree.start = 0 ∧ tree.stop = t.length ∧ tree.Nested := by
  unfold parse at h
  split at h
  · rename_i tree' ht
    cases h
    exact Syntax.nested_of_readTree ht
  · exact Repair.nested_of_diagnose h

/-- The statements of a text that follows the rules are orderly, and so are those of one that was
repaired if the repair gives orderly ones. -/
theorem orderly_of_parse {t : Text} {tree : Tree} (h : parse t = .ok tree)
    (hrepaired : Syntax.readTree t = none → ∀ u ∈ tree.children, u.Orderly t .body) :
    ∀ u ∈ tree.children, u.Orderly t .body := by
  unfold parse at h
  split at h
  · rename_i tree' ht
    cases h
    exact Syntax.orderly_of_readTree ht
  · rename_i ht
    exact hrepaired ht

/-- The tree of a source is nested and spans the source. -/
theorem Source.nested (s : Source) :
    s.tree.start = 0 ∧ s.tree.stop = s.text.length ∧ s.tree.Nested :=
  nested_of_parse s.parse_text

/-- The nodes below the tree of a source lie one behind the other in its text. -/
theorem Source.nestedIn (s : Source) : Tree.NestedIn 0 s.text.length s.tree.children := by
  obtain ⟨hstart, hstop, hnested⟩ := s.nested
  have hchildren := hnested.children
  rwa [hstart, hstop] at hchildren

end PointMutation
