import PointMutation.Proofs.Nesting.Phrase

/-!
# Repairs

A repair of a reading puts text that fits nowhere in branches that lie where the text lies. The
trees that are offered in the end lie within the text.
-/

namespace PointMutation

namespace Repair

open PointMutation.Grammar

/-! ## Whole trees -/

theorem root_parts (c : Task) {n : Nat} {bs : List Branch} (h : PartsIn 0 n bs) {tree : Branch}
    (htree : c.root bs = some tree) : PartsIn 0 n tree.parts := by
  obtain ⟨m, hfront, hextras⟩ := partsIn_splitExtras h
  unfold Task.root at htree
  generalize Task.splitExtras bs = split at htree hfront hextras
  obtain ⟨front, extras⟩ := split
  dsimp only at htree hfront hextras
  split at htree
  · cases htree
  · rename_i s parts hlast
    obtain ⟨front', rfl⟩ := List.getLast?_eq_some_iff.mp hlast
    obtain ⟨k, hbefore, hnode⟩ := partsIn_append.mp hfront
    obtain ⟨hstart, hnested, hstop⟩ := partsIn_cons.mp hnode
    have hparts : PartsIn k m parts :=
      (nested_node.mp hnested).mono hstart (partsIn_nil.mp hstop)
    rw [List.dropLast_concat] at htree
    cases htree
    exact partsIn_append.mpr ⟨m, partsIn_append.mpr ⟨k, hbefore, hparts⟩, hextras⟩

section

variable {n : Nat} {l : List Stand}

theorem offer_holds (c : Task) {bs : List Branch} (h : PartsIn 0 n bs) :
    Holds (Session.Has n l) (c.offer bs) fun _ => Session.Has n l := by
  unfold Task.offer
  split
  · exact .pure fun _ hs => hs
  · rename_i tree htree
    have hroot := root_parts c h htree
    refine .modify ?_
    rintro s ⟨hs, hl⟩
    refine ⟨⟨hs.bottom, hs.places, hs.vertices, hs.heads, ?_⟩, hl⟩
    intro b hb
    cases hbest : s.best with
    | none =>
      rw [hbest] at hb
      cases hb
      exact hroot
    | some old =>
      rw [hbest] at hb
      dsimp only at hb
      split at hb
      · cases hb
        exact hroot
      · cases hb
        exact hs.best _ hbest

theorem await_mem {top k : Nat} {new : List Stand} {groups : List (Nat × List (List Branch))}
    (h : Await top k new groups) : ∀ g ∈ groups, ∀ w ∈ g.2, PartsIn 0 top w := by
  induction groups generalizing k new with
  | nil => simp
  | cons g groups ih =>
    obtain ⟨m, ways⟩ := g
    cases new with
    | nil => exact h.elim
    | cons x new =>
      obtain ⟨_, hx, hnew⟩ := h
      intro g hg
      rcases List.mem_cons.mp hg with rfl | hg
      · exact fun w hw => (hx.ways w hw).mono (Nat.zero_le _) (Nat.le_refl _)
      · exact ih hnew g hg

/-- A reading that is calm ends with the end of the text. -/
theorem accept_holds (c : Task) {top i first : Nat} {b : Branch} (hb : b.In top n) :
    Holds (Session.Calm n top i first) (c.accept i b) fun _ => Session.Sound n := by
  refine .calm fun l hc => ?_
  have hself := hc.self
  have hbin : b.asExtra.In (l.getD i {}).place n :=
    hb.asExtra.mono hself.1 (Nat.le_refl _)
  refine .bind (push_holds _ hself.2 ?_) fun _ => ?_
  · rintro _ ⟨⟩
    exact hbin
  generalize l.modify i _ = l'
  refine .known i fun hle => ?_
  refine .bind (popAll_holds i) fun groups => .exists fun new => .and_left fun hnew => ?_
  have hways := await_mem hnew
  refine .bind (.forM fun g hg => .forM fun w hw => ?_) fun _ => ?_
  · exact offer_holds c ((hways g hg w hw).mono (Nat.le_refl _) hle)
  have hend : ∀ l, Holds (Session.Has n l) (setStatus i .halted) fun _ => Session.Sound n :=
    fun l => (setStatus_holds i).mono (fun _ hs => hs) fun _ _ hs => hs.1
  split
  · exact .bind (removeHead_holds _) fun _ => hend _
  · exact hend _

end

/-! ## Text that fits nowhere -/

section

variable {n top : Nat} {front rest : List Stand} {x : Stand}

/-- A new reading at the end takes the place of one among others. -/
theorem replaceHead_middle {y : Stand} {ys : List Stand} {m : Nat}
    (hm : m = (front ++ x :: rest).length) :
    Holds (Session.Has n ((front ++ x :: rest) ++ y :: ys)) (replaceHead m front.length) fun _ =>
      Session.Has n (front ++ y :: (rest ++ ys)) := by
  have hne : m ≠ front.length := by
    rw [hm, List.length_append, List.length_cons]
    omega
  have hreplace := replaceHead_holds (n := n) (l := (front ++ x :: rest) ++ y :: ys)
    m front.length
  rw [if_neg hne, hm, getD_middle, ← hm, List.append_assoc, List.cons_append, modify_middle] at hreplace
  have hlist : (front ++ y :: (rest ++ y :: ys)).eraseIdx m = front ++ y :: (rest ++ ys) := by
    have hlength : m = (front ++ y :: rest).length := by
      rw [hm, List.length_append, List.length_append, List.length_cons, List.length_cons]
    have herase := eraseIdx_middle (front ++ y :: rest) ys y
    rw [← hlength] at herase
    simpa using herase
  rw [hlist] at hreplace
  rwa [List.append_assoc, List.cons_append]

theorem Stand.Takes.headD {ways : List (List Branch)} (h : x.Takes top ways) :
    PartsIn x.place top (ways.headD []) := by
  cases ways with
  | nil => exact partsIn_nil.mpr h.place
  | cons w ways => exact h.ways w (by simp)

/-- The parts of the first branch lie where the branches lie. -/
theorem partsIn_first {a b : Nat} {bs : List Branch} (h : PartsIn a b bs) :
    PartsIn a b ((bs.head?.map Branch.parts).getD []) := by
  cases bs with
  | nil => exact h
  | cons c bs =>
    obtain ⟨ha, hc, hrest⟩ := partsIn_cons.mp h
    exact hc.parts.mono ha hrest.le

/-- What is taken off a reading among others lies in front of where the reading was. -/
theorem takeFault_holds (hfree : x.free = true) :
    Holds (Session.Has n (front ++ x :: rest)) (Task.takeFault front.length) fun fault s =>
      ∃ (y : Stand) (ys : List Stand), (PartsIn y.place x.place fault ∧ y.free = true ∧
        ∀ z ∈ ys, z.Calm x.place) ∧ s.Has n (front ++ y :: (rest ++ ys)) := by
  refine .bind (popFault_holds front.length) fun groups => .exists fun new =>
    .and_left fun hnew => ?_
  rw [getD_middle] at hnew
  cases new with
  | nil =>
    cases groups with
    | nil =>
      refine .pure fun s hs => ⟨x, [], ⟨partsIn_nil.mpr (Nat.le_refl _), hfree, by simp⟩, ?_⟩
      simpa using hs
    | cons g groups => exact hnew.elim
  | cons y ys =>
    cases groups with
    | nil => exact hnew.elim
    | cons g groups =>
      obtain ⟨m, ways⟩ := g
      obtain ⟨hm, hy, hys⟩ := hnew
      refine .bind (replaceHead_middle hm) fun _ => .pure fun s hs => ?_
      exact ⟨y, ys, ⟨partsIn_first hy.headD, hy.free, hys.calm⟩, hs⟩

/-- What was taken off a reading among others is put on it as text that fits nowhere. -/
theorem recoverAt_holds (c : Task) (goal : Nat) {ways : List (List Branch)}
    (hx : x.Takes top ways) (htop : top ≤ n) :
    Holds (Session.Has n (front ++ x :: rest)) (c.recoverAt goal front.length ways) fun _ s =>
      ∃ (y : Stand) (ys : List Stand), (y.Calm top ∧ ∀ z ∈ ys, z.Calm top) ∧
        s.Has n (front ++ y :: (rest ++ ys)) := by
  refine .bind top_middle fun v => .and_left fun hv => ?_
  refine .ite (fun _ => ?_) fun _ => ?_
  · refine .bind (setStatus_holds _) fun _ => .pure fun s hs => ⟨x, [], ⟨⟨hx.place, hx.free⟩, ?_⟩, ?_⟩
    · simp
    · simpa using hs
  have hnone : Holds (Session.Has n (front ++ x :: rest)) (pure []) fun fault s =>
      ∃ (y : Stand) (ys : List Stand), (PartsIn y.place x.place fault ∧ y.free = true ∧
        ∀ z ∈ ys, z.Calm x.place) ∧ s.Has n (front ++ y :: (rest ++ ys)) := by
    refine .pure fun s hs => ⟨x, [], ⟨partsIn_nil.mpr (Nat.le_refl _), hx.free, by simp⟩, ?_⟩
    simpa using hs
  refine .ite (fun _ => .bind (takeFault_holds hx.free) fun fault => ?_)
    fun _ => .bind hnone fun fault => ?_
  all_goals
    refine .exists fun y => .exists fun ys => .and_left fun ⟨hfault, hfree, hys⟩ => ?_
    have hcalm : ∀ z ∈ ys, z.Calm top :=
      fun z hz => ⟨Nat.le_trans (hys z hz).1 hx.place, (hys z hz).2⟩
    have hall : PartsIn y.place top (fault ++ ways.headD []) :=
      partsIn_append.mpr ⟨x.place, hfault, hx.headD⟩
    obtain ⟨m, hparts, hextras⟩ := partsIn_splitExtras hall
    dsimp only
    generalize Task.splitExtras (fault ++ ways.headD []) = split at hparts hextras ⊢
    obtain ⟨parts, extras⟩ := split
    have hdone : ∀ z : Stand, z.free = true → z.place ≤ m →
        Holds (Session.Has n (front ++ z :: (rest ++ ys))) (do
          pushExtras front.length goal extras
          pure true) fun _ s => ∃ (y : Stand) (ys : List Stand),
            (y.Calm top ∧ ∀ z ∈ ys, z.Calm top) ∧ s.Has n (front ++ y :: (rest ++ ys)) := by
      intro z hz hzm
      refine .bind (pushExtras_middle goal hz hzm hextras htop) fun _ => .pure ?_
      exact fun s ⟨z', hz', hs⟩ => ⟨z', ys, ⟨hz', hcalm⟩, hs⟩
    refine .ite (fun hne => ?_) fun _ => hdone y hfree hparts.le
    have hmake : (c.make .fault [] parts v.place).In y.place m :=
      make_in_of_ne_nil _ _ _ _ _ hparts (by simpa using hne)
    refine .bind (push_middle goal hfree ?_) fun _ => hdone _ rfl ?_
    · rintro _ ⟨⟩
      exact hmake.asExtra.mono (Nat.le_refl _) (Nat.le_trans hextras.le htop)
    · exact Nat.max_le.mpr ⟨hmake.le, hmake.asExtra.stop⟩

/-- The same for several readings. -/
theorem recoverEach_holds (c : Task) (goal : Nat) (any : Bool) {new : List Stand}
    {groups : List (Nat × List (List Branch))} {p first : Nat}
    (hnew : Await top front.length new groups)
    (hc : Repair.Calm top p first (front ++ (new ++ rest))) (hfirst : first ≤ front.length)
    (htop : top ≤ n) :
    Holds (Session.Has n (front ++ (new ++ rest))) (c.recoverEach goal any groups) fun _ =>
      Session.Calm n top p first := by
  induction groups generalizing front new rest any with
  | nil => exact .pure fun s hs => hs.calm hc
  | cons g groups ih =>
    obtain ⟨m, ways⟩ := g
    cases new with
    | nil => exact hnew.elim
    | cons x new =>
      obtain ⟨rfl, hx, hnew⟩ := hnew
      rw [List.cons_append] at hc ⊢
      refine .bind (recoverAt_holds c goal hx htop) fun back => ?_
      refine .exists fun y => .exists fun ys => .and_left fun ⟨hy, hys⟩ => ?_
      have hmodify := hc.modify (k := front.length) (f := fun _ => y) hy
      rw [modify_middle] at hmodify
      have hlist : front ++ y :: (new ++ rest ++ ys) = (front ++ [y]) ++ (new ++ (rest ++ ys)) := by
        simp
      have hlist' : front ++ y :: (new ++ rest) ++ ys =
          (front ++ [y]) ++ (new ++ (rest ++ ys)) := by
        simp
      have hcalm := hmodify.append hys
      rw [hlist'] at hcalm
      rw [hlist]
      refine ih _ ?_ hcalm ?_
      · rw [List.length_append, List.length_singleton]
        exact hnew
      · rw [List.length_append]
        exact Nat.le_trans hfirst (Nat.le_add_right _ _)

end

section

variable {n top i first : Nat}

/-- Taking a calm reading back keeps it calm. -/
theorem recoverTo_holds (c : Task) (depth goal : Nat) (htop : top ≤ n) :
    Holds (Session.Calm n top i first) (c.recoverTo i depth goal) fun _ =>
      Session.Calm n top i first := by
  refine .calm fun l hc => ?_
  refine .bind (pop_holds i depth) fun groups => .exists fun new => .and_left fun hnew => ?_
  have hawait := hnew.mono hc.self.1
  have hcalm := hc.append hawait.calm
  have heach : Holds (Session.Has n (l ++ (new ++ []))) (c.recoverEach goal false groups) fun _ =>
      Session.Calm n top i first :=
    recoverEach_holds c goal false hawait (by simpa using hcalm) hc.after htop
  rwa [List.append_nil] at heach

theorem goBack_holds (c : Task) (t made cost place readings : Nat) (htop : top ≤ n)
    (ds : List Descent) :
    Holds (Session.Calm n top i first) (c.goBack i t made cost place readings ds) fun _ =>
      Session.Calm n top i first := by
  induction ds with
  | nil => exact .pure fun _ hs => hs
  | cons d ds ih =>
    refine .ite (fun _ => ih) fun _ => ?_
    have htaken : Quiet ((List.range readings).anyM fun j => do
        let v ← Repair.top j
        pure (v.state = d.state && v.place = place)) :=
      .anyM (fun j => .bind (top_looks j).quiet fun v => .pure _) _
    refine .bind htaken.calm fun taken => .ite (fun _ => ih) fun _ => ?_
    refine .bind (isBeaten_quiet _ _).calm fun beaten => .ite (fun _ => .pure fun _ hs => hs)
      fun _ => ?_
    refine .ite (fun _ => ?_) fun _ => ih
    refine .bind (recoverTo_holds c _ _ htop) fun back => ?_
    exact .ite (fun _ => .pure fun _ hs => hs) fun _ => ih

theorem comeBack_holds (c : Task) (b : Branch) (made cost place readings : Nat) (htop : top ≤ n)
    (descents : Option (List Descent)) :
    Holds (Session.Calm n top i first) (c.comeBack i b made cost place readings descents)
      fun _ => Session.Calm n top i first := by
  unfold Task.comeBack
  split
  · exact goBack_holds c _ _ _ _ _ htop _
  · exact .pure fun _ hs => hs

/-! ## Leaving out a token -/

/-- The token that is left out is put behind what was left out before it. -/
theorem addToRun_holds (c : Task) {run : Branch} (lead : Nat) (hrun : run.In top n) :
    Holds (Session.Calm n top i first) (c.addToRun i run lead) fun b s =>
      ∃ l, (b.In (l.getD i {}).place n ∧ (l.getD i {}).free = true) ∧ s.Has n l := by
  refine .calm fun l hc => ?_
  have hi : i < l.length := Nat.lt_of_lt_of_le hc.before hc.after
  refine .bind (pop_holds i 1) fun groups => .exists fun new => .and_left fun hnew => ?_
  cases new with
  | nil =>
    cases groups with
    | nil =>
      refine .pure fun s hs => ⟨l, ⟨?_, hc.self.2⟩, ?_⟩
      · exact hrun.mono hc.self.1 (Nat.le_refl _)
      · rwa [List.append_nil] at hs
    | cons g groups => exact hnew.elim
  | cons y ys =>
    cases groups with
    | nil => exact hnew.elim
    | cons g groups =>
      obtain ⟨m, ways⟩ := g
      obtain ⟨rfl, hy, hys⟩ := hnew
      have hmake : (c.make .faultRun [] (ways.headD [] ++ [run]) lead).In y.place n := by
        refine make_in_of_ne_nil _ _ _ _ _ (partsIn_append.mpr ⟨_, hy.headD, ?_⟩) (by simp)
        exact (hrun.mono hc.self.1 (Nat.le_refl _)).partsIn
      have hend : ∀ zs : List Stand, Holds (Session.Has n (l ++ y :: zs)) (do
          replaceHead l.length i
          pure (c.make .faultRun [] (ways.headD [] ++ [run]) lead)) fun b s =>
            ∃ l, (b.In (l.getD i {}).place n ∧ (l.getD i {}).free = true) ∧ s.Has n l := by
        intro zs
        refine .bind (replaceHead_holds l.length i) fun _ => .pure fun s hs => ⟨_, ?_, hs⟩
        have hget : (((l ++ y :: zs).modify i fun _ => (l ++ y :: zs).getD l.length {}).eraseIdx
            l.length).getD i {} = y := by
          rw [getD_eraseIdx, if_pos hi, getD_modify, if_pos, getD_middle]
          refine ⟨rfl, ?_⟩
          rw [List.length_append]
          omega
        rw [if_neg (by omega), hget]
        exact ⟨hmake, hy.free⟩
      refine .ite (fun _ => ?_) fun _ => hend ys
      have htake : (l ++ y :: ys).take (l.length + 1) = l ++ [y] := by
        rw [List.take_append, List.take_of_length_le (by omega), Nat.add_sub_cancel_left]
        rfl
      have hextract := extract_holds (n := n) (l := l ++ y :: ys) (l.length + 1)
      rw [htake] at hextract
      exact .bind hextract fun _ => hend []

theorem leftOut_in (c : Task) {b : Branch} (hb : b.In top n) : (c.leftOut b).In top n := by
  unfold Task.leftOut
  split
  · exact hb.asExtra
  · exact hb

/-- A calm reading leaves out a token. -/
theorem leaveOut_holds (c : Task) {b : Branch} (made : Nat) (hb : b.In top n) :
    Holds (Session.Calm n top i first) (c.leaveOut i b made) fun _ => Session.Sound n := by
  have hb' := leftOut_in c hb
  unfold Task.leaveOut
  generalize c.leftOut b = b' at hb' ⊢
  have hrun : (c.make .faultRun [] [b'] b'.summary.lead).In top n :=
    make_in_of_ne_nil _ _ _ _ _ hb'.partsIn (by simp)
  have hend : ∀ run : Branch, Holds (fun s => ∃ l,
      (run.In (l.getD i {}).place n ∧ (l.getD i {}).free = true) ∧ s.Has n l) (do
        push i (some run) 0
        if b'.summary.opened.isSome then
          changeHead i fun h => { h with opened := b'.summary.opened }) fun _ =>
      Session.Sound n := by
    refine fun run => .exists fun l => .and_left fun ⟨hin, hfree⟩ => ?_
    refine .bind (push_holds 0 hfree ?_) fun _ => ?_
    · rintro _ ⟨⟩
      exact hin
    refine .ite (fun _ => ?_) fun _ => .pure fun s hs => hs.1
    refine .mono (changeHead_holds ?_ i) (fun _ hs => hs) fun _ s hs => hs.1
    exact ⟨fun _ => rfl, fun _ => rfl, fun _ h => h⟩
  refine .ite (fun _ => .bind (addToRun_holds c _ hrun) hend) fun _ => ?_
  refine .calm fun l hc => ?_
  refine .bind (.pure fun s hs => ⟨l, ⟨?_, hc.self.2⟩, hs⟩) hend
  exact hrun.mono hc.self.1 (Nat.le_refl _)

/-! ## Repairing a reading -/

/-- Of the new readings only those go on that are still active. -/
theorem filter_calm {before : Nat} (hbefore : first ≤ before) :
    Holds (Session.Calm n top i first) (modify fun s => { s with
      heads := s.heads.extract 0 before ++
        (s.heads.extract before s.heads.size).filter (·.status == .active) }) fun _ =>
      Session.Calm n top i first := by
  refine .modify ?_
  rintro s ⟨hs, hc⟩
  have hlist : (s.heads.extract 0 before ++
      (s.heads.extract before s.heads.size).filter (·.status == .active)).toList =
        s.heads.toList.take before ++ (s.heads.toList.drop before).filter (·.status == .active) := by
    have hdrop : (s.heads.toList.drop before).take (s.heads.size - before) =
        s.heads.toList.drop before := List.take_of_length_le (by simp)
    simp [hdrop]
  have hmem : ∀ x ∈ (s.heads.toList.drop before).filter (·.status == .active),
      x ∈ s.heads.toList.drop before := fun x hx => (List.mem_filter.mp hx).1
  constructor
  · refine hs.setHeads ?_
    rw [hlist]
    intro x hx
    rcases List.mem_append.mp hx with hx | hx
    · exact hs.heads x (List.mem_of_mem_take hx)
    · exact hs.heads x (List.mem_of_mem_drop (hmem x hx))
  · show Repair.Calm top i first ((s.heads.extract 0 before ++
      (s.heads.extract before s.heads.size).filter (·.status == .active)).toList.map
        (Head.stand s.places))
    rw [hlist, List.map_append, List.map_take]
    refine hc.take_append hbefore ?_
    intro x hx
    obtain ⟨y, hy, rfl⟩ := List.mem_map.mp hx
    refine hc.drop hbefore _ ?_
    rw [Session.stands, ← List.map_drop]
    exact List.mem_map_of_mem (hmem y hy)

theorem recover_holds (c : Task) {b : Branch} (hb : b.In top n) :
    Holds (Session.Calm n top i first) (c.recover i b) fun _ => Session.Sound n := by
  refine .calm fun l hc => ?_
  have hself := hc.self
  refine .bind headCount_holds fun before => .and_left fun hbefore => ?_
  refine .bind (standing_holds i) fun h => .bind (vertexAt_holds h.vertex) fun v =>
    .and_left fun hv => ?_
  -- from here on the readings are seen from where the reading is
  refine .mono (P := Session.Calm n (l.getD i {}).place i l.length) ?_
    (fun s hs => hs.calm (.fresh (Nat.lt_of_lt_of_le hc.before hc.after)
      ⟨Nat.le_refl _, hself.2⟩)) fun _ _ hs => hs
  have hb' : b.In (l.getD i {}).place n := hb.mono hself.1 (Nat.le_refl _)
  have hle : (l.getD i {}).place ≤ n := hb'.le
  refine .bind (countSinceError_quiet i).calm fun made => ?_
  refine .bind (headCost_looks i).quiet.calm fun cost => ?_
  have hhalt : Holds (Session.Calm n (l.getD i {}).place i l.length) (setStatus i .halted)
      fun _ => Session.Sound n :=
    .calm fun l' _ => (setStatus_holds i).mono (fun _ hs => hs) fun _ _ hs => hs.1
  have hmissing : (c.make .fault [] [] v.place).In (l.getD i {}).place (l.getD i {}).place := by
    rw [hv]
    exact make_in _ _ _ _ (partsIn_nil.mpr (Nat.le_refl _)) (Nat.le_refl _) (Nat.le_refl _)
  refine .bind (comeBack_holds c b _ _ _ _ hle _) fun back => ?_
  refine .bind (filter_calm (Nat.le_of_eq hbefore.symm)) fun _ => .ite (fun _ => ?_) fun _ => ?_
  · refine .bind (.calm fun l' hc' => push_calm _ hc' hc'.self ?_ hle) fun _ =>
      accept_holds c hb'
    rintro _ ⟨⟩
    exact hmissing.mono hc'.self.1 (Nat.le_refl _)
  · refine .bind headCount_looks.quiet.calm fun count => .ite (fun _ => hhalt) fun _ => ?_
    refine .bind (isBeaten_quiet _ _).calm fun beaten => .ite (fun _ => hhalt) fun _ => ?_
    exact leaveOut_holds c made hb'

end

end Repair

end PointMutation
