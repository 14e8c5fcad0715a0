import Mathlib.Data.List.InsertIdx
import PointMutation.Proofs.Nesting.Lexing

/-!
# Sound sessions

In a sound session every way down leads to a vertex that is no further in the text, and the branch
on it lies between the two. Vertices are only ever added and never moved, so it is enough to follow
how far the readings are and whether they wait for a repair (`Session.Has`). Each change of the
readings is then one of a list.
-/

namespace PointMutation

namespace Repair

open PointMutation.Grammar

/-! ## What a search does -/

section

variable {α β : Type} {P P' : Session → Prop} {Q : α → Session → Prop}

/-- From a session where `P` holds, the search comes to a result and a session where `Q` holds. -/
def Holds (P : Session → Prop) (p : Search α) (Q : α → Session → Prop) : Prop :=
  ∀ s, P s → Q (p s).1 (p s).2

theorem Holds.pure {a : α} (h : ∀ s, P s → Q a s) : Holds P (pure a) Q := h

theorem Holds.bind {R : β → Session → Prop} {p : Search α} {f : α → Search β}
    (hp : Holds P p Q) (hf : ∀ a, Holds (Q a) (f a) R) : Holds P (p >>= f) R :=
  fun s hs => hf _ _ (hp s hs)

theorem Holds.mono {Q' : α → Session → Prop} {p : Search α} (hp : Holds P p Q)
    (hP : ∀ s, P' s → P s) (hQ : ∀ a s, Q a s → Q' a s) : Holds P' p Q' :=
  fun s hs => hQ _ _ (hp s (hP s hs))

theorem Holds.modify {f : Session → Session} {Q : Unit → Session → Prop}
    (h : ∀ s, P s → Q () (f s)) : Holds P (modify f) Q := h

theorem Holds.ite {c : Prop} [Decidable c] {p q : Search α} (hp : c → Holds P p Q)
    (hq : ¬c → Holds P q Q) : Holds P (if c then p else q) Q := by
  by_cases h : c
  · rw [if_pos h]
    exact hp h
  · rw [if_neg h]
    exact hq h

/-- What holds of the session may be spelled out where the search starts. -/
theorem Holds.start {p : Search α} (R : Session → Session → Prop) (hR : ∀ s, P s → R s s)
    (h : ∀ s, P s → Holds (R s) p Q) : Holds P p Q :=
  fun s hs => h s hs s (hR s hs)

/-- A fact that does not depend on the session may be taken out of it. -/
theorem Holds.and_left {c : Prop} {p : Search α} (h : c → Holds P p Q) :
    Holds (fun s => c ∧ P s) p Q :=
  fun s ⟨hc, hs⟩ => h hc s hs

theorem Holds.exists {ι : Type} {P : ι → Session → Prop} {p : Search α}
    (h : ∀ i, Holds (P i) p Q) : Holds (fun s => ∃ i, P i s) p Q :=
  fun s ⟨i, hs⟩ => h i s hs

theorem Holds.forM {f : β → Search Unit} {bs : List β}
    (h : ∀ b ∈ bs, Holds P (f b) fun _ => P) : Holds P (bs.forM f) fun _ => P := by
  induction bs with
  | nil => exact .pure fun _ hs => hs
  | cons b bs ih =>
    show Holds P (f b >>= fun _ => bs.forM f) fun _ => P
    exact .bind (h b (by simp)) fun _ => ih fun b' hb' => h b' (by simp [hb'])

/-- What is kept of a list is known to be worth it. -/
theorem Holds.filterM {f : β → Search Bool} {R : β → Prop} {bs : List β}
    (h : ∀ b, Holds P (f b) fun c s => (c = true → R b) ∧ P s) :
    Holds P (bs.filterM f) fun kept s => (∀ b ∈ kept, b ∈ bs ∧ R b) ∧ P s := by
  have hloop : ∀ (cs acc : List β), (∀ b ∈ cs, b ∈ bs) → (∀ b ∈ acc, b ∈ bs ∧ R b) →
      Holds P (List.filterAuxM f cs acc) fun kept s => (∀ b ∈ kept, b ∈ bs ∧ R b) ∧ P s := by
    intro cs
    induction cs with
    | nil => exact fun acc _ hacc => .pure fun s hs => ⟨hacc, hs⟩
    | cons c cs ih =>
      intro acc hcs hacc
      refine .bind (h c) fun keep => .and_left fun hkeep => ?_
      refine ih _ (fun b hb => hcs b (by simp [hb])) ?_
      cases keep with
      | true =>
        intro b hb
        rcases List.mem_cons.mp hb with rfl | hb
        · exact ⟨hcs b (by simp), hkeep rfl⟩
        · exact hacc b hb
      | false => exact hacc
  refine .bind (hloop bs [] (fun _ hb => hb) (by simp)) fun kept => .pure fun s hs => ?_
  exact ⟨fun b hb => hs.1 b (List.mem_reverse.mp hb), hs.2⟩

end

/-- A search that changes nothing. -/
def Looks {α : Type} (p : Search α) : Prop := ∀ s, (p s).2 = s

section

variable {α β : Type}

theorem Looks.pure (a : α) : Looks (pure a) := fun _ => rfl

theorem Looks.bind {p : Search α} {f : α → Search β} (hp : Looks p) (hf : ∀ a, Looks (f a)) :
    Looks (p >>= f) := by
  intro s
  show (f (p s).1 (p s).2).2 = s
  rw [hf, hp]

theorem Looks.ite {c : Prop} [Decidable c] {p q : Search α} (hp : Looks p) (hq : Looks q) :
    Looks (if c then p else q) := by
  split
  · exact hp
  · exact hq

/-- What a search sees that changes nothing. -/
theorem Holds.look {P : Session → Prop} {Q : β → Session → Prop} {p : Search α}
    {f : α → Search β} (hp : Looks p)
    (hf : ∀ a, Holds (fun s => a = (p s).1 ∧ P s) (f a) Q) : Holds P (p >>= f) Q := by
  intro s hs
  have h := hf (p s).1 s ⟨rfl, hs⟩
  show Q (f (p s).1 (p s).2).1 (f (p s).1 (p s).2).2
  rwa [hp s]

end

theorem vertex_looks (i : Nat) : Looks (vertex i) := fun _ => rfl

theorem head_looks (i : Nat) : Looks (head i) := fun _ => rfl

theorem top_looks (i : Nat) : Looks (top i) := fun _ => rfl

theorem headCount_looks : Looks headCount := fun _ => rfl

theorem canMerge_looks (i j : Nat) : Looks (canMerge i j) := fun _ => rfl

theorem headCost_looks (i : Nat) : Looks (headCost i) := fun _ => rfl

/-! ## Sound sessions -/

/-- How far the vertices are. -/
def Session.places (s : Session) : List Nat := s.vertices.toList.map Vertex.place

/-- A way down leads to a vertex that is no further than `top`, over a branch between the two. -/
structure Link.Leads (ps : List Nat) (top : Nat) (l : Link) : Prop where
  target : l.target < ps.length
  below : ps.getD l.target 0 ≤ top
  branch : ∀ b ∈ l.branch, b.In (ps.getD l.target 0) top

/-- A vertex with sound ways down. -/
def Vertex.Rests (ps : List Nat) (v : Vertex) : Prop := ∀ l ∈ v.links, l.Leads ps v.place

/-- A reading on a vertex of the session, at a token behind it if it waits for a repair. -/
structure Head.Stands (ps : List Nat) (n : Nat) (h : Head) : Prop where
  vertex : h.vertex < ps.length
  lookahead : ∀ b ∈ h.lookahead, b.In (ps.getD h.vertex 0) n
  active : h.status = .active → h.lookahead = none

/-- A session over a text of `n` characters in which nothing lies where it should not. -/
structure Session.Sound (n : Nat) (s : Session) : Prop where
  bottom : s.places[0]? = some 0
  places : ∀ p ∈ s.places, p ≤ n
  vertices : ∀ v ∈ s.vertices.toList, v.Rests s.places
  heads : ∀ h ∈ s.heads.toList, h.Stands s.places n
  best : ∀ b ∈ s.best, PartsIn 0 n b.parts

/-- How far a reading is, and whether it is free to go on. -/
structure Stand where
  place : Nat := 0
  free : Bool := true

def Head.stand (ps : List Nat) (h : Head) : Stand := ⟨ps.getD h.vertex 0, h.lookahead.isNone⟩

def Session.stands (s : Session) : List Stand := s.heads.toList.map (Head.stand s.places)

/-- A sound session with such readings. -/
def Session.Has (n : Nat) (l : List Stand) (s : Session) : Prop := s.Sound n ∧ s.stands = l

/-- A sound session with such vertices and readings. -/
def Session.Is (n : Nat) (ps : List Nat) (hs : Array Head) (s : Session) : Prop :=
  s.Sound n ∧ s.places = ps ∧ s.heads = hs

/-- The reading of a number as a search sees it. -/
def Session.headAt (s : Session) (i : Nat) : Head :=
  s.heads.getD i { vertex := 0, status := .halted }

/-- The vertex of a number as a search sees it. -/
def Session.vertexAt (s : Session) (i : Nat) : Vertex := s.vertices.getD i { state := 0 }

section

variable {n : Nat} {s : Session}

theorem Session.Sound.ground (h : s.Sound n) : 0 < s.places.length :=
  (List.getElem?_eq_some_iff.mp h.bottom).1

theorem place_vertexAt (s : Session) (i : Nat) : (s.vertexAt i).place = s.places.getD i 0 := by
  rw [Session.vertexAt, Session.places, Array.getD_eq_getD_getElem?, List.getD_eq_getElem?_getD,
    List.getElem?_map, Array.getElem?_toList]
  cases s.vertices[i]? with
  | none => rfl
  | some v => rfl

theorem Session.Sound.getD_le (h : s.Sound n) (i : Nat) : s.places.getD i 0 ≤ n := by
  rw [List.getD_eq_getElem?_getD]
  cases hp : s.places[i]? with
  | none => exact Nat.zero_le n
  | some p => exact h.places p (List.mem_of_getElem? hp)

theorem Session.Sound.vertexAt (h : s.Sound n) (i : Nat) : (s.vertexAt i).Rests s.places := by
  rw [Session.vertexAt, Array.getD_eq_getD_getElem?]
  cases hv : s.vertices[i]? with
  | none =>
    intro l hl
    cases hl
  | some v =>
    rw [← Array.getElem?_toList] at hv
    exact h.vertices v (List.mem_of_getElem? hv)

theorem Session.Sound.headAt (h : s.Sound n) (i : Nat) : (s.headAt i).Stands s.places n := by
  rw [Session.headAt, Array.getD_eq_getD_getElem?]
  cases hi : s.heads[i]? with
  | none => exact ⟨h.ground, by simp, fun h => by cases h⟩
  | some x =>
    rw [← Array.getElem?_toList] at hi
    exact h.heads x (List.mem_of_getElem? hi)

/-- The stand of a reading, also of one that is not there. -/
theorem stand_headAt (h : s.Sound n) (i : Nat) :
    (s.headAt i).stand s.places = s.stands.getD i {} := by
  rw [Session.headAt, Session.stands, Array.getD_eq_getD_getElem?, List.getD_eq_getElem?_getD,
    List.getElem?_map, Array.getElem?_toList]
  cases s.heads[i]? with
  | none =>
    rw [Option.getD_none, Option.map_none, Option.getD_none, Head.stand,
      List.getD_eq_getElem?_getD, h.bottom]
    rfl
  | some x => rfl

end

/-! ## New vertices -/

/-- Vertices that come to others do not matter to what was there. -/
theorem getD_of_prefix {ps ps' : List Nat} (h : ps <+: ps') {i : Nat} (hi : i < ps.length) :
    ps'.getD i 0 = ps.getD i 0 := by
  obtain ⟨qs, rfl⟩ := h
  rw [List.getD_eq_getElem?_getD, List.getD_eq_getElem?_getD, List.getElem?_append_left hi]

theorem Link.Leads.extend {ps ps' : List Nat} {top : Nat} {l : Link} (h : l.Leads ps top)
    (hps : ps <+: ps') : l.Leads ps' top := by
  have htarget := getD_of_prefix hps h.target
  exact ⟨Nat.lt_of_lt_of_le h.target hps.length_le, htarget ▸ h.below, htarget ▸ h.branch⟩

theorem Head.Stands.extend {ps ps' : List Nat} {n : Nat} {x : Head} (h : x.Stands ps n)
    (hps : ps <+: ps') : x.Stands ps' n := by
  have hvertex := getD_of_prefix hps h.vertex
  exact ⟨Nat.lt_of_lt_of_le h.vertex hps.length_le, hvertex ▸ h.lookahead, h.active⟩

theorem Head.Stands.stand_extend {ps ps' : List Nat} {n : Nat} {x : Head} (h : x.Stands ps n)
    (hps : ps <+: ps') : x.stand ps' = x.stand ps := by
  rw [Head.stand, Head.stand, getD_of_prefix hps h.vertex]

theorem places_push (s : Session) (v : Vertex) :
    ({ s with vertices := s.vertices.push v } : Session).places = s.places ++ [v.place] := by
  rw [Session.places, Session.places, Array.toList_push, List.map_append, List.map_singleton]

/-- A session may have a vertex more. -/
theorem Session.Sound.push {n : Nat} {s : Session} (h : s.Sound n) {v : Vertex}
    (hv : v.Rests s.places) (hplace : v.place ≤ n) :
    Session.Sound n { s with vertices := s.vertices.push v } := by
  have hps : s.places <+: s.places ++ [v.place] := List.prefix_append _ _
  constructor
  · rw [places_push, List.getElem?_append_left h.ground]
    exact h.bottom
  · rw [places_push]
    intro p hp
    rcases List.mem_append.mp hp with hp | hp
    · exact h.places p hp
    · rw [List.mem_singleton.mp hp]
      exact hplace
  · rw [places_push, Array.toList_push]
    intro w hw l hl
    rcases List.mem_append.mp hw with hw | hw
    · exact (h.vertices w hw l hl).extend hps
    · rw [List.mem_singleton.mp hw] at hl ⊢
      exact (hv l hl).extend hps
  · rw [places_push]
    exact fun x hx => (h.heads x hx).extend hps
  · exact h.best

theorem stands_push {n : Nat} {s : Session} (h : s.Sound n) (v : Vertex) :
    ({ s with vertices := s.vertices.push v } : Session).stands = s.stands := by
  rw [Session.stands, Session.stands, places_push]
  refine List.map_congr_left ?_
  intro x hx
  exact (h.heads x hx).stand_extend (List.prefix_append _ _)

/-! ## Changes of the readings -/

theorem Session.Sound.setHeads {n : Nat} {s : Session} (h : s.Sound n) {hs : Array Head}
    (hhs : ∀ x ∈ hs.toList, x.Stands s.places n) : Session.Sound n { s with heads := hs } :=
  ⟨h.bottom, h.places, h.vertices, hhs, h.best⟩

theorem mem_modify {α : Type} {f : α → α} {l : List α} {i : Nat} {x : α}
    (h : x ∈ l.modify i f) : x ∈ l ∨ ∃ y, l[i]? = some y ∧ x = f y := by
  obtain ⟨j, hj⟩ := List.mem_iff_getElem?.mp h
  rw [List.getElem?_modify] at hj
  obtain ⟨y, hy, hx⟩ := Option.map_eq_some_iff.mp hj
  split at hx
  · rename_i hij
    exact .inr ⟨y, hij ▸ hy, hx.symm⟩
  · exact .inl (hx ▸ List.mem_of_getElem? hy)

theorem map_modify {α β : Type} {f : α → α} {g : α → β} {k : β → β} {l : List α} {i : Nat}
    (h : ∀ x, l[i]? = some x → g (f x) = k (g x)) :
    (l.modify i f).map g = (l.map g).modify i k := by
  refine List.ext_getElem? ?_
  intro j
  rw [List.getElem?_map, List.getElem?_modify, List.getElem?_modify, List.getElem?_map]
  by_cases hj : i = j
  · subst hj
    cases hx : l[i]? with
    | none => rfl
    | some x => simp [h x hx]
  · simp [hj]

/-- A change of a reading that leaves it where it is, and does not let it go on. -/
structure Keeps (f : Head → Head) : Prop where
  vertex (x : Head) : (f x).vertex = x.vertex
  lookahead (x : Head) : (f x).lookahead = x.lookahead
  active (x : Head) : (f x).status = .active → x.status = .active

theorem Keeps.stands {f : Head → Head} (hf : Keeps f) {ps : List Nat} {n : Nat} {x : Head}
    (h : x.Stands ps n) : (f x).Stands ps n := by
  refine ⟨?_, ?_, ?_⟩
  · rw [hf.vertex]
    exact h.vertex
  · rw [hf.vertex, hf.lookahead]
    exact h.lookahead
  · rw [hf.lookahead]
    exact fun hx => h.active (hf.active x hx)

theorem Keeps.stand {f : Head → Head} (hf : Keeps f) (ps : List Nat) (x : Head) :
    (f x).stand ps = x.stand ps := by
  rw [Head.stand, Head.stand, hf.vertex, hf.lookahead]

/-- A reading may be changed if it stands where it should afterwards. -/
theorem Session.Has.modify {n : Nat} {l : List Stand} {s : Session} (h : s.Has n l) {i : Nat}
    {f : Head → Head} {k : Stand → Stand}
    (hf : ∀ x, s.heads.toList[i]? = some x → (f x).Stands s.places n)
    (hk : ∀ x, s.heads.toList[i]? = some x → (f x).stand s.places = k (x.stand s.places)) :
    Session.Has n (l.modify i k) { s with heads := s.heads.modify i f } := by
  obtain ⟨hs, rfl⟩ := h
  constructor
  · refine hs.setHeads ?_
    intro x hx
    rw [Array.toList_modify] at hx
    rcases mem_modify hx with hx | ⟨y, hy, rfl⟩
    · exact hs.heads x hx
    · exact hf y hy
  · show (s.heads.modify i f).toList.map (Head.stand s.places) = _
    rw [Array.toList_modify, map_modify hk, Session.stands]

section

variable {n : Nat} {l : List Stand}

theorem changeHead_holds {f : Head → Head} (hf : Keeps f) (i : Nat) :
    Holds (Session.Has n l) (changeHead i f) fun _ => Session.Has n l := by
  refine .modify ?_
  intro s hs
  rw [← List.modify_id i l]
  refine hs.modify ?_ ?_
  · exact fun x hx => hf.stands (hs.1.heads x (List.mem_of_getElem? hx))
  · exact fun x _ => hf.stand s.places x

theorem setStatus_holds (i : Nat) :
    Holds (Session.Has n l) (setStatus i .halted) fun _ => Session.Has n l := by
  have hf : Keeps fun h => { h with status := .halted } := by
    constructor
    · exact fun _ => rfl
    · exact fun _ => rfl
    · intro x h
      cases h
  exact changeHead_holds hf i

theorem headCount_holds : Holds (Session.Has n l) headCount fun k s =>
    k = l.length ∧ s.Has n l := by
  rintro s ⟨hs, rfl⟩
  refine ⟨?_, hs, rfl⟩
  show s.heads.size = _
  rw [Session.stands, List.length_map, Array.length_toList]

theorem removeHead_holds (i : Nat) :
    Holds (Session.Has n l) (removeHead i) fun _ => Session.Has n (l.eraseIdx i) := by
  refine .modify ?_
  rintro s ⟨hs, rfl⟩
  constructor
  · refine hs.setHeads ?_
    intro x hx
    rw [Array.toList_eraseIdxIfInBounds] at hx
    exact hs.heads x (List.mem_of_mem_eraseIdx hx)
  · show (s.heads.eraseIdxIfInBounds i).toList.map (Head.stand s.places) = _
    rw [Array.toList_eraseIdxIfInBounds, Session.stands, List.eraseIdx_map]

/-- What a session has at a number, and how it stands. -/
theorem Session.Has.headAt {s : Session} (h : s.Has n l) {i : Nat} {x : Head}
    (hx : s.heads.toList[i]? = some x) : s.headAt i = x ∧ x.stand s.places = l.getD i {} := by
  have hat : s.headAt i = x := by
    rw [Session.headAt, Array.getD_eq_getD_getElem?, ← Array.getElem?_toList, hx,
      Option.getD_some]
  refine ⟨hat, ?_⟩
  rw [← hat, stand_headAt h.1, h.2]

/-- What becomes of a session when a reading takes a branch. -/
theorem push_state (s : Session) (i : Nat) (branch : Option Branch) (state : Nat) :
    ∃ (v : Vertex) (count : Head → Nat),
      v.links = [⟨(s.headAt i).vertex, branch⟩] ∧
      v.place =
        max (s.vertexAt (s.headAt i).vertex).place ((branch.map Branch.stop).getD 0) ∧
      (push i branch state s).2 =
        { s with
          vertices := s.vertices.push v
          heads := s.heads.modify i fun x =>
            { x with vertex := s.vertices.size, countAtError := count x } } :=
  ⟨_, fun _ => _, rfl, rfl, rfl⟩

/-- Where a reading is. -/
theorem standing_holds (i : Nat) : Holds (Session.Has n l) (head i) fun h s =>
    s.places.getD h.vertex 0 = (l.getD i {}).place ∧ s.Has n l := by
  rintro s ⟨hs, rfl⟩
  refine ⟨?_, hs, rfl⟩
  rw [← stand_headAt hs i]
  rfl

theorem vertexAt_holds {place : Nat} (i : Nat) :
    Holds (fun s => s.places.getD i 0 = place ∧ s.Has n l) (vertex i) fun v s =>
      v.place = place ∧ s.Has n l := by
  rintro s ⟨rfl, hs⟩
  exact ⟨place_vertexAt s i, hs⟩

/-- A reading that is free to go on takes a branch. -/
theorem push_holds {i : Nat} {branch : Option Branch} (state : Nat)
    (hfree : (l.getD i {}).free = true) (hbranch : ∀ b ∈ branch, b.In (l.getD i {}).place n) :
    Holds (Session.Has n l) (push i branch state) fun _ => Session.Has n
      (l.modify i fun x => ⟨max x.place ((branch.map Branch.stop).getD 0), true⟩) := by
  intro s hs
  obtain ⟨v, count, hlinks, hvplace, hstate⟩ := push_state s i branch state
  have hstand := stand_headAt hs.1 i
  rw [hs.2] at hstand
  have hplace : s.places.getD (s.headAt i).vertex 0 = (l.getD i {}).place := by
    rw [← hstand, Head.stand]
  rw [place_vertexAt, hplace] at hvplace
  have hrests : v.Rests s.places := by
    intro k hk
    rw [hlinks, List.mem_singleton] at hk
    subst hk
    refine ⟨(hs.1.headAt i).vertex, ?_, ?_⟩
    · rw [hplace, hvplace]
      exact Nat.le_max_left _ _
    · rintro b rfl
      have hb := hbranch b rfl
      rw [hplace, hvplace]
      exact ⟨hb.start, hb.nested, Nat.le_max_right _ _⟩
  have hle : v.place ≤ n := by
    have hbelow : (l.getD i {}).place ≤ n := hplace ▸ hs.1.getD_le _
    rw [hvplace]
    cases branch with
    | none => exact Nat.max_le.mpr ⟨hbelow, Nat.zero_le n⟩
    | some b => exact Nat.max_le.mpr ⟨hbelow, (hbranch b rfl).stop⟩
  have hpushed : Session.Has n l { s with vertices := s.vertices.push v } :=
    ⟨hs.1.push hrests hle, (stands_push hs.1 v).trans hs.2⟩
  have hsize : s.vertices.size = s.places.length := by
    rw [Session.places, List.length_map, Array.length_toList]
  rw [hstate]
  refine hpushed.modify ?_ ?_
  all_goals
    intro x hx
    obtain ⟨hat, hxl⟩ := hs.headAt hx
    have hnone : x.lookahead = none := by
      rw [← hxl, Head.stand] at hfree
      exact Option.isNone_iff_eq_none.mp hfree
    rw [places_push]
  · refine ⟨?_, ?_, ?_⟩
    · simp [hsize]
    · simp [hnone]
    · exact fun _ => hnone
  · have hbefore : x.stand (s.places ++ [v.place]) = x.stand s.places :=
      (hs.1.heads x (List.mem_of_getElem? hx)).stand_extend (List.prefix_append _ _)
    rw [hbefore, hxl, ← hvplace]
    simp [Head.stand, hsize, hnone]

/-- A reading is added on a vertex of the session. -/
theorem addHead_holds {i v : Nat} {ps : List Nat} (hv : v < ps.length) :
    Holds (fun s => s.places = ps ∧ s.Has n l) (addHead i v) fun m s =>
      m = l.length ∧ s.places = ps ∧ s.Has n (l ++ [⟨ps.getD v 0, true⟩]) := by
  rintro s ⟨rfl, hs, rfl⟩
  refine ⟨?_, rfl, ?_, ?_⟩
  · show s.heads.size = _
    rw [Session.stands, List.length_map, Array.length_toList]
  · refine hs.setHeads ?_
    intro x hx
    rw [Array.toList_push] at hx
    rcases List.mem_append.mp hx with hx | hx
    · exact hs.heads x hx
    · rw [List.mem_singleton.mp hx]
      exact ⟨hv, by simp, fun _ => rfl⟩
  · show (s.heads.push _).toList.map (Head.stand s.places) = _
    rw [Array.toList_push, List.map_append, Session.stands]
    rfl

/-- A reading takes the place of another. -/
theorem replaceHead_holds (i j : Nat) :
    Holds (Session.Has n l) (replaceHead i j) fun _ => Session.Has n
      (if i = j then l else (l.modify j fun _ => l.getD i {}).eraseIdx i) := by
  refine .ite ?_ ?_
  · intro hij
    rw [if_pos hij]
    exact .pure fun _ hs => hs
  · intro hij
    rw [if_neg hij]
    refine .look (head_looks i) fun h => .look (head_looks j) fun old => ?_
    refine .bind (Q := fun _ => Session.Has n (l.modify j fun _ => l.getD i {})) (.modify ?_)
      fun _ => removeHead_holds i
    rintro s ⟨-, rfl, hs⟩
    have hstands := hs.1.headAt i
    have hstand := stand_headAt hs.1 i
    rw [hs.2] at hstand
    refine hs.modify ?_ ?_
    · exact fun _ _ => ⟨hstands.vertex, hstands.lookahead, hstands.active⟩
    · exact fun _ _ => hstand

theorem swapHeads_holds (i j : Nat) :
    Holds (Session.Has n l) (swapHeads i j) fun _ => Session.Has n
      ((l.modify i fun _ => l.getD j {}).modify j fun _ => l.getD i {}) := by
  intro s hs
  have hi := stand_headAt hs.1 i
  have hj := stand_headAt hs.1 j
  rw [hs.2] at hi hj
  have hfirst := hs.modify (i := i) (f := fun _ => s.headAt j) (k := fun _ => l.getD j {})
    (fun _ _ => hs.1.headAt j) fun _ _ => hj
  exact hfirst.modify (fun _ _ => hs.1.headAt i) fun _ _ => hi

/-- Only the first readings are kept. -/
theorem extract_holds (k : Nat) :
    Holds (Session.Has n l) (modify fun s => { s with heads := s.heads.extract 0 k })
      fun _ => Session.Has n (l.take k) := by
  refine .modify ?_
  rintro s ⟨hs, rfl⟩
  have hlist : (s.heads.extract 0 k).toList = s.heads.toList.take k := by simp
  constructor
  · refine hs.setHeads ?_
    intro x hx
    rw [hlist] at hx
    exact hs.heads x (List.mem_of_mem_take hx)
  · show (s.heads.extract 0 k).toList.map (Head.stand s.places) = _
    rw [hlist, Session.stands, List.map_take]

end

/-! ## Quiet searches -/

/-- A search that leaves all readings where they are. -/
def Quiet {α : Type} (p : Search α) : Prop :=
  ∀ n l, Holds (Session.Has n l) p fun _ => Session.Has n l

section

variable {α β : Type}

theorem Looks.quiet {p : Search α} (hp : Looks p) : Quiet p := by
  intro n l s hs
  rw [hp s]
  exact hs

theorem Quiet.bind {p : Search α} {f : α → Search β} (hp : Quiet p) (hf : ∀ a, Quiet (f a)) :
    Quiet (p >>= f) :=
  fun n l => .bind (hp n l) fun a => hf a n l

theorem Quiet.pure (a : α) : Quiet (pure a) := (Looks.pure a).quiet

theorem Quiet.ite {c : Prop} [Decidable c] {p q : Search α} (hp : Quiet p) (hq : Quiet q) :
    Quiet (if c then p else q) := by
  split
  · exact hp
  · exact hq

theorem Quiet.anyM {f : β → Search Bool} (hf : ∀ b, Quiet (f b)) (bs : List β) :
    Quiet (bs.anyM f) := by
  induction bs with
  | nil => exact .pure false
  | cons b bs ih =>
    rw [List.anyM]
    refine .bind (hf b) fun c => ?_
    cases c with
    | true => exact .pure true
    | false => exact ih

/-- What was known of the readings is known of them behind a quiet search. -/
theorem Holds.quiet {n : Nat} {l : List Stand} {Q : β → Session → Prop} {p : Search α}
    {f : α → Search β} (hp : Quiet p) (hf : ∀ a, Holds (Session.Has n l) (f a) Q) :
    Holds (Session.Has n l) (p >>= f) Q :=
  .bind (hp n l) hf

end

theorem countSinceError_quiet (i : Nat) : Quiet (countSinceError i) := by
  refine .bind (head_looks i).quiet fun h => .bind (vertex_looks _).quiet fun v => ?_
  refine .bind (fun n l => changeHead_holds ?_ i) fun _ => .pure _
  exact ⟨fun _ => rfl, fun _ => rfl, fun _ h => h⟩

theorem merit_quiet (i : Nat) : Quiet (merit i) := by
  refine .bind (headCost_looks i).quiet fun cost => .bind (countSinceError_quiet i) fun count => ?_
  exact .bind (head_looks i).quiet fun h => .bind (vertex_looks _).quiet fun v => .pure _

theorem isBeaten_quiet (i cost : Nat) : Quiet (Task.isBeaten i cost) := by
  have hget : Looks (get : Search Session) := fun _ => rfl
  refine .bind hget.quiet fun s => .ite (.pure true) ?_
  refine .bind (top_looks i).quiet fun v => .bind (countSinceError_quiet i) fun count => ?_
  refine .anyM ?_ _
  intro j
  refine .bind (head_looks j).quiet fun h => .bind (vertex_looks _).quiet fun w => ?_
  refine .ite (.pure false) (.bind (merit_quiet j) fun m => ?_)
  split
  · exact .pure true
  · exact (canMerge_looks j i).quiet
  · exact .pure false

/-! ## Merging readings -/

section

variable {n : Nat} {ps : List Nat} {hs : Array Head}

theorem vertex_holds (i : Nat) : Holds (Session.Is n ps hs) (vertex i) fun v s =>
    (v.Rests ps ∧ v.place = ps.getD i 0) ∧ s.Is n ps hs := by
  rintro s ⟨h, rfl, rfl⟩
  exact ⟨⟨h.vertexAt i, place_vertexAt s i⟩, h, rfl, rfl⟩

/-- A vertex may be changed if it stays where it is. -/
theorem changeVertex_holds {i : Nat} {f : Vertex → Vertex} (hplace : ∀ v, (f v).place = v.place)
    (hrests : ∀ v, v.place = ps.getD i 0 → v.Rests ps → (f v).Rests ps) :
    Holds (Session.Is n ps hs) (changeVertex i f) fun _ => Session.Is n ps hs := by
  refine .modify ?_
  rintro s ⟨h, rfl, rfl⟩
  have hplaces : ({ s with vertices := s.vertices.modify i f } : Session).places = s.places := by
    rw [Session.places, Array.toList_modify, map_modify (k := id) fun v _ => hplace v,
      List.modify_id, Session.places]
  refine ⟨⟨?_, ?_, ?_, ?_, h.best⟩, hplaces, rfl⟩
  · rw [hplaces]
    exact h.bottom
  · rw [hplaces]
    exact h.places
  · rw [hplaces, Array.toList_modify]
    intro v hv
    rcases mem_modify hv with hv | ⟨w, hw, rfl⟩
    · exact h.vertices v hv
    · refine hrests w ?_ (h.vertices w (List.mem_of_getElem? hw))
      rw [Session.places, List.getD_eq_getElem?_getD, List.getElem?_map, hw]
      rfl
  · rw [hplaces]
    exact h.heads

theorem join_holds (site : Site) (fuel self : Nat) {link : Link}
    (hlink : link.Leads ps (ps.getD self 0)) :
    Holds (Session.Is n ps hs) (join site fuel self link) fun _ => Session.Is n ps hs := by
  induction fuel generalizing self link with
  | zero => exact .pure fun _ h => h
  | succ fuel ih =>
    refine .ite (fun _ => .pure fun _ h => h) fun _ => ?_
    refine .bind (vertex_holds self) fun v => .and_left fun ⟨hv, hvplace⟩ => ?_
    refine .bind (vertex_holds link.target) fun below => .and_left fun ⟨hb, hbplace⟩ => ?_
    refine .bind (.filterM (R := fun p => p.1.target = link.target ∨
      ps.getD p.1.target 0 = ps.getD link.target 0) ?_) fun like => .and_left fun hlike => ?_
    · rintro ⟨l, k⟩
      refine .bind (vertex_holds l.target) fun other => .and_left fun ⟨_, hother⟩ => ?_
      refine .pure fun s hs => ⟨?_, hs⟩
      intro hc
      simp only [Bool.and_eq_true, Bool.or_eq_true, decide_eq_true_eq] at hc
      rcases hc.2 with htarget | hplace
      · exact .inl htarget
      · rw [← hother, ← hbplace]
        exact .inr hplace.1.2
    · cases like with
      | nil =>
        refine .ite (fun _ => ?_) fun _ => .pure fun _ h => h
        refine changeVertex_holds (fun _ => rfl) ?_
        intro w hw hrests l hl
        rcases List.mem_append.mp hl with hl | hl
        · exact hrests l hl
        · rw [List.mem_singleton.mp hl]
          exact hw ▸ hlink
      | cons p like =>
        obtain ⟨l, k⟩ := p
        have hl := (hlike (l, k) (by simp)).2
        refine .ite (fun htarget => .ite (fun _ => ?_) fun _ => .pure fun _ h => h)
          fun htarget => ?_
        · -- the heavier of two branches between the same vertices
          refine changeVertex_holds (fun _ => rfl) ?_
          intro w hw hrests m hm
          rcases List.mem_or_eq_of_mem_set hm with hm | rfl
          · exact hrests m hm
          · exact hw ▸ hlink
        · -- the lower vertices become one, and both are at the same place
          have hplace := hl.resolve_left htarget
          refine .bind (.forM fun m hm => ih l.target ?_) fun _ => ?_
          · rw [hplace, ← hbplace]
            exact hb m hm
          · exact changeVertex_holds (fun _ => rfl) fun w _ hrests => hrests

theorem head_holds (i : Nat) : Holds (Session.Is n ps hs) (head i) fun h s =>
    h = hs.getD i { vertex := 0, status := .halted } ∧ s.Is n ps hs := by
  rintro s ⟨h, rfl, rfl⟩
  exact ⟨rfl, h, rfl, rfl⟩

/-- Two readings that can become one are at the same place. -/
theorem place_of_canMerge {s : Session} {i j : Nat} (h : (canMerge i j s).1 = true) :
    s.places.getD (s.headAt i).vertex 0 = s.places.getD (s.headAt j).vertex 0 := by
  have hall : ((s.headAt i).status == .active && (s.headAt j).status == .active &&
      (s.vertexAt (s.headAt i).vertex).state == (s.vertexAt (s.headAt j).vertex).state &&
      (s.vertexAt (s.headAt i).vertex).place == (s.vertexAt (s.headAt j).vertex).place &&
      (s.vertexAt (s.headAt i).vertex).cost == (s.vertexAt (s.headAt j).vertex).cost &&
      (s.headAt i).opened == (s.headAt j).opened) = true := h
  rw [← place_vertexAt, ← place_vertexAt]
  simp only [Bool.and_eq_true, beq_iff_eq] at hall
  exact hall.1.1.2

theorem mergeHeads_holds (site : Site) (i j : Nat) {l : List Stand} :
    Holds (Session.Has n l) (mergeHeads site i j) fun merged =>
      Session.Has n (if merged then l.eraseIdx j else l) := by
  refine .look (canMerge_looks i j) fun can => .ite (fun hcan => ?_) fun _ => .pure fun _ h => h.2
  refine .start (fun s => Session.Is n s.places s.heads) (fun s h => ⟨h.2.1, rfl, rfl⟩) ?_
  rintro s ⟨rfl, h, rfl⟩
  have hplace := place_of_canMerge hcan
  have hstands : ∀ t : Session, t.Is n s.places s.heads → t.Has n s.stands := by
    rintro t ⟨ht, hps, hhs⟩
    refine ⟨ht, ?_⟩
    rw [Session.stands, Session.stands, hps, hhs]
  have hrest : Holds (Session.Has n s.stands) (do removeHead j; pure true) fun merged =>
      Session.Has n (if merged then s.stands.eraseIdx j else s.stands) :=
    .bind (removeHead_holds j) fun _ => .pure fun _ ht => ht
  refine .bind (head_holds i) fun x => .and_left fun hx => ?_
  refine .bind (Q := fun other t => other.Rests s.places ∧
    other.place = s.places.getD (s.headAt j).vertex 0 ∧ t.Is n s.places s.heads) ?_ fun other => ?_
  · refine .bind (head_holds j) fun y => .and_left fun hy => ?_
    subst hy
    exact (vertex_holds _).mono (fun _ ht => ht) fun _ _ ht => ⟨ht.1.1, ht.1.2, ht.2⟩
  refine .and_left fun hrests => .and_left fun hother => ?_
  refine .bind (Q := fun _ => Session.Is n s.places s.heads) (fun _ ht => ht) fun t => ?_
  refine .bind (.forM fun k hk => join_holds site _ x.vertex ?_) fun _ => ?_
  · rw [hx]
    change k.Leads s.places (s.places.getD (s.headAt i).vertex 0)
    rw [hplace, ← hother]
    exact hrests k hk
  refine .bind (vertex_holds x.vertex) fun v => .and_left fun _ => ?_
  refine .mono (P := Session.Has n s.stands) (.ite (fun _ => ?_) fun _ => hrest) hstands
    fun _ _ ht => ht
  refine .bind (changeHead_holds ?_ i) fun _ => hrest
  exact ⟨fun _ => rfl, fun _ => rfl, fun _ hy => hy⟩

end

end Repair

end PointMutation
