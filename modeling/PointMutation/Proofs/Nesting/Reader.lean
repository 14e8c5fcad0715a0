import PointMutation.Proofs.Nesting.Ink
import PointMutation.Proofs.Nesting.Orderly

/-!
# Readers of nested fragments

A reader that succeeds leaves the cursor further on in the same text, and the fragment that it
gives lies between the two places, with nested and orderly trees (`Reads`). Fragments that are read
one behind the other make such a fragment again, and so does a node over one. Each reader of the
language is made of a few combinators, so it is enough to know what those keep.
-/

namespace PointMutation

namespace Syntax

open Text (Tidy isWhite)

variable {t : Text}

/-! ## Cursors -/

/-- A cursor in a text. -/
structure Cursor.Sound (t : Text) (c : Cursor) : Prop where
  rest : c.rest = t.drop c.place
  place : c.place ≤ t.length
  size : c.size = t.length

/-- A cursor that was moved on in its text. -/
structure Cursor.Leads (t : Text) (c d : Cursor) : Prop where
  place : c.place ≤ d.place
  sound : d.Sound t

/-- What is known of the cursor `d` behind what was found from `c`: it is at the opening of a
quotation, or still at a tidy place. -/
def Layout.Found (t : Text) (c d : Cursor) : Layout → Prop
  | .quote q n => opening d.rest = some (q, n)
  | .text => True
  | _ => Tidy t c.place → Tidy t d.place

namespace Cursor

theorem Sound.length {c : Cursor} (h : c.Sound t) : c.place + c.rest.length = t.length := by
  have := h.place
  rw [h.rest, List.length_drop]
  omega

theorem sound_ofText (t : Text) : (ofText t).Sound t := ⟨rfl, Nat.zero_le _, rfl⟩

theorem Leads.refl {c : Cursor} (h : c.Sound t) : c.Leads t c := ⟨Nat.le_refl _, h⟩

theorem Leads.trans {c d e : Cursor} (h : c.Leads t d) (h' : d.Leads t e) : c.Leads t e :=
  ⟨Nat.le_trans h.place h'.place, h'.sound⟩

theorem leads_advance {c : Cursor} {n : Nat} (h : c.Sound t) (hn : n ≤ c.rest.length) :
    c.Leads t (c.advance n) := by
  have := h.length
  refine ⟨Nat.le_add_right _ _, ?_, ?_, h.size⟩
  · rw [advance, h.rest, List.drop_drop]
  · change c.place + n ≤ t.length
    omega

theorem leads_skip {c : Cursor} (h : c.Sound t) : c.Leads t c.skip :=
  leads_advance h (Text.length_takeWhile_le _ _)

theorem leads_layout {c d : Cursor} {e : Expect} {l : Layout} (h : c.Sound t)
    (hl : c.layout? e = some (l, d)) : c.Leads t d ∧ l.Found t c d := by
  unfold layout? at hl
  split at hl
  · cases hl
  · rename_i b hb
    obtain ⟨u, hu⟩ := blanks_suffix hb
    have hsplit := congrArg List.length hu
    rw [List.length_append] at hsplit
    have hlength := h.length
    have hsize := h.size
    have hplace : c.size - b.rest.length = c.place + u.length := by omega
    have hrest : b.rest = t.drop (c.place + u.length) := by
      rw [← List.drop_drop, ← h.rest, ← hu, List.drop_left]
    dsimp only at hl
    split at hl
    · cases hl
      exact ⟨⟨Nat.le_refl _, h.rest, h.place, h.size⟩, id⟩
    split at hl
    · cases hl
      exact ⟨⟨Nat.le_refl _, h.rest, h.place, h.size⟩, id⟩
    split at hl
    · cases hl
      exact ⟨.refl h, id⟩
    split at hl
    · split at hl
      · rename_i q n hopening
        cases hl
        rw [hplace]
        exact ⟨⟨Nat.le_add_right _ _, hrest, by dsimp only; omega, h.size⟩, hopening⟩
      · cases hl
    · cases hl

end Cursor

/-! ## What holds behind a reader -/

/-- If the reader succeeds from `c`, what it gives and where it stops satisfy `Q`. -/
def Post {α : Type} (p : Parser α) (c : Cursor) (Q : α → Cursor → Prop) : Prop :=
  ∀ x d, p c = some (x, d) → Q x d

namespace Post

variable {α β : Type} {c : Cursor} {Q R : α → Cursor → Prop}

theorem mono {p : Parser α} (h : Post p c Q) (hQ : ∀ x d, Q x d → R x d) : Post p c R :=
  fun x d hx => hQ x d (h x d hx)

theorem trivial {p : Parser α} : Post p c fun _ _ => True := fun _ _ _ => True.intro

theorem pure {x : α} (h : Q x c) : Post (Pure.pure x) c Q := by
  intro y d hy
  cases hy
  exact h

theorem failure : Post Alternative.failure c Q := by
  intro x d hx
  cases hx

theorem bind {p : Parser β} {k : β → Parser α} {P : β → Cursor → Prop} (h : Post p c P)
    (hk : ∀ x d, P x d → Post (k x) d Q) : Post (p >>= k) c Q := by
  intro y e hy
  change (p c).bind (fun q => k q.1 q.2) = some (y, e) at hy
  obtain ⟨⟨x, d⟩, hx, hy⟩ := Option.bind_eq_some_iff.mp hy
  exact hk x d (h x d hx) y e hy

theorem failure_bind {k : β → Parser α} : Post (Alternative.failure >>= k) c Q := by
  intro x d hx
  cases hx

theorem get {k : Cursor → Parser α} (h : Post (k c) c Q) : Post (MonadState.get >>= k) c Q := h

theorem set {d : Cursor} {k : PUnit → Parser α} (h : Post (k ⟨⟩) d Q) :
    Post (MonadStateOf.set d >>= k) c Q := h

theorem setLast {d : Cursor} {Q : PUnit → Cursor → Prop} (h : Q ⟨⟩ d) :
    Post (MonadStateOf.set d : Parser PUnit) c Q := by
  intro x e hx
  cases hx
  exact h

theorem orElse {p q : Parser α} (hp : Post p c Q) (hq : Post q c Q) : Post (p <|> q) c Q := by
  intro x d hx
  change (p c <|> q c) = some (x, d) at hx
  cases h : p c with
  | none =>
    rw [h] at hx
    exact hq x d hx
  | some y =>
    rw [h] at hx
    cases hx
    exact hp x d h

theorem ite {b : Prop} [Decidable b] {p q : Parser α} (hp : Post p c Q) (hq : Post q c Q) :
    Post (if b then p else q) c Q := by
  split
  · exact hp
  · exact hq

/-- What each step keeps holds behind the repetition. -/
theorem repeated {step : α → Parser α} {I : α → Cursor → Prop}
    (hstep : ∀ x d, I x d → Post (step x) d I) (n : Nat) {x : α} (h : I x c) :
    Post (Syntax.repeated step n x) c I := by
  induction n generalizing x c with
  | zero => exact .pure h
  | succ n ih => exact .orElse (.bind (hstep x c h) fun y d hy => ih hy) (.pure h)

theorem many {step : α → Parser α} {I : α → Cursor → Prop} {x : α} (h : I x c)
    (hstep : ∀ x d, I x d → Post (step x) d I) : Post (Syntax.many step x) c I :=
  .get (repeated hstep _ h)

end Post

/-! ## Fragments -/

/-- Nodes that stand in front of a token. -/
def Extras (t : Text) (a b : Nat) (ts : List Tree) : Prop :=
  Tree.NestedIn a b ts ∧ ∀ u ∈ ts, u.Orderly t .inner

/-- A fragment that was read between two cursors, with nodes for a slot. It may have no tokens. -/
structure Held (t : Text) (s : Tree.Slot) (c : Cursor) (f : Fragment) (d : Cursor) : Prop where
  leads : c.Leads t d
  lead : Extras t c.place f.start f.lead
  items : Tree.NestedIn f.start f.stop f.items
  orderly : ∀ u ∈ f.items, u.Orderly t s
  stop : f.stop ≤ d.place
  ends : Tidy t f.stop
  tidy : Tidy t d.place

/-- A fragment that begins with a token. -/
structure Spans (t : Text) (s : Tree.Slot) (c : Cursor) (f : Fragment) (d : Cursor) : Prop
    extends Held t s c f d where
  lt : f.start < f.stop
  first : ∃ x, t[f.start]? = some x ∧ isWhite x = false

/-- A fragment of an expression or a simple statement. -/
def Between (t : Text) (c : Cursor) (f : Fragment) (d : Cursor) : Prop := Spans t .inner c f d

namespace Extras

variable {a b b' : Nat} {ts us : List Tree}

theorem nil (h : a ≤ b) : Extras t a b [] := ⟨Tree.nestedIn_nil.mpr h, by simp⟩

theorem mono {a' : Nat} (h : Extras t a b ts) (ha : a' ≤ a) (hb : b ≤ b') : Extras t a' b' ts :=
  ⟨h.1.mono ha hb, h.2⟩

theorem append (h : Extras t a b ts) (h' : Extras t b b' us) : Extras t a b' (ts ++ us) :=
  ⟨h.1.append h'.1, fun u hu => (List.mem_append.mp hu).elim (h.2 u) (h'.2 u)⟩

/-- A comment or a joint. -/
theorem singleton {k : Kind} (h : Text.Clear t a b) : Extras t a b [.node k none a b []] := by
  refine ⟨.singleton ?_ (Nat.le_refl _) (Nat.le_refl _), fun u hu => ?_⟩
  · exact Tree.nested_node.mpr (Tree.nestedIn_nil.mpr h.lt.le)
  · rw [List.mem_singleton.mp hu]
    exact .plain h (by simp)

end Extras

namespace Held

variable {s : Tree.Slot} {c d e : Cursor} {f g : Fragment}

theorem sound (h : Held t s c f d) : d.Sound t := h.leads.sound

theorem append (h : Held t s c f d) (h' : Held t s d g e) : Held t s c (f ++ g) e := by
  refine ⟨h.leads.trans h'.leads, h.lead, ?_, fun u hu => ?_, h'.stop, h'.ends, h'.tidy⟩
  · exact h.items.append ((h'.lead.1.mono h.stop (Nat.le_refl _)).append h'.items)
  · rcases List.mem_append.mp hu with hu | hu
    · exact h.orderly u hu
    · exact (List.mem_append.mp hu).elim (fun hu => (h'.lead.2 u hu).ofInner) (h'.orderly u)

/-- Nodes that stood in front of the fragment. -/
theorem behind {ts : List Tree} (hcd : c.Leads t d) (hts : Extras t c.place d.place ts)
    (h : Held t s d f e) : Held t s c (f.behind ts) e :=
  { h with leads := hcd.trans h.leads, lead := hts.append h.lead }

/-- The cursor was moved on before. -/
theorem after (hcd : c.Leads t d) (h : Held t s d f e) : Held t s c f e :=
  { h with leads := hcd.trans h.leads, lead := h.lead.mono hcd.place (Nat.le_refl _) }

/-- The cursor was moved on without reading. -/
theorem leadsTo (h : Held t s c f d) (h' : d.Leads t e) (htidy : Tidy t e.place) :
    Held t s c f e :=
  { h with leads := h.leads.trans h', stop := Nat.le_trans h.stop h'.place, tidy := htidy }

theorem empty (h : c.Sound t) (htidy : Tidy t c.place) :
    Held t s c ⟨[], [], c.place, c.place⟩ c where
  leads := .refl h
  lead := .nil (Nat.le_refl _)
  items := Tree.nestedIn_nil.mpr (Nat.le_refl _)
  orderly := by simp
  stop := Nat.le_refl _
  ends := htidy
  tidy := htidy

/-- One node over the fragment. -/
theorem node {s' : Tree.Slot} {k : Kind} (h : Held t s c f d)
    (hnode : (Tree.node k none f.start f.stop f.items).Orderly t s') :
    Held t s' c (f.node k) d where
  leads := h.leads
  lead := h.lead
  items := .singleton (Tree.nested_node.mpr h.items) (Nat.le_refl _) (Nat.le_refl _)
  orderly u hu := by rwa [List.mem_singleton.mp hu]
  stop := h.stop
  ends := h.ends
  tidy := h.tidy

/-- The statements of a body. -/
theorem block (h : Held t .body c f d) : Held t .part c (f.node .block) d :=
  h.node (.block h.orderly)

end Held

namespace Spans

variable {s : Tree.Slot} {c d e : Cursor} {f g : Fragment}

theorem sound (h : Spans t s c f d) : d.Sound t := h.leads.sound

theorem clear (h : Spans t s c f d) : Text.Clear t f.start f.stop :=
  ⟨h.lt, h.stop.trans h.sound.place, h.first, h.ends⟩

/-- Something that may have no tokens was read behind. -/
theorem appendHeld (h : Spans t s c f d) (h' : Held t s d g e) : Spans t s c (f ++ g) e := by
  refine ⟨h.toHeld.append h', ?_, h.first⟩
  have hlt := h.lt
  have hstop := h.stop
  have hlead := h'.lead.1.le
  have hitems := h'.items.le
  change f.start < g.stop
  omega

theorem append (h : Spans t s c f d) (h' : Spans t s d g e) : Spans t s c (f ++ g) e :=
  h.appendHeld h'.toHeld

theorem behind {ts : List Tree} (hcd : c.Leads t d) (hts : Extras t c.place d.place ts)
    (h : Spans t s d f e) : Spans t s c (f.behind ts) e :=
  ⟨h.toHeld.behind hcd hts, h.lt, h.first⟩

theorem after (hcd : c.Leads t d) (h : Spans t s d f e) : Spans t s c f e :=
  ⟨h.toHeld.after hcd, h.lt, h.first⟩

theorem leadsTo (h : Spans t s c f d) (h' : d.Leads t e) (htidy : Tidy t e.place) :
    Spans t s c f e :=
  ⟨h.toHeld.leadsTo h' htidy, h.lt, h.first⟩

/-- The parts of an expression may stand anywhere. -/
theorem ofInner (h : Spans t .inner c f d) : Spans t s c f d :=
  ⟨{ h with orderly := fun u hu => (h.orderly u hu).ofInner }, h.lt, h.first⟩

theorem node (h : Spans t .inner c f d) (k : Kind) : Between t c (f.node k) d :=
  ⟨h.toHeld.node (.plain h.clear h.orderly), h.lt, h.first⟩

/-- A clause with its body. -/
theorem clause {k : Kind} (h : Spans t .part c f d) (hs : s = .part ∨ s = .body)
    (hk : k.isClause = true) : Spans t s c (f.node k) d :=
  ⟨h.toHeld.node (.clause hs hk h.orderly), h.lt, h.first⟩

/-- A compound statement. -/
theorem compound {k : Kind} (h : Spans t .part c f d) (hs : s = .decorated ∨ s = .body)
    (hk : k.isCompound = true) (hne : k ≠ .decoratedDefinition) : Spans t s c (f.node k) d :=
  ⟨h.toHeld.node (.compound hs hk hne h.orderly), h.lt, h.first⟩

theorem decorated (h : Spans t .decorated c f d) :
    Spans t .body c (f.node .decoratedDefinition) d :=
  ⟨h.toHeld.node (.decorated h.orderly), h.lt, h.first⟩

/-- A fragment whose nodes are changed into ones that cover the same and hold the same. -/
theorem map {m : Tree → Tree} (hm : ∀ u, (m u).start = u.start ∧ (m u).stop = u.stop ∧
      (m u).children = u.children) (h : Spans t .inner c f d) :
    Between t c { f with items := f.items.map m } d := by
  have hnested : ∀ {a b : Nat} {ts : List Tree}, Tree.NestedIn a b ts →
      Tree.NestedIn a b (ts.map m) := by
    intro a b ts hts
    induction ts generalizing a with
    | nil => exact hts
    | cons u ts ih =>
      obtain ⟨ha, hu, hts⟩ := Tree.nestedIn_cons.mp hts
      obtain ⟨hstart, hstop, hchildren⟩ := hm u
      refine Tree.nestedIn_cons.mpr ⟨by omega, ?_, ?_⟩
      · rw [Tree.nested_iff, hstart, hstop, hchildren]
        exact hu.children
      · rw [hstop]
        exact ih hts
  refine ⟨{ h with items := hnested h.items, orderly := fun u hu => ?_ }, h.lt, h.first⟩
  obtain ⟨v, hv, rfl⟩ := List.mem_map.mp hu
  obtain ⟨hstart, hstop, hchildren⟩ := hm v
  rw [Tree.Orderly.iff_inner, hstart, hstop, hchildren]
  exact Tree.Orderly.iff_inner.mp (h.orderly v hv)

theorem withRole (h : Spans t .inner c f d) (r : Role) : Between t c (f.withRole r) d :=
  h.map fun u => by cases u; exact ⟨rfl, rfl, rfl⟩

theorem withKind (h : Spans t .inner c f d) (k : Kind) : Between t c (f.withKind k) d :=
  h.map fun u => by cases u; exact ⟨rfl, rfl, rfl⟩

end Spans

/-- From any cursor, a fragment with nodes for a slot is read between it and the cursor behind. -/
def ReadsAs (t : Text) (s : Tree.Slot) (p : Parser Fragment) : Prop :=
  ∀ c, c.Sound t → Post p c fun f d => Spans t s c f d

/-- From any cursor, a fragment of an expression or a simple statement is read. -/
def Reads (t : Text) (p : Parser Fragment) : Prop :=
  ∀ c, c.Sound t → Post p c fun f d => Between t c f d

/-- From a cursor at a tidy place, a fragment is read that may have no tokens. -/
def Holds (t : Text) (s : Tree.Slot) (p : Parser Fragment) : Prop :=
  ∀ c, c.Sound t → Tidy t c.place → Post p c fun f d => Held t s c f d

/-- Nothing is read: the cursor stays where it is. -/
def Looks {α : Type} (p : Parser α) : Prop := ∀ c, Post p c fun _ d => d = c

/-- The cursor is moved on, whatever is given. -/
def Passes {α : Type} (t : Text) (p : Parser α) : Prop :=
  ∀ c, c.Sound t → Post p c fun _ d => c.Leads t d

theorem Reads.passes {p : Parser Fragment} (h : Reads t p) : Passes t p :=
  fun c hc => (h c hc).mono fun _ _ hf => hf.leads

/-- What a reader reads behind a fragment. -/
theorem Reads.behind {p : Parser Fragment} (h : Reads t p) {c d : Cursor} {f : Fragment}
    (hf : Between t c f d) : Post p d fun g e => Between t c (f ++ g) e :=
  (h d hf.sound).mono fun _ _ hg => hf.append hg

theorem Reads.ofInner {s : Tree.Slot} {p : Parser Fragment} (h : Reads t p) : ReadsAs t s p :=
  fun c hc => (h c hc).mono fun _ _ hf => hf.ofInner

theorem Reads.node {p : Parser Fragment} (h : Reads t p) (k : Kind) :
    Reads t (do pure ((← p).node k)) := by
  intro c hc
  exact .bind (h c hc) fun f d hf => .pure (hf.node k)

theorem ReadsAs.behind {s : Tree.Slot} {p : Parser Fragment} (h : ReadsAs t s p) {c d : Cursor}
    {f : Fragment} (hf : Spans t s c f d) : Post p d fun g e => Spans t s c (f ++ g) e :=
  (h d hf.sound).mono fun _ _ hg => hf.append hg

theorem Holds.behind {s : Tree.Slot} {p : Parser Fragment} (h : Holds t s p) {c d : Cursor}
    {f : Fragment} (hf : Spans t s c f d) : Post p d fun g e => Spans t s c (f ++ g) e :=
  (h d hf.sound hf.tidy).mono fun _ _ hg => hf.appendHeld hg

/-! ## Tokens -/

theorem lookWithin_post {e : Expect} {c : Cursor} (n : Nat) {d : Cursor} {ts : List Tree}
    (hcd : c.Leads t d) (hts : Extras t c.place d.place ts)
    (htidy : Tidy t c.place → Tidy t d.place) :
    Post (lookWithin e n ts) d fun p d =>
      c.Leads t d ∧ Extras t c.place d.place p.1 ∧ p.2.Found t c d := by
  induction n generalizing d ts with
  | zero => exact .failure
  | succ n ih =>
    rw [lookWithin]
    refine .get ?_
    split
    · rename_i l d' hl
      obtain ⟨hd, hfound⟩ := Cursor.leads_layout hcd.sound hl
      refine .set (.pure ⟨hcd.trans hd, hts.mono (Nat.le_refl _) hd.place, ?_⟩)
      cases l with
      | quote q n => exact hfound
      | text => trivial
      | newline => exact fun h => hfound (htidy h)
      | indent => exact fun h => hfound (htidy h)
      | dedent => exact fun h => hfound (htidy h)
    · have hskip := Cursor.leads_skip hcd.sound
      dsimp only
      split
      · rename_i k length hextra
        have hadvance := Cursor.leads_advance hskip.sound (extra_length_le hextra)
        rw [hskip.sound.rest] at hextra
        have hclear := extra_clear hextra
        refine .set (ih ((hcd.trans hskip).trans hadvance) ?_ fun _ => hclear.tidy)
        exact (hts.mono (Nat.le_refl _) hskip.place).append (.singleton hclear)
      · refine .set (.ite .failure (.pure ⟨hcd.trans hskip, ?_, True.intro⟩))
        exact hts.mono (Nat.le_refl _) hskip.place

theorem look_post (e : Expect) {c : Cursor} (hc : c.Sound t) :
    Post (look e) c fun p d =>
      c.Leads t d ∧ Extras t c.place d.place p.1 ∧ p.2.Found t c d :=
  .get (lookWithin_post _ (.refl hc) (.nil (Nat.le_refl _)) id)

/-- A token without a width keeps the place tidy. -/
theorem layoutToken_holds {s : Tree.Slot} (e : Expect) {l : Layout}
    (hl : ∀ {c d : Cursor}, l.Found t c d → Tidy t c.place → Tidy t d.place) :
    Holds t s (layoutToken e l) := by
  intro c hc htidy
  refine .bind (look_post e hc) ?_
  rintro ⟨ts, found⟩ d ⟨hd, hts, hfound⟩
  refine .get ?_
  split
  · next heq =>
    have hplace := hl (heq ▸ hfound) htidy
    exact .pure ⟨hd, hts, Tree.nestedIn_nil.mpr (Nat.le_refl _), by simp, Nat.le_refl _, hplace,
      hplace⟩
  · exact .failure

theorem newline_holds {s : Tree.Slot} (e : Expect) : Holds t s (layoutToken e .newline) :=
  layoutToken_holds e id

theorem dedent_holds {s : Tree.Slot} (e : Expect) : Holds t s (layoutToken e .dedent) :=
  layoutToken_holds e id

theorem token_reads (e : Expect) {measure : Text → Option Nat} (hm : Inks measure) :
    Reads t (token e measure) := by
  intro c hc
  refine .bind (look_post e hc) ?_
  rintro ⟨ts, found⟩ d ⟨hd, hts, -⟩
  refine .get ?_
  split
  · rename_i n hn
    have hadvance := Cursor.leads_advance hd.sound (hm.fits _ _ hn)
    obtain ⟨hpos, hsolid⟩ := hm _ _ hn
    rw [hd.sound.rest] at hsolid
    have hclear := hsolid.clear hpos
    refine .set (.pure ⟨⟨hd.trans hadvance, hts, ?_, by simp, Nat.le_refl _, hclear.tidy,
      hclear.tidy⟩, hclear.lt, hclear.first⟩)
    exact Tree.nestedIn_nil.mpr hclear.lt.le
  · exact .failure

theorem keyword_reads (e : Expect) (w : String) (hw : w.toList ≠ []) :
    Reads t (keyword e w) :=
  token_reads e (wordLength_inks hw)

theorem mark_reads (e : Expect) (m : String) (hm : IsMark m.toList) :
    Reads t (mark e m) :=
  token_reads e (markLength_inks hm)

theorem keyword_post {e : Expect} {w : String} {c : Cursor} (hc : c.Sound t)
    (hw : w.toList ≠ []) : Post (keyword e w) c fun f d => Between t c f d :=
  keyword_reads e w hw c hc

theorem mark_post {e : Expect} {m : String} {c : Cursor} (hc : c.Sound t)
    (hm : IsMark m.toList) : Post (mark e m) c fun f d => Between t c f d :=
  mark_reads e m hm c hc

theorem equals_reads (e : Expect) : Reads t (equals e) := token_reads e equalsLength_inks

theorem name_reads (e : Expect) : Reads t (name e) := (token_reads e nameLength_inks).node _

theorem operandName_reads (e : Expect) : Reads t (operandName e) :=
  (token_reads e operandNameLength_inks).node _

/-! ## Combinations -/

/-- What is looked at does not matter to what is read from there. -/
theorem Looks.bind {α β : Type} {p : Parser α} {k : α → Parser β} {c : Cursor}
    {Q : β → Cursor → Prop} (h : Looks p) (hk : ∀ x, Post (k x) c Q) : Post (p >>= k) c Q := by
  refine .bind (h c) ?_
  rintro x _ rfl
  exact hk x

theorem Looks.map {α β : Type} {p : Parser α} {g : α → β} (h : Looks p) :
    Looks (do Pure.pure (g (← p))) :=
  fun _ => h.bind fun _ => .pure rfl

theorem peek_looks (e : Expect) : Looks (peek e) :=
  fun _ => .get (.bind .trivial fun _ _ _ => .get (.set (.pure rfl)))

theorem peekWord_looks (e : Expect) : Looks (peekWord e) := (peek_looks e).map

theorem endsText_looks (f : Follow) : Looks (endsText f) :=
  fun _ => .get (.bind .trivial fun _ _ _ => .get (.set (.pure rfl)))

theorem orNothing_extends {s : Tree.Slot} {p : Parser Fragment} (h : ReadsAs t s p) {c d : Cursor}
    {f : Fragment} (hf : Spans t s c f d) :
    Post (orNothing f p) d fun g e => Spans t s c g e ∧ d.Leads t e :=
  .orElse (.bind (h d hf.sound) fun _ _ hg => .pure ⟨hf.append hg, hg.leads⟩)
    (.pure ⟨hf, .refl hf.sound⟩)

/-- A repetition that reads more behind a fragment each time. -/
theorem many_extends {s : Tree.Slot} {step : Fragment → Parser Fragment} {c d : Cursor}
    {f : Fragment} (hf : Spans t s c f d)
    (hstep : ∀ f d, Spans t s c f d → Post (step f) d fun g e => Spans t s c g e) :
    Post (many step f) d fun g e => Spans t s c g e :=
  .many hf hstep

theorem commaSeparated_extends {comma item : Expect} {p : Expect → Parser Fragment}
    (hp : ∀ e, Reads t (p e)) {trailing : Bool} {c d : Cursor} {f : Fragment}
    (hf : Between t c f d) :
    Post (commaSeparated comma item p trailing f) d fun g e => Between t c g e ∧ d.Leads t e := by
  refine .bind (P := fun g e => Between t c g e ∧ d.Leads t e) (.many ⟨hf, .refl hf.sound⟩ ?_) ?_
  · rintro f e ⟨hf, hde⟩
    refine .bind (mark_post hf.sound (by decide)) fun g e' hg => ?_
    refine .bind (hp item e' hg.sound) fun h e'' hh => .pure ⟨(hf.append hg).append hh, ?_⟩
    exact hde.trans (hg.leads.trans hh.leads)
  · rintro g e ⟨hg, hde⟩
    refine .ite ?_ (.pure ⟨hg, hde⟩)
    exact (orNothing_extends (mark_reads comma "," (by decide)) hg).mono fun _ _ hh =>
      ⟨hh.1, hde.trans hh.2⟩

end Syntax

end PointMutation
