import PointMutation.Edit

/-!
# Chains of edits

The edits that a walk keeps form a chain: each of them replaces at least one character and ends
where the next one begins or before. A chain that ends where a stretch begins and a chain inside
the stretch are kept apart by `Edit.render` and `Edit.replace`, which only compare places.
-/

namespace PointMutation

namespace Text

theorem slice_self (t : Text) (a : Nat) : slice t a a = [] := by
  simp [slice]

theorem slice_all (t : Text) : slice t 0 t.length = t := by
  simp [slice]

/-- A stretch is what lies before a place in it and what lies behind. -/
theorem slice_append {t : Text} {a m b : Nat} (h : a ≤ m) (h' : m ≤ b) :
    slice t a m ++ slice t m b = slice t a b := by
  have hm : m = a + (m - a) := by omega
  have hb : b - a = (m - a) + (b - m) := by omega
  simp only [slice]
  rw [hb, List.take_add, List.drop_drop, ← hm]

end Text

namespace Edit

/-- Edits one behind the other between two places. -/
def Chain : Nat → Nat → List Edit → Prop
  | a, b, [] => a ≤ b
  | a, b, e :: es => a ≤ e.start ∧ e.start < e.stop ∧ Chain e.stop b es

@[simp]
theorem chain_nil {a b : Nat} : Chain a b [] ↔ a ≤ b := Iff.rfl

@[simp]
theorem chain_cons {a b : Nat} {e : Edit} {es : List Edit} :
    Chain a b (e :: es) ↔ a ≤ e.start ∧ e.start < e.stop ∧ Chain e.stop b es := Iff.rfl

theorem chain_singleton {a b : Nat} {e : Edit} :
    Chain a b [e] ↔ a ≤ e.start ∧ e.start < e.stop ∧ e.stop ≤ b := Iff.rfl

theorem Chain.le {a b : Nat} {es : List Edit} (h : Chain a b es) : a ≤ b := by
  induction es generalizing a with
  | nil => exact h
  | cons e es ih =>
    obtain ⟨ha, he, hes⟩ := chain_cons.mp h
    have := ih hes
    omega

theorem Chain.mono {a a' b b' : Nat} {es : List Edit} (h : Chain a b es) (ha : a' ≤ a)
    (hb : b ≤ b') : Chain a' b' es := by
  induction es generalizing a a' with
  | nil =>
    have := chain_nil.mp h
    exact chain_nil.mpr (by omega)
  | cons e es ih =>
    obtain ⟨hs, he, hes⟩ := chain_cons.mp h
    exact chain_cons.mpr ⟨by omega, he, ih hes (Nat.le_refl _)⟩

theorem Chain.append {a m b : Nat} {es fs : List Edit} (h : Chain a m es) (h' : Chain m b fs) :
    Chain a b (es ++ fs) := by
  induction es generalizing a with
  | nil => exact h'.mono (chain_nil.mp h) (Nat.le_refl b)
  | cons e es ih =>
    obtain ⟨hs, he, hes⟩ := chain_cons.mp h
    exact chain_cons.mpr ⟨hs, he, ih hes⟩

theorem Chain.bounds {a b : Nat} {e : Edit} {es : List Edit} (h : Chain a b es) (he : e ∈ es) :
    a ≤ e.start ∧ e.start < e.stop ∧ e.stop ≤ b := by
  induction es generalizing a with
  | nil => cases he
  | cons f fs ih =>
    obtain ⟨ha, hf, hfs⟩ := chain_cons.mp h
    cases he with
    | head => exact ⟨ha, hf, hfs.le⟩
    | tail _ hm =>
      obtain ⟨h₁, h₂, h₃⟩ := ih hfs hm
      exact ⟨by omega, h₂, h₃⟩

theorem Chain.isWithin {a b : Nat} {es : List Edit} (h : Chain a b es) :
    ∀ e ∈ es, isWithin a b e = true := by
  intro e he
  obtain ⟨h₁, _, h₃⟩ := h.bounds he
  simp [Edit.isWithin, h₁, h₃]

/-- An edit that ends where a stretch begins does not lie in it, since it is not empty. -/
theorem Chain.not_isWithin {a b c : Nat} {es : List Edit} (h : Chain c a es) :
    ∀ e ∈ es, Edit.isWithin a b e = false := by
  intro e he
  obtain ⟨_, h₂, h₃⟩ := h.bounds he
  have : ¬ a ≤ e.start := by omega
  simp [Edit.isWithin, this]

/-- Showing a stretch applies the edits made inside it and no others. -/
theorem render_append {a b c : Nat} {es fs : List Edit} (source : Text) (h : Chain c a es)
    (h' : Chain a b fs) : render source (es ++ fs) a b = apply source b a fs := by
  have hes : es.filter (isWithin a b) = [] :=
    List.filter_eq_nil_iff.mpr fun e he => by simp [h.not_isWithin e he]
  have hfs : fs.filter (isWithin a b) = fs :=
    List.filter_eq_self.mpr fun e he => h'.isWithin e he
  rw [render, List.filter_append, hes, hfs, List.nil_append]

/-- An edit goes behind those that begin in front of it. -/
theorem insert_append {e : Edit} {es : List Edit} (h : ∀ f ∈ es, f.start < e.start)
    (gs : List Edit) : insert e (es ++ gs) = es ++ insert e gs := by
  induction es with
  | nil => rfl
  | cons f fs ih =>
    have hf := h f (by simp)
    have hfs := ih fun g hg => h g (by simp [hg])
    rw [List.cons_append, insert, if_pos hf, hfs, List.cons_append]

/-- An edit that begins behind all others comes last. -/
theorem insert_of_lt {e : Edit} {es : List Edit} (h : ∀ f ∈ es, f.start < e.start) :
    insert e es = es ++ [e] := by
  have happend := insert_append h []
  rwa [List.append_nil] at happend

/-- Replacing a stretch drops the edits made inside it and keeps those in front of it. -/
theorem replace_append {c : Nat} {e : Edit} {es fs : List Edit} (h : Chain c e.start es)
    (h' : Chain e.start e.stop fs) : replace e (es ++ fs) = es ++ [e] := by
  have hes : es.filter (fun f => !f.isWithin e.start e.stop) = es :=
    List.filter_eq_self.mpr fun f hf => by simp [h.not_isWithin f hf]
  have hfs : fs.filter (fun f => !f.isWithin e.start e.stop) = [] :=
    List.filter_eq_nil_iff.mpr fun f hf => by simp [h'.isWithin f hf]
  rw [replace, List.filter_append, hes, hfs, List.append_nil]
  refine insert_of_lt fun f hf => ?_
  obtain ⟨_, h₂, h₃⟩ := h.bounds hf
  omega

/-- An edit takes the place of one of the same stretch that has others in front and behind. -/
theorem replace_between {c d : Nat} {e f : Edit} {es gs : List Edit} (h : Chain c e.start es)
    (hstart : f.start = e.start) (hstop : f.stop = e.stop) (hgs : Chain e.stop d gs)
    (he : e.start < e.stop) : replace e (es ++ f :: gs) = es ++ e :: gs := by
  have hf : f.isWithin e.start e.stop = true := by simp [isWithin, hstart, hstop]
  have hfront : ∀ g ∈ es, g.start < e.start := by
    intro g hg
    obtain ⟨-, h₂, h₃⟩ := h.bounds hg
    omega
  have hbehind : ∀ g ∈ gs, ¬ g.start < e.start ∧ g.isWithin e.start e.stop = false := by
    intro g hg
    obtain ⟨h₁, h₂, -⟩ := hgs.bounds hg
    have hstop : ¬ g.stop ≤ e.stop := by omega
    exact ⟨by omega, by simp [isWithin, hstop]⟩
  have hinsert : insert e gs = e :: gs := by
    cases gs with
    | nil => rfl
    | cons g gs => rw [insert, if_neg (hbehind g List.mem_cons_self).1]
  rw [replace, List.filter_append, List.filter_cons_of_neg (by simp [hf]),
    List.filter_eq_self.mpr fun g hg => by simp [h.not_isWithin g hg],
    List.filter_eq_self.mpr fun g hg => by simp [(hbehind g hg).2], insert_append hfront, hinsert]

/-- An edit that each of the others lies in front of, behind or inside of keeps them apart. -/
theorem Chain.replace {a b : Nat} {e : Edit} {es : List Edit} (h : Chain a b es)
    (ha : a ≤ e.start) (he : e.start < e.stop) (hb : e.stop ≤ b)
    (hes : ∀ f ∈ es, f.stop ≤ e.start ∨ e.stop ≤ f.start ∨ Edit.isWithin e.start e.stop f = true) :
    Chain a b (replace e es) := by
  induction es generalizing a with
  | nil => exact chain_singleton.mpr ⟨ha, he, hb⟩
  | cons f fs ih =>
    obtain ⟨haf, hf, hfs⟩ := chain_cons.mp h
    have hrest : ∀ g ∈ fs, g.stop ≤ e.start ∨ e.stop ≤ g.start ∨
        Edit.isWithin e.start e.stop g = true := fun g hg => hes g (List.mem_cons_of_mem f hg)
    rcases hes f List.mem_cons_self with hfront | hbehind | hwithin
    · -- The edit goes behind the first one.
      have hnot : Edit.isWithin e.start e.stop f = false := by
        have : ¬ e.start ≤ f.start := by omega
        simp [Edit.isWithin, this]
      have hreplace : Edit.replace e (f :: fs) = f :: Edit.replace e fs := by
        rw [Edit.replace, List.filter_cons_of_pos (by simp [hnot]), Edit.insert,
          if_pos (by omega), Edit.replace]
      rw [hreplace]
      exact chain_cons.mpr ⟨haf, hf, ih hfs hfront hrest⟩
    · -- The edit goes in front of all.
      have hall : ∀ g ∈ f :: fs, e.stop ≤ g.start := by
        intro g hg
        rcases List.mem_cons.mp hg with rfl | hg
        · exact hbehind
        · have := hfs.bounds hg
          omega
      have hfilter : (f :: fs).filter (fun g => !Edit.isWithin e.start e.stop g) = f :: fs := by
        refine List.filter_eq_self.mpr fun g hg => ?_
        have hstart := hall g hg
        have hstop := (h.bounds hg).2.1
        have : ¬ g.stop ≤ e.stop := by omega
        simp [Edit.isWithin, this]
      rw [Edit.replace, hfilter, Edit.insert, if_neg (by omega)]
      exact chain_cons.mpr ⟨ha, he, chain_cons.mpr ⟨hbehind, hf, hfs⟩⟩
    · -- The first one is dropped.
      have hreplace : Edit.replace e (f :: fs) = Edit.replace e fs := by
        rw [Edit.replace, List.filter_cons_of_neg (by simp [hwithin]), Edit.replace]
      rw [hreplace]
      exact ih (hfs.mono (by omega) (Nat.le_refl b)) ha hrest

/-- Two edits of a chain are the same or lie one behind the other. -/
theorem Chain.apart {a b : Nat} {e f : Edit} {es : List Edit} (h : Chain a b es) (he : e ∈ es)
    (hf : f ∈ es) : f = e ∨ f.stop ≤ e.start ∨ e.stop ≤ f.start := by
  induction es generalizing a with
  | nil => cases he
  | cons g gs ih =>
    obtain ⟨-, -, hgs⟩ := chain_cons.mp h
    rcases List.mem_cons.mp he with heg | he
    · rcases List.mem_cons.mp hf with hfg | hf
      · exact .inl (hfg.trans heg.symm)
      · exact .inr (.inr (heg ▸ (hgs.bounds hf).1))
    · rcases List.mem_cons.mp hf with hfg | hf
      · exact .inr (.inl (hfg ▸ (hgs.bounds he).1))
      · exact ih hgs he hf

theorem Chain.pairwise {a b : Nat} {es : List Edit} (h : Chain a b es) :
    es.Pairwise fun e f => e.stop ≤ f.start := by
  induction es generalizing a with
  | nil => exact .nil
  | cons e es ih =>
    obtain ⟨-, -, hes⟩ := chain_cons.mp h
    exact .cons (fun f hf => (hes.bounds hf).1) (ih hes)

theorem Chain.sublist {a b : Nat} {es fs : List Edit} (h : Chain a b es) (hs : fs.Sublist es) :
    Chain a b fs := by
  induction hs generalizing a with
  | slnil => exact h
  | cons e _ ih =>
    obtain ⟨ha, he, hes⟩ := chain_cons.mp h
    exact (ih hes).mono (by omega) (Nat.le_refl b)
  | cons_cons e _ ih =>
    obtain ⟨ha, he, hes⟩ := chain_cons.mp h
    exact chain_cons.mpr ⟨ha, he, ih hes⟩

/-- A chain lies in any stretch in which each of its edits lies. -/
theorem Chain.narrow {a b c d : Nat} {es : List Edit} (h : Chain a b es) (hcd : c ≤ d)
    (hes : ∀ e ∈ es, c ≤ e.start ∧ e.stop ≤ d) : Chain c d es := by
  induction es generalizing a c with
  | nil => exact chain_nil.mpr hcd
  | cons e es ih =>
    obtain ⟨-, he, hrest⟩ := chain_cons.mp h
    have hfirst := hes e List.mem_cons_self
    refine chain_cons.mpr ⟨hfirst.1, he, ih hrest hfirst.2 fun f hf => ?_⟩
    exact ⟨(hrest.bounds hf).1, (hes f (List.mem_cons_of_mem e hf)).2⟩

/-- What is shown of a stretch is put together from left to right. -/
theorem Chain.filter_isWithin {a b c d : Nat} {es : List Edit} (h : Chain a b es) (hcd : c ≤ d) :
    Chain c d (es.filter (Edit.isWithin c d)) := by
  refine (h.sublist List.filter_sublist).narrow hcd fun e he => ?_
  have hwithin := (List.mem_filter.mp he).2
  rwa [Edit.isWithin, Bool.and_eq_true, decide_eq_true_eq, decide_eq_true_eq] at hwithin

/-- What stands in front of the first edit is copied. -/
theorem apply_of_le {a m b : Nat} {es : List Edit} (source : Text) (ha : a ≤ m)
    (h : Chain m b es) : apply source b a es = Text.slice source a m ++ apply source b m es := by
  cases es with
  | nil =>
    have hm := chain_nil.mp h
    rw [apply, apply, Text.slice_append ha hm]
  | cons e es =>
    obtain ⟨hm, _, _⟩ := chain_cons.mp h
    rw [apply, apply, ← Text.slice_append ha hm]
    simp only [List.append_assoc]

/-- Two chains one behind the other are applied one after the other. -/
theorem apply_append {a m b : Nat} {es fs : List Edit} (source : Text) (h : Chain a m es)
    (h' : Chain m b fs) :
    apply source b a (es ++ fs) = apply source m a es ++ apply source b m fs := by
  induction es generalizing a with
  | nil => exact apply_of_le source (chain_nil.mp h) h'
  | cons e es ih =>
    obtain ⟨_, _, hes⟩ := chain_cons.mp h
    rw [List.cons_append, apply, apply, ih hes]
    simp only [List.append_assoc]

/-- A whole text with a chain of edits. -/
theorem render_all {b : Nat} {es : List Edit} (source : Text) (h : Chain 0 b es) :
    render source es 0 b = apply source b 0 es := by
  have hes : es.filter (isWithin 0 b) = es := List.filter_eq_self.mpr h.isWithin
  rw [render, hes]

/-- In front of a place only the edits that end there count. -/
theorem render_front {a b : Nat} {es fs : List Edit} (source : Text) (h : Chain 0 a es)
    (h' : Chain a b fs) : render source (es ++ fs) 0 a = apply source a 0 es := by
  have hes : es.filter (isWithin 0 a) = es := List.filter_eq_self.mpr h.isWithin
  have hfs : fs.filter (isWithin 0 a) = [] := by
    refine List.filter_eq_nil_iff.mpr fun e he => ?_
    obtain ⟨h₁, h₂, -⟩ := h'.bounds he
    have hstop : ¬ e.stop ≤ a := by omega
    simp [isWithin, hstop]
  rw [render, List.filter_append, hes, hfs, List.append_nil]

/-- A stretch between the edits is copied. -/
theorem render_around {a b c : Nat} {es fs : List Edit} (source : Text) (h : Chain 0 a es)
    (hab : a ≤ b) (h' : Chain b c fs) :
    render source (es ++ fs) 0 c = render source (es ++ fs) 0 a ++ Text.slice source a b ++
      render source (es ++ fs) b c := by
  have hrest := h'.mono hab (Nat.le_refl c)
  rw [render_all source (h.append hrest), render_front source h hrest,
    render_append source (h.mono (Nat.le_refl 0) hab) h', apply_append source h hrest,
    apply_of_le source hab h', List.append_assoc]

/-- The text of an edit stands between what its neighbours come to. -/
theorem render_at {c : Nat} {e : Edit} {es fs : List Edit} (source : Text)
    (h : Chain 0 e.start es) (he : e.start < e.stop) (h' : Chain e.stop c fs) :
    render source (es ++ e :: fs) 0 c = render source (es ++ e :: fs) 0 e.start ++ e.text ++
      render source (es ++ e :: fs) e.stop c := by
  have hrest : Chain e.start c (e :: fs) := chain_cons.mpr ⟨Nat.le_refl _, he, h'⟩
  have hfront : Chain 0 e.stop (es ++ [e]) :=
    h.append (chain_singleton.mpr ⟨Nat.le_refl _, he, Nat.le_refl _⟩)
  have hsplit : es ++ e :: fs = (es ++ [e]) ++ fs := by simp
  have hbehind : render source (es ++ e :: fs) e.stop c = apply source c e.stop fs := by
    rw [hsplit, render_append source hfront h']
  rw [render_all source (h.append hrest), render_front source h hrest, hbehind,
    apply_append source h hrest, apply, Text.slice_self, List.nil_append, List.append_assoc]

end Edit

end PointMutation
