import PointMutation.Proofs.Mutator.Passes
import PointMutation.Proofs.Nesting.Clear
import PointMutation.Proofs.Nesting.Reading
import PointMutation.Proofs.Rewriting.Moments

/-!
# The edits of a walk stay apart

Whatever a fold answers, the edits that its walk has made lie in the source, one behind the other.
An edit takes the place of the edits inside its stretch, and those made before the walk came to what
is edited end in front of the stretch, also where a line is cut out with the white space beside it
(`Grown.edit`) and where `pass` is put in the place of such a cut (`Grown.pass`). The invariant that
goes through the walk is that no cut of a line further on reaches back to an edit (`Apart`).
-/

namespace PointMutation

open Text (Reaches)

namespace Fold

open Outline (Within WithinAll withinAll_nil withinAll_cons Plain PlainAll Clear ClearAll)
open Edit (replaceAny)

variable {σ : Type} {t : Text} {a b m m₁ m' : Nat} {es es' es'' : List Edit} {x : Edit}
  {R R' : Edit → Prop}

/-! ## Edits in front of a place -/

/-- Edits one behind the other to which no cut of a line from `m` on reaches back. -/
structure Apart (t : Text) (m : Nat) (es : List Edit) : Prop where
  chain : Edit.Chain 0 t.length es
  reaches : ∀ e ∈ es, Reaches t m e.stop

theorem Apart.mono (h : Apart t m es) (hm : m ≤ m') : Apart t m' es :=
  ⟨h.chain, fun e he => (h.reaches e he).mono hm⟩

theorem apart_nil (t : Text) : Apart t 0 [] := ⟨Nat.zero_le _, by simp⟩

/-- Edits that became more, those of the second kind. -/
structure Grown (t : Text) (R : Edit → Prop) (es es' : List Edit) : Prop where
  chain : Edit.Chain 0 t.length es'
  kept : ∀ e ∈ es, e ∈ es'
  new : ∀ e ∈ es', e ∈ es ∨ R e

namespace Grown

theorem refl (h : Edit.Chain 0 t.length es) : Grown t R es es :=
  ⟨h, fun _ he => he, fun _ he => .inl he⟩

theorem mono (h : Grown t R es es') (hR : ∀ e, R e → R' e) : Grown t R' es es' :=
  ⟨h.chain, h.kept, fun e he => (h.new e he).imp_right (hR e)⟩

theorem trans (h : Grown t R es es') (h' : Grown t R es' es'') : Grown t R es es'' :=
  ⟨h'.chain, fun e he => h'.kept e (h.kept e he), fun e he =>
    (h'.new e he).elim (h.new e) .inr⟩

theorem apart (h : Grown t R es es') (hes : Apart t m es) (hm : m ≤ m')
    (hR : ∀ e, R e → Reaches t m' e.stop) : Apart t m' es' :=
  ⟨h.chain, fun e he => (h.new e he).elim (fun he => (hes.reaches e he).mono hm) (hR e)⟩

end Grown

/-- An edit between two places to which no cut of a line further on reaches back. -/
structure Inside (t : Text) (m m' : Nat) (e : Edit) : Prop where
  start : m ≤ e.start
  stop : e.stop ≤ m'
  reaches : Reaches t m' e.stop

theorem Inside.mono {n n' : Nat} (h : Inside t m m' x) (hm : n ≤ m) (hm' : m' ≤ n') :
    Inside t n n' x :=
  ⟨hm.trans h.start, h.stop.trans hm', h.reaches.mono hm'⟩

/-- An edit of a stretch or of the cut of it takes the place of the edits inside the stretch. -/
theorem Grown.edit (hes : Apart t m es) (hm : m ≤ a) (hclear : Text.Clear t a b)
    (h : Grown t (Inside t a b) es es')
    (hx : x.Spans a b ∨ x.Spans (Text.cutStart t a b) (Text.cutStop t a b)) :
    Grown t (fun e => Inside t a b e ∨ e = x) es (Edit.replace x es') := by
  have hcutStart := Text.cutStart_le t a b
  have hcutStop := Text.le_cutStop t a b
  have hlength := Text.cutStop_le (a := a) hclear.le
  have hlt := hclear.lt
  have hspan : Text.cutStart t a b ≤ x.start ∧ x.start ≤ a ∧ b ≤ x.stop ∧ x.stop ≤ t.length := by
    have hle := hclear.le
    rcases hx with ⟨hstart, hstop⟩ | ⟨hstart, hstop⟩ <;> omega
  -- What was there before ends in front of the edit, and what has come since lies inside it.
  have hbefore : ∀ f ∈ es, f.stop ≤ x.start := fun f hf => by
    have := hes.reaches f hf a b hclear hm
    omega
  constructor
  · refine h.chain.replace (Nat.zero_le _) (by omega) hspan.2.2.2 fun f hf => ?_
    rcases h.new f hf with hf | hf
    · exact .inl (hbefore f hf)
    · have hstart := hf.start
      have hstop := hf.stop
      have hwithin : x.start ≤ f.start ∧ f.stop ≤ x.stop := by omega
      exact .inr (.inr (by simpa [Edit.isWithin] using hwithin))
  · intro f hf
    have hfront := hbefore f hf
    have hne := (hes.chain.bounds hf).2.1
    have hnot : ¬ x.start ≤ f.start := by omega
    exact Edit.mem_replace.mpr (.inr ⟨h.kept f hf, by simp [Edit.isWithin, hnot]⟩)
  · intro f hf
    rcases Edit.mem_replace.mp hf with rfl | ⟨hf, -⟩
    · exact .inr (.inr rfl)
    · exact (h.new f hf).imp_right .inl

/-- What a walk gives for a line of which nothing is left: an edit in the place of its cut. -/
def Room (t : Text) (m m' : Nat) (es : List Edit) (pass : Edit) : Prop :=
  ∃ a b, Text.Clear t a b ∧ m ≤ a ∧ b ≤ m' ∧
    pass.Spans (Text.cutStart t a b) (Text.cutStop t a b) ∧ ∃ x ∈ es, x.Spans pass.start pass.stop

theorem Room.mono {n n' : Nat} {pass : Edit} (h : Room t m m' es pass) (hm : n ≤ m)
    (hm' : m' ≤ n') (hes : ∀ e ∈ es, e ∈ es') : Room t n n' es' pass := by
  obtain ⟨a, b, hclear, ha, hb, hpass, x, hx, hspans⟩ := h
  exact ⟨a, b, hclear, hm.trans ha, hb.trans hm', hpass, x, hes x hx, hspans⟩

/-- `pass` takes the place of the cut of a line. -/
theorem Grown.pass {pass : Edit} (hes : Apart t m es)
    (h : Grown t (fun e => Reaches t m' e.stop) es es') (hroom : Room t m m' es' pass) :
    Grown t (fun e => Reaches t m' e.stop) es (Edit.replace pass es') := by
  obtain ⟨a, b, hclear, ha, hb, hpass, x, hx, hspans⟩ := hroom
  have hbounds := h.chain.bounds hx
  have hstart := hspans.1
  have hstop := hspans.2
  constructor
  · refine h.chain.replace (Nat.zero_le _) (by omega) (by omega) fun f hf => ?_
    rcases h.chain.apart hx hf with rfl | hfront | hbehind
    · exact .inr (.inr (by simp [Edit.isWithin, hstart, hstop]))
    · exact .inl (by omega)
    · exact .inr (.inl (by omega))
  · intro f hf
    have hfront := hes.reaches f hf a b hclear ha
    have hne := (hes.chain.bounds hf).2.1
    have hspan := hpass.1
    have hnot : ¬ pass.start ≤ f.start := by omega
    exact Edit.mem_replace.mpr (.inr ⟨h.kept f hf, by simp [Edit.isWithin, hnot]⟩)
  · intro f hf
    rcases Edit.mem_replace.mp hf with rfl | ⟨hf, -⟩
    · refine .inr ?_
      rw [hpass.2]
      exact hclear.reaches_cutStop.mono hb
    · exact h.new f hf

/-! ## Walks -/

section

variable (f : Fold σ) (newline : Text)

/-- At each moment the edits lie one behind the other. -/
def AllApart (t : Text) (ms : List (List Edit)) : Prop := ∀ es ∈ ms, Edit.Chain 0 t.length es

theorem AllApart.append {ms ns : List (List Edit)} (h : AllApart t ms) (h' : AllApart t ns) :
    AllApart t (ms ++ ns) := by
  intro es hes
  exact (List.mem_append.mp hes).elim (h es) (h' es)

theorem AllApart.snoc {ms : List (List Edit)} (h : AllApart t ms)
    (hes : Edit.Chain 0 t.length es) : AllApart t (ms ++ [es]) :=
  h.append fun _ hmem => List.mem_singleton.mp hmem ▸ hes

mutual

/-- Through an outline of expressions the edits stay apart, and the new ones lie inside it. -/
theorem walk_plain {m m' : Nat} {o : Outline} (h : Plain t o) (hw : o.Within m m') {p : Progress σ}
    (hp : Apart t m p.edits) :
    AllApart t (moments f t newline o p) ∧
      Grown t (Inside t m m') p.edits (walk f t newline o p).2.edits := by
  cases o with
  | expression kind start stop inner =>
    obtain ⟨hclear, hinner⟩ := h
    obtain ⟨hstart, hwithin, hstop⟩ := hw
    obtain ⟨hmoments, hgrown⟩ := walkAll_plain hinner hwithin (hp.mono hstart)
    obtain ⟨e, hedits, hspans, -⟩ := walk_expression_edits f t newline kind start stop inner p
    have hall : Grown t (Inside t start stop) p.edits
        (walk f t newline (.expression kind start stop inner) p).2.edits := by
      rw [hedits]
      cases e with
      | none => exact hgrown
      | some x =>
        have hx := hspans x rfl
        refine (hgrown.edit hp hstart hclear (.inl hx)).mono ?_
        rintro y (hy | rfl)
        · exact hy
        · exact ⟨hx.1.ge, hx.2.le, hx.2 ▸ hclear.tidy.reaches⟩
    exact ⟨hmoments.snoc hall.chain, hall.mono fun y hy => hy.mono hstart hstop⟩
  | value site inner =>
    rw [Within] at hw
    rw [(walk_value_edits f t newline site inner p).1]
    exact walk_plain (o := inner) h hw hp
  | line => exact h.elim
  | compound => exact h.elim
  | block => exact h.elim
  | group => exact h.elim

theorem walkAll_plain {m m' : Nat} {os : List Outline} (h : PlainAll t os) (hw : WithinAll m m' os)
    {p : Progress σ} (hp : Apart t m p.edits) :
    AllApart t (momentsAll f t newline os p) ∧
      Grown t (Inside t m m') p.edits (walkAll f t newline os p).2.edits := by
  cases os with
  | nil => exact ⟨fun _ hmem => (by cases hmem), Grown.refl hp.chain⟩
  | cons o os =>
    obtain ⟨m₁, ho, hos⟩ := withinAll_cons.mp hw
    obtain ⟨hmoments, hgrown⟩ := walk_plain h.1 ho hp
    have hle := ho.le
    have hle' := hos.le
    have hfirst := hgrown.mono fun y hy => hy.mono (le_refl m) hle'
    rcases walkAll_cons_edits f t newline o os p with
      ⟨e, -, hmoments', hedits, -⟩ | ⟨hmoments', hedits, -⟩
    · rw [hmoments', hedits]
      obtain ⟨hrest, hgrown'⟩ := walkAll_plain h.2 hos
        (hgrown.apart hp hle fun y hy => hy.reaches)
      exact ⟨hmoments.append hrest, hfirst.trans (hgrown'.mono fun y hy => hy.mono hle (le_refl m'))⟩
    · rw [hmoments', hedits]
      exact ⟨hmoments, hfirst⟩

end

/-- The edit by which `pass` is put in a body is that of one of its lines. -/
theorem mem_of_allGone {rs : List (Option Edit)} (h : allGone rs = some x) : some x ∈ rs := by
  cases rs with
  | nil => cases h
  | cons r rs =>
    rw [allGone] at h
    split at h
    · exact h ▸ List.mem_cons_self
    · cases h

mutual

/-- Through any outline the edits stay apart, and no cut further on reaches back to the new ones. -/
theorem walk_apart {m m' : Nat} {o : Outline} (h : Clear t o) (hw : o.Within m m') {p : Progress σ}
    (hp : Apart t m p.edits) :
    AllApart t (moments f t newline o p) ∧
      Grown t (fun e => Reaches t m' e.stop) p.edits (walk f t newline o p).2.edits ∧
      ∀ pass, (walk f t newline o p).1 = .ok (some pass) →
        Room t m m' (walk f t newline o p).2.edits pass := by
  cases o with
  | expression kind start stop inner =>
    obtain ⟨hmoments, hgrown⟩ := walk_plain f newline (o := .expression kind start stop inner) h hw hp
    obtain ⟨e, -, -, hnone⟩ := walk_expression_edits f t newline kind start stop inner p
    exact ⟨hmoments, hgrown.mono fun y hy => hy.reaches, fun pass hpass => (hnone pass hpass).elim⟩
  | value site inner =>
    obtain ⟨hmoments, hgrown⟩ := walk_plain f newline (o := .value site inner) h hw hp
    exact ⟨hmoments, hgrown.mono fun y hy => hy.reaches,
      fun pass hpass => ((walk_value_edits f t newline site inner p).2 pass hpass).elim⟩
  | line kinds docstring start stop inner =>
    obtain ⟨hclear, hinner⟩ := h
    obtain ⟨hstart, hwithin, hstop⟩ := hw
    obtain ⟨hmoments, hgrown⟩ := walkAll_plain f newline hinner hwithin
      (p := enteredLine f t kinds docstring start stop p) (hp.mono hstart)
    obtain ⟨e, hedits, hspans, hpass⟩ := walk_line_edits f t newline kinds docstring start stop inner p
    have hinside : ∀ y, Inside t start stop y → Reaches t m' y.stop :=
      fun y hy => hy.reaches.mono hstop
    have hall : Grown t (fun e => Reaches t m' e.stop) p.edits
        (walk f t newline (.line kinds docstring start stop inner) p).2.edits := by
      rw [hedits]
      cases e with
      | none => exact hgrown.mono hinside
      | some x =>
        have hx := hspans x rfl
        refine (hgrown.edit hp hstart hclear hx).mono ?_
        rintro y (hy | rfl)
        · exact hinside y hy
        · rcases hx with hx | hx
          · rw [hx.2]
            exact hclear.tidy.reaches.mono hstop
          · rw [hx.2]
            exact hclear.reaches_cutStop.mono hstop
    refine ⟨hmoments.snoc hall.chain, hall, fun pass hok => ?_⟩
    obtain ⟨hcut, x, hx, hspan⟩ := hpass pass hok
    refine ⟨start, stop, hclear, hstart, hstop, hcut, x, ?_, hspan⟩
    rw [hedits, Option.mem_def.mp hx]
    exact Edit.mem_replace.mpr (.inl rfl)
  | compound kind inner =>
    rw [Within] at hw
    obtain ⟨hmoments, hgrown, -⟩ := walkAll_apart (show ClearAll t inner from h) hw
      (p := (tell (f.enterCompound kind) p).2) hp
    obtain ⟨hedits, hnone⟩ := walk_compound_edits f t newline kind inner p
    exact ⟨hmoments, hedits ▸ hgrown, fun pass hpass => (hnone pass hpass).elim⟩
  | block items =>
    rw [Within] at hw
    obtain ⟨hmoments, hgrown, hroom⟩ := walkAll_apart (show ClearAll t items from h) hw hp
    obtain ⟨e, hedits, hgone, hnone⟩ := walk_block_edits f t newline items p
    have hall : Grown t (fun e => Reaches t m' e.stop) p.edits
        (walk f t newline (.block items) p).2.edits := by
      rw [hedits]
      cases e with
      | none => exact hgrown
      | some pass =>
        obtain ⟨rs, hrs, hpass⟩ := hgone pass rfl
        exact hgrown.pass hp (hroom rs hrs pass (mem_of_allGone hpass))
    exact ⟨hmoments.snoc hall.chain, hall, fun pass hpass => (hnone pass hpass).elim⟩
  | group inner =>
    rw [Within] at hw
    obtain ⟨hmoments, hgrown, -⟩ := walkAll_apart (show ClearAll t inner from h) hw hp
    obtain ⟨hedits, hnone⟩ := walk_group_edits f t newline inner p
    exact ⟨hmoments, hedits ▸ hgrown, fun pass hpass => (hnone pass hpass).elim⟩

theorem walkAll_apart {m m' : Nat} {os : List Outline} (h : ClearAll t os) (hw : WithinAll m m' os)
    {p : Progress σ} (hp : Apart t m p.edits) :
    AllApart t (momentsAll f t newline os p) ∧
      Grown t (fun e => Reaches t m' e.stop) p.edits (walkAll f t newline os p).2.edits ∧
      ∀ rs, (walkAll f t newline os p).1 = .ok rs → ∀ pass, some pass ∈ rs →
        Room t m m' (walkAll f t newline os p).2.edits pass := by
  cases os with
  | nil =>
    refine ⟨fun _ hmem => (by cases hmem), Grown.refl hp.chain, ?_⟩
    rintro rs ⟨⟩ pass hmem
    cases hmem
  | cons o os =>
    obtain ⟨m₁, ho, hos⟩ := withinAll_cons.mp hw
    obtain ⟨hmoments, hgrown, hroom⟩ := walk_apart h.1 ho hp
    have hle := ho.le
    have hle' := hos.le
    have hfirst := hgrown.mono fun y hy => hy.mono hle'
    rcases walkAll_cons_edits f t newline o os p with
      ⟨e, he, hmoments', hedits, hresults⟩ | ⟨hmoments', hedits, hfails⟩
    · obtain ⟨hrest, hgrown', hroom'⟩ := walkAll_apart h.2 hos
        (hgrown.apart hp hle fun y hy => hy)
      rw [hmoments', hedits]
      refine ⟨hmoments.append hrest, hfirst.trans hgrown', fun rs hrs pass hmem => ?_⟩
      obtain ⟨rs', hrs', rfl⟩ := hresults rs hrs
      rcases List.mem_cons.mp hmem with rfl | hmem
      · exact (hroom pass he).mono (le_refl m) hle' hgrown'.kept
      · exact (hroom' rs' hrs' pass hmem).mono hle (le_refl m') fun _ hx => hx
    · rw [hmoments', hedits]
      exact ⟨hmoments, hfirst, fun rs hrs => (hfails rs hrs).elim⟩

end

end

/-! ## Walks through sources -/

/-- The fold that takes out all lines and puts all whole numbers in parentheses. -/
def emptying : Fold Unit where
  leaveExpression e := pure (if e.kind = .integer then some ('(' :: e.text ++ [')']) else none)
  leaveLine _ := pure .remove

end Fold

end PointMutation
