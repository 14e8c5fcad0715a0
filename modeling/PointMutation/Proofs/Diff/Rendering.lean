import PointMutation.Diff.Render
import PointMutation.Proofs.Diff.Scripts

/-!
# Renderings of differences

A rendering shows all lines of both texts and nothing else: the lines of the first text are those
behind a space or a minus, and the lines of the second one those behind a space or a plus, each in
their order (`Diff.lines_faithful`). A line is shown with its own line end, and one is added only to
a line without any.

Colours are sequences that begin with an escape character. Where no such character is in the texts,
what is left without the sequences is the rendering without colours (`Diff.unstyled_render`).
-/

namespace PointMutation.Diff

/-! ## Lines -/

/-- The ends that a line can have. -/
def lineEnds : List Text := [['\n'], ['\r'], ['\r', '\n']]

/-- Whether a line has an end. -/
def hasEnd (l : Text) : Bool := lineEnds.any fun ending => ending.isSuffixOf l

/-- Characters that do not end a line, with a line end behind them or none. -/
structure IsLine (l : Text) : Prop where
  ne_nil : l ≠ []
  parts : ∃ body ending, l = body ++ ending ∧ '\n' ∉ body ∧ '\r' ∉ body ∧
    (ending = [] ∨ ending ∈ lineEnds)

/-- The lines of a text, of which only the last one may have no end. -/
structure AreLines (t : Text) (ls : List Text) : Prop where
  flatten : ls.flatten = t
  lines : ∀ l ∈ ls, IsLine l
  ended : ∀ l ∈ ls.dropLast, hasEnd l = true

namespace AreLines

variable {c : Char} {t l : Text} {ls : List Text}

theorem nil : AreLines [] [] := ⟨rfl, by simp, by simp⟩

theorem isLine_lineEnd {e : Text} (he : e ∈ lineEnds) : IsLine e := by
  refine ⟨?_, [], e, rfl, by simp, by simp, .inr he⟩
  rintro rfl
  simp [lineEnds] at he

/-- A line end in front of other lines. -/
theorem lineEnd (h : AreLines t ls) {e : Text} (he : e ∈ lineEnds) :
    AreLines (e ++ t) (e :: ls) where
  flatten := by rw [List.flatten_cons, h.flatten]
  lines := List.forall_mem_cons.mpr ⟨isLine_lineEnd he, h.lines⟩
  ended := by
    cases ls with
    | nil => simp
    | cons l ls =>
      refine List.forall_mem_cons.mpr ⟨List.any_eq_true.mpr ⟨e, he, ?_⟩, h.ended⟩
      simp

/-- Another character in front of the first line. -/
theorem cons (h : AreLines t (l :: ls)) (hfeed : c ≠ '\n') (hreturn : c ≠ '\r') :
    AreLines (c :: t) ((c :: l) :: ls) where
  flatten := congrArg (c :: ·) h.flatten
  lines := by
    obtain ⟨hl, hls⟩ := List.forall_mem_cons.mp h.lines
    obtain ⟨-, body, ending, rfl, hbody, hbody', hending⟩ := hl
    refine List.forall_mem_cons.mpr ⟨⟨List.cons_ne_nil _ _, c :: body, ending, rfl, ?_, ?_,
      hending⟩, hls⟩
    · simpa [hfeed.symm] using hbody
    · simpa [hreturn.symm] using hbody'
  ended := by
    cases ls with
    | nil => simp
    | cons l' ls =>
      obtain ⟨hl, hls⟩ := List.forall_mem_cons.mp h.ended
      obtain ⟨e, he, hsuffix⟩ := List.any_eq_true.mp hl
      refine List.forall_mem_cons.mpr ⟨List.any_eq_true.mpr ⟨e, he, ?_⟩, hls⟩
      rw [List.isSuffixOf_iff_suffix] at hsuffix ⊢
      exact hsuffix.trans (List.suffix_cons c l)

/-- A character that is all of the text. -/
theorem single (hfeed : c ≠ '\n') (hreturn : c ≠ '\r') : AreLines [c] [[c]] where
  flatten := rfl
  lines := List.forall_mem_singleton.mpr
    ⟨List.cons_ne_nil _ _, [c], [], rfl, by simpa using hfeed.symm, by simpa using hreturn.symm,
      .inl rfl⟩
  ended := by simp

end AreLines

theorem splitLines_eq_nil {t : Text} (h : splitLines t = []) : t = [] := by
  unfold splitLines at h
  split at h
  · rfl
  · cases h
  · cases h
  · cases h
  · split at h <;> cases h

theorem areLines_splitLines (t : Text) : AreLines t (splitLines t) := by
  fun_induction splitLines t with
  | case1 => exact .nil
  | case2 r ih => exact ih.lineEnd (e := ['\r', '\n']) (by decide)
  | case3 r _ ih => exact ih.lineEnd (e := ['\r']) (by decide)
  | case4 r ih => exact ih.lineEnd (e := ['\n']) (by decide)
  | case5 c r _ hreturn hfeed l ls hlines ih =>
    rw [hlines] at ih
    exact ih.cons (fun h => hfeed h) fun h => hreturn h
  | case6 c r _ hreturn hfeed hlines ih =>
    rw [splitLines_eq_nil hlines]
    exact .single (fun h => hfeed h) fun h => hreturn h

/-! ## Tags -/

/-- The lines that are not only in one of the texts. -/
def without (tag : Tag) (ls : List (Tag × Text)) : List Text :=
  (ls.filter fun x => x.1 != tag).map (·.2)

theorem without_append (tag : Tag) (ls ls' : List (Tag × Text)) :
    without tag (ls ++ ls') = without tag ls ++ without tag ls' := by
  simp [without]

/-- Lines that all have the same tag. -/
theorem without_map (tag tag' : Tag) (ls : List Text) :
    without tag (ls.map (tag', ·)) = if tag' = tag then [] else ls := by
  rw [without, List.filter_map]
  split
  · next h => simp [Function.comp_def, h]
  · next h => simp [Function.comp_def, h]

theorem without_tagged (old new : List Text) (s : Script Text) :
    without .new (tagged old new s) = old ++ s.source ∧
      without .old (tagged old new s) = new ++ s.target := by
  induction s generalizing old new with
  | nil => simp [tagged, without_append, without_map]
  | cons c s ih =>
    cases c with
    | keep xs =>
      obtain ⟨hold, hnew⟩ := ih [] []
      simp [tagged, without_append, without_map, hold, hnew]
    | delete xs =>
      obtain ⟨hold, hnew⟩ := ih (old ++ xs) new
      simp [tagged, hold, hnew]
    | insert xs =>
      obtain ⟨hold, hnew⟩ := ih old (new ++ xs)
      simp [tagged, hold, hnew]

/-- The lines of a difference are those of the two texts. -/
theorem lines_faithful (old new : Text) :
    without .new (lines old new) = splitLines old ∧
      without .old (lines old new) = splitLines new := by
  have hleads := (settled_same _).leads (shortest_leads (splitLines old) (splitLines new))
  obtain ⟨hold, hnew⟩ := without_tagged [] [] (settled (shortest (splitLines old) (splitLines new)))
  rw [List.nil_append, hleads.source] at hold
  rw [List.nil_append, hleads.target] at hnew
  exact ⟨hold, hnew⟩

/-- Between a text and itself no line is old or new. -/
theorem lines_self (t : Text) : lines t t = (splitLines t).map (Tag.both, ·) := by
  rw [lines, settled_shortest_self, kept]
  split
  · next h => rw [List.isEmpty_iff.mp h]; rfl
  · simp [tagged]

/-! ## Renderings -/

def Tag.mark : Tag → Char
  | both => ' '
  | old => '-'
  | new => '+'

theorem hasEnd_iff (l : Text) :
    hasEnd l = true ↔ l.getLast? = some '\n' ∨ l.getLast? = some '\r' := by
  simp only [hasEnd, lineEnds, List.any_cons, List.any_nil, Bool.or_eq_true, Bool.or_false,
    List.isSuffixOf_iff_suffix, List.getLast?_eq_some_iff]
  constructor
  · rintro (⟨b, rfl⟩ | ⟨b, rfl⟩ | ⟨b, rfl⟩)
    · exact .inl ⟨b, rfl⟩
    · exact .inr ⟨b, rfl⟩
    · exact .inl ⟨b ++ ['\r'], by simp⟩
  · rintro (⟨b, rfl⟩ | ⟨b, rfl⟩)
    · exact .inl ⟨b, rfl⟩
    · exact .inr (.inl ⟨b, rfl⟩)

/-- A line end is added to a line without any. -/
theorem ended_eq (l : Text) : ended l = l ++ if hasEnd l then [] else ['\n'] := by
  have hends : (Text.endsIn l '\n' || Text.endsIn l '\r') = hasEnd l := by
    rw [Bool.eq_iff_iff, hasEnd_iff, Bool.or_eq_true, Text.endsIn, Text.endsIn, beq_iff_eq,
      beq_iff_eq]
  rw [ended, hends]
  split
  · exact (List.append_nil l).symm
  · rfl

/-- A line as it is shown without colours. -/
def shownLine (x : Tag × Text) : Text := x.1.mark :: x.2 ++ if hasEnd x.2 then [] else ['\n']

theorem renderLine_plain (x : Tag × Text) : renderLine false x = shownLine x := by
  obtain ⟨tag, l⟩ := x
  rw [shownLine, List.cons_append, ← ended_eq]
  cases tag <;> rfl

theorem render_plain (name old new : Text) :
    render false name old new =
      "--- ".toList ++ name ++ '\n' :: (lines old new).flatMap shownLine := by
  rw [render, funext renderLine_plain]
  rfl

/-! ## Escape sequences -/

/-- Where a reader of a text is: in the text, behind an escape character, or in a sequence. -/
inductive Place
  | text | escape | sequence

/-- A text without its escape sequences: an escape character, a bracket, and all up to a character
from `@` to `~`. -/
def unstyledFrom : Place → Text → Text
  | .text, [] => []
  | .text, c :: r => if c = '\x1b' then unstyledFrom .escape r else c :: unstyledFrom .text r
  | .escape, [] => ['\x1b']
  | .escape, c :: r =>
    if c = '[' then unstyledFrom .sequence r else '\x1b' :: c :: unstyledFrom .text r
  | .sequence, [] => []
  | .sequence, c :: r =>
    if '@' ≤ c ∧ c ≤ '~' then unstyledFrom .text r else unstyledFrom .sequence r

def unstyled (t : Text) : Text := unstyledFrom .text t

theorem unstyled_append {t : Text} (h : '\x1b' ∉ t) (r : Text) :
    unstyled (t ++ r) = t ++ unstyled r := by
  induction t with
  | nil => rfl
  | cons c t ih =>
    rw [List.mem_cons, not_or] at h
    obtain ⟨hc, ht⟩ := h
    have hplain : unstyled (c :: (t ++ r)) = c :: unstyled (t ++ r) := if_neg (Ne.symm hc)
    rw [List.cons_append, hplain, ih ht, List.cons_append]

theorem unstyled_code (s : Style) (r : Text) : unstyled (s.code ++ r) = unstyled r := by
  cases s <;> rfl

theorem unstyled_plainCode (r : Text) : unstyled (plainCode ++ r) = unstyled r := rfl

/-- Nothing is turned on again where nothing is turned off. -/
theorem restyled_eq (style : Text) {t : Text} (h : '\x1b' ∉ t) : restyled style t = t := by
  fun_induction restyled style t with
  | case1 r ih => simp at h
  | case2 c r _ ih =>
    rw [List.mem_cons, not_or] at h
    rw [ih h.2]
  | case3 => rfl

theorem unstyled_paint (s : Style) {t : Text} (h : '\x1b' ∉ t) (r : Text) :
    unstyled (s.paint true t ++ r) = s.paint false t ++ unstyled r := by
  rw [Style.paint, if_pos rfl, restyled_eq s.code h, List.append_assoc, List.append_assoc,
    unstyled_code, unstyled_append h, unstyled_plainCode]
  rfl

theorem unstyled_renderLine {x : Tag × Text} (h : '\x1b' ∉ x.2) (r : Text) :
    unstyled (renderLine true x ++ r) = renderLine false x ++ unstyled r := by
  obtain ⟨tag, l⟩ := x
  have hended : '\x1b' ∉ ended l := by
    rw [ended_eq, List.mem_append, not_or]
    refine ⟨h, ?_⟩
    split <;> simp
  have hmarked : ∀ c, c ≠ '\x1b' → '\x1b' ∉ c :: ended l := fun c hc => by
    simp [hended, hc.symm]
  cases tag with
  | both => exact unstyled_append (hmarked ' ' (by decide)) r
  | old => exact unstyled_paint .red (hmarked '-' (by decide)) r
  | new => exact unstyled_paint .green (hmarked '+' (by decide)) r

/-- A line of a difference is a line of one of the texts. -/
theorem mem_of_mem_lines {old new : Text} {x : Tag × Text} (h : x ∈ lines old new) {c : Char}
    (hc : c ∈ x.2) : c ∈ old ∨ c ∈ new := by
  obtain ⟨hold, hnew⟩ := lines_faithful old new
  have hmem : ∀ tag : Tag, x.1 ≠ tag → x.2 ∈ without tag (lines old new) := fun tag hne =>
    List.mem_map.mpr ⟨x, List.mem_filter.mpr ⟨h, bne_iff_ne.mpr hne⟩, rfl⟩
  by_cases hx : x.1 = .new
  · have hline := hmem .old (by rw [hx]; decide)
    rw [hnew] at hline
    rw [← (areLines_splitLines new).flatten]
    exact .inr (List.mem_flatten_of_mem hline hc)
  · have hline := hmem .new hx
    rw [hold] at hline
    rw [← (areLines_splitLines old).flatten]
    exact .inl (List.mem_flatten_of_mem hline hc)

/-- Without its escape sequences a coloured rendering is the one without colours. -/
theorem unstyled_render {name old new : Text} (hname : '\x1b' ∉ name) (hold : '\x1b' ∉ old)
    (hnew : '\x1b' ∉ new) : unstyled (render true name old new) = render false name old new := by
  have hlines : ∀ ls : List (Tag × Text), (∀ x ∈ ls, '\x1b' ∉ x.2) →
      unstyled (ls.flatMap (renderLine true)) = ls.flatMap (renderLine false) := by
    intro ls hls
    induction ls with
    | nil => rfl
    | cons x ls ih =>
      obtain ⟨hx, hls⟩ := List.forall_mem_cons.mp hls
      rw [List.flatMap_cons, unstyled_renderLine hx, ih hls, List.flatMap_cons]
  have hheader : '\x1b' ∉ "--- ".toList ++ name := by
    rw [List.mem_append, not_or]
    exact ⟨by decide, hname⟩
  have hbreak : ∀ r, unstyled ('\n' :: r) = '\n' :: unstyled r := fun r => rfl
  rw [render, unstyled_paint .bold hheader, hbreak, hlines _ fun x hx hmem => ?_]
  · rfl
  · exact (mem_of_mem_lines hx hmem).elim hold hnew

/-! ## Faithfulness -/

/-- Without colours, a difference is a header and the lines of the two texts, each behind its mark
and with its own line end, to which one is added only if there is none. The lines behind a space or
a minus are those of the first text, and those behind a space or a plus are those of the second
one. Between equal texts all lines are behind a space. If there are no escape characters, the
coloured difference is the same apart from escape sequences. -/
theorem render_faithful (name old new : Text) :
    (∃ ls : List (Tag × Text),
      render false name old new = "--- ".toList ++ name ++ '\n' :: ls.flatMap shownLine ∧
      AreLines old (without .new ls) ∧ AreLines new (without .old ls) ∧
      (old = new → ∀ x ∈ ls, x.1 = .both)) ∧
    ('\x1b' ∉ name → '\x1b' ∉ old → '\x1b' ∉ new →
      unstyled (render true name old new) = render false name old new) := by
  obtain ⟨hold, hnew⟩ := lines_faithful old new
  refine ⟨⟨lines old new, render_plain name old new, hold ▸ areLines_splitLines old,
    hnew ▸ areLines_splitLines new, ?_⟩, fun hname hold hnew => unstyled_render hname hold hnew⟩
  rintro rfl x hx
  rw [lines_self] at hx
  obtain ⟨l, -, rfl⟩ := List.mem_map.mp hx
  rfl

/-- The first line has another end, the last one has none, and nothing else has changed. -/
theorem render_faithful_of_return :
    let old := "a\r\nb\nc".toList
    let new := "a\nb\nc\n".toList
    render false "m.py".toList old new = "--- m.py\n-a\r\n+a\n b\n-c\n+c\n".toList ∧
      unstyled (render true "m.py".toList old new) = render false "m.py".toList old new :=
  ⟨by decide +kernel, (render_faithful _ _ _).2 (by decide) (by decide) (by decide)⟩

end PointMutation.Diff
