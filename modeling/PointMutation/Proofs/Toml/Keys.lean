import PointMutation.Proofs.Toml.Scalars

/-!
# Strings and keys that are read back

Between quotation marks any text can stand, with escapes for what cannot stand there as it is
(`readBasic_escapeAll`). A key is written bare, between quotation marks or between apostrophes, and
each form is read back as the key (`readPart_writeKey`), as is a path of keys (`readKey_writePath`).
-/

namespace PointMutation.Toml

/-! ## Escapes -/

/-- The digits of a character of seven bits spell the character. -/
theorem codePoint?_fourDigits {c : Char} (h : c.toNat < 128) :
    codePoint? (fourDigits c.toNat) = some c := by
  have hall : ∀ n < 128, codePoint? (fourDigits n) = some (Char.ofNat n) := by decide +kernel
  rw [hall c.toNat h, Char.ofNat_toNat]

theorem lt_of_isControl {c : Char} (h : isControl c = true) : c.toNat < 128 := by
  simp only [isControl, Bool.or_eq_true, Bool.and_eq_true, decide_eq_true_eq, beq_iff_eq] at h
  omega

theorem isPlain_of_not_isControl {c : Char} (h : isControl c = false) : isPlain c = true := by
  simp only [isControl, Bool.or_eq_false_iff, Bool.and_eq_false_iff, decide_eq_false_iff_not,
    bne_eq_false_iff_eq, beq_eq_false_iff_ne, not_lt] at h
  simp only [isPlain, Bool.or_eq_true, Bool.and_eq_true, decide_eq_true_eq, beq_iff_eq, bne_iff_ne]
  exact h.1.elim (fun hlow => .inr ⟨hlow, h.2⟩) .inl

theorem readBasic_escaped {c : Char} (hc : c ≠ '"') (r : Text) :
    readBasic (escaped false c ++ r) = before c (readBasic r) := by
  unfold escaped
  split
  case h_7 _ _ _ hbackslash =>
    split
    · next h =>
      have hcode := codePoint?_fourDigits (lt_of_isControl h)
      rw [fourDigits] at hcode ⊢
      simp only [List.map_cons, List.map_nil, List.cons_append, List.nil_append] at hcode ⊢
      rw [readBasic, hcode]
    · next h =>
      rw [List.singleton_append, readBasic, if_pos (isPlain_of_not_isControl (by simpa using h))]
      all_goals simp_all
  all_goals rfl

/-- What stands between quotation marks is read back. -/
theorem readBasic_escapeAll (t r : Text) :
    readBasic (escapeAll false 0 0 t ++ '"' :: r) = some (t, r) := by
  induction t with
  | nil => rw [escapeAll, List.nil_append, readBasic]
  | cons c t ih =>
    rw [escapeAll]
    by_cases hc : c = '"'
    · subst hc
      rw [if_pos rfl, if_neg (Nat.not_lt_zero 0), List.cons_append, List.cons_append]
      rw [show readBasic ('\\' :: '"' :: (escapeAll false 0 0 t ++ '"' :: r)) =
        before '"' (readBasic (escapeAll false 0 0 t ++ '"' :: r)) from rfl, ih, before]
    · rw [if_neg hc, List.append_assoc, readBasic_escaped hc, ih, before]

theorem readLiteral_append {t : Text} (hplain : ∀ c ∈ t, isPlain c = true) (hquote : '\'' ∉ t)
    (r : Text) : readLiteral (t ++ '\'' :: r) = some (t, r) := by
  induction t with
  | nil => rw [List.nil_append, readLiteral]
  | cons c t ih =>
    have hc : c ≠ '\'' := fun h => hquote (h ▸ List.mem_cons_self)
    rw [List.cons_append, readLiteral, if_pos (hplain c List.mem_cons_self),
      ih (fun d hd => hplain d (List.mem_cons_of_mem _ hd))
        (fun h => hquote (List.mem_cons_of_mem _ h)), before]
    exact fun h => hc h

/-! ## Strings -/

theorem not_mem_of_longestRun {c : Char} {run : Nat} {t : Text} (h : longestRun c run t = 0) :
    c ∉ t := by
  induction t generalizing run with
  | nil => exact List.not_mem_nil
  | cons d t ih =>
    rw [longestRun] at h
    split at h
    · have hle : ∀ (u : Text) (n : Nat), n ≤ longestRun c n u := by
        intro u
        induction u with
        | nil => exact fun n => le_rfl
        | cons e u ihu =>
          intro n
          rw [longestRun]
          split
          · exact (Nat.le_succ n).trans (ihu (n + 1))
          · exact le_max_left n _
      have := hle t (run + 1)
      omega
    · next hd =>
      rw [Nat.max_eq_zero_iff] at h
      exact List.not_mem_cons_of_ne_of_not_mem (Ne.symm hd) (ih h.2)

theorem longestRun_of_not_mem {c : Char} {t : Text} (h : c ∉ t) : longestRun c 0 t = 0 := by
  induction t with
  | nil => rfl
  | cons d t ih =>
    rw [List.mem_cons, not_or] at h
    rw [longestRun, if_neg (Ne.symm h.1), ih h.2, Nat.max_self]

/-- A character that may stand in a key without quotes needs no escape and is no quote. -/
theorem ne_of_isBare {c d : Char} (hc : isBare c = true) (hd : isBare d = false) : c ≠ d :=
  fun h => Bool.false_ne_true (hd.symm.trans (h ▸ hc))

theorem not_isControl_of_isBare {c : Char} (h : isBare c = true) : isControl c = false := by
  by_contra hcontrol
  have hall : ∀ n < 128, isControl (Char.ofNat n) = true → isBare (Char.ofNat n) = false := by
    decide +kernel
  have hbare := hall c.toNat (lt_of_isControl (by simpa using hcontrol))
  rw [Char.ofNat_toNat] at hbare
  exact Bool.false_ne_true ((hbare (by simpa using hcontrol)).symm.trans h)

/-- A word is written between quotation marks. -/
theorem quote_eq_basic {t : Text} (h : ∀ c ∈ t, isBare c = true) : quote t = basic t := by
  have hno : ∀ d, isBare d = false → d ∉ t := fun d hd hmem => ne_of_isBare (h d hmem) hd rfl
  have hcontrol : (t.any fun c => isControl c && c != '\n') = false := by
    rw [List.any_eq_false]
    exact fun c hc => by simp [not_isControl_of_isBare (h c hc)]
  have hbackslash : t.contains '\\' = false := by simpa using hno '\\' (by decide)
  have hending : t.contains '\n' = false := by simpa using hno '\n' (by decide)
  rw [quote]
  simp only [Traits.ofText, hcontrol, hbackslash, hending,
    longestRun_of_not_mem (hno '"' (by decide))]
  rfl

theorem basic_append (t r : Text) : basic t ++ r = '"' :: (escapeAll false 0 0 t ++ '"' :: r) := by
  simp [basic]

/-- A string between quotation marks is read back, unless a third mark stands behind two. -/
theorem readString_basic (t : Text) {r : Text} (hr : ∀ s, r ≠ '"' :: s) :
    readString (basic t ++ r) = some (t, r) := by
  have hmark : ∀ s, escapeAll false 0 0 t ++ '"' :: r ≠ '"' :: '"' :: s := by
    intro s h
    cases t with
    | nil => exact hr s (List.cons.inj h).2
    | cons c t =>
      have := readBasic_escapeAll (c :: t) r
      rw [h, readBasic] at this
      cases this
  rw [basic_append, readString, readBasic_escapeAll]
  exact fun s h => hmark s h

/-! ## Keys -/

/-- Whether a key may begin with a character as it is written. -/
def opensKey (c : Char) : Bool := isBare c || c == '"' || c == '\''

theorem ne_of_opensKey {c d : Char} (hc : opensKey c = true) (hd : opensKey d = false) : c ≠ d :=
  fun h => Bool.false_ne_true (hd.symm.trans (h ▸ hc))

theorem writeKey_head (k : Key) : ∃ c s, writeKey k = c :: s ∧ opensKey c = true := by
  rw [writeKey]
  split
  · next h =>
    cases k with
    | nil => simp at h
    | cons c s =>
      rw [Bool.and_eq_true, List.all_cons, Bool.and_eq_true] at h
      exact ⟨c, s, rfl, by rw [opensKey, h.2.1]; rfl⟩
  · split
    · exact ⟨'"', _, rfl, rfl⟩
    · split
      · exact ⟨'\'', _, rfl, rfl⟩
      · exact ⟨'"', _, rfl, rfl⟩

theorem readPart_basic (k : Key) (r : Text) : readPart (basic k ++ r) = some (k, r) := by
  rw [basic_append, readPart, readBasic_escapeAll]

theorem readPart_bare {k r : Text} (hne : k ≠ []) (hbare : ∀ c ∈ k, isBare c = true)
    (hr : ∀ c s, r = c :: s → isBare c = false) : readPart (k ++ r) = some (k, r) := by
  have htake := takeWhile_append_stop hbare hr
  have hdrop := dropWhile_append_stop hbare hr
  obtain ⟨c, s, rfl⟩ := List.exists_cons_of_ne_nil hne
  have hc := hbare c List.mem_cons_self
  rw [List.cons_append] at htake hdrop ⊢
  unfold readPart
  split
  · next h => exact absurd (List.cons.inj h).1 (ne_of_isBare hc (by decide))
  · next h => exact absurd (List.cons.inj h).1 (ne_of_isBare hc (by decide))
  · rw [htake, hdrop, if_neg (by simp)]

/-- A key without apostrophes, line ends and control characters is read between apostrophes. -/
theorem readPart_literal {k : Key} (hcontrol : (Traits.ofText k).control = false)
    (hquote : (Traits.ofText k).apostrophes = 0) (hending : (Traits.ofText k).ending = false)
    (r : Text) : readPart (literal k ++ r) = some (k, r) := by
  rw [Traits.ofText, List.any_eq_false] at hcontrol
  have hplain : ∀ c ∈ k, isPlain c = true := fun c hc => by
    refine isPlain_of_not_isControl ?_
    have hbreak : c ≠ '\n' := fun h => by simp [Traits.ofText, h ▸ hc] at hending
    simpa [hbreak] using hcontrol c hc
  rw [show literal k ++ r = '\'' :: (k ++ '\'' :: r) by simp [literal], readPart,
    readLiteral_append hplain (not_mem_of_longestRun hquote)]

/-- A key is read back in front of what is no part of it. -/
theorem readPart_writeKey (k : Key) {r : Text} (hr : ∀ c s, r = c :: s → isBare c = false) :
    readPart (writeKey k ++ r) = some (k, r) := by
  rw [writeKey]
  split
  · next h =>
    rw [Bool.and_eq_true, Bool.not_eq_true', List.isEmpty_eq_false_iff, List.all_eq_true] at h
    exact readPart_bare h.1 h.2 hr
  · split
    · exact readPart_basic k r
    · split
      · next h =>
        rw [Bool.and_eq_true, Bool.and_eq_true, decide_eq_true_eq, Bool.not_eq_true',
          Bool.not_eq_true'] at h
        exact readPart_literal h.1.1 h.1.2 h.2 r
      · exact readPart_basic k r

theorem skipBlanks_cons {c : Char} (h : isBlank c = false) (r : Text) :
    skipBlanks (c :: r) = c :: r := List.dropWhile_cons_of_neg (by simp [h])

theorem skipBlanks_writeKey (k : Key) (r : Text) :
    skipBlanks (writeKey k ++ r) = writeKey k ++ r := by
  obtain ⟨c, s, hkey, hc⟩ := writeKey_head k
  have hspace := ne_of_opensKey hc (d := ' ') (by decide)
  have htab := ne_of_opensKey hc (d := '\t') (by decide)
  rw [hkey, List.cons_append, skipBlanks_cons (by simp [isBlank, hspace, htab])]

/-! ## Paths -/

theorem writePath_cons_cons (k k' : Key) (path : List Key) :
    writePath (k :: k' :: path) = writeKey k ++ '.' :: writePath (k' :: path) := by
  simp [writePath, List.intercalate]

theorem writePath_singleton (k : Key) : writePath [k] = writeKey k := by
  simp [writePath, List.intercalate]

theorem writePath_head {path : List Key} (h : path ≠ []) :
    ∃ c s, writePath path = c :: s ∧ opensKey c = true := by
  cases path with
  | nil => exact absurd rfl h
  | cons k path =>
    obtain ⟨c, s, hkey, hc⟩ := writeKey_head k
    cases path with
    | nil => exact ⟨c, s, (writePath_singleton k).trans hkey, hc⟩
    | cons k' path => exact ⟨c, _, by rw [writePath_cons_cons, hkey]; rfl, hc⟩

/-- A path is read back in front of what is no part of it. -/
theorem readKey_writePath {path : List Key} (hne : path ≠ []) (fuel : Nat)
    (hfuel : path.length ≤ fuel) {r : Text} (hbare : ∀ c s, r = c :: s → isBare c = false)
    (hpoint : ∀ s, skipBlanks r ≠ '.' :: s) :
    readKey fuel (writePath path ++ r) = some (path, skipBlanks r) := by
  induction path generalizing fuel with
  | nil => exact absurd rfl hne
  | cons k path ih =>
    cases fuel with
    | zero => simp at hfuel
    | succ fuel =>
      cases path with
      | nil =>
        rw [writePath_singleton, readKey, skipBlanks_writeKey, readPart_writeKey k hbare]
        simp only
      | cons k' path =>
        have hrest := ih (List.cons_ne_nil _ _) fuel (Nat.le_of_succ_le_succ hfuel)
        rw [writePath_cons_cons, List.append_assoc, readKey, skipBlanks_writeKey,
          readPart_writeKey k (fun c s h => by rw [← (List.cons.inj h).1]; decide)]
        simp only [List.cons_append, skipBlanks_cons (show isBlank '.' = false by decide), hrest]

end PointMutation.Toml
