import PointMutation.Proofs.Toml.Keys

/-!
# Documents that are read back

A value is legible if it is read back in front of a line end: whole numbers, finite numbers, truth
values and rows of words are. A statement is legible if its value is and its key is not too long.
A document of legible statements is read as these statements (`readDocument_write`).
-/

namespace PointMutation.Toml

/-! ## Legible values -/

/-- A value that is read back in front of a line end. -/
structure Value.IsLegible (v : Value) : Prop where
  head : ∃ c s, writeValue v = c :: s ∧ isBlank c = false
  read : ∀ fuel, (writeValue v).length ≤ fuel → ∀ r,
    readValue fuel mostParts (writeValue v ++ '\n' :: r) = some (v, '\n' :: r)

theorem ne_of_isWordChar {c d : Char} (hc : isWordChar c = true) (hd : isWordChar d = false) :
    c ≠ d := fun h => Bool.false_ne_true (hd.symm.trans (h ▸ hc))

theorem readValue_word (fuel depth : Nat) {c : Char} (hc : isWordChar c = true) (r : Text) :
    readValue (fuel + 1) depth (c :: r) = readScalar (c :: r) := by
  rw [readValue]
  · exact fun s h => ne_of_isWordChar hc (by decide) (List.cons.inj h).1
  · exact fun s h => ne_of_isWordChar hc (by decide) (List.cons.inj h).1
  · exact fun s h => ne_of_isWordChar hc (by decide) (List.cons.inj h).1
  · exact fun s h => ne_of_isWordChar hc (by decide) (List.cons.inj h).1

/-- What is read back as a word is legible. -/
theorem isLegible_of_word {v : Value} (hhead : ∃ c s, writeValue v = c :: s ∧ isWordChar c = true)
    (hread : ∀ r : Text, (∀ c s, r = c :: s → isWordChar c = false) →
      readScalar (writeValue v ++ r) = some (v, r)) : v.IsLegible := by
  obtain ⟨c, s, htext, hc⟩ := hhead
  refine ⟨⟨c, s, htext, ?_⟩, fun fuel hfuel r => ?_⟩
  · simp [isBlank, ne_of_isWordChar hc (d := ' ') (by decide),
      ne_of_isWordChar hc (d := '\t') (by decide)]
  · rw [htext, List.length_cons] at hfuel
    obtain ⟨fuel, rfl⟩ : ∃ n, fuel = n + 1 := ⟨fuel - 1, by omega⟩
    have hend := hread ('\n' :: r) (fun c s h => by rw [← (List.cons.inj h).1]; decide)
    rw [htext, List.cons_append] at hend ⊢
    rw [readValue_word fuel mostParts hc, hend]

theorem isLegible_integer {n : Nat} (hn : n < 2 ^ 63) : (Value.integer n).IsLegible := by
  refine isLegible_of_word ?_ fun r => readScalar_integer hn
  obtain ⟨c, s, h⟩ := List.exists_cons_of_ne_nil (Nat.toDigits_ne_nil (n := n) (b := 10))
  exact ⟨c, s, (toList_toString n).trans h,
    isWordChar_of_isDigit (Double.isDigit_of_mem_toDigits (h ▸ List.mem_cons_self))⟩

theorem isLegible_float (s : Bool) {m : Nat} {e : Int} (hm : Double.IsMantissa m e) :
    (Value.float (.finite s m e)).IsLegible := by
  refine isLegible_of_word ?_ fun r => readScalar_float s hm
  obtain ⟨whole, part, hdecimal, htext, -⟩ := Double.literal_spells s hm
  obtain ⟨d, ds, hwhole⟩ := List.exists_cons_of_ne_nil hdecimal.front_ne
  cases s
  · rw [hwhole] at htext
    exact ⟨d, _, htext,
      isWordChar_of_isDigit (hdecimal.front d (hwhole ▸ List.mem_cons_self))⟩
  · exact ⟨'-', _, htext, by decide⟩

theorem isLegible_boolean (b : Bool) : (Value.boolean b).IsLegible := by
  refine isLegible_of_word ?_ fun r => readScalar_boolean b
  cases b
  · exact ⟨'f', _, rfl, by decide⟩
  · exact ⟨'t', _, rfl, by decide⟩

/-! ## Rows of words -/

theorem skipLines_cons {c : Char} (hblank : isBlank c = false) (hbreak : c ≠ '\n')
    (hreturn : c ≠ '\r') (hcomment : c ≠ '#') (r : Text) :
    skipLines false (c :: r) = some (c :: r) := by
  rw [skipLines, if_neg (by simp [hblank]), if_neg (by simpa using hcomment)]
  · exact hbreak
  · exact fun _ h _ => hreturn h

theorem readItems_space (fuel depth : Nat) (t : Text) :
    readItems fuel depth (' ' :: t) = readItems fuel depth t := by
  cases fuel with
  | zero => rw [readItems, readItems]
  | succ fuel => rw [readItems, readItems, show skipLines false (' ' :: t) = skipLines false t from rfl]

/-- A word stands between quotation marks as an item. -/
theorem writeValue_word {w : Text} (hw : ∀ c ∈ w, isBare c = true) (r : Text) :
    writeValue (.string w) ++ r = '"' :: (escapeAll false 0 0 w ++ '"' :: r) := by
  rw [writeValue, quote_eq_basic hw, basic_append]

theorem readValue_string {w : Text} (hw : ∀ c ∈ w, isBare c = true) {r : Text}
    (hr : ∀ s, r ≠ '"' :: s) (fuel depth : Nat) :
    readValue (fuel + 1) depth (writeValue (.string w) ++ r) = some (.string w, r) := by
  have hread := readString_basic w hr
  rw [basic_append] at hread
  rw [writeValue_word hw, readValue, hread, Option.map_some]

/-- An item that is a word begins right where the items are read, and does not end them. -/
theorem skipLines_word {w : Text} (hw : ∀ c ∈ w, isBare c = true) (r : Text) :
    skipLines false (writeValue (.string w) ++ r) = some (writeValue (.string w) ++ r) ∧
      ∀ s, writeValue (.string w) ++ r ≠ ']' :: s := by
  rw [writeValue_word hw]
  exact ⟨skipLines_cons (by decide) (by decide) (by decide) (by decide) _,
    fun s h => absurd (List.cons.inj h).1 (by decide)⟩

theorem readItems_last {w : Text} (hw : ∀ c ∈ w, isBare c = true) (fuel depth : Nat) (r : Text) :
    readItems (fuel + 2) depth (writeValue (.string w) ++ ']' :: r) = some ([.string w], r) := by
  obtain ⟨hopen, hmark⟩ := skipLines_word hw (']' :: r)
  rw [readItems, hopen]
  split
  · next h => exact absurd (Option.some.inj h) (hmark _)
  · next h =>
    rw [← Option.some.inj h, readValue_string hw (fun s h => absurd (List.cons.inj h).1 (by decide))]
    simp only [skipLines_cons (show isBlank ']' = false by decide) (by decide) (by decide)
      (by decide)]
  · next h => cases h

theorem readItems_more {w : Text} (hw : ∀ c ∈ w, isBare c = true) {fuel depth : Nat} {r s : Text}
    {vs : List Value} (hrest : readItems (fuel + 1) depth r = some (vs, s)) :
    readItems (fuel + 2) depth (writeValue (.string w) ++ ',' :: ' ' :: r) =
      some (.string w :: vs, s) := by
  obtain ⟨hopen, hmark⟩ := skipLines_word hw (',' :: ' ' :: r)
  rw [readItems, hopen]
  split
  · next h => exact absurd (Option.some.inj h) (hmark _)
  · next h =>
    rw [← Option.some.inj h, readValue_string hw (fun s h => absurd (List.cons.inj h).1 (by decide))]
    simp only [skipLines_cons (show isBlank ',' = false by decide) (by decide) (by decide)
      (by decide), readItems_space, hrest]
  · next h => cases h

/-- A row of words is read back, item by item. -/
theorem readItems_words {ws : List Text} (hws : ∀ w ∈ ws, ∀ c ∈ w, isBare c = true) {fuel : Nat}
    (hfuel : ws.length < fuel) (depth : Nat) (r : Text) :
    readItems fuel depth (writeItems (ws.map .string) ++ ']' :: r) = some (ws.map .string, r) := by
  induction ws generalizing fuel with
  | nil =>
    obtain ⟨fuel, rfl⟩ : ∃ n, fuel = n + 1 := ⟨fuel - 1, by rw [List.length_nil] at hfuel; omega⟩
    rw [List.map_nil, writeItems, List.nil_append, readItems]
    rfl
  | cons w ws ih =>
    obtain ⟨fuel, rfl⟩ : ∃ n, fuel = n + 2 := ⟨fuel - 2, by rw [List.length_cons] at hfuel; omega⟩
    have hw := hws w List.mem_cons_self
    cases ws with
    | nil =>
      rw [List.map_cons, List.map_nil, writeItems]
      exact readItems_last hw fuel depth r
    | cons w' ws =>
      have hrest : readItems (fuel + 1) depth (writeItems ((w' :: ws).map .string) ++ ']' :: r) =
          some ((w' :: ws).map .string, r) :=
        ih (fun v hv => hws v (List.mem_cons_of_mem _ hv)) (by rw [List.length_cons] at hfuel; omega)
      rw [List.map_cons, List.map_cons, writeItems, List.append_assoc]
      · exact readItems_more hw hrest
      · exact List.cons_ne_nil _ _

theorem length_le_writeItems (ws : List Text) (hws : ∀ w ∈ ws, ∀ c ∈ w, isBare c = true) :
    ws.length ≤ (writeItems (ws.map .string)).length := by
  induction ws with
  | nil => exact Nat.zero_le _
  | cons w ws ih =>
    have hrest := ih fun v hv => hws v (List.mem_cons_of_mem _ hv)
    have hword : 1 ≤ (writeValue (.string w)).length := by
      rw [← List.append_nil (writeValue (.string w)), writeValue_word (hws w List.mem_cons_self),
        List.length_cons]
      omega
    cases ws with
    | nil => simpa [writeItems] using hword
    | cons w' ws =>
      rw [List.map_cons, List.map_cons, writeItems]
      · rw [← List.map_cons]
        simp only [List.length_append, List.length_cons] at hrest ⊢
        omega
      · exact List.cons_ne_nil _ _

theorem isLegible_words {ws : List Text} (hws : ∀ w ∈ ws, ∀ c ∈ w, isBare c = true) :
    (Value.array (ws.map .string)).IsLegible := by
  have htext : writeValue (.array (ws.map .string)) =
      '[' :: (writeItems (ws.map .string) ++ [']']) := by rw [writeValue]; rfl
  refine ⟨⟨'[', _, htext, by decide⟩, fun fuel hfuel r => ?_⟩
  have hlength := length_le_writeItems ws hws
  rw [htext, List.length_cons, List.length_append, List.length_singleton] at hfuel
  obtain ⟨fuel, rfl⟩ : ∃ n, fuel = n + 1 := ⟨fuel - 1, by omega⟩
  rw [htext, List.cons_append, List.append_assoc, List.singleton_append, readValue,
    if_neg (by decide), readItems_words hws (by omega)]

/-! ## Statements -/

/-- A statement that is read back. -/
def Statement.IsLegible : Statement → Prop
  | header path => path ≠ [] ∧ path.length ≤ mostParts
  | arrayHeader path => path ≠ [] ∧ path.length ≤ mostParts
  | entry path _ v => path.length < mostParts ∧ v.IsLegible

theorem splitKey_append (path : List Key) (k : Key) : splitKey (path ++ [k]) = some (path, k) := by
  simp [splitKey]

theorem writeStatement_entry (path : List Key) (k : Key) (v : Value) (r : Text) :
    writeStatement (.entry path k v) ++ r =
      writePath (path ++ [k]) ++ ' ' :: '=' :: ' ' :: (writeValue v ++ '\n' :: r) := by
  simp [writeStatement]

/-- A path with its closing brackets is read back. -/
theorem readKey_header {path : List Key} (hne : path ≠ []) (hlength : path.length ≤ mostParts)
    (s : Text) : readKey mostParts (writePath path ++ ']' :: s) = some (path, ']' :: s) := by
  have hblank : skipBlanks (']' :: s) = ']' :: s := skipBlanks_cons (by decide) s
  have hread := readKey_writePath hne mostParts hlength (r := ']' :: s)
    (fun c u h => by rw [← (List.cons.inj h).1]; decide)
    (fun u h => absurd (List.cons.inj (hblank.symm.trans h)).1 (by decide))
  rwa [hblank] at hread

/-- A path is read back in front of the sign behind it. -/
theorem readKey_entry {path : List Key} (hne : path ≠ []) (hlength : path.length ≤ mostParts)
    (s : Text) : readKey mostParts (writePath path ++ ' ' :: '=' :: s) = some (path, '=' :: s) :=
  readKey_writePath hne mostParts hlength (r := ' ' :: '=' :: s)
    (fun c u h => by rw [← (List.cons.inj h).1]; decide)
    (fun u h => absurd (List.cons.inj h).1 (by decide))

/-- A legible value begins right behind the blank. -/
theorem skipBlanks_value {v : Value} (h : v.IsLegible) (r : Text) :
    skipBlanks (' ' :: (writeValue v ++ r)) = writeValue v ++ r := by
  obtain ⟨c, u, hvalue, hc⟩ := h.head
  calc skipBlanks (' ' :: (writeValue v ++ r)) = skipBlanks (writeValue v ++ r) := rfl
    _ = writeValue v ++ r := by rw [hvalue, List.cons_append, skipBlanks_cons hc]

theorem readStatement_entry {path : List Key} {k : Key} {v : Value}
    (hlength : path.length < mostParts) (hv : v.IsLegible) (r : Text) :
    readStatement (writeStatement (.entry path k v) ++ r) = some (.entry path k v, r) := by
  have hne : path ++ [k] ≠ [] := List.append_ne_nil_of_right_ne_nil path (List.cons_ne_nil k [])
  obtain ⟨d, w, hpath, hd⟩ := writePath_head hne
  have hkey := readKey_entry hne (by rw [List.length_append, List.length_singleton]; omega)
    (' ' :: (writeValue v ++ '\n' :: r))
  have hread := hv.read (2 * (' ' :: (writeValue v ++ '\n' :: r)).length + 2)
    (by rw [List.length_cons, List.length_append]; omega) r
  rw [writeStatement_entry]
  rw [hpath, List.cons_append] at hkey ⊢
  unfold readStatement
  split
  · next h => exact absurd (List.cons.inj h).1 (ne_of_opensKey hd (by decide))
  · next h => exact absurd (List.cons.inj h).1 (ne_of_opensKey hd (by decide))
  · rw [hkey]
    simp only [splitKey_append, skipBlanks_value hv, hread]
    rfl

/-- A legible statement is read back in front of any others. -/
theorem readStatement_writeStatement {s : Statement} (h : s.IsLegible) (r : Text) :
    readStatement (writeStatement s ++ r) = some (s, r) := by
  cases s with
  | header path =>
    obtain ⟨c, u, hpath, hc⟩ := writePath_head h.1
    have hread := readKey_header h.1 h.2 ('\n' :: r)
    rw [show writeStatement (.header path) ++ r = '[' :: (writePath path ++ ']' :: '\n' :: r) by
      simp [writeStatement]]
    rw [hpath, List.cons_append] at hread ⊢
    rw [readStatement]
    · rw [hread]
      rfl
    · exact fun v h => ne_of_opensKey hc (by decide) (List.cons.inj h).1
  | arrayHeader path =>
    have hread := readKey_header h.1 h.2 (']' :: '\n' :: r)
    rw [show writeStatement (.arrayHeader path) ++ r =
      '[' :: '[' :: (writePath path ++ ']' :: ']' :: '\n' :: r) by simp [writeStatement],
      readStatement, hread]
    rfl
  | entry path k v => exact readStatement_entry h.1 h.2 r

/-- A statement begins with a bracket or with a key. -/
theorem writeStatement_head (s : Statement) : ∃ c u, writeStatement s = c :: u ∧
    ∀ d, d ≠ '[' → opensKey d = false → c ≠ d := by
  cases s with
  | header path => exact ⟨'[', _, rfl, fun d hd _ => hd.symm⟩
  | arrayHeader path => exact ⟨'[', _, rfl, fun d hd _ => hd.symm⟩
  | entry path k v =>
    obtain ⟨c, u, hpath, hc⟩ := writePath_head (List.append_ne_nil_of_right_ne_nil path
      (List.cons_ne_nil k []))
    refine ⟨c, _, by rw [writeStatement, hpath]; rfl, fun d _ hd => ne_of_opensKey hc hd⟩

/-- Nothing is passed over in front of a statement. -/
theorem skipLines_writeStatement (s : Statement) (r : Text) :
    skipLines false (writeStatement s ++ r) = some (writeStatement s ++ r) := by
  obtain ⟨c, u, htext, hno⟩ := writeStatement_head s
  rw [htext, List.cons_append]
  refine skipLines_cons ?_ (hno '\n' (by decide) (by decide)) (hno '\r' (by decide) (by decide))
    (hno '#' (by decide) (by decide)) _
  simp [isBlank, hno ' ' (by decide) (by decide), hno '\t' (by decide) (by decide)]

/-! ## Documents -/

theorem readStatements_step {s : Statement} (h : s.IsLegible) {t r : Text}
    (ht : skipLines false t = some (writeStatement s ++ r)) (fuel : Nat) :
    readStatements (fuel + 1) t = (readStatements fuel r).map (s :: ·) := by
  obtain ⟨c, u, htext, -⟩ := writeStatement_head s
  have hread := readStatement_writeStatement h r
  rw [htext, List.cons_append] at ht hread
  rw [readStatements, ht]
  simp only [hread]

/-- Statements with an empty line in front of each header. -/
def writeSpaced (ss : List Statement) : Text :=
  ss.flatMap fun s => if s.isHeader then '\n' :: writeStatement s else writeStatement s

theorem write_cons (s : Statement) (ss : List Statement) :
    write (s :: ss) = writeStatement s ++ writeSpaced ss := rfl

theorem skipLines_writeSpaced (s : Statement) (ss : List Statement) :
    skipLines false (writeSpaced (s :: ss)) = some (writeStatement s ++ writeSpaced ss) := by
  rw [writeSpaced, List.flatMap_cons]
  split
  · exact skipLines_writeStatement s _
  · exact skipLines_writeStatement s _

theorem length_le_writeSpaced (ss : List Statement) : ss.length ≤ (writeSpaced ss).length := by
  induction ss with
  | nil => exact Nat.zero_le _
  | cons s ss ih =>
    obtain ⟨c, u, htext, -⟩ := writeStatement_head s
    rw [writeSpaced, List.flatMap_cons, List.length_append, ← writeSpaced, List.length_cons, htext]
    split
    · rw [List.length_cons]
      omega
    · rw [List.length_cons]
      omega

theorem readStatements_writeSpaced {ss : List Statement} (h : ∀ s ∈ ss, s.IsLegible) {fuel : Nat}
    (hfuel : ss.length < fuel) : readStatements fuel (writeSpaced ss) = some ss := by
  induction ss generalizing fuel with
  | nil =>
    obtain ⟨fuel, rfl⟩ : ∃ n, fuel = n + 1 := ⟨fuel - 1, by rw [List.length_nil] at hfuel; omega⟩
    rfl
  | cons s ss ih =>
    obtain ⟨fuel, rfl⟩ : ∃ n, fuel = n + 1 := ⟨fuel - 1, by rw [List.length_cons] at hfuel; omega⟩
    rw [readStatements_step (h s List.mem_cons_self) (skipLines_writeSpaced s ss),
      ih (fun s hs => h s (List.mem_cons_of_mem _ hs)) (by rw [List.length_cons] at hfuel; omega),
      Option.map_some]

/-- A document of legible statements is read as these statements. -/
theorem readDocument_write {ss : List Statement} (h : ∀ s ∈ ss, s.IsLegible) :
    readDocument (write ss) = some ss := by
  cases ss with
  | nil => rfl
  | cons s ss =>
    obtain ⟨c, u, htext, hno⟩ := writeStatement_head s
    have hlength : ss.length < (write (s :: ss)).length := by
      have := length_le_writeSpaced ss
      rw [write_cons, List.length_append, htext, List.length_cons]
      omega
    have hstatements := readStatements_writeSpaced (fun s hs => h s (List.mem_cons_of_mem _ hs))
      hlength
    unfold readDocument
    split
    · next h =>
      rw [write_cons, htext, List.cons_append] at h
      exact absurd (List.cons.inj h).1 (hno '\ufeff' (by decide) (by decide))
    · rw [readStatements_step (h s List.mem_cons_self) (r := writeSpaced ss)
        (write_cons s ss ▸ skipLines_writeStatement s _), hstatements, Option.map_some]

end PointMutation.Toml
