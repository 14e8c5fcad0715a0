import PointMutation.Config.File
import PointMutation.Proofs.Toml.Documents
import PointMutation.Proofs.Toml.Sections

/-!
# Configuration files that are read back

A valid configuration has a file unless one of its whole numbers is too great for it, and the file
is read as the configuration (`Config.read_write`). The statements of a file make a table with a
section for each part of the configuration, and each section is read on its own, field by field,
into the part that it was written from.
-/

namespace PointMutation

/-! ## Distributions -/

namespace Distribution

theorem insertEntry_last {name : String} {es : List (String × UInt32)}
    (h : ∀ e ∈ es, e.1 < name) (weight : UInt32) :
    insertEntry name weight es = es ++ [(name, weight)] := by
  induction es with
  | nil => rfl
  | cons e es ih =>
    have hlt := h e List.mem_cons_self
    rw [insertEntry, if_neg (fun h => String.lt_irrefl _ (String.lt_trans h hlt)),
      if_neg (fun h => String.lt_irrefl _ (h ▸ hlt)),
      ih fun f hf => h f (List.mem_cons_of_mem _ hf), List.cons_append]

theorem nodup_names (d : Distribution) : d.names.Nodup := by
  rw [names, List.nodup_iff_pairwise_ne, List.pairwise_map]
  exact d.sorted.imp fun h => String.ne_of_lt h

end Distribution

/-! ## Sets of kinds -/

/-- What a list of distinct things has in common with a part of it is this part. -/
theorem filter_contains_of_sublist {α : Type} [DecidableEq α] {ks all : List α}
    (h : ks.Sublist all) (hnodup : all.Nodup) : all.filter ks.contains = ks := by
  have hsub : ks.Sublist (all.filter ks.contains) := by
    have hfilter := h.filter ks.contains
    rwa [List.filter_eq_self.mpr fun k hk => by simpa using hk] at hfilter
  have hsubset : all.filter ks.contains ⊆ ks := fun k hk => by
    simpa using (List.mem_filter.mp hk).2
  exact (hsub.eq_of_length_le
    (List.subperm_of_subset (hnodup.filter _) hsubset).length_le).symm

theorem ValueKinds.ofList_val (ks : ValueKinds) : ValueKinds.ofList ks.1 = ks :=
  Subtype.ext (filter_contains_of_sublist ks.2 (by decide))

theorem LiteralKinds.ofList_val (ks : LiteralKinds) : LiteralKinds.ofList ks.1 = ks :=
  Subtype.ext (filter_contains_of_sublist ks.2 (by decide))

namespace ConfigFile

open Toml (Value Statement Entries)

/-! ## The table of a configuration -/

/-- A key with its value. -/
def field (key : String) (v : Value) : Toml.Key × Value := (key.toList, v)

/-- A key with a table that has a header. -/
def table (key : String) (es : Entries) : Toml.Key × Value := field key (.table .header es)

def seedEntries (seed : Option UInt64) : Entries :=
  (seed.map fun n => field "seed" (ofSize n.toNat)).toList

def countEntries (c : EngineConfig) : Entries :=
  [field "transformations" (ofSize c.transformations), field "max_attempts" (ofSize c.maxAttempts)]

def distributionEntries (d : Distribution) : Entries :=
  d.entries.map fun e => field e.1 (ofSize e.2.toNat)

def engineEntries (c : EngineConfig) : Entries :=
  countEntries c ++ [table "distribution" (distributionEntries c.distribution)]

def insertionEntries (c : InsertionConfig) : Entries :=
  [field "probability" (.float c.probability), field "annotate_types" (.boolean c.annotated),
   field "supported_kinds" (ofWords (c.kinds.1.map (·.name))),
   field "name_length" (ofSize c.nameLength)]

def wrappingEntries (c : WrappingConfig) : Entries :=
  [field "supported_kinds" (ofWords (c.kinds.1.map (·.name)))]

/-- The table that the statements of a configuration make. -/
def entries (c : Config) : Entries :=
  seedEntries c.seed ++ [table "engine" (engineEntries c.engine),
    table "add_variable" (insertionEntries c.insertion),
    table "lambda_identity" (wrappingEntries c.wrapping)]

/-- The statement of a key with its value. -/
def statement (e : Toml.Key × Value) : Statement := .entry [] e.1 e.2

theorem statements_eq (c : Config) :
    statements c = (seedEntries c.seed).map statement ++
      (header ["engine"] :: (countEntries c.engine).map statement ++
      (header ["engine", "distribution"] ::
        (distributionEntries c.engine.distribution).map statement ++
      (header ["add_variable"] :: (insertionEntries c.insertion).map statement ++
      (header ["lambda_identity"] :: (wrappingEntries c.wrapping).map statement ++ [])))) := by
  cases hseed : c.seed <;>
    simp [statements, hseed, seedEntries, countEntries, distributionEntries, insertionEntries,
      wrappingEntries, statement, field, entry]

theorem nodup_distributionEntries (d : Distribution) :
    (Toml.keys (distributionEntries d)).Nodup := by
  have hkeys : Toml.keys (distributionEntries d) = d.names.map String.toList := by
    simp [Toml.keys, distributionEntries, Distribution.names, field]
  rw [hkeys]
  exact d.nodup_names.map fun _ _ => String.toList_injective

theorem keys_countEntries (c : EngineConfig) : Toml.keys (countEntries c) =
    ["transformations".toList, "max_attempts".toList] := rfl

theorem keys_insertionEntries (c : InsertionConfig) : Toml.keys (insertionEntries c) =
    ["probability".toList, "annotate_types".toList, "supported_kinds".toList,
      "name_length".toList] := rfl

theorem keys_seedEntries {seed : Option UInt64} {k : Toml.Key}
    (h : k ∈ Toml.keys (seedEntries seed)) : k = "seed".toList := by
  cases seed with
  | none => cases h
  | some n => exact List.mem_singleton.mp h

theorem assemble_statements (c : Config) : Toml.assemble (statements c) = some (entries c) := by
  have hfresh : ∀ {k : Toml.Key}, k ≠ "seed".toList → k ∉ Toml.keys (seedEntries c.seed) :=
    fun hk h => hk (keys_seedEntries h)
  have hseed : (Toml.keys (seedEntries c.seed)).Nodup := by
    cases c.seed with
    | none => exact List.nodup_nil
    | some n => exact List.nodup_singleton _
  have hadd : "add_variable".toList ∉ Toml.keys (seedEntries c.seed ++
      [table "engine" (engineEntries c.engine)]) := by
    rw [Toml.keys_append, List.mem_append, not_or]
    exact ⟨hfresh (by decide), by simp [Toml.keys, table, field]⟩
  have hwrap : "lambda_identity".toList ∉ Toml.keys (seedEntries c.seed ++
      [table "engine" (engineEntries c.engine)] ++
      [table "add_variable" (insertionEntries c.insertion)]) := by
    rw [Toml.keys_append, Toml.keys_append, List.mem_append, List.mem_append, not_or, not_or]
    exact ⟨⟨hfresh (by decide), by simp [Toml.keys, table, field]⟩,
      by simp [Toml.keys, table, field]⟩
  have hnone : Toml.Frames.Fresh [] := fun f hf => absurd hf List.not_mem_nil
  have hframe : Toml.Frames.Fresh [(seedEntries c.seed, "engine".toList)] := fun f hf => by
    rw [List.mem_singleton.mp hf]
    exact hfresh (k := "engine".toList) (by decide)
  rw [Toml.assemble, statements_eq]
  refine (Toml.assembleFrom_entries (t := []) hnone hseed _).trans ?_
  refine (Toml.assembleFrom_section hnone (k := "engine".toList) (hfresh (by decide))
    (by rw [keys_countEntries]; decide) _ _).trans ?_
  refine (Toml.assembleFrom_section hframe (t := countEntries c.engine)
    (k := "distribution".toList) (by rw [keys_countEntries]; decide)
    (nodup_distributionEntries _) _ _).trans ?_
  refine (Toml.assembleFrom_section hnone hadd (by rw [keys_insertionEntries]; decide) _ _).trans ?_
  refine (Toml.assembleFrom_section hnone hwrap
    (show (Toml.keys (wrappingEntries c.wrapping)).Nodup from List.nodup_singleton _) _ _).trans ?_
  rw [List.append_assoc, List.append_assoc]
  rfl

/-! ## The text of a configuration -/

theorem isLegible_ofSize {n : Nat} (h : n ≤ greatest) : (ofSize n).IsLegible :=
  Toml.isLegible_integer (Nat.lt_of_le_of_lt h (by decide))

theorem isLegible_ofWords {ws : List String} (h : ∀ w ∈ ws, ∀ c ∈ w.toList, Toml.isBare c = true) :
    (ofWords ws).IsLegible := by
  have hwords : ofWords ws = .array ((ws.map String.toList).map .string) := by
    rw [ofWords, List.map_map]
    rfl
  rw [hwords]
  exact Toml.isLegible_words fun w hw => by
    obtain ⟨w, hmem, rfl⟩ := List.mem_map.mp hw
    exact h w hmem

theorem isLegible_kinds {α : Type} {name : α → String} {ks : List α}
    (h : ∀ k, ∀ c ∈ (name k).toList, Toml.isBare c = true) : (ofWords (ks.map name)).IsLegible :=
  isLegible_ofWords fun w hw => by
    obtain ⟨k, -, rfl⟩ := List.mem_map.mp hw
    exact h k

theorem isLegible_statement {e : Toml.Key × Value} (h : e.2.IsLegible) :
    (statement e).IsLegible := ⟨by decide, h⟩

theorem isLegible_header {path : List String} (hne : path ≠ []) (hlength : path.length ≤ 79) :
    (header path).IsLegible := ⟨by simpa using hne, by simpa [Toml.mostParts] using hlength⟩

/-- A probability that validation accepts is a finite number. -/
theorem exists_finite {d : Double} (h : Double.le .zero d = true ∧ Double.le d (.ofInt 1) = true) :
    ∃ s m e, d = .finite s m e := by
  cases d with
  | nan => exact absurd h.1 (by decide)
  | infinite s => cases s <;> exact absurd h (by decide)
  | finite s m e => exact ⟨s, m, e, rfl⟩

theorem isLegible_statements {c : Config} (hwritable : isWritable c = true)
    (hprobability : c.insertion.probability.IsCanonical)
    (hrange : Double.le .zero c.insertion.probability = true ∧
      Double.le c.insertion.probability (.ofInt 1) = true) :
    ∀ s ∈ statements c, s.IsLegible := by
  rw [isWritable, Bool.and_eq_true, Bool.and_eq_true, Bool.and_eq_true, decide_eq_true_eq,
    decide_eq_true_eq, decide_eq_true_eq] at hwritable
  obtain ⟨⟨⟨hseed, htransformations⟩, hattempts⟩, hlength⟩ := hwritable
  have hentries : ∀ {es : Entries}, (∀ e ∈ es, e.2.IsLegible) →
      ∀ s ∈ es.map statement, s.IsLegible := fun h s hs => by
    obtain ⟨e, he, rfl⟩ := List.mem_map.mp hs
    exact isLegible_statement (h e he)
  have hfloat : (Value.float c.insertion.probability).IsLegible := by
    obtain ⟨s, m, e, he⟩ := exists_finite hrange
    rw [he] at hprobability ⊢
    exact Toml.isLegible_float s hprobability
  rw [statements_eq]
  simp only [List.forall_mem_append, List.forall_mem_cons]
  refine ⟨hentries ?_, ⟨isLegible_header (by decide) (by decide), hentries ?_⟩,
    ⟨isLegible_header (by decide) (by decide), hentries ?_⟩,
    ⟨isLegible_header (by decide) (by decide), hentries ?_⟩,
    ⟨isLegible_header (by decide) (by decide), hentries ?_⟩, by simp⟩
  · cases hc : c.seed with
    | none => simp [seedEntries]
    | some n =>
      rw [hc] at hseed
      simpa [seedEntries, field] using isLegible_ofSize (by simpa using hseed)
  · simpa [countEntries, field] using ⟨isLegible_ofSize htransformations, isLegible_ofSize hattempts⟩
  · intro e he
    obtain ⟨f, -, rfl⟩ := List.mem_map.mp he
    exact isLegible_ofSize (f.2.toNat_lt.le.trans (by decide))
  · have hkinds : (ofWords (c.insertion.kinds.1.map (·.name))).IsLegible :=
      isLegible_kinds fun k => Text.forall_of_all (by cases k <;> rfl)
    simpa [insertionEntries, field] using
      ⟨hfloat, Toml.isLegible_boolean _, hkinds, isLegible_ofSize hlength⟩
  · have hkinds : (ofWords (c.wrapping.kinds.1.map (·.name))).IsLegible :=
      isLegible_kinds fun k => Text.forall_of_all (by cases k <;> rfl)
    simpa [wrappingEntries, field] using hkinds

/-- The file of a configuration is read as its table. -/
theorem read_write_statements {c : Config} (hwritable : isWritable c = true)
    (hprobability : c.insertion.probability.IsCanonical)
    (hrange : Double.le .zero c.insertion.probability = true ∧
      Double.le c.insertion.probability (.ofInt 1) = true) :
    Toml.read (Toml.write (statements c)) = some (entries c) := by
  rw [Toml.read, Toml.readDocument_write (isLegible_statements hwritable hprobability hrange),
    Option.bind_some, assemble_statements]

/-! ## Reading the table -/

theorem whole_ofSize (type : String) {n bound : Nat} (h : n < bound) :
    whole type bound (ofSize n) = .ok n := by
  rw [ofSize, whole, if_pos (by omega), Int.toNat_natCast]

theorem readSize_ofSize {n : Nat} (h : n ≤ greatest) : readSize (ofSize n) = .ok n :=
  whole_ofSize _ (Nat.lt_of_le_of_lt h (by decide))

theorem readSeed_ofSize (n : UInt64) : readSeed (ofSize n.toNat) = .ok n := by
  rw [readSeed, whole_ofSize _ n.toNat_lt]
  simp [Except.map]

theorem readWeight_ofSize (n : UInt32) : readWeight (ofSize n.toNat) = .ok n := by
  rw [readWeight, whole_ofSize _ n.toNat_lt]
  simp [Except.map]

theorem keyName_toList (key : String) : keyName key.toList = key := String.ofList_toList

/-- Names that come in their order are put behind each other. -/
theorem readEntries_append {d d' : Distribution} {es : List (String × UInt32)}
    (h : d'.entries = d.entries ++ es) :
    (es.map fun e => field e.1 (ofSize e.2.toNat)).foldlM
      (fun d e => (readWeight e.2).map (d.insert (keyName e.1))) d = .ok d' := by
  induction es generalizing d with
  | nil => rw [Distribution.ext_entries (h.trans (List.append_nil _))]; rfl
  | cons e es ih =>
    have hlast : ∀ f ∈ d.entries, f.1 < e.1 := fun f hf => by
      have hsorted := d'.sorted
      rw [h, List.pairwise_append] at hsorted
      exact hsorted.2.2 f hf e List.mem_cons_self
    have hinsert : d'.entries = (d.insert e.1 e.2).entries ++ es := by
      rw [h, show (d.insert e.1 e.2).entries = d.entries ++ [(e.1, e.2)] from
        Distribution.insertEntry_last hlast e.2, List.append_assoc]
      rfl
    rw [List.map_cons, List.foldlM_cons, field, readWeight_ofSize, keyName_toList]
    exact ih hinsert

theorem readDistribution_entries (d : Distribution) :
    readDistribution (.table .header (distributionEntries d)) = .ok d :=
  readEntries_append (d := .empty) rfl

/-- Kinds are read from their names. -/
theorem readVariants_names {α : Type} (name : α → String) (all : List α)
    (hall : ∀ k, (all.map fun k => (name k, k)).lookup (name k) = some k) (ks : List α) :
    readVariants (all.map fun k => (name k, k)) (ofWords (ks.map name)) = .ok ks := by
  have hword : ∀ k, readVariant (all.map fun k => (name k, k)) (.string (name k).toList) = .ok k :=
    fun k => by rw [readVariant, readWord, String.ofList_toList, hall]
  rw [ofWords, readVariants]
  induction ks with
  | nil => rfl
  | cons k ks ih => rw [List.map_cons, List.map_cons, List.mapM_cons, hword, ih]; rfl

section

variable {σ : Type} {fields : Fields σ} {s s' s'' : σ}

/-- Entries that are read into a section one after the other. -/
def ReadsTo (fields : Fields σ) (s : σ) (es : Entries) (s' : σ) : Prop :=
  es.foldlM (fun s e => readField fields s (keyName e.1) e.2) s = .ok s'

theorem ReadsTo.nil (h : s = s') : ReadsTo fields s [] s' := congrArg Except.ok h

theorem ReadsTo.cons {key : String} {v : Value} {es : Entries} {f : σ → Value → Reading σ}
    (hf : fields.lookup key = some f) (hv : f s v = .ok s') (hes : ReadsTo fields s' es s'') :
    ReadsTo fields s (field key v :: es) s'' := by
  rw [ReadsTo, List.foldlM_cons, field, keyName_toList, readField, hf]
  dsimp only
  rw [hv]
  exact hes

theorem map_ok {α β : Type} {r : Reading α} {a : α} (h : r = .ok a) (g : α → β) :
    r.map g = .ok (g a) := by rw [h]; rfl

end

theorem readEngine_entries {c : EngineConfig} (htransformations : c.transformations ≤ greatest)
    (hattempts : c.maxAttempts ≤ greatest) :
    readSection "EngineConfig" engineFields {} (.table .header (engineEntries c)) = .ok c :=
  ReadsTo.cons rfl (map_ok (readSize_ofSize htransformations) _) <|
    ReadsTo.cons rfl (map_ok (readSize_ofSize hattempts) _) <|
    ReadsTo.cons rfl (map_ok (readDistribution_entries c.distribution) _) <| ReadsTo.nil rfl

theorem readInsertion_entries {c : InsertionConfig} (hlength : c.nameLength ≤ greatest) :
    readSection "AddVariableConfig" insertionFields {} (.table .header (insertionEntries c)) =
      .ok c := by
  have hkinds := readVariants_names ValueKind.name ValueKind.all (fun k => by cases k <;> decide)
    c.kinds.1
  refine ReadsTo.cons rfl rfl <| ReadsTo.cons rfl rfl <| ReadsTo.cons rfl (map_ok hkinds _) <|
    ReadsTo.cons rfl (map_ok (readSize_ofSize hlength) _) <| ReadsTo.nil ?_
  rw [ValueKinds.ofList_val]

theorem readWrapping_entries (c : WrappingConfig) :
    readSection "LambdaIdentityConfig" wrappingFields {} (.table .header (wrappingEntries c)) =
      .ok c := by
  have hkinds := readVariants_names LiteralKind.name LiteralKind.all
    (fun k => by cases k <;> decide) c.kinds.1
  refine ReadsTo.cons rfl (map_ok hkinds _) <| ReadsTo.nil ?_
  rw [LiteralKinds.ofList_val]

/-- The table of a configuration is read as the configuration. -/
theorem readSection_entries {c : Config} (hwritable : isWritable c = true) :
    readSection "MutatorConfig" configFields {} (.table .header (entries c)) = .ok c := by
  rw [isWritable, Bool.and_eq_true, Bool.and_eq_true, Bool.and_eq_true, decide_eq_true_eq,
    decide_eq_true_eq, decide_eq_true_eq] at hwritable
  obtain ⟨⟨⟨-, htransformations⟩, hattempts⟩, hlength⟩ := hwritable
  have hsections : ReadsTo configFields { seed := c.seed }
      [table "engine" (engineEntries c.engine), table "add_variable" (insertionEntries c.insertion),
        table "lambda_identity" (wrappingEntries c.wrapping)] c :=
    ReadsTo.cons rfl (map_ok (readEngine_entries htransformations hattempts) _) <|
      ReadsTo.cons rfl (map_ok (readInsertion_entries hlength) _) <|
      ReadsTo.cons rfl (map_ok (readWrapping_entries c.wrapping) _) <| ReadsTo.nil rfl
  cases hseed : c.seed with
  | none =>
    rw [hseed] at hsections
    rw [entries, hseed]
    exact hsections
  | some n =>
    rw [hseed] at hsections
    rw [entries, hseed]
    exact ReadsTo.cons rfl (map_ok (readSeed_ofSize n) _) hsections

end ConfigFile

namespace Config

/-- Some whole number of the configuration is greater than a bound. -/
def Exceeds (c : Config) (bound : Nat) : Prop :=
  (∃ n, c.seed = some n ∧ bound < n.toNat) ∨ bound < c.engine.transformations ∨
    bound < c.engine.maxAttempts ∨ bound < c.insertion.nameLength

theorem isWritable_iff (c : Config) :
    ConfigFile.isWritable c = true ↔ ¬ c.Exceeds (2 ^ 63 - 1) := by
  rw [ConfigFile.isWritable, Exceeds]
  cases c.seed <;>
    · simp only [Bool.and_eq_true, decide_eq_true_eq]
      simp [ConfigFile.greatest, and_assoc]

theorem probability_of_validate {c : Config} (h : c.validate = .ok ()) :
    Double.le .zero c.insertion.probability = true ∧
      Double.le c.insertion.probability (.ofInt 1) = true := by
  by_contra hrange
  rw [← Bool.and_eq_true, Bool.not_eq_true] at hrange
  rw [validate, InsertionConfig.validate, hrange] at h
  cases hengine : c.engine.validate with
  | error fault => rw [hengine] at h; cases h
  | ok _ => rw [hengine] at h; cases h

/-- A valid configuration has a file unless one of its whole numbers needs more than 63 digits, and
its file is read as the configuration. The probability is any floating-point number that validation
accepts. -/
theorem read_write (c : Config) (hc : c.validate = .ok ())
    (hprobability : c.insertion.probability.IsCanonical) :
    ((∃ fault, c.write = .error fault) ↔ c.Exceeds (2 ^ 63 - 1)) ∧
      (¬ c.Exceeds (2 ^ 63 - 1) → ∃ t, c.write = .ok t ∧ read t = .ok c) := by
  rw [← isWritable_iff, ← not_iff_comm.mp (isWritable_iff c).symm, write]
  by_cases h : ConfigFile.isWritable c = true
  · rw [if_pos h]
    refine ⟨iff_of_false (fun ⟨_, h⟩ => by cases h) (not_not.mpr h), fun _ => ⟨_, rfl, ?_⟩⟩
    rw [read, ConfigFile.read_write_statements h hprobability (probability_of_validate hc)]
    dsimp only
    rw [ConfigFile.readSection_entries h]
    show (c.validate >>= fun _ => pure c) = .ok c
    rw [hc]
    rfl
  · rw [if_neg h]
    exact ⟨iff_of_true ⟨_, rfl⟩ h, fun h' => absurd h' h⟩

/-- One name needs quotes, and one weight is zero. -/
def weighted : Config where
  seed := some 7
  engine := { distribution := .ofList [("add_variable", 3), ("an \"other\"", 0)] }

theorem read_write_weighted : ∃ t, weighted.write = .ok t ∧ read t = .ok weighted :=
  (read_write weighted (by decide +kernel)
    (by unfold weighted; exact Double.isCanonical_ofDecimal false 5 (-2))).2
    (fun h => by
      rcases h with ⟨n, hn, h⟩ | h | h | h
      · rw [← Option.some.inj hn] at h
        exact absurd h (by decide)
      · exact absurd h (by decide)
      · exact absurd h (by decide)
      · exact absurd h (by decide))

end Config

end PointMutation
