import PointMutation.Toml.Table

/-!
# Sections of a document

A header opens a table behind all others of the table around it, and the entries that follow it are
added to this table in their order (`assembleFrom_section`), as long as no key comes twice.
-/

namespace PointMutation.Toml

/-- The keys of some entries. -/
def keys (es : Entries) : List Key := es.map (·.1)

theorem keys_append (es fs : Entries) : keys (es ++ fs) = keys es ++ keys fs := List.map_append

theorem find?_of_not_mem {k : Key} {es : Entries} (h : k ∉ keys es) : find? k es = none :=
  List.lookup_eq_none_iff.mpr fun _ he => by
    rw [bne_iff_ne]
    exact fun hk => h (hk ▸ List.mem_map_of_mem he)

theorem find?_last {k : Key} {es : Entries} (h : k ∉ keys es) (v : Value) :
    find? k (es ++ [(k, v)]) = some v := by
  rw [find?, List.lookup_append, ← find?, find?_of_not_mem h, Option.none_or,
    List.lookup_cons_self]

theorem replaceKey_last {k : Key} {es : Entries} (h : k ∉ keys es) (v w : Value) :
    replaceKey k w (es ++ [(k, v)]) = es ++ [(k, w)] := by
  induction es with
  | nil => rw [List.nil_append, replaceKey, if_pos rfl, List.nil_append]
  | cons e es ih =>
    rw [keys, List.map_cons, List.mem_cons, not_or] at h
    rw [List.cons_append, replaceKey, if_neg (Ne.symm h.1), ih h.2, List.cons_append]

/-! ## Tables within tables -/

/-- Tables of which each is the last one of the table around it: what stands in front of it there,
and its key. -/
abbrev Frames := List (Entries × Key)

/-- The keys that lead to the innermost table. -/
def Frames.path (fs : Frames) : List Key := fs.map (·.2)

/-- No key of a table stands in front of it. -/
def Frames.Fresh (fs : Frames) : Prop := ∀ f ∈ fs, f.2 ∉ keys f.1

/-- The outermost table for an innermost one. -/
def within : Frames → Entries → Entries
  | [], t => t
  | (es, k) :: fs, t => es ++ [(k, .table .header (within fs t))]

theorem within_append (fs : Frames) (es : Entries) (k : Key) (t : Entries) :
    within (fs ++ [(es, k)]) t = within fs (es ++ [(k, .table .header t)]) := by
  induction fs with
  | nil => rfl
  | cons f fs ih => rw [List.cons_append, within, ih, within]

theorem changeOpen_within (f : Entries → Option Entries) {fs : Frames} (h : fs.Fresh)
    (t : Entries) : changeOpen f fs.path (within fs t) = (f t).map (within fs) := by
  induction fs with
  | nil => exact Option.map_id'.symm
  | cons frame fs ih =>
    have hkey : frame.2 ∉ keys frame.1 := h frame List.mem_cons_self
    rw [Frames.path, List.map_cons, ← Frames.path, within, changeOpen, find?_last hkey]
    simp only [ih fun f hf => h f (List.mem_cons_of_mem _ hf), replaceKey_last hkey, Option.map_map]
    rfl

theorem change_within (f : Origin → Entries → Option Entries) {fs : Frames} (h : fs.Fresh)
    (t : Entries) :
    change .passage f fs.path .header (within fs t) = (f .header t).map (within fs) := by
  induction fs with
  | nil => exact Option.map_id'.symm
  | cons frame fs ih =>
    have hkey : frame.2 ∉ keys frame.1 := h frame List.mem_cons_self
    rw [Frames.path, List.map_cons, ← Frames.path, within, change, find?_last hkey]
    simp only [leads, if_true, ih fun f hf => h f (List.mem_cons_of_mem _ hf),
      replaceKey_last hkey, Option.map_map]
    rfl

/-! ## Statements -/

theorem add_fresh {k : Key} {t : Entries} (h : k ∉ keys t) (v : Value) :
    add [] k v t = some (t ++ [(k, v)]) := by
  rw [add, change, if_neg (by decide), find?_of_not_mem h]

/-- Entries are added to the table that is open. -/
theorem assembleFrom_entries {fs : Frames} (h : fs.Fresh) {t es : Entries}
    (hnodup : (keys (t ++ es)).Nodup) (ss : List Statement) :
    assembleFrom ((es.map fun e => .entry [] e.1 e.2) ++ ss) fs.path (within fs t) =
      assembleFrom ss fs.path (within fs (t ++ es)) := by
  induction es generalizing t with
  | nil => rw [List.map_nil, List.nil_append, List.append_nil]
  | cons e es ih =>
    have hfresh : e.1 ∉ keys t := fun hmem => by
      rw [keys_append, List.nodup_append] at hnodup
      exact hnodup.2.2 e.1 hmem e.1 List.mem_cons_self rfl
    rw [List.append_cons] at hnodup
    rw [List.map_cons, List.cons_append, assembleFrom, changeOpen_within _ h, add_fresh hfresh,
      Option.map_some]
    dsimp only
    rw [ih hnodup, List.append_assoc, List.singleton_append]

/-- A header opens a table that has not been there. -/
theorem assembleFrom_header {fs : Frames} (h : fs.Fresh) {t : Entries} {k : Key}
    (hk : k ∉ keys t) (opened : List Key) (ss : List Statement) :
    assembleFrom (.header (fs.path ++ [k]) :: ss) opened (within fs t) =
      assembleFrom ss (fs.path ++ [k]) (within (fs ++ [(t, k)]) []) := by
  rw [assembleFrom, List.getLast?_concat, List.dropLast_concat]
  simp only [change_within _ h, openTable, find?_of_not_mem hk, Option.map_some]
  rw [within_append]

/-- A section puts a table with its entries behind what is there already. -/
theorem assembleFrom_section {fs : Frames} (h : fs.Fresh) {t es : Entries} {k : Key}
    (hk : k ∉ keys t) (hnodup : (keys es).Nodup) (opened : List Key) (ss : List Statement) :
    assembleFrom (.header (fs.path ++ [k]) :: (es.map fun e => .entry [] e.1 e.2) ++ ss) opened
        (within fs t) =
      assembleFrom ss (fs.path ++ [k]) (within fs (t ++ [(k, .table .header es)])) := by
  have hfresh : Frames.Fresh (fs ++ [(t, k)]) := fun f hf => by
    rcases List.mem_append.mp hf with hf | hf
    · exact h f hf
    · rw [List.mem_singleton.mp hf]
      exact hk
  have hpath : fs.path ++ [k] = Frames.path (fs ++ [(t, k)]) := by
    rw [Frames.path, Frames.path, List.map_append]
    rfl
  rw [List.cons_append, assembleFrom_header h hk, hpath, assembleFrom_entries (t := []) hfresh hnodup,
    List.nil_append, within_append]

end PointMutation.Toml
