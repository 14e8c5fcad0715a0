/-!
# Distributions

A distribution gives names their weights. Names are kept in increasing order, each of them once, so
that two distributions with the same weights are equal.
-/

namespace PointMutation

/-- Weights of names, in increasing order of the names. -/
structure Distribution where
  entries : List (String × UInt32)
  sorted : entries.Pairwise fun a b => a.1 < b.1
  deriving DecidableEq

namespace Distribution

/-- The distribution without any name. -/
def empty : Distribution := ⟨[], .nil⟩

def isEmpty (d : Distribution) : Bool := d.entries.isEmpty

def names (d : Distribution) : List String := d.entries.map (·.1)

def weights (d : Distribution) : List UInt32 := d.entries.map (·.2)

/-- The weight of a name, if it has one. -/
def weight? (d : Distribution) (name : String) : Option UInt32 := d.entries.lookup name

/-- Puts a name with its weight where it belongs. A weight that the name has already is lost. -/
def insertEntry (name : String) (weight : UInt32) :
    List (String × UInt32) → List (String × UInt32)
  | [] => [(name, weight)]
  | e :: es =>
    if name < e.1 then (name, weight) :: e :: es
    else if name = e.1 then (name, weight) :: es
    else e :: insertEntry name weight es

theorem mem_insertEntry {name : String} {weight : UInt32} {es : List (String × UInt32)}
    {e : String × UInt32} (h : e ∈ insertEntry name weight es) : e = (name, weight) ∨ e ∈ es := by
  induction es with
  | nil => simpa [insertEntry] using h
  | cons f fs ih =>
    rw [insertEntry] at h
    split at h
    · simpa using h
    · split at h
      · rcases List.mem_cons.1 h with h | h
        · exact .inl h
        · exact .inr (List.mem_cons_of_mem _ h)
      · rcases List.mem_cons.1 h with h | h
        · exact .inr (h ▸ List.mem_cons_self ..)
        · exact (ih h).imp_right (List.mem_cons_of_mem _)

theorem pairwise_insertEntry {name : String} {weight : UInt32} {es : List (String × UInt32)}
    (h : es.Pairwise fun a b => a.1 < b.1) :
    (insertEntry name weight es).Pairwise fun a b => a.1 < b.1 := by
  induction es with
  | nil => simp [insertEntry]
  | cons f fs ih =>
    have hf := List.pairwise_cons.1 h
    rw [insertEntry]
    split
    · rename_i hlt
      refine List.pairwise_cons.2 ⟨fun g hg => ?_, h⟩
      rcases List.mem_cons.1 hg with rfl | hg
      · exact hlt
      · exact String.lt_trans hlt (hf.1 g hg)
    · rename_i hlt
      split
      · rename_i heq
        exact List.pairwise_cons.2 ⟨fun g hg => heq ▸ hf.1 g hg, hf.2⟩
      · rename_i hne
        refine List.pairwise_cons.2 ⟨fun g hg => ?_, ih hf.2⟩
        rcases mem_insertEntry hg with rfl | hg
        · refine Classical.byContradiction fun hn => hne ?_
          exact String.le_antisymm (String.not_lt.1 hn) (String.not_lt.1 hlt)
        · exact hf.1 g hg

/-- Gives a name a weight. -/
def insert (d : Distribution) (name : String) (weight : UInt32) : Distribution :=
  ⟨insertEntry name weight d.entries, pairwise_insertEntry d.sorted⟩

/-- The distribution of some entries, of which later ones count more. -/
def ofList (es : List (String × UInt32)) : Distribution :=
  es.foldl (fun d e => d.insert e.1 e.2) empty

theorem ext_entries {d d' : Distribution} (h : d.entries = d'.entries) : d = d' := by
  cases d
  cases d'
  cases h
  rfl

end Distribution

end PointMutation
