import PointMutation.Files.Tree

/-!
# Listings

A folder is read entry by entry, in an order that nothing is known of. A listing is such an order
for all folders of a file tree. A walk reads a folder and, as it comes by them, the folders below.
-/

namespace PointMutation.FileTree

variable {t : FileTree}

/-- The names of what lies in each folder, each of them once. -/
structure Listing (t : FileTree) where
  entries : Location → List Text
  nodup : ∀ l, (entries l).Nodup
  mem_iff : ∀ l p, p ∈ entries l ↔ (t.isFolderAt (l ++ [p]) || t.isFileAt (l ++ [p])) = true

/-- The number of names down to the deepest folder. -/
def depth (t : FileTree) : Nat := (t.folders.map List.length).foldr max 0

theorem le_foldr_max {ns : List Nat} {n : Nat} (h : n ∈ ns) : n ≤ ns.foldr max 0 := by
  induction ns with
  | nil => cases h
  | cons m ms ih =>
    rw [List.foldr_cons]
    rcases List.mem_cons.mp h with rfl | h
    · exact Nat.le_max_left _ _
    · exact Nat.le_trans (ih h) (Nat.le_max_right _ _)

theorem length_le_depth {l : Location} (hl : l ≠ []) (h : t.isFolderAt l = true) :
    l.length ≤ t.depth := by
  have hmem : l ∈ t.folders := by simpa [isFolderAt, hl] using h
  exact le_foldr_max (List.mem_map_of_mem hmem)

/-- The ways from a folder `l` to the files that are taken at any depth below the folder that `way`
leads to, in the order in which a walk comes by them. -/
def Listing.walk (s : t.Listing) (taken : Location → Bool) (l way : Location) : List Location :=
  (s.entries (l ++ way)).flatMap fun p =>
    if _h : t.isFolderAt (l ++ (way ++ [p])) = true then s.walk taken l (way ++ [p])
    else if taken (way ++ [p]) then [way ++ [p]] else []
termination_by t.depth - (l ++ way).length
decreasing_by
  have hle := length_le_depth (by simp) _h
  simp only [List.length_append, List.length_cons, List.length_nil] at hle ⊢
  omega

end PointMutation.FileTree
