/-!
# Finite sets of names

A set of names is its list in increasing order, so two sets with the same members
are equal and a set is always shown in the same order.
-/

namespace Lookahead

namespace NameSet

def insertSorted (x : String) : List String → List String
  | [] => [x]
  | y :: ys => if x < y then x :: y :: ys else if x = y then y :: ys else y :: insertSorted x ys

theorem mem_insertSorted {x z : String} {ys : List String} :
    z ∈ insertSorted x ys ↔ z = x ∨ z ∈ ys := by
  induction ys with
  | nil => simp [insertSorted]
  | cons y ys ih =>
    rw [insertSorted]
    split
    · simp
    · split
      · rename_i h
        subst h
        simp
      · simp [ih, or_left_comm]

theorem lt_of_not_lt {x y : String} (h : ¬x < y) (hne : x ≠ y) : y < x :=
  Classical.byContradiction fun h' =>
    hne (String.le_antisymm (String.not_lt.mp h') (String.not_lt.mp h))

theorem pairwise_insertSorted {x : String} {ys : List String} (h : ys.Pairwise (· < ·)) :
    (insertSorted x ys).Pairwise (· < ·) := by
  induction ys with
  | nil => simp [insertSorted]
  | cons y ys ih =>
    rw [insertSorted]
    obtain ⟨hy, hys⟩ := List.pairwise_cons.mp h
    split
    · rename_i hxy
      refine List.pairwise_cons.mpr ⟨fun z hz => ?_, h⟩
      rcases List.mem_cons.mp hz with rfl | hz
      · exact hxy
      · exact String.lt_trans hxy (hy z hz)
    · split
      · exact h
      · rename_i h1 h2
        refine List.pairwise_cons.mpr ⟨fun z hz => ?_, ih hys⟩
        rcases mem_insertSorted.mp hz with rfl | hz
        · exact lt_of_not_lt h1 h2
        · exact hy z hz

theorem pairwise_nil : ([] : List String).Pairwise (· < ·) := List.Pairwise.nil

end NameSet

structure NameSet where
  names : List String := []
  sorted : names.Pairwise (· < ·) := by exact NameSet.pairwise_nil
  deriving DecidableEq

namespace NameSet

instance : Inhabited NameSet := ⟨{}⟩

instance : Membership String NameSet := ⟨fun s x => x ∈ s.names⟩

instance (x : String) (s : NameSet) : Decidable (x ∈ s) :=
  inferInstanceAs (Decidable (x ∈ s.names))

def insert (s : NameSet) (x : String) : NameSet :=
  ⟨insertSorted x s.names, pairwise_insertSorted s.sorted⟩

def union (s t : NameSet) : NameSet := t.names.foldl insert s

def ofList (xs : List String) : NameSet := xs.foldl insert {}

theorem not_mem_empty (x : String) : ¬x ∈ ({} : NameSet) := List.not_mem_nil

@[simp] theorem mem_insert {s : NameSet} {x z : String} : z ∈ s.insert x ↔ z = x ∨ z ∈ s :=
  mem_insertSorted

theorem mem_foldl_insert {xs : List String} {s : NameSet} {z : String} :
    z ∈ xs.foldl insert s ↔ z ∈ xs ∨ z ∈ s := by
  induction xs generalizing s with
  | nil => simp
  | cons x xs ih => simp [ih, or_left_comm, or_assoc]

@[simp] theorem mem_union {s t : NameSet} {z : String} : z ∈ s.union t ↔ z ∈ s ∨ z ∈ t := by
  rw [union, mem_foldl_insert, or_comm]
  rfl

@[simp] theorem mem_ofList {xs : List String} {z : String} : z ∈ ofList xs ↔ z ∈ xs := by
  rw [ofList, mem_foldl_insert]
  simp [not_mem_empty]

theorem mem_foldl_union {sets : List NameSet} {s : NameSet} {z : String} :
    z ∈ sets.foldl union s ↔ z ∈ s ∨ ∃ t ∈ sets, z ∈ t := by
  induction sets generalizing s with
  | nil => simp
  | cons t sets ih => simp [ih, or_assoc]

theorem eq_of_pairwise_lt : {xs ys : List String} → xs.Pairwise (· < ·) → ys.Pairwise (· < ·) →
    (∀ z, z ∈ xs ↔ z ∈ ys) → xs = ys
  | [], [], _, _, _ => rfl
  | [], y :: ys, _, _, h => absurd ((h y).mpr (List.mem_cons_self ..)) List.not_mem_nil
  | x :: xs, [], _, _, h => absurd ((h x).mp (List.mem_cons_self ..)) List.not_mem_nil
  | x :: xs, y :: ys, hx, hy, h => by
    obtain ⟨hx1, hx2⟩ := List.pairwise_cons.mp hx
    obtain ⟨hy1, hy2⟩ := List.pairwise_cons.mp hy
    have hxy : x = y := by
      rcases List.mem_cons.mp ((h x).mp (List.mem_cons_self ..)) with he | hm
      · exact he
      rcases List.mem_cons.mp ((h y).mpr (List.mem_cons_self ..)) with he | hm'
      · exact he.symm
      exact absurd (String.lt_trans (hy1 x hm) (hx1 y hm')) (String.lt_irrefl y)
    subst hxy
    have hmem : ∀ z, z ∈ xs ↔ z ∈ ys := by
      intro z
      constructor
      · intro hz
        rcases List.mem_cons.mp ((h z).mp (List.mem_cons_of_mem _ hz)) with he | hm
        · exact absurd (he ▸ hx1 z hz) (String.lt_irrefl _)
        · exact hm
      · intro hz
        rcases List.mem_cons.mp ((h z).mpr (List.mem_cons_of_mem _ hz)) with he | hm
        · exact absurd (he ▸ hy1 z hz) (String.lt_irrefl _)
        · exact hm
    rw [eq_of_pairwise_lt hx2 hy2 hmem]

/-- Sets with the same members are equal. -/
theorem ext_mem {s t : NameSet} (h : ∀ z, z ∈ s ↔ z ∈ t) : s = t := by
  obtain ⟨xs, hx⟩ := s
  obtain ⟨ys, hy⟩ := t
  have : xs = ys := eq_of_pairwise_lt hx hy h
  subst this
  rfl

theorem nodup_names (s : NameSet) : s.names.Nodup := by
  refine s.sorted.imp ?_
  intro x y h he
  exact String.lt_irrefl y (he ▸ h)

/-- The names in order, between braces. -/
def braced (s : NameSet) : String := "\x7b" ++ String.intercalate ", " s.names ++ "\x7d"

end NameSet

end Lookahead
