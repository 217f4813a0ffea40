import Lookahead.Proofs.LowLink
import Mathlib.Data.Set.Finite.Basic

/-!
# Components are the classes of mutual reachability

The low-link search ends wherever finitely many nodes are reached, and gives the classes of
nodes that reach each other in reverse topological order. Over a list of edges it always
ends, so that `components` has the same properties there.
-/

namespace Lookahead.Digraph

open Relation (ReflTransGen)

variable {α : Type}

theorem mem_componentIndices {cs : List (List α)} {v : α} {i : Nat} :
    (v, i) ∈ componentIndices cs ↔ ∃ c, cs[i]? = some c ∧ v ∈ c := by
  simp only [componentIndices, List.mem_flatMap, List.mem_map, Prod.mk.injEq, Prod.exists,
    List.mem_zipIdx_iff_getElem?]
  constructor
  · rintro ⟨c, i, hi, _, hv, rfl, rfl⟩
    exact ⟨c, hi, hv⟩
  · rintro ⟨c, hi, hv⟩
    exact ⟨c, i, hi, v, hv, rfl, rfl⟩

/-- A node has no more than one place if no node occurs twice. -/
theorem eq_of_mem_componentIndices {cs : List (List α)} (hcs : cs.flatten.Nodup) {v : α}
    {i j : Nat} (hi : (v, i) ∈ componentIndices cs) (hj : (v, j) ∈ componentIndices cs) :
    i = j := by
  obtain ⟨c, hc, hvc⟩ := mem_componentIndices.mp hi
  obtain ⟨d, hd, hvd⟩ := mem_componentIndices.mp hj
  obtain ⟨hilen, rfl⟩ := List.getElem?_eq_some_iff.mp hc
  obtain ⟨hjlen, rfl⟩ := List.getElem?_eq_some_iff.mp hd
  have hdisjoint := List.pairwise_iff_getElem.mp (List.nodup_flatten.mp hcs).2
  rcases Nat.lt_trichotomy i j with h | h | h
  · exact absurd hvd (hdisjoint i j hilen hjlen h hvc)
  · exact h
  · exact absurd hvc (hdisjoint j i hjlen hilen h hvd)

variable [DecidableEq α]

theorem tarjan_spec {succ : α → List α} {roots : List α} (nodes : List α)
    (hnodes : ∀ v, (∃ r ∈ roots, Connects succ r v) → succ v ≠ [] → v ∈ nodes) :
    ∃ cs, tarjan succ roots = some cs ∧ Decomposition succ cs ∧ cs.flatten.Nodup ∧
      ∀ v, v ∈ cs.flatten ↔ ∃ r ∈ roots, Connects succ r v := by
  have hstart : Search.Invariant succ roots (Search.Pending { roots }) { roots } :=
    (Search.invariant_start succ roots).mono (by simp) (by simp [Search.Pending])
  exact hstart.run hnodes

/-- The search ends wherever finitely many nodes are reached from the roots. It gives the classes
of nodes that reach each other, with every reached node in one of them and once, and no edge
leads from a component to a later one. -/
theorem tarjan_finds_components (succ : α → List α) (roots : List α)
    (hfinite : {v | ∃ r ∈ roots, Connects succ r v}.Finite) :
    ∃ cs, tarjan succ roots = some cs ∧ (∀ c ∈ cs, c ≠ []) ∧ cs.flatten.Nodup ∧
      (∀ v, v ∈ cs.flatten ↔ ∃ r ∈ roots, Connects succ r v) ∧
      (∀ c ∈ cs, ∀ v ∈ c, ∀ w, w ∈ c ↔ Connects succ v w ∧ Connects succ w v) ∧
      (∀ v i w j, (v, i) ∈ componentIndices cs → (w, j) ∈ componentIndices cs →
        (i = j ↔ Connects succ v w ∧ Connects succ w v)) ∧
      ∀ (i j : Nat) (c d : List α), cs[i]? = some c → cs[j]? = some d → i ≠ j →
        ∀ v ∈ c, ∀ w ∈ d, w ∈ succ v → j < i := by
  obtain ⟨cs, hcs, hdecomposition, hnodup, hmem⟩ :=
    tarjan_spec hfinite.toFinset.toList fun v (hv : ∃ r ∈ roots, Connects succ r v) _ => by
      simpa using hv
  refine ⟨cs, hcs, fun c => hdecomposition.ne_nil, hnodup, hmem,
    fun c hc v hv w => hdecomposition.isClass hc hv, fun v i w j hv hw => ?_,
    fun i j c d hi hj hij v hv w hw hvw => ?_⟩
  · obtain ⟨c, hc, hvc⟩ := mem_componentIndices.mp hv
    rw [← hdecomposition.isClass (List.mem_of_getElem? hc) hvc]
    constructor
    · rintro rfl
      obtain ⟨d, hd, hwd⟩ := mem_componentIndices.mp hw
      obtain rfl : c = d := Option.some.inj (hc.symm.trans hd)
      exact hwd
    · intro hwc
      exact eq_of_mem_componentIndices hnodup (mem_componentIndices.mpr ⟨c, hc, hwc⟩) hw
  · exact Nat.lt_of_le_of_ne (hdecomposition.le_of_succ hnodup hi hj hv hw hvw) hij.symm

/-- Around a ring of three numbers that leads out to `9` and further on to itself. -/
def ring (n : Nat) : List Nat := if n < 3 then [9, (n + 1) % 3] else [n]

theorem tarjan_finds_components_sample :
    {v | ∃ r ∈ [1, 0, 1], Connects ring r v}.Finite ∧
      ∃ cs, tarjan ring [1, 0, 1] = some cs ∧ cs.flatten.Nodup ∧
        ∀ v, v ∈ cs.flatten ↔ ∃ r ∈ [1, 0, 1], Connects ring r v := by
  have hle {r v : Nat} (hr : r ≤ 9) (hrv : Connects ring r v) : v ≤ 9 := by
    induction hrv with
    | refl => exact hr
    | tail _ hbc ih =>
      simp only [ring] at hbc
      split at hbc <;> simp at hbc <;> omega
  have hfinite : {v | ∃ r ∈ [1, 0, 1], Connects ring r v}.Finite := by
    refine (Set.finite_le_nat 9).subset fun v ⟨r, hr, hrv⟩ => hle ?_ hrv
    have : r = 1 ∨ r = 0 ∨ r = 1 := by simpa using hr
    omega
  obtain ⟨cs, hcs, _, hnodup, hmem, _⟩ := tarjan_finds_components ring [1, 0, 1] hfinite
  exact ⟨hfinite, cs, hcs, hnodup, hmem⟩

/-! ### Components of a list of edges -/

/-- There is a way along the edges. -/
def Reaches (edges : List (α × α)) : α → α → Prop := ReflTransGen fun a b => (a, b) ∈ edges

/-- Two nodes each reach the other. -/
def Mutual (edges : List (α × α)) (v u : α) : Prop := Reaches edges v u ∧ Reaches edges u v

theorem mem_successors {edges : List (α × α)} {v w : α} :
    w ∈ successors edges v ↔ (v, w) ∈ edges := by
  simp [successors, List.mem_map, List.mem_filter]

theorem connects_successors {edges : List (α × α)} :
    Connects (successors edges) = Reaches edges := by
  simp only [Connects, mem_successors]
  rfl

/-- Over a list of edges both ways to run the search agree. -/
theorem run_successors (edges : List (α × α)) (s : Search α) :
    s.run (successors edges) = runEdges edges s := by
  fun_induction runEdges edges s with
  | case1 s hdone => rw [Search.run, if_pos hdone]
  | case2 s hdone ht => rw [Search.run, if_neg hdone, ht]
  | case3 s hdone t ht ih =>
    rw [Search.run, if_neg hdone, ht]
    exact ih

theorem components_spec (edges : List (α × α)) (roots : List α) :
    tarjan (successors edges) roots = some (components edges roots) ∧
      Decomposition (successors edges) (components edges roots) ∧
      (components edges roots).flatten.Nodup ∧
      ∀ v, v ∈ (components edges roots).flatten ↔ ∃ r ∈ roots, Reaches edges r v := by
  obtain ⟨cs, hcs, hspec⟩ : ∃ cs, tarjan (successors edges) roots = some cs ∧ _ :=
    tarjan_spec (edges.map Prod.fst) fun _ _ => mem_sources_of_successors
  have hcomponents : components edges roots = cs := by
    rw [components, ← run_successors]
    exact congrArg (·.getD []) hcs
  rw [hcomponents, ← connects_successors]
  exact ⟨hcs, hspec⟩

/-- The nodes of a component are those that are joined there and back with one of them. -/
theorem mem_iff_mutual_of_mem_components {edges : List (α × α)} {roots c : List α} {v u : α}
    (hc : c ∈ components edges roots) (hv : v ∈ c) : u ∈ c ↔ Mutual edges v u := by
  rw [(components_spec edges roots).2.1.isClass hc hv, connects_successors]
  rfl

/-- The components hold the nodes that can be reached from the roots. -/
theorem exists_mem_components_iff {edges : List (α × α)} {roots : List α} {u : α} :
    (∃ c ∈ components edges roots, u ∈ c) ↔ ∃ r ∈ roots, Reaches edges r u := by
  rw [← (components_spec edges roots).2.2.2, List.mem_flatten]

theorem ne_nil_of_mem_components {edges : List (α × α)} {roots c : List α}
    (hc : c ∈ components edges roots) : c ≠ [] :=
  (components_spec edges roots).2.1.ne_nil hc

theorem nodup_of_mem_components {edges : List (α × α)} {roots c : List α}
    (hc : c ∈ components edges roots) : c.Nodup :=
  (List.nodup_flatten.mp (components_spec edges roots).2.2.1).1 c hc

/-- Different components share no node. -/
theorem pairwise_disjoint_components (edges : List (α × α)) (roots : List α) :
    (components edges roots).Pairwise List.Disjoint :=
  (List.nodup_flatten.mp (components_spec edges roots).2.2.1).2

end Lookahead.Digraph
