import Lookahead.Proofs.Graph.Drawing

/-!
# Comparing nodes in another order

A comparison goes through the nodes of the user only where it looks for one too many. So
the order in which the user lists the nodes matters for nothing but the node that is named
then.
-/

namespace Lookahead

open List (Perm)

/-- The same outcome, up to the node that is named as one too many. -/
def Agree (x y : Except Fault Verdict) : Prop :=
  x = y ∨ ∃ name name', x = .ok (.wrong ⟨.extraNode, name⟩) ∧ y = .ok (.wrong ⟨.extraNode, name'⟩)

namespace View

section Keys

variable {α κ : Type} {key? : α → Option κ}

theorem AllKeyed.perm {items items' : List α} (h : Perm items items') :
    AllKeyed key? items ↔ AllKeyed key? items' :=
  ⟨fun hall a ha => hall a (h.mem_iff.mpr ha), fun hall a ha => hall a (h.mem_iff.mp ha)⟩

variable [DecidableEq κ]

/-- Of the keys of the user only those that occur count. -/
theorem firstMissing_congr {present present' : List κ} (h : ∀ k, k ∈ present ↔ k ∈ present')
    (items : List α) : firstMissing key? present items = firstMissing key? present' items := by
  induction items with
  | nil => rfl
  | cons a items ih =>
    have hcontains (k : κ) : present.contains k = present'.contains k := by
      rw [Bool.eq_iff_iff, List.contains_iff_mem, List.contains_iff_mem, h]
    simp only [firstMissing, hcontains, ih]

theorem firstSurplus_perm (items : List (α × κ)) {expected expected' : List κ}
    (h : Perm expected expected') : firstSurplus items expected = firstSurplus items expected' := by
  induction items generalizing expected expected' with
  | nil => rfl
  | cons item items ih =>
    obtain ⟨a, k⟩ := item
    have hcontains : expected.contains k = expected'.contains k := by
      rw [Bool.eq_iff_iff, List.contains_iff_mem, List.contains_iff_mem, h.mem_iff]
    rw [firstSurplus, firstSurplus, hcontains, ih (h.erase k)]

theorem sameKeys_perm {items items' : List (α × κ)} (others : List (α × κ))
    (h : Perm items items') : sameKeys others items = sameKeys others items' := by
  have hkeys := h.map Prod.snd
  rw [Bool.eq_iff_iff, sameKeys, sameKeys, Bool.and_eq_true, Bool.and_eq_true, decide_eq_true_eq,
    decide_eq_true_eq, List.isPerm_iff, List.isPerm_iff, h.length_eq]
  exact and_congr_right fun _ => ⟨fun hperm => hperm.trans hkeys, fun hperm => hperm.trans hkeys.symm⟩

/-- Whether an item is one too many does not depend on the order. -/
theorem firstSurplus_eq_none_iff {items : List α} (hall : AllKeyed key? items)
    (expected : List κ) : firstSurplus (keyedOnly key? items) expected = none ↔
      NoExcess (expected.map some) (items.map key?) := by
  rcases firstSurplus_spec hall expected with ⟨a, hrun, ha⟩ | ⟨hrun, hnone⟩
  · simp only [hrun, reduceCtorEq, false_iff]
    exact not_noExcess_of_firstExcess ha
  · exact iff_of_true hrun hnone

end Keys

theorem compareCounts_perm {user user' : List NodeView} (hperm : Perm user user')
    (hall : AllKeyed NodeView.key? user) (nodes : List (NodeView × NodeKey))
    (edges userEdges : List (Json × Scalar)) :
    Agree (compareCounts nodes (keyedOnly NodeView.key? user) edges userEdges)
      (compareCounts nodes (keyedOnly NodeView.key? user') edges userEdges) := by
  have hkeyed : Perm (keyedOnly NodeView.key? user) (keyedOnly NodeView.key? user') :=
    hperm.filterMap _
  have hnone : firstSurplus (keyedOnly NodeView.key? user) (nodes.map Prod.snd) = none ↔
      firstSurplus (keyedOnly NodeView.key? user') (nodes.map Prod.snd) = none := by
    have hcount := (hperm.map NodeView.key?).count_eq
    rw [firstSurplus_eq_none_iff hall, firstSurplus_eq_none_iff ((AllKeyed.perm hperm).mp hall)]
    simp only [NoExcess, hcount]
  rw [compareCounts, compareCounts, sameKeys_perm nodes hkeyed,
    firstSurplus_perm nodes (hkeyed.map Prod.snd)]
  split
  · exact .inl rfl
  · cases hfirst : firstSurplus (keyedOnly NodeView.key? user) (nodes.map Prod.snd) with
    | none =>
      rw [hnone.mp hfirst]
      exact .inl rfl
    | some n =>
      cases hfirst' : firstSurplus (keyedOnly NodeView.key? user') (nodes.map Prod.snd) with
      | none =>
        rw [hnone.mpr hfirst'] at hfirst
        cases hfirst
      | some n' => exact .inr ⟨n.label, n'.label, rfl, rfl⟩

/-- Two users who have the same nodes in different orders, and the same edges, are told the same. -/
theorem compare_perm (canonical : View) {user user' : View} (hnodes : Perm user.nodes user'.nodes)
    (hedges : user.edges = user'.edges) : Agree (canonical.compare user) (canonical.compare user') := by
  obtain ⟨nodes, edges⟩ := user
  obtain ⟨nodes', _⟩ := user'
  obtain rfl : edges = _ := hedges
  have hkeyed : Perm (keyedOnly NodeView.key? nodes) (keyedOnly NodeView.key? nodes') :=
    hnodes.filterMap _
  rw [compare, compare]
  rcases keyed_spec NodeView.key? nodes with ⟨hrun, hnot⟩ | ⟨hrun, hall⟩ <;>
    rcases keyed_spec NodeView.key? nodes' with ⟨hrun', hnot'⟩ | ⟨hrun', hall'⟩
  · exact .inl (by rw [hrun, hrun'])
  · exact absurd ((AllKeyed.perm hnodes).mpr hall') hnot
  · exact absurd ((AllKeyed.perm hnodes).mp hall) hnot'
  rw [hrun, hrun', Outcome.ok_bind, Outcome.ok_bind,
    firstMissing_congr (fun _ => (hkeyed.map Prod.snd).mem_iff) canonical.nodes]
  cases firstMissing NodeView.key? ((keyedOnly NodeView.key? nodes').map Prod.snd)
      canonical.nodes with
  | error f => exact .inl rfl
  | ok missing =>
    cases missing with
    | some n => exact .inl rfl
    | none =>
      rw [Outcome.ok_bind, Outcome.ok_bind]
      dsimp only
      cases keyed Json.scalar? edges with
      | error f => exact .inl rfl
      | ok userEdges =>
        rw [Outcome.ok_bind, Outcome.ok_bind]
        cases firstMissing Json.scalar? (userEdges.map Prod.snd) canonical.edges with
        | error f => exact .inl rfl
        | ok missing =>
          cases missing with
          | some name => exact .inl rfl
          | none => exact compareCounts_perm hnodes hall _ _ _

end View

end Lookahead
