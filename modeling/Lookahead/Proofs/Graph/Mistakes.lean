import Lookahead.Proofs.Graph.Comparison
import Mathlib.Data.List.Nodup

/-!
# Single mistakes

If the keys of a view are all different, a view that lacks one of its nodes or edges, or has
one of them twice, is told what the mistake is. Where a key occurs twice on the canonical
side this would fail: what is left out once is still there.
-/

namespace Lookahead

open List (Perm)

/-! ### Places in a list -/

section Places

variable {α κ : Type} {key : α → κ} {others : List κ} {items before after : List α} {a b : α}

/-- What is left out is absent, and nothing else is. -/
theorem key_mem_iff_ne (hnodup : (items.map key).Nodup) (hsplit : items = before ++ a :: after)
    (hb : b ∈ items) : key b ∈ (before ++ after).map key ↔ b ≠ a := by
  subst hsplit
  rw [List.map_append, List.map_cons, List.nodup_middle, ← List.map_append] at hnodup
  constructor
  · rintro hmem rfl
    exact (List.nodup_cons.mp hnodup).1 hmem
  · intro hne
    refine List.mem_map_of_mem ?_
    rw [List.mem_append, List.mem_cons] at hb
    rcases hb with hb | hb | hb
    · exact List.mem_append_left _ hb
    · exact absurd hb hne
    · exact List.mem_append_right _ hb

variable [BEq κ] [LawfulBEq κ] {keys : List κ} {k : κ}

/-- If one key was added, it is the one in excess. -/
theorem FirstExcess.key_eq (h : FirstExcess key others items a)
    (hadded : Perm (items.map key) (k :: others)) : key a = k := by
  by_contra hne
  obtain ⟨before, after, rfl, -, ha⟩ := h
  have hcount := hadded.count_eq (key a)
  rw [List.map_append, List.map_cons, List.count_append, List.count_cons_self, ha,
    List.count_cons_of_ne (Ne.symm hne)] at hcount
  omega

theorem not_noExcess_of_perm_cons (hadded : Perm keys (k :: others)) : ¬NoExcess others keys := by
  intro h
  have hle := h k
  rw [hadded.count_eq k, List.count_cons_self] at hle
  omega

end Places

namespace View

variable {canonical user : View}

theorem AllKeyed.mono {α κ : Type} {key? : α → Option κ} {items others : List α}
    (h : AllKeyed key? items) (hsub : others ⊆ items) : AllKeyed key? others :=
  fun a ha => h a (hsub ha)

theorem Comparable.mono (h : canonical.Comparable) (hnodes : user.nodes ⊆ canonical.nodes)
    (hedges : user.edges ⊆ canonical.edges) : user.Comparable :=
  ⟨h.1.mono hnodes, h.2.mono hedges⟩

theorem exists_judged (hc : canonical.Comparable) (hu : user.Comparable) :
    ∃ verdict, canonical.compare user = .ok verdict ∧ Judged canonical user verdict :=
  (compare_spec canonical user).resolve_left fun h => h.2 ⟨hc, hu⟩

theorem compare_eq_correct (hc : canonical.Comparable) (hu : user.Comparable)
    (h : canonical.Matches user) : canonical.compare user = .ok .correct := by
  obtain ⟨verdict, hrun, hjudged⟩ := exists_judged hc hu
  cases hjudged with
  | correct => exact hrun
  | wrong hd => exact absurd h hd.not_matches

theorem compare_eq_wrong {d : Discrepancy} (hc : canonical.Comparable) (hu : user.Comparable)
    (h : ¬canonical.Matches user) (hd : ∀ d', Diagnosis canonical user d' → d' = d) :
    canonical.compare user = .ok (.wrong d) := by
  obtain ⟨verdict, hrun, hjudged⟩ := exists_judged hc hu
  cases hjudged with
  | correct hmatches => exact absurd hmatches h
  | wrong hd' => rw [hrun, hd _ hd']

/-- Nodes are told apart by their keys and edges by their names. -/
structure Clear (v : View) : Prop where
  comparable : v.Comparable
  nodes : v.nodeKeys.Nodup
  edges : v.edgeKeys.Nodup

namespace Clear

variable {v : View} (h : v.Clear)
include h

theorem compare_missingNode {before after : List NodeView} {n : NodeView} {edges : List Json}
    (hsplit : v.nodes = before ++ n :: after) (hedges : edges ⊆ v.edges) :
    v.compare { nodes := before ++ after, edges } = .ok (.wrong ⟨.missingNode, n.label⟩) := by
  have hn : n ∈ v.nodes := by simp [hsplit]
  have habsent {m : NodeView} (hm : m ∈ v.nodes) :
      m.key? ∈ (before ++ after).map NodeView.key? ↔ m ≠ n := key_mem_iff_ne h.nodes hsplit hm
  have hnot : ¬v.nodeKeys ⊆ (before ++ after).map NodeView.key? := fun hsub =>
    (habsent hn).mp (hsub (List.mem_map_of_mem hn)) rfl
  refine compare_eq_wrong h.comparable (h.comparable.mono ?_ hedges)
    (fun hmatches => hnot hmatches.1.subset) fun d hd => ?_
  · rw [hsplit]
    exact List.append_subset.mpr ⟨by simp, by simp⟩
  · cases hd with
    | absentNode first =>
      obtain ⟨hm, hkey⟩ := first.mem
      rw [not_not.mp fun hne => hkey ((habsent hm).mpr hne)]
    | absentEdge nodes => exact absurd nodes hnot
    | extraNode covered => exact absurd covered.1 hnot
    | extraEdge covered => exact absurd covered.1 hnot
    | rareNode covered => exact absurd covered.1 hnot
    | rareEdge covered => exact absurd covered.1 hnot

theorem compare_missingEdge {before after : List Json} {name : Json}
    (hsplit : v.edges = before ++ name :: after) :
    v.compare { v with edges := before ++ after } = .ok (.wrong ⟨.missingEdge, name⟩) := by
  have hname : name ∈ v.edges := by simp [hsplit]
  have habsent {other : Json} (hother : other ∈ v.edges) :
      other.scalar? ∈ (before ++ after).map Json.scalar? ↔ other ≠ name :=
    key_mem_iff_ne h.edges hsplit hother
  have hnot : ¬v.edgeKeys ⊆ (before ++ after).map Json.scalar? := fun hsub =>
    (habsent hname).mp (hsub (List.mem_map_of_mem hname)) rfl
  refine compare_eq_wrong h.comparable (h.comparable.mono (List.Subset.refl _) ?_)
    (fun hmatches => hnot hmatches.2.subset) fun d hd => ?_
  · rw [hsplit]
    exact List.append_subset.mpr ⟨by simp, by simp⟩
  · cases hd with
    | absentNode first =>
      obtain ⟨hm, hkey⟩ := first.mem
      exact absurd (List.mem_map_of_mem hm) hkey
    | absentEdge _ first =>
      obtain ⟨hm, hkey⟩ := first.mem
      rw [not_not.mp fun hne => hkey ((habsent hm).mpr hne)]
    | extraNode covered => exact absurd covered.2 hnot
    | extraEdge covered => exact absurd covered.2 hnot
    | rareNode covered => exact absurd covered.2 hnot
    | rareEdge covered => exact absurd covered.2 hnot

theorem compare_extraNode {before after : List NodeView} {n : NodeView}
    (hsplit : v.nodes = before ++ after) (hn : n ∈ v.nodes) :
    v.compare { v with nodes := before ++ n :: after } = .ok (.wrong ⟨.extraNode, n.label⟩) := by
  have hperm : Perm (before ++ n :: after) (n :: v.nodes) := hsplit ▸ List.perm_middle
  have hadded : Perm ((before ++ n :: after).map NodeView.key?) (n.key? :: v.nodeKeys) :=
    hperm.map NodeView.key?
  have hsub : before ++ n :: after ⊆ v.nodes := fun m hm =>
    (List.mem_cons.mp (hperm.subset hm)).elim (fun he => he ▸ hn) id
  have hnot := not_noExcess_of_perm_cons hadded
  refine compare_eq_wrong h.comparable (h.comparable.mono hsub (List.Subset.refl _))
    (fun hmatches => hnot fun k => Nat.le_of_eq (hmatches.1.symm.count_eq k)) fun d hd => ?_
  cases hd with
  | absentNode first =>
    obtain ⟨hm, hkey⟩ := first.mem
    exact absurd (hadded.symm.subset (List.mem_cons_of_mem _ (List.mem_map_of_mem hm))) hkey
  | absentEdge _ first =>
    obtain ⟨hm, hkey⟩ := first.mem
    exact absurd (List.mem_map_of_mem hm) hkey
  | extraNode _ first =>
    have hkey := first.key_eq hadded
    obtain ⟨_, _, hplace, -⟩ := first
    have hm := hsub (hplace ▸ List.mem_append_right _ (List.mem_cons_self ..))
    rw [List.inj_on_of_nodup_map h.nodes hm hn hkey]
  | extraEdge _ nodes => exact absurd nodes hnot
  | rareNode _ nodes => exact absurd nodes hnot
  | rareEdge _ nodes => exact absurd (fun k => Nat.le_of_eq (nodes.symm.count_eq k)) hnot

theorem compare_extraEdge {before after : List Json} {name : Json}
    (hsplit : v.edges = before ++ after) (hname : name ∈ v.edges) :
    v.compare { v with edges := before ++ name :: after } = .ok (.wrong ⟨.extraEdge, name⟩) := by
  have hperm : Perm (before ++ name :: after) (name :: v.edges) := hsplit ▸ List.perm_middle
  have hadded : Perm ((before ++ name :: after).map Json.scalar?) (name.scalar? :: v.edgeKeys) :=
    hperm.map Json.scalar?
  have hsub : before ++ name :: after ⊆ v.edges := fun m hm =>
    (List.mem_cons.mp (hperm.subset hm)).elim (fun he => he ▸ hname) id
  have hnot := not_noExcess_of_perm_cons hadded
  have hsame : NoExcess v.nodeKeys v.nodeKeys := fun _ => Nat.le_refl _
  refine compare_eq_wrong h.comparable (h.comparable.mono (List.Subset.refl _) hsub)
    (fun hmatches => hnot fun k => Nat.le_of_eq (hmatches.2.symm.count_eq k)) fun d hd => ?_
  cases hd with
  | absentNode first =>
    obtain ⟨hm, hkey⟩ := first.mem
    exact absurd (List.mem_map_of_mem hm) hkey
  | absentEdge _ first =>
    obtain ⟨hm, hkey⟩ := first.mem
    exact absurd (hadded.symm.subset (List.mem_cons_of_mem _ (List.mem_map_of_mem hm))) hkey
  | extraNode _ first => exact absurd hsame (not_noExcess_of_firstExcess first)
  | extraEdge _ _ first =>
    have hkey := first.key_eq hadded
    obtain ⟨_, _, hplace, -⟩ := first
    have hm := hsub (hplace ▸ List.mem_append_right _ (List.mem_cons_self ..))
    rw [List.inj_on_of_nodup_map h.edges hm hname hkey]
  | rareNode _ _ _ first => exact absurd hsame (not_noExcess_of_firstExcess first)
  | rareEdge _ _ edges => exact absurd edges hnot

end Clear

end View

end Lookahead
