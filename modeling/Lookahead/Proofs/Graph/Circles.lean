import Lookahead.Proofs.Graph.Condensing
import Mathlib.Logic.Relation

/-!
# Groups without circles

The leaves that condensing groups share a group iff there are ways between them there and
back. Where every edge that touches such a leaf leads to one, group edges lead to new groups
only, and a way along them is one between the leaves of its ends: none leads back.
-/

namespace Lookahead.Graph

open Lookahead.Digraph (Reaches Mutual)
open Relation (TransGen ReflTransGen)

variable {g g' : Graph} {kind : NodeKind} {made : List (List String × Node)} {added : List Edge}

/-- A group edge leads from one node to another. -/
def Joined (g : Graph) (a b : String) : Prop :=
  a ≠ b ∧ ∃ e ∈ g.edges, e.isGroupEdge = true ∧ e.source = a ∧ e.target = b

/-- No way along the group edges between different nodes leads back to where it began. -/
def Acyclic (g : Graph) : Prop := ∀ a, ¬TransGen g.Joined a a

/-- An edge that is no group edge leads from one leaf to another. -/
def LeafEdge (g : Graph) (a b : String) : Prop :=
  (∃ n ∈ g.leaves, n.id = a) ∧ (∃ n ∈ g.leaves, n.id = b) ∧
    ∃ e ∈ g.edges, e.isGroupEdge = false ∧ e.source = a ∧ e.target = b

theorem mem_leaves {n : Node} : n ∈ g.leaves ↔ n ∈ g.nodes ∧ n.isGroup = false := by
  simp [leaves]

theorem mem_leaves_of_mem_pending {n : Node} (hn : n ∈ g.pending kind) : n ∈ g.leaves := by
  obtain ⟨hn, hleaf, _⟩ := mem_pending.mp hn
  exact mem_leaves.mpr ⟨hn, hleaf⟩

/-- A graph whose leaves of a kind can be grouped, if there are any, and in which edges lead into
these leaves but not out of them to others. -/
structure Ripe (g : Graph) (kind : NodeKind) : Prop where
  tidy : g.Tidy
  leaf : ∀ n ∈ g.nodes, n.isGroup = false → (∃ label : String, n.label = .string label) ∧
    (n.kind = kind ∧ n.group = none ∨ ∃ a ∈ g.groupIds, n.group = some a)
  edge : ∀ e ∈ g.edges, e.isGroupEdge = false ∧
    (Touches (g.pendingIds kind) e → g.IsLeaf e.source ∧ e.target ∈ g.pendingIds kind)

theorem Ripe.condensable (h : g.Ripe kind) (hne : g.pendingIds kind ≠ []) :
    g.Condensable kind := by
  refine ⟨h.tidy, h.leaf, fun e he => ⟨(h.edge e he).1, fun ht => ?_⟩, hne⟩
  obtain ⟨hs, ht⟩ := (h.edge e he).2 ht
  obtain ⟨n, hn, hid⟩ := List.mem_map.mp ht
  obtain ⟨hn, hleaf, _⟩ := mem_pending.mp hn
  exact ⟨hs, n, hn, hid, hleaf, (h.leaf n hn hleaf).1⟩

/-- Whatever condensing gives is a condensation, also if there was nothing to group. -/
theorem Ripe.exists_condensation (h : g.Ripe kind) (hrun : (condense kind).result g = .ok g') :
    ∃ made added, Condensation g g' kind made added := by
  by_cases hne : g.pendingIds kind = []
  · have hkeep : (condense kind).result g = .ok g := by
      rw [Edit.result, condense, Outcome.run_get_bind]
      rw [show (g.pending kind).map Node.id = [] from hne]
      rfl
    obtain rfl := Except.ok.inj (hkeep.symm.trans hrun)
    refine ⟨[], [], h.tidy, ?_, (List.append_nil _).symm, by simp, ?_, by simp, by simp, ?_⟩
    · exact ((List.append_nil _).trans (List.map_id _)).symm
    · refine (List.eq_nil_iff_forall_not_mem.mpr fun c hc => ?_).symm
      obtain ⟨x, hx⟩ := List.exists_mem_of_ne_nil c (Digraph.ne_nil_of_mem_components hc)
      obtain ⟨r, hr, -⟩ := Digraph.exists_mem_components_iff.mp ⟨c, hc, hx⟩
      simp [hne] at hr
    · rintro d _ (hd | hd) <;> simp [hne] at hd
  · obtain ⟨groups, g₁, made, added, hcondense, hspec⟩ := condense_spec (h.condensable hne)
    rw [Edit.result, hcondense] at hrun
    obtain rfl := Except.ok.inj hrun
    exact ⟨made, added, hspec⟩

namespace Condensation

variable (hc : Condensation g g' kind made added)
include hc

theorem mem_leaves_iff {n' : Node} : n' ∈ g'.leaves ↔ ∃ n ∈ g.leaves, assignAll made n = n' := by
  rw [mem_leaves, hc.nodes_eq]
  constructor
  · rintro ⟨hn', hleaf⟩
    rcases List.mem_append.mp hn' with hn' | hn'
    · obtain ⟨n, hn, rfl⟩ := List.mem_map.mp hn'
      rw [isGroup_assignAll] at hleaf
      exact ⟨n, mem_leaves.mpr ⟨hn, hleaf⟩, rfl⟩
    · obtain ⟨c, hm, rfl⟩ := List.mem_map.mp hn'
      simp [Node.isGroup, (hc.group c hm).1] at hleaf
  · rintro ⟨n, hn, rfl⟩
    obtain ⟨hn, hleaf⟩ := mem_leaves.mp hn
    exact ⟨List.mem_append_left _ (List.mem_map_of_mem hn), (isGroup_assignAll made n).trans hleaf⟩

theorem mem_edges_iff {e : Edge} (hplain : e.isGroupEdge = false) :
    e ∈ g'.edges ↔ e ∈ g.edges := by
  rw [hc.edges_eq, List.mem_append]
  refine ⟨fun he => he.resolve_right fun he => ?_, .inl⟩
  rw [(hc.sound e he).1] at hplain
  cases hplain

/-- Leaves that were to be grouped share a group iff there are ways between them. -/
theorem group_eq_iff {m n : Node} (hm : m.id ∈ g.pendingIds kind) (hn : n.id ∈ g.pendingIds kind) :
    (assignAll made m).group = (assignAll made n).group ↔
      Mutual (g.linksWithin (g.pendingIds kind)) m.id n.id := by
  obtain ⟨c, hcm, hmc, hgroup⟩ := hc.exists_made hm
  rw [hgroup, ← hc.mem_made_iff_mutual hcm hmc]
  constructor
  · intro he
    obtain ⟨d, hdm, hnd, hgroup'⟩ := hc.exists_made hn
    obtain rfl := hc.eq_of_id hcm hdm (Option.some.inj (he.trans hgroup'))
    exact hnd
  · exact fun hnc => (hc.group_of_mem hcm hnc).symm

end Condensation

namespace Ripe

variable (hg : g.Ripe kind) (hc : Condensation g g' kind made added)
include hg hc

/-- The other leaves stay in the groups that were there before. -/
theorem exists_old_group {n : Node} (hn : n ∈ g.leaves) (hid : n.id ∉ g.pendingIds kind) :
    ∃ a ∈ g.groupIds, (assignAll made n).group = some a := by
  obtain ⟨hn, hleaf⟩ := mem_leaves.mp hn
  rcases exists_group_assignAll hg.tidy hc.components hn hleaf (hg.leaf n hn hleaf).2 with
    ⟨hk, hnone, -⟩ | ⟨a, ha, hsome, hkeep⟩
  · exact absurd (List.mem_map_of_mem (mem_pending.mpr ⟨hn, hleaf, hk, hnone⟩)) hid
  · exact ⟨a, ha, hkeep.symm ▸ hsome⟩

theorem mem_added_iff {e : Edge} : e ∈ added ↔ e ∈ g'.edges ∧ e.isGroupEdge = true := by
  rw [hc.edges_eq, List.mem_append]
  constructor
  · exact fun he => ⟨.inr he, (hc.sound e he).1⟩
  · rintro ⟨he, hgroup⟩
    refine he.resolve_left fun he => ?_
    rw [(hg.edge e he).1] at hgroup
    cases hgroup

/-- Edges out of leaves that were to be grouped lead to such leaves. -/
theorem leafEdge_iff {a b : String} (ha : a ∈ g.pendingIds kind) :
    g'.LeafEdge a b ↔ (a, b) ∈ g.linksWithin (g.pendingIds kind) := by
  have hleaf {id : String} (hid : id ∈ g.pendingIds kind) : ∃ n ∈ g'.leaves, n.id = id := by
    obtain ⟨n, hn, rfl⟩ := List.mem_map.mp hid
    exact ⟨_, hc.mem_leaves_iff.mpr ⟨n, mem_leaves_of_mem_pending hn, rfl⟩, id_assignAll ..⟩
  rw [mem_linksWithin]
  constructor
  · rintro ⟨-, -, e, he, hplain, rfl, rfl⟩
    have he := (hc.mem_edges_iff hplain).mp he
    exact ⟨ha, ((hg.edge e he).2 (.inl ha)).2, e, he, rfl, rfl⟩
  · rintro ⟨-, hb, e, he, rfl, rfl⟩
    have hplain := (hg.edge e he).1
    exact ⟨hleaf ha, hleaf hb, e, (hc.mem_edges_iff hplain).mpr he, hplain, rfl, rfl⟩

theorem reaches_iff {a b : String} (ha : a ∈ g.pendingIds kind) :
    ReflTransGen g'.LeafEdge a b ↔ Reaches (g.linksWithin (g.pendingIds kind)) a b := by
  constructor
  · intro h
    induction h with
    | refl => exact .refl
    | tail _ hstep ih => exact ih.tail ((hg.leafEdge_iff hc (mem_of_reaches ih ha)).mp hstep)
  · intro h
    induction h with
    | refl => exact .refl
    | tail hway hstep ih => exact ih.tail ((hg.leafEdge_iff hc (mem_of_reaches hway ha)).mpr hstep)

/-- A group edge stands for an edge into a leaf of a new group. -/
theorem exists_made_of_joined {a b : String} (h : g'.Joined a b) :
    ∃ d ∈ made, d.2.id = b ∧ ∃ y ∈ d.1, ∀ c ∈ made, c.2.id = a →
      ∃ x ∈ c.1, (x, y) ∈ g.linksWithin (g.pendingIds kind) := by
  obtain ⟨-, e, he, hgroup, rfl, rfl⟩ := h
  obtain ⟨-, -, l, hl, htouch, hcross⟩ := hc.sound e ((hg.mem_added_iff hc).mpr ⟨he, hgroup⟩)
  have htarget := ((hg.edge l hl).2 htouch).2
  obtain ⟨n', hn', hid', hleaf', hb⟩ := hcross.target
  obtain ⟨n, -, rfl⟩ := hc.mem_leaves_iff.mp (mem_leaves.mpr ⟨hn', hleaf'⟩)
  rw [id_assignAll] at hid'
  obtain ⟨d, hd, hmem, hsome⟩ := hc.exists_made (hid' ▸ htarget)
  refine ⟨d, hd, Option.some.inj (hsome.symm.trans hb), l.target, hid' ▸ hmem, fun c hcm ha => ?_⟩
  obtain ⟨m', hm', hmid', hmleaf', hma⟩ := hcross.source
  obtain ⟨m, hm, rfl⟩ := hc.mem_leaves_iff.mp (mem_leaves.mpr ⟨hm', hmleaf'⟩)
  rw [id_assignAll] at hmid'
  by_cases hsource : m.id ∈ g.pendingIds kind
  · obtain ⟨c', hcm', hmem', hsome'⟩ := hc.exists_made hsource
    obtain rfl := hc.eq_of_id hcm hcm' (ha.trans (Option.some.inj (hma.symm.trans hsome')))
    exact ⟨l.source, hmid' ▸ hmem', mem_linksWithin.mpr ⟨hmid' ▸ hsource, htarget, l, hl, rfl, rfl⟩⟩
  · obtain ⟨b, hb, hsome'⟩ := hg.exists_old_group hc hm hsource
    rw [← Option.some.inj (hma.symm.trans hsome'), ← ha] at hb
    exact absurd hb (hc.id_not_mem_groupIds hcm)

/-- No group edge leads to a group that was there before. -/
theorem not_mem_groupIds_of_joined {a b : String} (h : g'.Joined a b) : b ∉ g.groupIds := by
  obtain ⟨d, hd, rfl, -⟩ := hg.exists_made_of_joined hc h
  exact hc.id_not_mem_groupIds hd

/-- A way along group edges is one between the leaves of the groups. -/
theorem reaches_of_transGen {a b : String} (h : TransGen g'.Joined a b)
    {c : List String × Node} (hcm : c ∈ made) (ha : c.2.id = a) :
    ∃ d ∈ made, d.2.id = b ∧ ∀ x ∈ c.1, ∀ y ∈ d.1,
      Reaches (g.linksWithin (g.pendingIds kind)) x y := by
  have hstep {c : List String × Node} (hcm : c ∈ made) {b : String} (h : g'.Joined c.2.id b) :
      ∃ d ∈ made, d.2.id = b ∧ (∃ x, x ∈ c.1) ∧ ∀ x ∈ c.1, ∀ y ∈ d.1,
        Reaches (g.linksWithin (g.pendingIds kind)) x y := by
    obtain ⟨d, hd, hb, y, hy, hlinks⟩ := hg.exists_made_of_joined hc h
    obtain ⟨x, hx, hlink⟩ := hlinks c hcm rfl
    refine ⟨d, hd, hb, ⟨x, hx⟩, fun x' hx' y' hy' => ?_⟩
    have hto := ((hc.mem_made_iff_mutual hcm hx').mp hx).1
    exact (hto.tail hlink).trans ((hc.mem_made_iff_mutual hd hy).mp hy').1
  subst ha
  induction h with
  | single h =>
    obtain ⟨d, hd, hb, -, hreach⟩ := hstep hcm h
    exact ⟨d, hd, hb, hreach⟩
  | tail _ h ih =>
    obtain ⟨d, hd, rfl, hreach⟩ := ih
    obtain ⟨d', hd', hb, ⟨y, hy⟩, hreach'⟩ := hstep hd h
    exact ⟨d', hd', hb, fun x hx z hz => (hreach x hx y hy).trans (hreach' y hy z hz)⟩

theorem acyclic : g'.Acyclic := by
  intro a hcycle
  obtain ⟨_, -, hlast⟩ := TransGen.tail'_iff.mp hcycle
  obtain ⟨c, hcm, rfl, -⟩ := hg.exists_made_of_joined hc hlast
  obtain ⟨b, hfirst, hback⟩ := TransGen.head'_iff.mp hcycle
  obtain ⟨d, hd, rfl, y, hy, hlinks⟩ := hg.exists_made_of_joined hc hfirst
  obtain ⟨x, hx, hlink⟩ := hlinks c hcm rfl
  rcases Relation.reflTransGen_iff_eq_or_transGen.mp hback with he | hback
  · exact hfirst.1 he
  · obtain ⟨c', hcm', hid, hreach⟩ := hg.reaches_of_transGen hc hback hd rfl
    obtain rfl := hc.eq_of_id hcm' hcm hid
    have hyc := (hc.mem_made_iff_mutual hcm hx).mpr ⟨.single hlink, hreach y hy x hx⟩
    -- a leaf lies in one component
    have hgroup := hc.group_of_mem hcm (n := ⟨y, .group, .null, none⟩) hyc
    exact hfirst.1 (Option.some.inj (hgroup.symm.trans (hc.group_of_mem hd hy)))

end Ripe

end Lookahead.Graph
