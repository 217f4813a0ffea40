import Lookahead.Proofs.Graph.Laying
import Lookahead.Proofs.Tutor.SolveAll

/-!
# The groups of the first and of the follow step

The groups part the leaves. New leaves, all of them in the first step and those of the
follow sets in the follow step, share a group iff there are ways between them there and
back. Two different groups are joined by one edge iff a leaf edge at a new leaf leads from
the one to the other, and the groups have no circles.
-/

namespace Lookahead.Graph

open Naming (carried followLeaf)
open Relation (TransGen ReflTransGen)

variable {g g' : Graph} {kind : NodeKind} {made : List (List String × Node)} {added : List Edge}

/-- A leaf edge that touches a new leaf leads from a member of one group to one of another. -/
def Leads (g : Graph) (isNew : Json → Prop) (a b : String) : Prop :=
  ∃ m ∈ g.members a, ∃ n ∈ g.members b, (isNew m.label ∨ isNew n.label) ∧ g.LeafEdge m.id n.id

def groupEdges (g : Graph) (a b : String) : List Edge :=
  g.edges.filter fun e => e.isGroupEdge && (e.source = a && e.target = b)

/-- Every leaf lies in one group, and group edges stand for leaf edges at new leaves. -/
structure Partitioned (g : Graph) (isNew : Json → Prop) : Prop where
  grouped : ∀ n ∈ g.leaves, ∃! b, b ∈ g.groupIds ∧ n ∈ g.members b
  inhabited : ∀ b ∈ g.groupIds, ∃ n ∈ g.leaves, n ∈ g.members b
  shared : ∀ m ∈ g.leaves, ∀ n ∈ g.leaves, isNew m.label → isNew n.label →
    ((∃ b, m ∈ g.members b ∧ n ∈ g.members b) ↔
      ReflTransGen g.LeafEdge m.id n.id ∧ ReflTransGen g.LeafEdge n.id m.id)
  joined : ∀ a b, a ≠ b → g.Leads isNew a b → (g.groupEdges a b).length = 1
  only : ∀ e ∈ g.edges, e.isGroupEdge = true →
    e.source ≠ e.target ∧ g.Leads isNew e.source e.target
  acyclic : ∀ a, ¬TransGen (fun a b => g.groupEdges a b ≠ []) a a

theorem mem_members {n : Node} {b : String} : n ∈ g.members b ↔ n ∈ g.nodes ∧ n.group = some b := by
  simp [members]

theorem mem_groupEdges {e : Edge} {a b : String} :
    e ∈ g.groupEdges a b ↔ e ∈ g.edges ∧ e.isGroupEdge = true ∧ e.source = a ∧ e.target = b := by
  simp [groupEdges]

/-- Edges with different ends are told apart by them. -/
theorem length_groupEdges_eq_one (h : (g.edges.map Edge.ends).Nodup) {e : Edge} {a b : String}
    (he : e ∈ g.groupEdges a b) : (g.groupEdges a b).length = 1 := by
  have hnodup : ((g.groupEdges a b).map Edge.ends).Nodup :=
    h.sublist (List.filter_sublist.map Edge.ends)
  have hsub : (g.groupEdges a b).map Edge.ends ⊆ [(a, b)] := by
    intro ends hends
    obtain ⟨d, hd, rfl⟩ := List.mem_map.mp hends
    obtain ⟨-, -, rfl, rfl⟩ := mem_groupEdges.mp hd
    exact List.mem_singleton.mpr rfl
  have hle := (hnodup.subperm hsub).length_le
  have hpos := List.length_pos_of_mem he
  rw [List.length_map, List.length_singleton] at hle
  omega

namespace Ripe

variable (hg : g.Ripe kind) (hc : Condensation g g' kind made added) {isNew : Json → Prop}
  (hnew : ∀ n ∈ g.leaves, isNew n.label ↔ n.id ∈ g.pendingIds kind)
include hg hc hnew

theorem shared_iff_ways {m n : Node} (hm : m ∈ g'.leaves) (hn : n ∈ g'.leaves)
    (hmn : isNew m.label) (hnn : isNew n.label) :
    (∃ b, m ∈ g'.members b ∧ n ∈ g'.members b) ↔
      ReflTransGen g'.LeafEdge m.id n.id ∧ ReflTransGen g'.LeafEdge n.id m.id := by
  have hshare : (∃ b, m ∈ g'.members b ∧ n ∈ g'.members b) ↔
      ∃ b, m.group = some b ∧ n.group = some b := by
    simp only [mem_members, (mem_leaves.mp hm).1, (mem_leaves.mp hn).1, true_and]
  obtain ⟨m, hm₀, rfl⟩ := hc.mem_leaves_iff.mp hm
  obtain ⟨n, hn₀, rfl⟩ := hc.mem_leaves_iff.mp hn
  rw [label_assignAll] at hmn hnn
  have hmp := (hnew m hm₀).mp hmn
  have hnp := (hnew n hn₀).mp hnn
  rw [hshare, id_assignAll, id_assignAll, hg.reaches_iff hc hmp, hg.reaches_iff hc hnp]
  refine Iff.trans ?_ (hc.group_eq_iff hmp hnp)
  constructor
  · rintro ⟨b, hmb, hnb⟩
    exact hmb.trans hnb.symm
  · intro he
    obtain ⟨c, -, -, hsome⟩ := hc.exists_made hmp
    exact ⟨c.2.id, hsome, he.symm.trans hsome⟩

omit hg in
/-- What an edge at a leaf that was to be grouped leads between. -/
theorem leads_of_crosses {e : Edge} (he : e ∈ g.edges) (ht : Touches (g.pendingIds kind) e)
    {a b : String} (hcross : g'.Crosses e a b) : g'.Leads isNew a b := by
  obtain ⟨m, hm, hmid, hmleaf, hma⟩ := hcross.source
  obtain ⟨n, hn, hnid, hnleaf, hnb⟩ := hcross.target
  have hisNew {k : Node} (hk : k ∈ g'.leaves) (hid : k.id ∈ g.pendingIds kind) : isNew k.label := by
    obtain ⟨k, hk₀, rfl⟩ := hc.mem_leaves_iff.mp hk
    rw [id_assignAll] at hid
    rw [label_assignAll]
    exact (hnew k hk₀).mpr hid
  have hml : m ∈ g'.leaves := mem_leaves.mpr ⟨hm, hmleaf⟩
  have hnl : n ∈ g'.leaves := mem_leaves.mpr ⟨hn, hnleaf⟩
  refine ⟨m, mem_members.mpr ⟨hm, hma⟩, n, mem_members.mpr ⟨hn, hnb⟩, ?_, ⟨m, hml, rfl⟩,
    ⟨n, hnl, rfl⟩, e, (hc.mem_edges_iff hcross.isLeafEdge).mpr he, hcross.isLeafEdge, hmid.symm,
    hnid.symm⟩
  exact ht.imp (fun hs => hisNew hml (hmid ▸ hs)) fun ht => hisNew hnl (hnid ▸ ht)

theorem exists_groupEdge_of_leads {a b : String} (hne : a ≠ b) (h : g'.Leads isNew a b) :
    ∃ e, e ∈ g'.groupEdges a b := by
  obtain ⟨m, hm, n, hn, hisNew, ⟨k, hk, hkm⟩, ⟨l, hl, hln⟩, e, he, hplain, hs, ht⟩ := h
  obtain ⟨hm, hma⟩ := mem_members.mp hm
  obtain ⟨hn, hnb⟩ := mem_members.mp hn
  -- the members at the ends of the edge are the leaves with their ids
  obtain rfl : k = m := List.inj_on_of_nodup_map hc.tidy.nodup (mem_leaves.mp hk).1 hm hkm
  obtain rfl : l = n := List.inj_on_of_nodup_map hc.tidy.nodup (mem_leaves.mp hl).1 hn hln
  have htouch {k : Node} (hk : k ∈ g'.leaves) (hnk : isNew k.label) : k.id ∈ g.pendingIds kind := by
    obtain ⟨k, hk₀, rfl⟩ := hc.mem_leaves_iff.mp hk
    rw [label_assignAll] at hnk
    rw [id_assignAll]
    exact (hnew k hk₀).mp hnk
  have hcross : g'.Crosses e a b :=
    ⟨hplain, ⟨k, hm, hs.symm, (mem_leaves.mp hk).2, hma⟩, l, hn, ht.symm, (mem_leaves.mp hl).2, hnb⟩
  obtain ⟨d, hd, hsource, htarget⟩ := hc.complete e ((hc.mem_edges_iff hplain).mp he)
    (hisNew.imp (fun h => hs ▸ htouch hk h) fun h => ht ▸ htouch hl h) a b hcross hne
  obtain ⟨hd, hgroup⟩ := (hg.mem_added_iff hc).mp hd
  exact ⟨d, mem_groupEdges.mpr ⟨hd, hgroup, hsource, htarget⟩⟩

theorem partitioned {leaves : List String} {edges : List (String × String)}
    (h : g'.Condensed leaves edges) : g'.Partitioned isNew := by
  have honly : ∀ e ∈ g'.edges, e.isGroupEdge = true →
      e.source ≠ e.target ∧ g'.Leads isNew e.source e.target := by
    intro e he hgroup
    obtain ⟨-, hne, d, hd, ht, hcross⟩ := hc.sound e ((hg.mem_added_iff hc).mpr ⟨he, hgroup⟩)
    exact ⟨hne, leads_of_crosses hc hnew hd ht hcross⟩
  refine ⟨fun n hn => ?_, fun b hb => ?_, fun m hm n hn => hg.shared_iff_ways hc hnew hm hn,
    fun a b hne hleads => ?_, honly, fun a hcycle => hg.acyclic hc a ?_⟩
  · obtain ⟨hn, hleaf⟩ := mem_leaves.mp hn
    obtain ⟨-, -, -, b, hb, hsome⟩ := h.leaf n hn hleaf
    refine ⟨b, ⟨hb, mem_members.mpr ⟨hn, hsome⟩⟩, fun b' ⟨_, hb'⟩ => ?_⟩
    exact Option.some.inj ((mem_members.mp hb').2.symm.trans hsome)
  · obtain ⟨_, n, hn, hleaf, -, hsome⟩ := h.inhabited b hb
    exact ⟨n, mem_leaves.mpr ⟨hn, hleaf⟩, mem_members.mpr ⟨hn, hsome⟩⟩
  · obtain ⟨e, he⟩ := hg.exists_groupEdge_of_leads hc hnew hne hleads
    exact length_groupEdges_eq_one h.nodup he
  · refine TransGen.mono (fun a b hab => ?_) _ _ hcycle
    obtain ⟨e, he⟩ := List.exists_mem_of_ne_nil _ hab
    obtain ⟨hmem, hgroup, rfl, rfl⟩ := mem_groupEdges.mp he
    exact ⟨(honly e hmem hgroup).1, e, hmem, hgroup, rfl, rfl⟩

end Ripe

theorem FirstGraph.partitioned {grammar : Grammar} (h : FirstGraph grammar g)
    (hrun : first grammar = .ok g) : g.Partitioned fun _ => True := by
  obtain ⟨g₀, hbare, hcondense⟩ := exists_bare_of_first hrun
  have hripe := hbare.ripe (by decide)
  obtain ⟨made, added, hc⟩ := hripe.exists_condensation hcondense
  refine hripe.partitioned hc (fun n hn => ⟨fun _ => ?_, fun _ => trivial⟩) h.toCondensed
  exact hbare.mem_pendingIds (by decide) (List.mem_map_of_mem (mem_leaves.mp hn).1)

theorem FollowGraph.partitioned {grammar : Grammar} {first : Graph} (h : FollowGraph grammar first g)
    (hrun : follow grammar first = .ok g) :
    g.Partitioned fun label => ∃ s, label = .string (followLeaf s) := by
  obtain ⟨g₀, hlaid, hcondense⟩ := exists_laid_of_follow hrun
  obtain ⟨made, added, hc⟩ := hlaid.ripe.exists_condensation hcondense
  exact hlaid.ripe.partitioned hc (fun n hn => (hlaid.mem_pendingIds_iff hn).symm) h.toCondensed

/-- With the marks of the solved rounds the groups of the first and of the follow step part the
leaves by the ways between them, are joined by one edge for each pair that a leaf edge leads
between, and have no circles. -/
theorem exists_partitioned_graphs {grammar : Grammar} (hg : grammar.FromText) :
    ∃ f h, first (Nullability.solved grammar) = .ok f ∧
      follow (Nullability.solved grammar) f = .ok h ∧
      f.Partitioned (fun _ => True) ∧
      h.Partitioned fun label => ∃ s, label = .string (followLeaf s) := by
  obtain ⟨-, hs, -⟩ := Nullability.solved_spec hg.standard
  obtain ⟨f, hf, hfirst⟩ := exists_firstGraph hs.toLawful (firstLeaves_ne_nil hs)
  obtain ⟨h, hh, hfollow⟩ := exists_followGraph hs hfirst
  exact ⟨f, h, hf, hh, hfirst.partitioned hf, hfollow.partitioned hh⟩

theorem exists_partitioned_graphs_sample : ∃ g f h, Grammar.ofText Tutor.Sample.text = .ok g ∧
    first (Nullability.solved g) = .ok f ∧ follow (Nullability.solved g) f = .ok h ∧
    f.Partitioned (fun _ => True) ∧
    h.Partitioned fun label => ∃ s, label = .string (followLeaf s) := by
  obtain ⟨g, hg, -⟩ := Tutor.Sample.exists_grammar
  obtain ⟨f, h, hrest⟩ := exists_partitioned_graphs ⟨_, g, hg, .inl rfl⟩
  exact ⟨g, f, h, hg, hrest⟩

end Lookahead.Graph
