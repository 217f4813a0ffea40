import Lookahead.Proofs.Graph.Rearranging
import Lookahead.Proofs.Tutor.Connections

/-!
# Drawings made into graphs

A drawing can be compared as it is, or a graph is made of it first. The graph has the
groups before the other nodes and keeps none of the names that are written on edges. If
nothing else than the names that the ends give is written there, both ways lead to the same
verdict; only of several superfluous nodes another one may be named.
-/

namespace Lookahead

open List (Perm)

namespace Drawing

variable {d : Drawing}

theorem perm_nodes_toGraph (d : Drawing) (phase : String) :
    Perm (d.toGraph phase).nodes (d.nodes.map (DrawnNode.toNode d.nodeIds)) :=
  d.perm_ordered.map _

variable (h : d.Shaped)
include h

/-- The nodes of a drawing are found in its graph. -/
theorem node?_toGraph (phase : String) {n : DrawnNode} (hn : n ∈ d.nodes) {id : Json}
    (hid : id.spelling = n.id.spelling) :
    (d.toGraph phase).node? (idText d.nodeIds id.spelling) = some (n.toNode d.nodeIds) := by
  have hnodup : (d.toGraph phase).nodeIds.Nodup := by
    rw [Graph.nodeIds, ((perm_nodes_toGraph d phase).map Node.id).nodup_iff, List.map_map]
    exact nodup_idTexts h.nodes
  rw [Graph.node?_eq_some_iff_of_nodup hnodup, (perm_nodes_toGraph d phase).mem_iff, hid]
  exact ⟨List.mem_map_of_mem hn, rfl⟩

theorem perm_nodes_view (phase : String) :
    Perm (View.ofDrawing d).nodes (View.ofGraph (d.toGraph phase)).nodes := by
  have hview : (View.ofDrawing d).nodes = (d.nodes.map (DrawnNode.toNode d.nodeIds)).map fun n =>
      ⟨n.kind, n.label, ((d.toGraph phase).parentLabel? n).getD .null⟩ := by
    rw [List.map_map]
    refine List.map_congr_left fun n hn => congrArg (NodeView.mk n.kind n.label) ?_
    rw [Graph.parentLabel?, DrawnNode.toNode, DrawnNode.outside]
    cases hp : n.parent with
    | none => rfl
    | some parent =>
      obtain ⟨-, m, hm, -, hid⟩ := h.parents n hn parent hp
      simp only [Option.map_some, Option.elim_some, Option.bind_eq_bind, Option.bind_some,
        node?_toGraph h phase hm hid.symm, Option.pure_def, Option.getD_some]
      exact labelOf_eq h.nodes hm hid
  rw [hview]
  exact (perm_nodes_toGraph d phase).symm.map _

theorem labelSpelling_toGraph (phase : String) {id : Json} (hid : id.spelling ∈ d.nodeIds) :
    (d.toGraph phase).labelSpelling (idText d.nodeIds id.spelling) =
      (View.labelOf d.nodes id).spelling := by
  obtain ⟨n, hn, he, hlabel⟩ := exists_labelOf hid
  rw [Graph.labelSpelling, node?_toGraph h phase hn he, hlabel]
  rfl

theorem edges_view (hhonest : ∀ e ∈ d.edges, d.Honest e) (phase : String) :
    (View.ofDrawing d).edges = (View.ofGraph (d.toGraph phase)).edges := by
  simp only [View.ofDrawing, View.ofGraph, toGraph, List.map_map]
  refine List.map_congr_left fun e he => ?_
  obtain ⟨hsource, htarget⟩ := h.ends e he
  rw [edgeNameOf_of_honest (hhonest e he), DrawnEdge.nameOfEnds,
    ← labelSpelling_toGraph h phase hsource, ← labelSpelling_toGraph h phase htarget]
  rfl

omit h

theorem not_unsuitable (hlabels : ∀ n ∈ d.nodes, ∃ s : Text.Loose, n.label = .string s)
    (hhonest : ∀ e ∈ d.edges, d.Honest e) : ¬d.Unsuitable := by
  rintro (⟨n, hn, hlabel⟩ | ⟨e, he, htruthy, hname⟩)
  · obtain ⟨s, hs⟩ := hlabels n hn
    rw [hs, Json.composite_iff] at hlabel
    cases hlabel
  · rw [hhonest e he htruthy, Json.composite_iff] at hname
    cases hname

end Drawing

namespace Graph

/-- As data or made into a graph, a drawing gets the same verdict. -/
theorem agree_check_ofJson {u : Json} {d : Drawing} (hd : Drawing.ofJson u = .ok d)
    (hhonest : ∀ e ∈ d.edges, d.Honest e) (canonical : Graph) :
    ∃ read, ofJson u = .ok read ∧ Agree (GraphLike.check (.graph canonical) (.data u))
      (GraphLike.check (.graph canonical) (.graph read)) := by
  have h := Drawing.shaped_of_ofJson hd
  have hdata : GraphLike.check (.graph canonical) (.data u) =
      (View.ofGraph canonical).compare (View.ofDrawing d) := check_of_drawing hd
  refine ⟨d.toGraph "User", ofJson_eq hd _, ?_⟩
  rw [hdata, check_of_graph]
  exact View.compare_perm _ (Drawing.perm_nodes_view h _) (Drawing.edges_view h hhonest _)

/-- A verdict is given unless a label or a name cannot be compared. -/
theorem exists_verdict {canonical : Graph} (hc : ¬canonical.Unsuitable) {u : Json} {d : Drawing}
    (hd : Drawing.ofJson u = .ok d) (hsuitable : ¬d.Unsuitable) :
    ∃ verdict, GraphLike.check (.graph canonical) (.data u) = .ok verdict := by
  have hdata : GraphLike.check (.graph canonical) (.data u) =
      (View.ofGraph canonical).compare (View.ofDrawing d) := check_of_drawing hd
  rw [hdata]
  rcases View.compare_spec (View.ofGraph canonical) (View.ofDrawing d) with
    ⟨-, hnot⟩ | ⟨verdict, hrun, -⟩
  · exact absurd ⟨View.comparable_ofGraph hc, View.comparable_ofDrawing hsuitable⟩ hnot
  · exact ⟨verdict, hrun⟩

end Graph

namespace Tutor

/-- The canonical graph of every step is read back as it was written, with its groups first. And
whatever graph counts as canonical, a drawing gets the same verdict as data and made into a graph,
unless names are written on its edges that their ends do not give; only where a node is one too many
may another such node be named. -/
theorem phaseGraph_rebuilt :
    (∀ g : Grammar, g.FromText → ∀ phase : GraphPhase, ∃ t graph t',
      Tutor.ofGrammar g = .ok t ∧ phaseGraph phase.name t = .ok graph t' ∧
        ∀ name, ∃ read, Graph.ofJson graph.toJson name = .ok read ∧
          read.nodes = graph.groups ++ graph.leaves ∧ read.edges = graph.edges ∧
          read.edgeNames = graph.edgeNames) ∧
    ∀ (canonical : Graph) (u : Json) (d : Drawing), Drawing.ofJson u = .ok d →
      (∀ n ∈ d.nodes, ∃ s : Text.Loose, n.label = .string s) → (∀ e ∈ d.edges, d.Honest e) →
        ∃ read, Graph.ofJson u = .ok read ∧
          Agree (GraphLike.check (.graph canonical) (.data u))
            (GraphLike.check (.graph canonical) (.graph read)) ∧
          (¬canonical.Unsuitable →
            ∃ verdict, GraphLike.check (.graph canonical) (.data u) = .ok verdict) := by
  refine ⟨fun g hg phase => ?_, fun canonical u d hd hlabels hhonest => ?_⟩
  · obtain ⟨t, graph, t', ht, hrun, hdistinct⟩ := exists_phaseGraph hg phase
    exact ⟨t, graph, t', ht, hrun, fun name => ⟨_, hdistinct.ofJson_toJson name, rfl, rfl,
      hdistinct.edgeNames_regrouped name⟩⟩
  · obtain ⟨read, hread, hagree⟩ := Graph.agree_check_ofJson hd hhonest canonical
    exact ⟨read, hread, hagree, fun hc =>
      Graph.exists_verdict hc hd (Drawing.not_unsuitable hlabels hhonest)⟩

open Drawn

theorem phaseGraph_rebuilt_sample : ∃ g t graph t' read drawn, Grammar.ofText "A -> a" = .ok g ∧
    Tutor.ofGrammar g = .ok t ∧ phaseGraph GraphPhase.empty.name t = .ok graph t' ∧
      Graph.ofJson graph.toJson = .ok read ∧ read.edges = graph.edges ∧
      Graph.ofJson named = .ok drawn ∧
      GraphLike.check (.graph graph) (.graph drawn) = .ok .correct ∧
      ∃ verdict, GraphLike.check (.graph graph) (.data named) = .ok verdict := by
  obtain ⟨g, t, graph, t', hg, ht, hrun, -, hcheck, -⟩ := exists_graph
  have hfrom : g.FromText := ⟨_, g, hg, .inl rfl⟩
  obtain ⟨t₁, graph₁, t₁', ht₁, hrun₁, hread⟩ := phaseGraph_rebuilt.1 g hfrom .empty
  obtain ⟨t₂, graph₂, t₂', ht₂, hrun₂, hdistinct⟩ := exists_phaseGraph hfrom .empty
  obtain rfl := Except.ok.inj (ht.symm.trans ht₁)
  obtain rfl := Except.ok.inj (ht.symm.trans ht₂)
  obtain ⟨rfl, rfl⟩ := EStateM.Result.ok.inj (hrun.symm.trans hrun₁)
  obtain ⟨rfl, rfl⟩ := EStateM.Result.ok.inj (hrun.symm.trans hrun₂)
  let d : Drawing := ⟨nodes, [⟨.string "0", .string "2", .string "0", .null, false⟩,
    ⟨.string "1", .string "0", .string "1", .string "A->S'", false⟩]⟩
  have hd : Drawing.ofJson named = .ok d := by decide +kernel
  have hlabels : ∀ n ∈ d.nodes, ∃ s : Text.Loose, n.label = .string s := by
    simp [d, nodes]
  have hhonest : ∀ e ∈ d.edges, d.Honest e := by decide +kernel
  obtain ⟨drawn, hdrawn, hagree, hverdict⟩ := phaseGraph_rebuilt.2 graph named d hd hlabels hhonest
  obtain ⟨read, hread, -, hedges, -⟩ := hread "User"
  refine ⟨g, t, graph, t', read, drawn, hg, ht, hrun, hread, hedges, hdrawn, ?_,
    hverdict hdistinct.not_unsuitable⟩
  have hdata : GraphLike.check (.graph graph) (.data named) = .ok .correct := hcheck
  rcases hagree with he | ⟨_, _, he, -⟩
  · rw [← he, hdata]
  · rw [hdata] at he
    cases he

end Tutor

end Lookahead
