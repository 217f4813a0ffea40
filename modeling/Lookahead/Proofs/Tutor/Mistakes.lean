import Lookahead.Proofs.Graph.Distinct
import Lookahead.Proofs.Graph.Exchange
import Lookahead.Proofs.Tutor.SolveAll

/-!
# Single mistakes in the drawing of a step

The canonical graph of a step is taken for correct if it is handed in as data or read back
from data. If one edge or leaf is left out of the data, or one entry is there twice, the
comparison names exactly this entry, whatever characters the symbols are named with.
-/

namespace Lookahead

namespace Graph

variable {g : Graph}

/-! ### The drawing of a graph -/

def drawnNode (n : Node) : DrawnNode :=
  ⟨.string n.id, n.kind, n.label, n.group.map fun (group : String) => .string group⟩

def drawnEdge (g : Graph) (e : Edge) : DrawnEdge :=
  ⟨.string e.id, .string e.source, .string e.target, .string (g.edgeName e), e.isGroupEdge⟩

def drawing (g : Graph) : Drawing := ⟨g.nodes.map drawnNode, g.edges.map g.drawnEdge⟩

/-- The graph with its groups before its leaves. -/
def regrouped (g : Graph) (phase : String) : Graph :=
  { phase, nodes := g.groups ++ g.leaves, edges := g.edges }

theorem perm_nodes_regrouped (g : Graph) (phase : String) :
    (g.regrouped phase).nodes.Perm g.nodes :=
  List.filter_append_perm Node.isGroup g.nodes

theorem toJson_drawing (g : Graph) : g.drawing.toJson = g.toJson := by
  have hnode (n : Node) : (drawnNode n).toJson = nodeJson n := by
    rw [DrawnNode.toJson, nodeJson, drawnNode]
    cases n.group <;> rfl
  have hnodes : g.drawing.nodes.map DrawnNode.toJson = g.nodes.map nodeJson := by
    rw [drawing, List.map_map]
    exact List.map_congr_left fun n _ => hnode n
  have hedges : g.drawing.edges.map DrawnEdge.toJson = g.edges.map g.edgeJson := by
    rw [drawing, List.map_map]
    rfl
  rw [Drawing.toJson, toJson, hnodes, hedges]

theorem nodeIds_drawing (g : Graph) :
    g.drawing.nodeIds = g.nodeIds.map fun (id : String) => (id : Text.Loose) := by
  simp only [Drawing.nodeIds, drawing, nodeIds, List.map_map]
  rfl

theorem edgeIds_drawing (g : Graph) : g.drawing.edgeIds =
    (g.edges.map Edge.id).map fun (id : String) => (id : Text.Loose) := by
  simp only [Drawing.edgeIds, drawing, List.map_map]
  rfl

theorem truthy_edgeName (e : Edge) : (Json.string (g.edgeName e)).truthy = true := by
  have hne : g.edgeName e ≠ "" := by
    intro he
    have hlist := congrArg String.toList he
    simp [edgeName] at hlist
  simp [Json.truthy, Text.Loose.isEmpty, Text.Loose.ofString, hne]

namespace Distinct

variable (h : g.Distinct)
include h

theorem exists_group {n : Node} (hn : n ∈ g.nodes) {b : String} (hb : n.group = some b) :
    ∃ m ∈ g.nodes, m.kind = .group ∧ g.node? b = some m ∧ m.id = b := by
  obtain ⟨m, hm, hg, hid⟩ := mem_groupIds.mp (h.group n hn b hb)
  exact ⟨m, hm, by simpa [Node.isGroup] using hg, h.tidy.node?_eq_some_iff.mpr ⟨hm, hid⟩, hid⟩

theorem shaped : g.drawing.Shaped := by
  refine ⟨?_, fun n hmem parent hp => ?_, ?_, fun e hmem => ?_⟩
  · rw [nodeIds_drawing]
    exact h.tidy.nodup.map fun a b => Text.Loose.ofString_inj.mp
  · obtain ⟨n, hn, rfl⟩ := List.mem_map.mp hmem
    obtain ⟨b, hb, rfl⟩ := Option.map_eq_some_iff.mp hp
    obtain ⟨m, hm, hkind, -, rfl⟩ := h.exists_group hn hb
    exact ⟨nofun, drawnNode m, List.mem_map_of_mem hm, hkind, rfl⟩
  · rw [edgeIds_drawing]
    exact h.tidy.edge_nodup.map fun a b => Text.Loose.ofString_inj.mp
  · obtain ⟨e, he, rfl⟩ := List.mem_map.mp hmem
    rw [nodeIds_drawing]
    exact (h.tidy.ends e he).imp (fun hs => List.mem_map_of_mem hs) fun ht => List.mem_map_of_mem ht

/-- Labels are texts, so the names of edges are. -/
theorem edges_ofGraph :
    (View.ofGraph g).edges = g.edgeNames.map fun (name : String) => .string name := by
  have hlabel (id : String) : g.labelSpelling id = g.labelText id := by
    rw [labelSpelling, labelText]
    cases hn : g.node? id with
    | none => rfl
    | some n =>
      obtain ⟨s, hs, -⟩ := h.label n (List.mem_of_find?_eq_some hn)
      rw [Option.elim_some, Option.elim_some, hs, Json.text_string, Json.spelling_string]
  rw [View.ofGraph, edgeNames, List.map_map]
  refine List.map_congr_left fun e _ => congrArg Json.string ?_
  rw [edgeSpelling, hlabel, hlabel]
  rfl

theorem ofDrawing_drawing : View.ofDrawing g.drawing = View.ofGraph g := by
  have hparent {n : Node} (hn : n ∈ g.nodes) :
      (drawnNode n).parent.elim .null (View.labelOf g.drawing.nodes) =
        (g.parentLabel? n).getD .null := by
    rw [drawnNode, parentLabel?]
    cases hb : n.group with
    | none => rfl
    | some b =>
      obtain ⟨m, hm, -, hnode, hid⟩ := h.exists_group hn hb
      simp only [Option.map_some, Option.elim_some, Option.bind_eq_bind, Option.bind_some, hnode,
        Option.pure_def, Option.getD_some]
      exact Drawing.labelOf_eq h.shaped.nodes (List.mem_map_of_mem hm)
        (congrArg Text.Loose.ofString hid)
  have hname (e : Edge) :
      View.edgeNameOf g.drawing.nodes (g.drawnEdge e) = .string (g.edgeName e) :=
    if_pos (truthy_edgeName e)
  have hnodes : (View.ofDrawing g.drawing).nodes = (View.ofGraph g).nodes := by
    simp only [View.ofDrawing, View.ofGraph, drawing, List.map_map]
    refine List.map_congr_left fun n hn => ?_
    exact congrArg (NodeView.mk n.kind n.label) (hparent hn)
  have hedges : (View.ofDrawing g.drawing).edges = (View.ofGraph g).edges := by
    rw [h.edges_ofGraph]
    simp only [View.ofDrawing, drawing, edgeNames, List.map_map]
    exact List.map_congr_left fun e _ => hname e
  exact View.mk.injEq .. |>.mpr ⟨hnodes, hedges⟩

theorem not_unsuitable : ¬g.Unsuitable := by
  rintro ⟨n, hn, hcomposite⟩
  rw [(h.labelText_eq hn).1, Json.composite_iff] at hcomposite
  cases hcomposite

/-- Labels are texts, so the keys tell as much as the labels and names do. -/
theorem clear : (View.ofGraph g).Clear := by
  have hcomparable := View.comparable_ofGraph h.not_unsuitable
  refine ⟨hcomparable, ?_, ?_⟩
  · have hkeys : (View.ofGraph g).nodeKeys =
        g.nodes.map fun n => NodeView.key? ⟨n.kind, n.label, (g.parentLabel? n).getD .null⟩ :=
      List.map_map
    rw [hkeys]
    refine List.Nodup.map_on (fun m hm n hn he => ?_) (List.Nodup.of_map _ h.tidy.nodup)
    obtain ⟨key, hkey⟩ := Option.ne_none_iff_exists'.mp
      (hcomparable.1 ⟨m.kind, m.label, _⟩ (List.mem_map_of_mem hm))
    have hlabel := (NodeView.scalar?_label hkey).trans
      (NodeView.scalar?_label (he.symm.trans hkey)).symm
    obtain ⟨s, hs, -⟩ := h.label m hm
    obtain ⟨t, ht, -⟩ := h.label n hn
    refine h.unique m hm n hn ?_
    simpa [hs, ht] using hlabel
  · have hkeys : (View.ofGraph g).edgeKeys =
        g.edgeNames.map fun (name : String) => some (.text (name : Text.Loose)) := by
      rw [View.edgeKeys, h.edges_ofGraph]
      exact List.map_map
    rw [hkeys]
    refine h.nodup_edgeNames.map fun a b he => ?_
    simpa using he

theorem legible : g.drawing.Legible := by
  refine ⟨h.shaped, fun e hmem => ?_, ?_⟩
  · obtain ⟨e, -, rfl⟩ := List.mem_map.mp hmem
    exact truthy_edgeName e
  · rw [h.ofDrawing_drawing]
    exact h.clear

/-! ### Reading a graph back -/

/-- The graph that is read has the groups before the leaves, and nothing else is different. -/
theorem ofJson_toJson (phase : String) : ofJson g.toJson phase = .ok (g.regrouped phase) := by
  have hnode (n : Node) : (drawnNode n).toNode g.drawing.nodeIds = n := by
    obtain ⟨id, kind, label, group⟩ := n
    cases group <;> rfl
  have hnodes : g.drawing.ordered.map (DrawnNode.toNode g.drawing.nodeIds) =
      g.groups ++ g.leaves := by
    simp only [Drawing.ordered, drawing, List.filter_map, List.map_append, List.map_map]
    exact congrArg₂ (· ++ ·) ((List.map_congr_left fun n _ => hnode n).trans (List.map_id _))
      ((List.map_congr_left fun n _ => hnode n).trans (List.map_id _))
  have hedges : g.drawing.edges.map (DrawnEdge.toEdge g.drawing.nodeIds g.drawing.edgeIds) =
      g.edges := by
    rw [drawing, List.map_map]
    exact (List.map_congr_left fun e _ => rfl).trans (List.map_id _)
  rw [← toJson_drawing, ofJson_eq (Drawing.ofJson_toJson h.shaped), Drawing.toGraph, hnodes, hedges]
  rfl

theorem node?_regrouped (phase : String) (id : String) :
    (g.regrouped phase).node? id = g.node? id := by
  have hperm := g.perm_nodes_regrouped phase
  have hread : (g.regrouped phase).nodeIds.Nodup :=
    (hperm.map Node.id).nodup_iff.mpr h.tidy.nodup
  refine Option.ext fun n => ?_
  rw [node?_eq_some_iff_of_nodup hread, node?_eq_some_iff_of_nodup h.tidy.nodup, hperm.mem_iff]

theorem edgeSpelling_regrouped (phase : String) (e : Edge) :
    (g.regrouped phase).edgeSpelling e = g.edgeSpelling e := by
  simp only [edgeSpelling, labelSpelling, h.node?_regrouped]

theorem edgeNames_regrouped (phase : String) : (g.regrouped phase).edgeNames = g.edgeNames := by
  refine List.map_congr_left fun e _ => ?_
  rw [← text_edgeSpelling, h.edgeSpelling_regrouped, text_edgeSpelling]

theorem check_read (phase : String) : ∃ read, ofJson g.toJson phase = .ok read ∧
    GraphLike.check (.graph g) (.graph read) = .ok .correct := by
  refine ⟨_, h.ofJson_toJson phase, ?_⟩
  have hnodes : (View.ofGraph (g.regrouped phase)).nodes.Perm (View.ofGraph g).nodes := by
    simp only [View.ofGraph, parentLabel?, h.node?_regrouped]
    exact (g.perm_nodes_regrouped phase).map _
  have hedges : (View.ofGraph (g.regrouped phase)).edges = (View.ofGraph g).edges := by
    simp only [View.ofGraph, h.edgeSpelling_regrouped]
    rfl
  have hcomparable := h.clear.comparable
  rw [check_of_graph]
  refine View.compare_eq_correct hcomparable
    (hcomparable.mono hnodes.subset (hedges ▸ List.Subset.refl _)) ⟨(hnodes.map _).symm, ?_⟩
  rw [View.edgeKeys, View.edgeKeys, hedges]

end Distinct

end Graph

namespace Tutor

variable {e g : Grammar}

theorem IsGraphOf.distinct (h : e.Standard) {phase : GraphPhase} {graph : Graph}
    (hgraph : IsGraphOf e phase graph) : graph.Distinct := by
  have hfirst {first : Graph} (hf : Graph.first e = .ok first) : Graph.FirstGraph e first := by
    obtain ⟨_, hrun, hfirst⟩ := Graph.exists_firstGraph h (Graph.firstLeaves_ne_nil h)
    exact Except.ok.inj (hrun.symm.trans hf) ▸ hfirst
  cases phase with
  | empty => exact Graph.distinct_nullability h hgraph
  | first => exact (hfirst hgraph).distinct h
  | follow =>
    obtain ⟨first, hf, hfollow⟩ := hgraph
    exact Graph.distinct_follow h (hfirst hf) hfollow

/-- The canonical graph of every step is taken for correct as data and when it is read back. Of the
data, any edge, and any leaf with its edges, is missed if it is left out, and every entry that is
repeated under a new id is reported as superfluous. -/
theorem phaseGraph_mistakes (hg : g.FromText) (phase : GraphPhase) :
    ∃ t graph t', Tutor.ofGrammar g = .ok t ∧ phaseGraph phase.name t = .ok graph t' ∧
      graph.check graph.toJson = .ok .correct ∧
      (∃ read, Graph.ofJson graph.toJson = .ok read ∧
        GraphLike.check (.graph graph) (.graph read) = .ok .correct) ∧
      graph.drawing.toJson = graph.toJson ∧
      (∀ before e after, graph.drawing.edges = before ++ e :: after →
        graph.check (Drawing.toJson { graph.drawing with edges := before ++ after }) =
          .ok (.wrong ⟨.missingEdge, e.name⟩)) ∧
      (∀ before n after, graph.drawing.nodes = before ++ n :: after → n.kind ≠ .group →
        graph.check (Drawing.toJson
            { nodes := before ++ after
              edges := graph.drawing.edges.filter fun e => ¬e.Meets n }) =
          .ok (.wrong ⟨.missingNode, n.label⟩)) ∧
      (∀ before after e id, graph.drawing.edges = before ++ after → e ∈ graph.drawing.edges →
        id.spelling ∉ graph.drawing.edgeIds →
        graph.check (Drawing.toJson
            { graph.drawing with edges := before ++ { e with id } :: after }) =
          .ok (.wrong ⟨.extraEdge, e.name⟩)) ∧
      ∀ before after n id, graph.drawing.nodes = before ++ after → n ∈ graph.drawing.nodes →
        id.spelling ∉ graph.drawing.nodeIds →
        graph.check (Drawing.toJson
            { graph.drawing with nodes := before ++ { n with id } :: after }) =
          .ok (.wrong ⟨.extraNode, n.label⟩) := by
  have h := hg.standard
  obtain ⟨e, hv, he, hm⟩ := h.exists_marked
  obtain ⟨graph, t', hrun, hgraph⟩ := exists_graphOf he hm hv phase
  have hdistinct := hgraph.distinct he
  have hd := hdistinct.legible
  have hview := hdistinct.ofDrawing_drawing.symm
  refine ⟨_, graph, t', ofGrammar_eq_ok h, hrun, ?_, hdistinct.check_read _,
    graph.toJson_drawing, fun before e after => hd.check_dropEdge hview,
    fun before n after => hd.check_dropNode hview,
    fun before after e id => hd.check_copyEdge hview,
    fun before after n id => hd.check_copyNode hview⟩
  rw [← graph.toJson_drawing]
  exact hd.check_toJson hview

/-- In the first step of the sample grammar the first edge leads from `A` to `S`. -/
theorem phaseGraph_mistakes_sample : ∃ g t graph t' e after, Grammar.ofText Sample.text = .ok g ∧
    Tutor.ofGrammar g = .ok t ∧ phaseGraph GraphPhase.empty.name t = .ok graph t' ∧
      graph.drawing.edges = e :: after ∧
      graph.check (Drawing.toJson { graph.drawing with edges := after }) =
        .ok (.wrong ⟨.missingEdge, .string "A->S"⟩) := by
  obtain ⟨g, hg, -⟩ := Sample.exists_grammar
  obtain ⟨t, graph, t', ht, hrun, -, -, -, hdrop, -⟩ :=
    phaseGraph_mistakes ⟨_, g, hg, .inl rfl⟩ .empty
  have hnames : graph.edgeNames.head? = some "A->S" := by
    have hread : (Grammar.ofText Sample.text).toOption.bind (fun g =>
        (Tutor.ofGrammar g).toOption.bind fun t =>
          match phaseGraph GraphPhase.empty.name t with
          | .ok graph _ => graph.edgeNames.head?
          | .error _ _ => none) = some "A->S" := by decide +kernel
    simpa [hg, ht, hrun, Except.toOption] using hread
  cases hedges : graph.edges with
  | nil => simp [Graph.edgeNames, hedges] at hnames
  | cons e after =>
    have hname : graph.edgeName e = "A->S" := by
      simpa [Graph.edgeNames, hedges] using hnames
    have hsplit : graph.drawing.edges = graph.drawnEdge e :: after.map graph.drawnEdge := by
      rw [Graph.drawing, hedges, List.map_cons]
    refine ⟨g, t, graph, t', _, _, hg, ht, hrun, hsplit, ?_⟩
    rw [← hname]
    exact hdrop [] _ _ hsplit

end Tutor

end Lookahead
