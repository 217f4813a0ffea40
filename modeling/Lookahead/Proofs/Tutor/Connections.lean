import Lookahead.Proofs.Tutor.Mistakes

/-!
# Connections of an accepted drawing

An edge of a drawing counts under the name that is written on it, and under the name that
its ends give only if none is written there. So a drawing that is taken for correct has as
many edges of every name as the canonical graph, and an edge joins the nodes that its name
speaks of unless a different name is written on it.
-/

namespace Lookahead

/-- The name that the nodes at the ends of an edge give it. -/
def DrawnEdge.nameOfEnds (nodes : List DrawnNode) (e : DrawnEdge) : Text.Loose :=
  (View.labelOf nodes e.source).spelling ++ "->" ++ (View.labelOf nodes e.target).spelling

namespace Drawing

variable {d : Drawing} {e : DrawnEdge}

/-- No name is written on the edge, or the one that its ends give. -/
def Honest (d : Drawing) (e : DrawnEdge) : Prop :=
  e.name.truthy = true → e.name = .string (e.nameOfEnds d.nodes)

instance (d : Drawing) (e : DrawnEdge) : Decidable (d.Honest e) :=
  inferInstanceAs (Decidable (_ → _))

/-- The edge leads from a node to a node of the drawing whose labels make up the name. -/
def Connects (d : Drawing) (e : DrawnEdge) (name : String) : Prop :=
  ∃ m ∈ d.nodes, ∃ n ∈ d.nodes,
    e.source.spelling = m.id.spelling ∧ e.target.spelling = n.id.spelling ∧
      ∃ s t : String, m.label = .string s ∧ n.label = .string t ∧ s ++ "->" ++ t = name

/-! ### The ends of an edge -/

theorem exists_labelOf {nodes : List DrawnNode} {id : Json}
    (h : id.spelling ∈ nodes.map fun n => n.id.spelling) :
    ∃ n ∈ nodes, id.spelling = n.id.spelling ∧ View.labelOf nodes id = n.label := by
  rw [View.labelOf]
  cases hf : nodes.find? fun n => n.id.spelling = id.spelling with
  | none =>
    obtain ⟨n, hn, hid⟩ := List.mem_map.mp h
    exact absurd hid (by simpa using List.find?_eq_none.mp hf n hn)
  | some n =>
    have hid : n.id.spelling = id.spelling := by simpa using List.find?_some hf
    exact ⟨n, List.mem_of_find?_eq_some hf, hid.symm, rfl⟩

/-- If all labels are texts, an edge connects what its ends are named. -/
theorem connects_of_nameOfEnds {name : String}
    (hends : e.source.spelling ∈ d.nodeIds ∧ e.target.spelling ∈ d.nodeIds)
    (hlabels : ∀ n ∈ d.nodes, ∃ label : String, n.label = .string label)
    (hname : e.nameOfEnds d.nodes = (name : Text.Loose)) : d.Connects e name := by
  obtain ⟨m, hm, hsource, hmlabel⟩ := exists_labelOf hends.1
  obtain ⟨n, hn, htarget, hnlabel⟩ := exists_labelOf hends.2
  obtain ⟨s, hs⟩ := hlabels m hm
  obtain ⟨t, ht⟩ := hlabels n hn
  refine ⟨m, hm, n, hn, hsource, htarget, s, t, hs, ht, ?_⟩
  rw [DrawnEdge.nameOfEnds, hmlabel, hnlabel, hs, ht] at hname
  exact Text.Loose.ofString_inj.mp hname

theorem edgeNameOf_of_honest (h : d.Honest e) :
    View.edgeNameOf d.nodes e = .string (e.nameOfEnds d.nodes) := by
  rw [View.edgeNameOf]
  split
  · rename_i htruthy
    exact h htruthy
  · rfl

end Drawing

namespace Graph

variable {g : Graph} {u : Json} {d : Drawing}

theorem scalar?_eq_text {v : Json} {s : Text.Loose} (h : v.scalar? = some (.text s)) :
    v = .string s := by
  cases v with
  | string t => simpa [Json.scalar?] using h
  | double x =>
    simp only [Json.scalar?] at h
    split at h <;> cases h
  | null | bool _ | int _ | list _ | object _ => cases h

theorem matches_of_compare {canonical user : View} (h : canonical.compare user = .ok .correct) :
    canonical.Matches user := by
  cases View.judged_of_compare h with
  | correct hmatches => exact hmatches

/-- What is taken for correct is a drawing with the nodes and the edges of the canonical graph. -/
theorem matches_of_check (h : g.check u = .ok .correct) :
    ∃ d, Drawing.ofJson u = .ok d ∧ (View.ofGraph g).Matches (View.ofDrawing d) := by
  obtain ⟨d, hd, hjudged⟩ := judged_of_check h
  cases hjudged with
  | correct hmatches => exact ⟨d, hd, hmatches⟩

/-- The names under which the edges count are those of the canonical graph, each as often. -/
theorem perm_edges_of_matches {v : View} (h : (View.ofGraph g).Matches v) :
    v.edges.Perm (View.ofGraph g).edges := by
  have hkeys : ((View.ofGraph g).edges.map Json.scalar?).Perm (v.edges.map Json.scalar?) := h.2
  have hgiven : ∀ name ∈ (View.ofGraph g).edges, name = .string name.spelling := by
    intro name hname
    obtain ⟨_, -, rfl⟩ := List.mem_map.mp hname
    rfl
  have hstring : ∀ name ∈ v.edges, name = .string name.spelling := by
    intro name hname
    obtain ⟨text, htext, hs⟩ := List.mem_map.mp (hkeys.mem_iff.mpr (List.mem_map_of_mem hname))
    rw [hgiven text htext] at hs
    rw [scalar?_eq_text hs.symm]
    rfl
  -- among texts the key tells the value
  have hscalars {names : List Json} (hnames : ∀ name ∈ names, name = .string name.spelling) :
      names.map Json.scalar? = (names.map Json.spelling).map fun s => some (.text s) := by
    rw [List.map_map]
    exact List.map_congr_left fun name hname => congrArg Json.scalar? (hnames name hname)
  have hback {names : List Json} (hnames : ∀ name ∈ names, name = .string name.spelling) :
      (names.map Json.spelling).map Json.string = names := by
    rw [List.map_map]
    exact (List.map_congr_left fun name hname => (hnames name hname).symm).trans (List.map_id _)
  have hinjective : Function.Injective fun s : Text.Loose => some (Scalar.text s) :=
    fun _ _ he => Scalar.text.inj (Option.some.inj he)
  rw [hscalars hgiven, hscalars hstring, List.map_perm_map_iff hinjective] at hkeys
  have hperm := hkeys.symm.map Json.string
  rwa [hback hgiven, hback hstring] at hperm

/-- A graph that is taken for correct has the names of the canonical one, all made by its ends. -/
theorem perm_edgeNames_of_check {read : Graph}
    (h : GraphLike.check (.graph g) (.graph read) = .ok .correct) :
    read.edgeNames.Perm g.edgeNames := by
  have htexts (g : Graph) : (View.ofGraph g).edges.map Json.text = g.edgeNames := by
    rw [View.ofGraph, List.map_map]
    exact List.map_congr_left fun e _ => g.text_edgeSpelling e
  rw [check_of_graph] at h
  rw [← htexts read, ← htexts g]
  exact (perm_edges_of_matches (matches_of_compare h)).map _

namespace Distinct

variable (h : g.Distinct)
include h

theorem labels_of_matches (hmatches : (View.ofGraph g).Matches (View.ofDrawing d)) :
    ∀ n ∈ d.nodes, ∃ label : String, n.label = .string label := by
  intro n hn
  obtain ⟨v, hv, hkey⟩ := List.mem_map.mp
    (hmatches.1.mem_iff.mpr (List.mem_map_of_mem (List.mem_map_of_mem hn)))
  obtain ⟨key, hsome⟩ := Option.ne_none_iff_exists'.mp (h.clear.comparable.1 v hv)
  obtain ⟨m, hm, rfl⟩ := List.mem_map.mp hv
  obtain ⟨label, hlabel, -⟩ := h.label m hm
  have hcanonical := NodeView.scalar?_label hsome
  have huser := NodeView.scalar?_label (hkey.symm.trans hsome)
  rw [← hcanonical] at huser
  exact ⟨label, scalar?_eq_text (huser.trans (congrArg Json.scalar? hlabel))⟩

theorem connections (hcheck : g.check u = .ok .correct) :
    ∃ d, Drawing.ofJson u = .ok d ∧
      (d.edges.map (View.edgeNameOf d.nodes)).Perm
        (g.edgeNames.map fun (name : String) => .string name) ∧
      (∀ e ∈ d.edges, d.Honest e → ∃ name ∈ g.edgeNames, d.Connects e name) ∧
      ∀ name ∈ g.edgeNames, ∃ e ∈ d.edges,
        View.edgeNameOf d.nodes e = .string name ∧ (d.Honest e → d.Connects e name) := by
  obtain ⟨d, hd, hmatches⟩ := matches_of_check hcheck
  have hperm := h.edges_ofGraph ▸ perm_edges_of_matches hmatches
  have hconnects {e : DrawnEdge} (he : e ∈ d.edges) (hhonest : d.Honest e) {name : String}
      (hname : View.edgeNameOf d.nodes e = .string name) : d.Connects e name := by
    rw [Drawing.edgeNameOf_of_honest hhonest] at hname
    exact Drawing.connects_of_nameOfEnds ((Drawing.shaped_of_ofJson hd).ends e he)
      (h.labels_of_matches hmatches) (Json.string.inj hname)
  refine ⟨d, hd, hperm, fun e he hhonest => ?_, fun name hname => ?_⟩
  · obtain ⟨name, hname, hcount⟩ := List.mem_map.mp (hperm.mem_iff.mp (List.mem_map_of_mem he))
    exact ⟨name, hname, hconnects he hhonest hcount.symm⟩
  · obtain ⟨e, he, hcount⟩ := List.mem_map.mp (hperm.mem_iff.mpr (List.mem_map_of_mem hname))
    exact ⟨e, he, hcount, fun hhonest => hconnects he hhonest hcount⟩

end Distinct

end Graph

namespace Tutor

variable {g : Grammar}

theorem exists_phaseGraph (hg : g.FromText) (phase : GraphPhase) :
    ∃ t graph t', Tutor.ofGrammar g = .ok t ∧ phaseGraph phase.name t = .ok graph t' ∧
      graph.Distinct := by
  have h := hg.standard
  obtain ⟨e, hv, he, hm⟩ := h.exists_marked
  obtain ⟨graph, t', hrun, hgraph⟩ := exists_graphOf he hm hv phase
  exact ⟨_, graph, t', ofGrammar_eq_ok h, hrun, hgraph.distinct he⟩

/-- A drawing that is taken for correct has, under the names that count, as many edges as the
canonical graph of the step. Every edge connects what its name says and every name is connected,
except through edges on which another name is written than their ends give; a graph, which gives
its edges the names of their ends, has no such edges. -/
theorem phaseGraph_connections (hg : g.FromText) (phase : GraphPhase) :
    ∃ t graph t', Tutor.ofGrammar g = .ok t ∧ phaseGraph phase.name t = .ok graph t' ∧
      (∀ u, graph.check u = .ok .correct → ∃ d, Drawing.ofJson u = .ok d ∧
        (d.edges.map (View.edgeNameOf d.nodes)).Perm
          (graph.edgeNames.map fun (name : String) => .string name) ∧
        (∀ e ∈ d.edges, d.Honest e → ∃ name ∈ graph.edgeNames, d.Connects e name) ∧
        ∀ name ∈ graph.edgeNames, ∃ e ∈ d.edges,
          View.edgeNameOf d.nodes e = .string name ∧ (d.Honest e → d.Connects e name)) ∧
      ∀ read, GraphLike.check (.graph graph) (.graph read) = .ok .correct →
        read.edgeNames.Perm graph.edgeNames := by
  obtain ⟨t, graph, t', ht, hrun, hdistinct⟩ := exists_phaseGraph hg phase
  exact ⟨t, graph, t', ht, hrun, fun u => hdistinct.connections,
    fun read => Graph.perm_edgeNames_of_check⟩

/-! The nullability step of `A -> a`, drawn with a name on one of two edges, and drawn with both
edges as loops under the right names. -/

namespace Drawn

def edge (id source target : String) (name : Json) : Json :=
  .ofFields [("id", .string id), ("sourceId", .string source), ("targetId", .string target),
    ("semanticName", name)]

def withEdges (edges : List Json) : Json :=
  .ofFields [("nodes", .list [GraphLike.Sample.node "0" (.string "A"),
    GraphLike.Sample.node "1" (.string "S'"), GraphLike.Sample.node "2" (.string "a")]),
    ("edges", .list edges)]

def named : Json := withEdges [edge "0" "2" "0" .null, edge "1" "0" "1" (.string "A->S'")]

def loops : Json :=
  withEdges [edge "0" "0" "0" (.string "a->A"), edge "1" "1" "1" (.string "A->S'")]

def nodes : List DrawnNode :=
  [⟨.string "0", .empty, .string "A", none⟩, ⟨.string "1", .empty, .string "S'", none⟩,
    ⟨.string "2", .empty, .string "a", none⟩]

/-- Both drawings are taken for correct. -/
theorem exists_graph : ∃ g t graph t', Grammar.ofText "A -> a" = .ok g ∧
    Tutor.ofGrammar g = .ok t ∧ phaseGraph GraphPhase.empty.name t = .ok graph t' ∧
      graph.edgeNames = ["a->A", "A->S'"] ∧ graph.check named = .ok .correct ∧
      graph.check loops = .ok .correct := by
  obtain ⟨g, hg⟩ : ∃ g, Grammar.ofText "A -> a" = .ok g :=
    ⟨_, Outcome.eq_ok_of_toOption (Option.some_get (by decide +kernel)).symm⟩
  obtain ⟨t, graph, t', ht, hrun, -⟩ := exists_phaseGraph ⟨_, g, hg, .inl rfl⟩ .empty
  have hread : (Grammar.ofText "A -> a").toOption.bind (fun g =>
      (Tutor.ofGrammar g).toOption.bind fun t =>
        match phaseGraph GraphPhase.empty.name t with
        | .ok graph _ => some (graph.edgeNames, graph.check named, graph.check loops)
        | .error _ _ => none) = some (["a->A", "A->S'"], .ok .correct, .ok .correct) := by
    decide +kernel
  simp only [hg, ht, hrun, Except.toOption, Option.bind_some, Option.some.injEq,
    Prod.mk.injEq] at hread
  exact ⟨g, t, graph, t', hg, ht, hrun, hread⟩

end Drawn

open Drawn

theorem phaseGraph_connections_sample : ∃ g t graph t' d, Grammar.ofText "A -> a" = .ok g ∧
    Tutor.ofGrammar g = .ok t ∧ phaseGraph GraphPhase.empty.name t = .ok graph t' ∧
      graph.check named = .ok .correct ∧ Drawing.ofJson named = .ok d ∧
      ∃ e ∈ d.edges, d.Honest e ∧ d.Connects e "a->A" := by
  obtain ⟨g, t, graph, t', hg, ht, hrun, hnames, hcheck, -⟩ := exists_graph
  obtain ⟨t₁, graph₁, t₁', ht₁, hrun₁, hconnections, -⟩ :=
    phaseGraph_connections ⟨_, g, hg, .inl rfl⟩ .empty
  obtain rfl := Except.ok.inj (ht.symm.trans ht₁)
  obtain ⟨rfl, rfl⟩ := EStateM.Result.ok.inj (hrun.symm.trans hrun₁)
  obtain ⟨d, hd, -, -, hall⟩ := hconnections named hcheck
  have hhonest : ∀ e ∈ d.edges, d.Honest e := by
    have hread : (Drawing.ofJson named).toOption.all (fun d =>
        d.edges.all fun e => decide (d.Honest e)) = true := by decide +kernel
    simpa [hd, Except.toOption] using hread
  obtain ⟨e, he, -, hconnects⟩ := hall "a->A" (by simp [hnames])
  exact ⟨g, t, graph, t', d, hg, ht, hrun, hcheck, hd, e, he, hhonest e he,
    hconnects (hhonest e he)⟩

/-- No edge of the second drawing connects anything that the canonical graph connects. -/
theorem check_loops : ∃ g t graph t' d, Grammar.ofText "A -> a" = .ok g ∧
    Tutor.ofGrammar g = .ok t ∧ phaseGraph GraphPhase.empty.name t = .ok graph t' ∧
      graph.edgeNames = ["a->A", "A->S'"] ∧ graph.check loops = .ok .correct ∧
      Drawing.ofJson loops = .ok d ∧ d.edges.length = 2 ∧
      ∀ e ∈ d.edges, ∀ name ∈ graph.edgeNames, ¬d.Connects e name := by
  obtain ⟨g, t, graph, t', hg, ht, hrun, hnames, -, hcheck⟩ := exists_graph
  let d : Drawing := ⟨nodes, [⟨.string "0", .string "0", .string "0", .string "a->A", false⟩,
    ⟨.string "1", .string "1", .string "1", .string "A->S'", false⟩]⟩
  have hd : Drawing.ofJson loops = .ok d := by decide +kernel
  refine ⟨g, t, graph, t', d, hg, ht, hrun, hnames, hcheck, hd, rfl, fun e he name hname => ?_⟩
  rw [hnames] at hname
  rintro ⟨m, hm, n, hn, hsource, htarget, s, t, hs, ht, hst⟩
  -- an edge of the drawing begins and ends at one node, so the label comes twice
  have hloop : e.source = e.target := by
    simp only [d, List.mem_cons, List.not_mem_nil, or_false] at he
    rcases he with rfl | rfl <;> rfl
  have hnodup : (nodes.map fun n => n.id.spelling).Nodup := by decide
  have hmn : m = n := List.inj_on_of_nodup_map hnodup hm hn
    (hsource.symm.trans ((congrArg Json.spelling hloop).trans htarget))
  subst hmn
  obtain rfl : s = t := Json.string_inj.mp (hs.symm.trans ht)
  have hlabel : s ∈ ["A", "S'", "a"] := by
    have hmem := List.mem_map_of_mem (f := DrawnNode.label) hm
    rw [hs] at hmem
    simpa [d, nodes] using hmem
  have hnone : ∀ s ∈ ["A", "S'", "a"], s ++ "->" ++ s ∉ ["a->A", "A->S'"] := by decide
  exact hnone s hlabel (hst ▸ hname)

end Tutor

end Lookahead
