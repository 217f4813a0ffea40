import Lookahead.Proofs.Graph.Drawing
import Lookahead.Proofs.Graph.Mistakes

/-!
# Writing and reading drawings

A drawing that keeps to the format is read back as it was written, and it still keeps to it
when an edge is left out, a node that is no group goes with its edges, or an entry is
repeated under a new id. If the labels and names of a drawing are all different, each of
these mistakes is found and named.
-/

namespace Lookahead

def DrawnNode.toJson (n : DrawnNode) : Json :=
  .ofFields ([("id", n.id), ("type", .string n.kind.name), ("symbolName", n.label)] ++
    n.parent.toList.map fun (parent : Json) => ("parentId", parent))

def DrawnEdge.toJson (e : DrawnEdge) : Json :=
  .ofFields [("id", e.id), ("sourceId", e.source), ("targetId", e.target),
    ("semanticName", e.name), ("isGroupEdge", .bool e.isGroupEdge)]

/-- The edge ends at the node. -/
def DrawnEdge.Meets (e : DrawnEdge) (n : DrawnNode) : Prop :=
  e.source.spelling = n.id.spelling ∨ e.target.spelling = n.id.spelling

instance (e : DrawnEdge) (n : DrawnNode) : Decidable (e.Meets n) :=
  inferInstanceAs (Decidable (_ ∨ _))

namespace Drawing

def toJson (d : Drawing) : Json :=
  .ofFields [("nodes", .list (d.nodes.map DrawnNode.toJson)),
    ("edges", .list (d.edges.map DrawnEdge.toJson))]

/-! ### Reading -/

theorem readNode_toJson {n : DrawnNode} (h : n.parent ≠ some .null) (index : Nat) :
    readNode {} index n.toJson = .ok n := by
  have hfield (name : String) : n.toJson.field? name = List.lookup name
      ([("id", n.id), ("type", .string n.kind.name), ("symbolName", n.label)] ++
        n.parent.toList.map fun (parent : Json) => ("parentId", parent)) :=
    Json.field?_ofFields ..
  have hparent : optional n.toJson "parentId" = n.parent := by
    have hlookup : n.toJson.field? "parentId" = n.parent := by
      rw [hfield]
      cases n.parent <;> simp [List.lookup_cons]
    rw [optional, hlookup]
    split
    · rename_i hnull
      exact absurd hnull h
    · rfl
  have hobject : isObject n.toJson = true := rfl
  have hid : n.toJson.field? "id" = some n.id := by simp [hfield]
  have hkind : n.toJson.field? "type" = some (.string n.kind.name) := by
    simp [hfield, List.lookup_cons]
  have hlabel : n.toJson.field? "symbolName" = some n.label := by
    simp [hfield, List.lookup_cons]
  have hname : (Json.string n.kind.name).string?.bind NodeKind.ofName? = some n.kind :=
    NodeKind.ofName?_name n.kind
  simp only [readNode, require, hobject, hid, hkind, hlabel, hparent, hname,
    Json.spellable_unlimited, Bool.not_true, Bool.false_eq_true, if_false, bind, Except.bind, pure,
    Except.pure]

theorem readEdge_toJson (e : DrawnEdge) (index : Nat) : readEdge {} index e.toJson = .ok e := by
  have hobject : isObject e.toJson = true := rfl
  have hid : e.toJson.field? "id" = some e.id := by simp [DrawnEdge.toJson]
  have hsource : e.toJson.field? "sourceId" = some e.source := by
    simp [DrawnEdge.toJson, List.lookup_cons]
  have htarget : e.toJson.field? "targetId" = some e.target := by
    simp [DrawnEdge.toJson, List.lookup_cons]
  have hname : e.toJson.field? "semanticName" = some e.name := by
    simp [DrawnEdge.toJson, List.lookup_cons]
  have hgroup : e.toJson.field? "isGroupEdge" = some (.bool e.isGroupEdge) := by
    simp [DrawnEdge.toJson, List.lookup_cons]
  simp only [readEdge, require, hobject, hid, hsource, htarget, hname, hgroup,
    Json.spellable_unlimited, Bool.not_true, Bool.false_eq_true, if_false, bind, Except.bind, pure,
    Except.pure, Option.getD_some, Option.elim_some, Json.truthy]

theorem readNodes_toJson {nodes : List DrawnNode} (index : Nat) (seen : List Text.Loose)
    (hparents : ∀ n ∈ nodes, n.parent ≠ some .null)
    (hnodup : (nodes.map fun n => n.id.spelling).Nodup)
    (hfresh : ∀ n ∈ nodes, n.id.spelling ∉ seen) :
    readNodes {} index seen (nodes.map DrawnNode.toJson) = .ok nodes := by
  induction nodes generalizing index seen with
  | nil => rfl
  | cons n nodes ih =>
    obtain ⟨hparent, hparents⟩ := List.forall_mem_cons.mp hparents
    obtain ⟨hn, hnodes⟩ := List.forall_mem_cons.mp hfresh
    rw [List.map_cons, List.nodup_cons] at hnodup
    have hrest := ih (index + 1) (n.id.spelling :: seen) hparents hnodup.2 fun m hm hseen => by
      rcases List.mem_cons.mp hseen with he | hseen
      · exact hnodup.1 (he ▸ List.mem_map_of_mem hm)
      · exact hnodes m hm hseen
    rw [List.map_cons, readNodes, readNode_toJson hparent]
    simp only [bind, Except.bind, List.contains_eq_mem, hn, decide_false, Bool.false_eq_true,
      if_false, hrest, pure, Except.pure]

theorem readEdges_toJson {ids : List Text.Loose} {edges : List DrawnEdge} (index : Nat)
    (seen : List Text.Loose)
    (hends : ∀ e ∈ edges, e.source.spelling ∈ ids ∧ e.target.spelling ∈ ids)
    (hnodup : (edges.map fun e => e.id.spelling).Nodup)
    (hfresh : ∀ e ∈ edges, e.id.spelling ∉ seen) :
    readEdges {} ids index seen (edges.map DrawnEdge.toJson) = .ok edges := by
  induction edges generalizing index seen with
  | nil => rfl
  | cons e edges ih =>
    obtain ⟨⟨hs, ht⟩, hends⟩ := List.forall_mem_cons.mp hends
    obtain ⟨he, hedges⟩ := List.forall_mem_cons.mp hfresh
    rw [List.map_cons, List.nodup_cons] at hnodup
    have hrest := ih (index + 1) (e.id.spelling :: seen) hends hnodup.2 fun d hd hseen => by
      rcases List.mem_cons.mp hseen with heq | hseen
      · exact hnodup.1 (heq ▸ List.mem_map_of_mem hd)
      · exact hedges d hd hseen
    have hend {id : Json} (hid : id.spelling ∈ ids) : checkEnd {} ids e id = .ok () :=
      checkEnd_eq_ok.mpr ⟨id.fits_unlimited, hid⟩
    rw [List.map_cons, readEdges, readEdge_toJson]
    simp only [bind, Except.bind, List.contains_eq_mem, he, hend hs, hend ht, decide_false,
      Bool.false_eq_true, if_false, hrest, pure, Except.pure]

/-- What was written is read back. -/
theorem ofJson_toJson {d : Drawing} (h : d.Shaped) : ofJson d.toJson = .ok d := by
  have hnodes : readNodes {} 0 [] (d.nodes.map DrawnNode.toJson) = .ok d.nodes := by
    refine readNodes_toJson 0 [] (fun n hn hnull => ?_) h.nodes (by simp)
    exact (h.parents n hn .null hnull).1 rfl
  have hparents : checkParents {} ((d.nodes.filter DrawnNode.isGroup).map
      fun n => n.id.spelling) d.nodes = .ok () := by
    refine checkParents_eq_ok.mpr fun n hn parent hp => ?_
    obtain ⟨-, m, hm, hkind, hid⟩ := h.parents n hn parent hp
    exact ⟨parent.fits_unlimited,
      hid ▸ List.mem_map_of_mem (List.mem_filter.mpr ⟨hm, by simp [DrawnNode.isGroup, hkind]⟩)⟩
  have hedges : readEdges {} (d.nodes.map fun n => n.id.spelling) 0 []
      (d.edges.map DrawnEdge.toJson) = .ok d.edges :=
    readEdges_toJson 0 [] h.ends h.edges (by simp)
  have hobject : isObject d.toJson = true := rfl
  have hnodeList : listField d.toJson "nodes" = .ok (d.nodes.map DrawnNode.toJson) := by
    simp [listField, toJson]
  have hedgeList : listField d.toJson "edges" = .ok (d.edges.map DrawnEdge.toJson) := by
    simp [listField, toJson, List.lookup_cons]
  simp only [ofJson, hobject, hnodeList, hedgeList, hnodes, hparents, hedges, Bool.not_true,
    Bool.false_eq_true, if_false, bind, Except.bind, pure, Except.pure]

/-! ### Edits -/

section Edits

variable {d : Drawing} (h : d.Shaped)
include h

theorem Shaped.dropEdge {before after : List DrawnEdge} {e : DrawnEdge}
    (hsplit : d.edges = before ++ e :: after) : Shaped { d with edges := before ++ after } := by
  have hsub : (before ++ after).Sublist d.edges :=
    hsplit ▸ (List.sublist_cons_self e after).append_left before
  exact ⟨h.nodes, h.parents, h.edges.sublist (hsub.map _), fun c hc => h.ends c (hsub.subset hc)⟩

theorem Shaped.dropNode {before after : List DrawnNode} {n : DrawnNode}
    (hsplit : d.nodes = before ++ n :: after) (hn : n.kind ≠ .group) :
    Shaped { nodes := before ++ after, edges := d.edges.filter fun e => ¬e.Meets n } := by
  have hsub : (before ++ after).Sublist d.nodes :=
    hsplit ▸ (List.sublist_cons_self n after).append_left before
  have hstays {m : DrawnNode} (hm : m ∈ d.nodes) (hne : m ≠ n) : m ∈ before ++ after := by
    simp only [hsplit, List.mem_append, List.mem_cons, hne, false_or] at hm
    exact List.mem_append.mpr hm
  have hend {id : Json} (hid : id.spelling ∈ d.nodeIds) (hne : id.spelling ≠ n.id.spelling) :
      id.spelling ∈ (before ++ after).map fun n => n.id.spelling := by
    obtain ⟨m, hm, he⟩ := List.mem_map.mp hid
    refine he ▸ List.mem_map_of_mem (hstays hm ?_)
    rintro rfl
    exact hne he.symm
  refine ⟨h.nodes.sublist (hsub.map _), fun m hm parent hp => ?_,
    h.edges.sublist (List.filter_sublist.map _), fun e he => ?_⟩
  · obtain ⟨hnull, g, hg, hkind, hid⟩ := h.parents m (hsub.subset hm) parent hp
    refine ⟨hnull, g, hstays hg ?_, hkind, hid⟩
    rintro rfl
    exact hn hkind
  · obtain ⟨he, hmeets⟩ := List.mem_filter.mp he
    have hmeets : ¬e.Meets n := by simpa using hmeets
    rw [DrawnEdge.Meets, not_or] at hmeets
    exact ⟨hend (h.ends e he).1 hmeets.1, hend (h.ends e he).2 hmeets.2⟩

theorem Shaped.copyEdge {before after : List DrawnEdge} {e : DrawnEdge} {id : Json}
    (hsplit : d.edges = before ++ after) (he : e ∈ d.edges) (hid : id.spelling ∉ d.edgeIds) :
    Shaped { d with edges := before ++ { e with id } :: after } := by
  refine ⟨h.nodes, h.parents, ?_, fun c hc => ?_⟩
  · rw [edgeIds, List.map_append, List.map_cons, List.nodup_middle, ← List.map_append, ← hsplit]
    exact List.nodup_cons.mpr ⟨hid, h.edges⟩
  · rcases List.mem_cons.mp (List.perm_middle.subset hc) with rfl | hc
    · exact h.ends e he
    · exact h.ends c (hsplit ▸ hc)

theorem Shaped.copyNode {before after : List DrawnNode} {n : DrawnNode} {id : Json}
    (hsplit : d.nodes = before ++ after) (hn : n ∈ d.nodes) (hid : id.spelling ∉ d.nodeIds) :
    Shaped { d with nodes := before ++ { n with id } :: after } := by
  have hsub : d.nodes ⊆ before ++ { n with id } :: after :=
    hsplit ▸ List.append_subset.mpr ⟨by simp, by simp⟩
  have hparents (m : DrawnNode) (hm : m ∈ d.nodes) (parent : Json) (hp : m.parent = some parent) :
      parent ≠ .null ∧ ∃ k ∈ before ++ { n with id } :: after,
        k.kind = .group ∧ k.id.spelling = parent.spelling := by
    obtain ⟨hnull, k, hk, hgroup⟩ := h.parents m hm parent hp
    exact ⟨hnull, k, hsub hk, hgroup⟩
  refine ⟨?_, fun m hm => ?_, h.edges, fun e he => ?_⟩
  · rw [nodeIds, List.map_append, List.map_cons, List.nodup_middle, ← List.map_append, ← hsplit]
    exact List.nodup_cons.mpr ⟨hid, h.nodes⟩
  · rcases List.mem_cons.mp (List.perm_middle.subset hm) with rfl | hm
    · exact hparents n hn
    · exact hparents m (hsplit ▸ hm)
  · exact (h.ends e he).imp (fun hs => List.map_subset _ hsub hs)
      fun ht => List.map_subset _ hsub ht

end Edits

/-! ### Views -/

/-- What a comparison sees of one of the nodes. -/
def nodeView (nodes : List DrawnNode) (n : DrawnNode) : NodeView :=
  ⟨n.kind, n.label, n.parent.elim .null (View.labelOf nodes)⟩

theorem labelOf_eq {nodes : List DrawnNode} (hnodup : (nodes.map fun n => n.id.spelling).Nodup)
    {m : DrawnNode} (hm : m ∈ nodes) {id : Json} (hid : m.id.spelling = id.spelling) :
    View.labelOf nodes id = m.label := by
  rw [View.labelOf]
  cases hf : nodes.find? fun n => n.id.spelling = id.spelling with
  | none => exact absurd hid (by simpa using List.find?_eq_none.mp hf m hm)
  | some n =>
    have hn : n.id.spelling = id.spelling := by simpa using List.find?_some hf
    rw [List.inj_on_of_nodup_map hnodup (List.mem_of_find?_eq_some hf) hm (hn.trans hid.symm)]
    rfl

/-- A drawing to which the names on the edges belong, and in which no two nodes and no two edges
look the same. -/
structure Legible (d : Drawing) : Prop extends d.Shaped where
  named : ∀ e ∈ d.edges, e.name.truthy = true
  clear : (View.ofDrawing d).Clear

namespace Legible

variable {d : Drawing} (h : d.Legible)
include h

/-- A drawing with the same groups and names looks the same, node by node and edge by edge. -/
theorem ofDrawing_eq {d' : Drawing} (h' : d'.Shaped)
    (hgroups : ∀ n ∈ d'.nodes, ∀ parent, n.parent = some parent →
      ∃ k ∈ d.nodes, k ∈ d'.nodes ∧ k.id.spelling = parent.spelling)
    (hnames : ∀ e ∈ d'.edges, ∃ c ∈ d.edges, e.name = c.name) :
    View.ofDrawing d' = ⟨d'.nodes.map (nodeView d.nodes), d'.edges.map DrawnEdge.name⟩ := by
  have hnodes : (View.ofDrawing d').nodes = d'.nodes.map (nodeView d.nodes) := by
    refine List.map_congr_left fun n hn => ?_
    rw [nodeView]
    cases hp : n.parent with
    | none => rfl
    | some parent =>
      obtain ⟨k, hk, hk', hid⟩ := hgroups n hn parent hp
      rw [Option.elim_some, Option.elim_some, labelOf_eq h.nodes hk hid,
        labelOf_eq h'.nodes hk' hid]
  have hedges : (View.ofDrawing d').edges = d'.edges.map DrawnEdge.name := by
    refine List.map_congr_left fun e he => ?_
    obtain ⟨c, hc, hname⟩ := hnames e he
    rw [View.edgeNameOf, if_pos (hname ▸ h.named c hc)]
  rw [← hnodes, ← hedges]

theorem exists_group {n : DrawnNode} (hn : n ∈ d.nodes) {parent : Json}
    (hp : n.parent = some parent) : ∃ k ∈ d.nodes, k.id.spelling = parent.spelling := by
  obtain ⟨-, k, hk, -, hid⟩ := h.parents n hn parent hp
  exact ⟨k, hk, hid⟩

theorem ofDrawing_self :
    View.ofDrawing d = ⟨d.nodes.map (nodeView d.nodes), d.edges.map DrawnEdge.name⟩ := by
  refine h.ofDrawing_eq h.toShaped (fun n hn parent hp => ?_) fun e he => ⟨e, he, rfl⟩
  obtain ⟨k, hk, hid⟩ := h.exists_group hn hp
  exact ⟨k, hk, hk, hid⟩

theorem clear_self : View.Clear ⟨d.nodes.map (nodeView d.nodes), d.edges.map DrawnEdge.name⟩ :=
  h.ofDrawing_self ▸ h.clear

variable {g : Graph} (hg : View.ofGraph g = View.ofDrawing d)
include hg

theorem check_eq {d' : Drawing} (h' : d'.Shaped)
    (hgroups : ∀ n ∈ d'.nodes, ∀ parent, n.parent = some parent →
      ∃ k ∈ d.nodes, k ∈ d'.nodes ∧ k.id.spelling = parent.spelling)
    (hnames : ∀ e ∈ d'.edges, ∃ c ∈ d.edges, e.name = c.name) :
    g.check d'.toJson =
      View.compare ⟨d.nodes.map (nodeView d.nodes), d.edges.map DrawnEdge.name⟩
        ⟨d'.nodes.map (nodeView d.nodes), d'.edges.map DrawnEdge.name⟩ := by
  rw [Graph.check_of_drawing (ofJson_toJson h'), hg, h.ofDrawing_eq h' hgroups hnames,
    h.ofDrawing_self]

/-! ### Verdicts -/

theorem check_toJson : g.check d.toJson = .ok .correct := by
  rw [Graph.check_of_drawing (ofJson_toJson h.toShaped), hg]
  exact View.compare_eq_correct h.clear.comparable h.clear.comparable ⟨.refl _, .refl _⟩

theorem check_dropEdge {before after : List DrawnEdge} {e : DrawnEdge}
    (hsplit : d.edges = before ++ e :: after) :
    g.check (toJson { d with edges := before ++ after }) = .ok (.wrong ⟨.missingEdge, e.name⟩) := by
  have hsub : before ++ after ⊆ d.edges :=
    hsplit ▸ ((List.sublist_cons_self e after).append_left before).subset
  rw [h.check_eq hg (h.dropEdge hsplit) (fun n hn parent hp => ?_)
    fun c hc => ⟨c, hsub hc, rfl⟩, List.map_append]
  · exact h.clear_self.compare_missingEdge (by rw [hsplit, List.map_append, List.map_cons])
  · obtain ⟨k, hk, hid⟩ := h.exists_group hn hp
    exact ⟨k, hk, hk, hid⟩

theorem check_dropNode {before after : List DrawnNode} {n : DrawnNode}
    (hsplit : d.nodes = before ++ n :: after) (hn : n.kind ≠ .group) :
    g.check (toJson
        { nodes := before ++ after, edges := d.edges.filter fun e => ¬e.Meets n }) =
      .ok (.wrong ⟨.missingNode, n.label⟩) := by
  have hshaped := h.dropNode hsplit hn
  have hsub : before ++ after ⊆ d.nodes :=
    hsplit ▸ ((List.sublist_cons_self n after).append_left before).subset
  rw [h.check_eq hg hshaped (fun m hm parent hp => ?_)
    fun c hc => ⟨c, (List.mem_filter.mp hc).1, rfl⟩, List.map_append]
  · refine h.clear_self.compare_missingNode (n := nodeView d.nodes n) ?_
      (List.map_subset _ List.filter_sublist.subset)
    rw [hsplit, List.map_append, List.map_cons]
  · obtain ⟨-, k, hk, -, hid⟩ := hshaped.parents m hm parent hp
    exact ⟨k, hsub hk, hk, hid⟩

theorem check_copyEdge {before after : List DrawnEdge} {e : DrawnEdge} {id : Json}
    (hsplit : d.edges = before ++ after) (he : e ∈ d.edges) (hid : id.spelling ∉ d.edgeIds) :
    g.check (toJson { d with edges := before ++ { e with id } :: after }) =
      .ok (.wrong ⟨.extraEdge, e.name⟩) := by
  rw [h.check_eq hg (h.copyEdge hsplit he hid) (fun n hn parent hp => ?_) fun c hc => ?_,
    List.map_append, List.map_cons]
  · have hname : e.name ∈ d.edges.map DrawnEdge.name := List.mem_map_of_mem he
    exact h.clear_self.compare_extraEdge (by rw [hsplit, List.map_append]) hname
  · obtain ⟨k, hk, hid⟩ := h.exists_group hn hp
    exact ⟨k, hk, hk, hid⟩
  · rcases List.mem_cons.mp (List.perm_middle.subset hc) with rfl | hc
    · exact ⟨e, he, rfl⟩
    · exact ⟨c, hsplit ▸ hc, rfl⟩

theorem check_copyNode {before after : List DrawnNode} {n : DrawnNode} {id : Json}
    (hsplit : d.nodes = before ++ after) (hn : n ∈ d.nodes) (hid : id.spelling ∉ d.nodeIds) :
    g.check (toJson { d with nodes := before ++ { n with id } :: after }) =
      .ok (.wrong ⟨.extraNode, n.label⟩) := by
  have hsub : d.nodes ⊆ before ++ { n with id } :: after :=
    hsplit ▸ ((List.sublist_cons_self _ after).append_left before).subset
  rw [h.check_eq hg (h.copyNode hsplit hn hid) (fun m hm parent hp => ?_) fun c hc => ⟨c, hc, rfl⟩,
    List.map_append, List.map_cons]
  · refine h.clear_self.compare_extraNode (n := nodeView d.nodes n) ?_ (List.mem_map_of_mem hn)
    rw [hsplit, List.map_append]
  · -- the copy lies in the group of its original
    have hgroup : ∃ k ∈ d.nodes, k.id.spelling = parent.spelling := by
      rcases List.mem_cons.mp (List.perm_middle.subset hm) with rfl | hm
      · exact h.exists_group hn hp
      · exact h.exists_group (hsplit ▸ hm) hp
    obtain ⟨k, hk, hid⟩ := hgroup
    exact ⟨k, hk, hsub hk, hid⟩

end Legible

end Drawing

end Lookahead
