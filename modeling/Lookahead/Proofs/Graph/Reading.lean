import Lookahead.Graph.Drawing
import Lookahead.Proofs.Graph.Building

/-!
# Graphs of drawings

Data that is accepted keeps to the format, so none of the edits that make its graph is
refused. The graph has the nodes and edges of the drawing, with the groups before the other
nodes. Ids that are different stay different when they are made into texts.
-/

namespace Lookahead

open List (Perm)

/-! ### Ids as texts -/

theorem length_head_le {ids : List Text.Loose} {id : Text.Loose} (h : id ∈ ids) :
    id.head.length ≤ ids.foldl (fun longest id => max longest id.head.length) 0 := by
  have hfoldl (ids : List Text.Loose) (least : Nat) :
      least ≤ ids.foldl (fun longest id => max longest id.head.length) least ∧
        ∀ id ∈ ids, id.head.length ≤
          ids.foldl (fun longest id => max longest id.head.length) least := by
    induction ids generalizing least with
    | nil => simp
    | cons first ids ih =>
      obtain ⟨hleast, hall⟩ := ih (max least first.head.length)
      rw [List.foldl_cons]
      exact ⟨by omega, List.forall_mem_cons.mpr ⟨by omega, hall⟩⟩
  exact (hfoldl ids 0).2 id h

/-- Different ids stay different as texts. -/
theorem idText_injective {ids : List Text.Loose} {a b : Text.Loose} (ha : a ∈ ids) (hb : b ∈ ids)
    (h : idText ids a = idText ids b) : a = b := by
  -- an id without halves is too short to be the text of one with halves
  have hshort {id : Text.Loose} (hid : id ∈ ids) (index : String) :
      id.head ≠ String.ofList (List.replicate
        (ids.foldl (fun longest id => max longest id.head.length) 0 + 1) '\uFFFD') ++ index := by
    intro he
    have hlength := congrArg String.length he
    rw [String.length_append, String.length_ofList, List.length_replicate] at hlength
    have hle := length_head_le hid
    omega
  obtain ⟨head, tail⟩ := a
  obtain ⟨head', tail'⟩ := b
  cases tail with
  | nil =>
    cases tail' with
    | nil => exact congrArg Text.Loose.ofString h
    | cons half tail' => exact absurd h (hshort ha _)
  | cons half tail =>
    cases tail' with
    | nil => exact absurd h.symm (hshort hb _)
    | cons half' tail' =>
      have hindex := Graph.toString_injective ((String.append_right_inj _).mp h)
      exact (List.idxOf_inj ha).mp hindex

theorem nodup_idTexts {α : Type} {items : List α} {spelling : α → Text.Loose}
    (h : (items.map spelling).Nodup) :
    (items.map fun a => idText (items.map spelling) (spelling a)).Nodup := by
  refine (List.Nodup.of_map _ h).map_on fun a ha b hb he => List.inj_on_of_nodup_map h ha hb ?_
  exact idText_injective (List.mem_map_of_mem ha) (List.mem_map_of_mem hb) he

/-! ### Data that is accepted -/

/-- The parts of a node are fields of the data that it was read from. -/
structure DrawnNode.ReadFrom (n : DrawnNode) (v : Json) : Prop where
  label : v.field? "symbolName" = some n.label
  parent : ∀ parent, n.parent = some parent → v.field? "parentId" = some parent ∧ parent ≠ .null

/-- The parts of an edge are fields of the data that it was read from; the name may be missing. -/
structure DrawnEdge.ReadFrom (e : DrawnEdge) (v : Json) : Prop where
  source : v.field? "sourceId" = some e.source
  target : v.field? "targetId" = some e.target
  name : e.name = .null ∨ v.field? "semanticName" = some e.name

namespace Drawing

/-- What the format asks for. -/
structure Shaped (d : Drawing) : Prop where
  nodes : d.nodeIds.Nodup
  parents : ∀ n ∈ d.nodes, ∀ parent, n.parent = some parent → parent ≠ .null ∧
    ∃ m ∈ d.nodes, m.kind = .group ∧ m.id.spelling = parent.spelling
  edges : d.edgeIds.Nodup
  ends : ∀ e ∈ d.edges, e.source.spelling ∈ d.nodeIds ∧ e.target.spelling ∈ d.nodeIds

variable {limits : Json.Limits}

theorem checkParents_eq_ok {groups : List Text.Loose} {nodes : List DrawnNode} :
    checkParents limits groups nodes = .ok () ↔ ∀ n ∈ nodes, ∀ parent, n.parent = some parent →
      parent.Fits limits ∧ parent.spelling ∈ groups := by
  induction nodes with
  | nil => simp [checkParents]
  | cons n nodes ih =>
    rw [checkParents, List.forall_mem_cons]
    cases n.parent with
    | none => simpa using ih
    | some parent =>
      simp only [Outcome.bind_eq_ok, Outcome.guard_eq_ok, Json.spellable_eq_ok, exists_const, ih]
      simp [and_assoc]

theorem checkEnd_eq_ok {nodes : List Text.Loose} {e : DrawnEdge} {id : Json} {a : Unit} :
    checkEnd limits nodes e id = .ok a ↔ id.Fits limits ∧ id.spelling ∈ nodes := by
  rw [checkEnd, Outcome.bind_eq_ok]
  by_cases h : id.spelling ∈ nodes <;> simp [h, Outcome.throw_eq_ok, Outcome.pure_eq_ok]

theorem require_eq_ok {v w : Json} {field : String} {fault : FormatFault} :
    require v field fault = .ok w ↔ v.field? field = some w := by
  rw [require]
  cases v.field? field <;> simp

theorem optional_eq_some {v w : Json} {field : String} :
    optional v field = some w ↔ v.field? field = some w ∧ w ≠ .null := by
  rw [optional]
  split
  · rename_i hnull
    simpa [hnull] using fun h : Json.null = w => h.symm
  · rename_i hnull
    constructor
    · rintro h
      exact ⟨h, fun hw => hnull (hw ▸ h)⟩
    · exact And.left

theorem readNode_readFrom {index : Nat} {v : Json} {n : DrawnNode}
    (h : readNode limits index v = .ok n) : n.ReadFrom v := by
  simp only [readNode, Outcome.bind_eq_ok, Outcome.guard_eq_ok, require_eq_ok] at h
  obtain ⟨-, id, -, kind, -, label, hlabel, -, -, h⟩ := h
  split at h
  · obtain ⟨-, -, h⟩ := Outcome.bind_eq_ok.mp h
    cases h
  · cases h
    exact ⟨hlabel, fun parent hp => optional_eq_some.mp hp⟩

/-- The spelling of an item differs from all that come after it was seen. -/
theorem nodup_cons_of_seen {α : Type} {spelling : α → Text.Loose} {a : α} {rest : List α}
    {seen : List Text.Loose} (hnodup : (rest.map spelling).Nodup)
    (hall : ∀ b ∈ rest, spelling b ∉ spelling a :: seen) : ((a :: rest).map spelling).Nodup := by
  refine List.nodup_cons.mpr ⟨fun hmem => ?_, hnodup⟩
  obtain ⟨b, hb, he⟩ := List.mem_map.mp hmem
  exact hall b hb (he ▸ List.mem_cons_self ..)

theorem readNodes_spec {items : List Json} {nodes : List DrawnNode} {index : Nat}
    {seen : List Text.Loose} (h : readNodes limits index seen items = .ok nodes) :
    (nodes.map fun n => n.id.spelling).Nodup ∧
      ∀ n ∈ nodes, n.id.spelling ∉ seen ∧ ∃ v ∈ items, n.ReadFrom v := by
  induction items generalizing index seen nodes with
  | nil =>
    cases h
    simp
  | cons v items ih =>
    simp only [readNodes, Outcome.bind_eq_ok, Outcome.guard_eq_ok, Outcome.pure_eq_ok] at h
    obtain ⟨n, hn, hfresh, rest, hrest, rfl⟩ := h
    obtain ⟨hnodup, hall⟩ := ih hrest
    refine ⟨nodup_cons_of_seen hnodup fun m hm => (hall m hm).1, List.forall_mem_cons.mpr
      ⟨⟨by simpa using hfresh, v, List.mem_cons_self .., readNode_readFrom hn⟩, fun m hm => ?_⟩⟩
    obtain ⟨hseen, w, hw, hm⟩ := hall m hm
    exact ⟨fun h => hseen (List.mem_cons_of_mem _ h), w, List.mem_cons_of_mem _ hw, hm⟩

theorem readEdge_readFrom {index : Nat} {v : Json} {e : DrawnEdge}
    (h : readEdge limits index v = .ok e) : e.ReadFrom v := by
  simp only [readEdge, Outcome.bind_eq_ok, Outcome.guard_eq_ok, Outcome.pure_eq_ok,
    require_eq_ok] at h
  obtain ⟨-, id, -, source, hsource, target, htarget, -, -, rfl⟩ := h
  refine ⟨hsource, htarget, ?_⟩
  cases v.field? "semanticName" with
  | none => exact .inl rfl
  | some name => exact .inr rfl

theorem readEdges_spec {ids : List Text.Loose} {items : List Json} {edges : List DrawnEdge}
    {index : Nat} {seen : List Text.Loose}
    (h : readEdges limits ids index seen items = .ok edges) :
    (edges.map fun e => e.id.spelling).Nodup ∧ ∀ e ∈ edges, e.id.spelling ∉ seen ∧
      (e.source.spelling ∈ ids ∧ e.target.spelling ∈ ids) ∧ ∃ v ∈ items, e.ReadFrom v := by
  induction items generalizing index seen edges with
  | nil =>
    cases h
    simp
  | cons v items ih =>
    simp only [readEdges, Outcome.bind_eq_ok, Outcome.guard_eq_ok, Outcome.pure_eq_ok,
      checkEnd_eq_ok] at h
    obtain ⟨e, he, hfresh, -, ⟨-, hsource⟩, -, ⟨-, htarget⟩, rest, hrest, rfl⟩ := h
    obtain ⟨hnodup, hall⟩ := ih hrest
    refine ⟨nodup_cons_of_seen hnodup fun c hc => (hall c hc).1, List.forall_mem_cons.mpr
      ⟨⟨by simpa using hfresh, ⟨hsource, htarget⟩, v, List.mem_cons_self .., readEdge_readFrom he⟩,
        fun c hc => ?_⟩⟩
    obtain ⟨hseen, hends, w, hw, hc⟩ := hall c hc
    exact ⟨fun h => hseen (List.mem_cons_of_mem _ h), hends, w, List.mem_cons_of_mem _ hw, hc⟩

theorem listField_eq_ok {v : Json} {field : String} {items : List Json} :
    listField v field = .ok items ↔
      v.field? field = some (.list items) ∨ v.field? field = none ∧ items = [] := by
  rw [listField]
  cases v.field? field with
  | none => simp [eq_comm]
  | some value => cases value <;> simp

/-- Data that is accepted has what the format asks for. -/
theorem shaped_of_ofJson {u : Json} {d : Drawing} (h : ofJson u limits = .ok d) : d.Shaped := by
  simp only [ofJson, Outcome.bind_eq_ok, Outcome.guard_eq_ok, Outcome.pure_eq_ok] at h
  obtain ⟨-, rawNodes, -, rawEdges, -, nodes, hnodes, ⟨⟩, hparents, edges, hedges, rfl⟩ := h
  obtain ⟨hnodup, hall⟩ := readNodes_spec hnodes
  obtain ⟨hnodup', hall'⟩ := readEdges_spec hedges
  refine ⟨hnodup, fun n hn parent hp => ⟨?_, ?_⟩, hnodup', fun e he => (hall' e he).2.1⟩
  · obtain ⟨-, v, -, hread⟩ := hall n hn
    exact (hread.parent parent hp).2
  · obtain ⟨m, hm, hid⟩ := List.mem_map.mp (checkParents_eq_ok.mp hparents n hn parent hp).2
    obtain ⟨hm, hkind⟩ := List.mem_filter.mp hm
    exact ⟨m, hm, by simpa [DrawnNode.isGroup] using hkind, hid⟩

end Drawing

/-! ### Building -/

section Building

variable (ids : List Text.Loose)

/-- The node of a drawn one before its parent is set. -/
def DrawnNode.outside (n : DrawnNode) : Node := ⟨idText ids n.id.spelling, n.kind, n.label, none⟩

/-- The node of a drawn one among nodes with the given ids. -/
def DrawnNode.toNode (n : DrawnNode) : Node :=
  { n.outside ids with group := n.parent.map fun parent => idText ids parent.spelling }

/-- The edge of a drawn one among nodes and edges with the given ids. -/
def DrawnEdge.toEdge (edges : List Text.Loose) (e : DrawnEdge) : Edge :=
  ⟨idText edges e.id.spelling, idText ids e.source.spelling, idText ids e.target.spelling,
    e.isGroupEdge⟩

end Building

namespace Graph

variable {g : Graph}

theorem addNode_given {id : String} (h : id ∉ g.nodeIds) (kind : NodeKind) (label : Json) :
    addNode kind label none (some id) g =
      .ok ⟨id, kind, label, none⟩ { g with nodes := g.nodes ++ [⟨id, kind, label, none⟩] } := by
  have hfresh : g.node? id = none := node?_eq_none_iff.mpr h
  simp only [addNode, requireGroup, chooseNodeId, Outcome.run_bind_eq_ok, Outcome.run_pure_eq_ok,
    Outcome.run_get_eq_ok]
  refine ⟨⟨⟩, g, ⟨trivial, rfl⟩, id, g, ⟨rfl, rfl⟩, g, g, ⟨rfl, rfl⟩, ?_⟩
  rw [hfresh]
  rfl

theorem addEdge_given {source target id : String} (hs : source ∈ g.nodeIds)
    (ht : target ∈ g.nodeIds) (h : id ∉ g.edges.map Edge.id) (isGroupEdge : Bool) :
    addEdge source target isGroupEdge (some id) g =
      .ok ⟨id, source, target, isGroupEdge⟩
        { g with edges := g.edges ++ [⟨id, source, target, isGroupEdge⟩] } := by
  have hfresh : g.edge? id = none := by
    refine List.find?_eq_none.mpr fun e he => ?_
    simpa using fun hid : e.id = id => h (hid ▸ List.mem_map_of_mem he)
  simp only [addEdge, chooseEdgeId, Outcome.run_bind_eq_ok, Outcome.run_pure_eq_ok,
    Outcome.run_get_eq_ok]
  refine ⟨⟨⟩, g, requireNode_eq hs, ⟨⟩, g, requireNode_eq ht, id, g, ⟨rfl, rfl⟩, g, g,
    ⟨rfl, rfl⟩, ?_⟩
  rw [hfresh]
  rfl

end Graph

namespace Drawing

theorem addNodes_eq {ids : List Text.Loose} {nodes : List DrawnNode} {g : Graph}
    (h : (g.nodeIds ++ nodes.map fun n => idText ids n.id.spelling).Nodup) :
    addNodes ids nodes g = .ok () { g with nodes := g.nodes ++ nodes.map (DrawnNode.outside ids) } := by
  induction nodes generalizing g with
  | nil =>
    rw [List.map_nil, List.append_nil]
    rfl
  | cons n nodes ih =>
    have hn : idText ids n.id.spelling ∉ g.nodeIds := fun hmem =>
      List.disjoint_of_nodup_append h hmem (List.mem_cons_self ..)
    rw [addNodes, Outcome.run_bind_eq_ok]
    refine ⟨_, _, Graph.addNode_given hn n.kind n.label, (ih ?_).trans ?_⟩
    · simpa [Graph.nodeIds] using h
    · simp [DrawnNode.outside]

/-- The node of a drawn one while the parents of some are still to be set. -/
def halfway (ids : List Text.Loose) (rest : List DrawnNode) (n : DrawnNode) : Node :=
  if n ∈ rest then n.outside ids else n.toNode ids

@[simp] theorem id_halfway (ids : List Text.Loose) (rest : List DrawnNode) (n : DrawnNode) :
    (halfway ids rest n).id = idText ids n.id.spelling := by
  rw [halfway]
  split <;> rfl

@[simp] theorem isGroup_halfway (ids : List Text.Loose) (rest : List DrawnNode) (n : DrawnNode) :
    (halfway ids rest n).isGroup = n.isGroup := by
  rw [halfway]
  split <;> rfl

section Parents

variable {ids : List Text.Loose} {nodes : List DrawnNode}
  (hids : (nodes.map fun n => idText ids n.id.spelling).Nodup)
include hids

/-- Setting the parent of a node brings it and no other one to its end. -/
theorem assign_halfway {n m : DrawnNode} {rest : List DrawnNode} (hn : n ∈ nodes) (hm : m ∈ nodes)
    (hrest : n ∉ rest) {parent : Json} (hp : n.parent = some parent) :
    Graph.assign (idText ids parent.spelling) [idText ids n.id.spelling]
      (halfway ids (n :: rest) m) = halfway ids rest m := by
  by_cases he : m = n
  · subst he
    simp [halfway, Graph.assign, hrest, DrawnNode.outside, DrawnNode.toNode, hp]
  · have hid : idText ids m.id.spelling ≠ idText ids n.id.spelling := fun hid =>
      he (List.inj_on_of_nodup_map hids hm hn hid)
    rw [Graph.assign, id_halfway, if_neg (by simpa using hid)]
    simp [halfway, he]

theorem setParents_eq {rest : List DrawnNode} (hsub : rest ⊆ nodes) (hnodup : rest.Nodup)
    (hparents : ∀ n ∈ rest, ∀ parent, n.parent = some parent →
      ∃ m ∈ nodes, m.kind = .group ∧ m.id.spelling = parent.spelling)
    {g : Graph} (hg : g.nodes = nodes.map (halfway ids rest)) :
    setParents ids rest g = .ok () { g with nodes := nodes.map (DrawnNode.toNode ids) } := by
  induction rest generalizing g with
  | nil =>
    have hnodes : nodes.map (DrawnNode.toNode ids) = g.nodes := by
      rw [hg]
      exact List.map_congr_left fun n _ => rfl
    rw [hnodes]
    rfl
  | cons n rest ih =>
    obtain ⟨hn, hsub⟩ := List.cons_subset.mp hsub
    obtain ⟨hnew, hnodup⟩ := List.nodup_cons.mp hnodup
    obtain ⟨hparent, hparents⟩ := List.forall_mem_cons.mp hparents
    have hgids : g.nodeIds = nodes.map fun n => idText ids n.id.spelling := by
      simp only [Graph.nodeIds, hg, List.map_map, Function.comp_def, id_halfway]
    rw [setParents]
    cases hp : n.parent with
    | none =>
      refine ih hsub hnodup hparents (hg.trans (List.map_congr_left fun m _ => ?_))
      by_cases he : m = n
      · subst he
        simp [halfway, hnew, DrawnNode.outside, DrawnNode.toNode, hp]
      · simp [halfway, he]
    | some parent =>
      obtain ⟨m, hm, hkind, hid⟩ := hparent parent hp
      have hgroup : g.node? (idText ids parent.spelling) = some (halfway ids (n :: rest) m) := by
        rw [Graph.node?_eq_some_iff_of_nodup (hgids ▸ hids), hg, id_halfway, hid]
        exact ⟨List.mem_map_of_mem hm, rfl⟩
      rw [Outcome.run_bind_eq_ok]
      refine ⟨⟨⟩, _, Graph.setGroup_eq (hgids ▸ List.mem_map_of_mem hn) hgroup ?_,
        (ih hsub hnodup hparents ?_).trans rfl⟩
      · rw [isGroup_halfway, DrawnNode.isGroup, hkind]
        rfl
      · rw [Graph.putInto, hg, List.map_map]
        exact List.map_congr_left fun k hk => assign_halfway hids hn hk hnew hp

end Parents

theorem addEdges_eq {ids edgeIds : List Text.Loose} {edges : List DrawnEdge} {g : Graph}
    (hends : ∀ e ∈ edges, idText ids e.source.spelling ∈ g.nodeIds ∧
      idText ids e.target.spelling ∈ g.nodeIds)
    (h : (g.edges.map Edge.id ++ edges.map fun e => idText edgeIds e.id.spelling).Nodup) :
    addEdges ids edgeIds edges g =
      .ok () { g with edges := g.edges ++ edges.map (DrawnEdge.toEdge ids edgeIds) } := by
  induction edges generalizing g with
  | nil =>
    rw [List.map_nil, List.append_nil]
    rfl
  | cons e edges ih =>
    obtain ⟨⟨hs, ht⟩, hends⟩ := List.forall_mem_cons.mp hends
    have he : idText edgeIds e.id.spelling ∉ g.edges.map Edge.id := fun hmem =>
      List.disjoint_of_nodup_append h hmem (List.mem_cons_self ..)
    rw [addEdges, Outcome.run_bind_eq_ok]
    refine ⟨_, _, Graph.addEdge_given hs ht he e.isGroupEdge, (ih ?_ ?_).trans ?_⟩
    · exact hends
    · simpa using h
    · simp [DrawnEdge.toEdge]

/-- The graph of a drawing, with the groups before the other nodes. -/
def toGraph (d : Drawing) (phase : String) : Graph :=
  { phase
    nodes := d.ordered.map (DrawnNode.toNode d.nodeIds)
    edges := d.edges.map (DrawnEdge.toEdge d.nodeIds d.edgeIds) }

theorem perm_ordered (d : Drawing) : Perm d.ordered d.nodes :=
  List.filter_append_perm DrawnNode.isGroup d.nodes

/-- No edit is refused while the graph of a drawing is built. -/
theorem build_eq {d : Drawing} (h : d.Shaped) (phase : String) :
    d.build { phase } = .ok () (d.toGraph phase) := by
  have hids : (d.ordered.map fun n => idText d.nodeIds n.id.spelling).Nodup :=
    (d.perm_ordered.map _).nodup_iff.mpr (nodup_idTexts h.nodes)
  have hedgeIds : (d.edges.map fun e => idText d.edgeIds e.id.spelling).Nodup :=
    nodup_idTexts h.edges
  have hend {id : Json} (hid : id.spelling ∈ d.nodeIds) :
      idText d.nodeIds id.spelling ∈ (d.ordered.map (DrawnNode.toNode d.nodeIds)).map Node.id := by
    obtain ⟨n, hn, he⟩ := List.mem_map.mp hid
    rw [List.map_map, ← he]
    exact List.mem_map_of_mem (d.perm_ordered.symm.subset hn)
  rw [build, Outcome.run_bind_eq_ok]
  refine ⟨(), _, addNodes_eq hids, ?_⟩
  rw [Outcome.run_bind_eq_ok]
  refine ⟨(), _, setParents_eq hids d.perm_ordered.symm.subset (List.Nodup.of_map _ h.nodes)
    (fun n hn parent hp => ?_) (List.map_congr_left fun n hn => ?_), ?_⟩
  · obtain ⟨-, m, hm, hgroup⟩ := h.parents n hn parent hp
    exact ⟨m, d.perm_ordered.symm.subset hm, hgroup⟩
  · rw [halfway, if_pos (d.perm_ordered.subset hn)]
  · exact addEdges_eq (fun e he => (h.ends e he).imp hend hend) hedgeIds

end Drawing

namespace Graph

/-- A graph is made of all data that is accepted. -/
theorem ofJson_eq {u : Json} {d : Drawing} {limits : Json.Limits}
    (h : Drawing.ofJson u limits = .ok d) (phase : String) :
    ofJson u phase limits = .ok (d.toGraph phase) := by
  rw [ofJson, h]
  dsimp only
  rw [Drawing.build_eq (Drawing.shaped_of_ofJson h)]

end Graph

end Lookahead
