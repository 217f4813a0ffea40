import Lookahead.Graph.Canonical
import Lookahead.Proofs.Outcome
import Mathlib.Data.List.Nodup

/-!
# Building graphs

Nodes and edges that are appended get new ids, so ids stay distinct and every node is found
by its id. Linking pairs of labels adds an edge for every pair: a pair is left out only if
its name occurred before, and the name of a pair determines the pair.
-/

namespace Lookahead

/-- The ids of the nodes that an edge joins. -/
def Edge.ends (e : Edge) : String × String := (e.source, e.target)

namespace Graph

variable {g : Graph}

/-! ### Ids -/

theorem toString_injective {a b : Nat} (h : toString a = toString b) : a = b := by
  have hchars : (toString a).toList = (toString b).toList := congrArg String.toList h
  have hvalue := congrArg (fun chars => Nat.ofDigitChars 10 chars 0) hchars
  simpa using hvalue

theorem nodeId_injective {a b : Nat} (h : g.nodeId a = g.nodeId b) : a = b := by
  refine toString_injective ?_
  simpa [nodeId, String.append_right_inj] using h

theorem edgeId_injective {a b : Nat} (h : g.edgeId a = g.edgeId b) : a = b := by
  refine toString_injective ?_
  simpa [edgeId, String.append_right_inj] using h

def nodeIds (g : Graph) : List String := g.nodes.map Node.id

/-- The ids were given out one by one, and edges join nodes that are there. -/
structure Tidy (g : Graph) : Prop where
  nodup : g.nodeIds.Nodup
  node_id : ∀ id ∈ g.nodeIds, ∃ k < g.nextNode, id = g.nodeId k
  edge_nodup : (g.edges.map Edge.id).Nodup
  edge_id : ∀ e ∈ g.edges, ∃ k < g.nextEdge, e.id = g.edgeId k
  ends : ∀ e ∈ g.edges, e.source ∈ g.nodeIds ∧ e.target ∈ g.nodeIds

theorem tidy_empty (phase : String) : Tidy { phase } :=
  ⟨List.nodup_nil, by simp [nodeIds], List.nodup_nil, by simp, by simp⟩

theorem node?_eq_some_iff_of_nodup (h : g.nodeIds.Nodup) {id : String} {n : Node} :
    g.node? id = some n ↔ n ∈ g.nodes ∧ n.id = id := by
  constructor
  · intro hn
    exact ⟨List.mem_of_find?_eq_some hn, by simpa using List.find?_some hn⟩
  · rintro ⟨hn, rfl⟩
    have hsome : (g.node? n.id).isSome = true :=
      List.find?_isSome.mpr ⟨n, hn, by simp⟩
    obtain ⟨m, hm⟩ := Option.isSome_iff_exists.mp hsome
    have hid : m.id = n.id := by simpa using List.find?_some hm
    rw [hm, List.inj_on_of_nodup_map h (List.mem_of_find?_eq_some hm) hn hid]

theorem Tidy.node?_eq_some_iff (h : g.Tidy) {id : String} {n : Node} :
    g.node? id = some n ↔ n ∈ g.nodes ∧ n.id = id :=
  node?_eq_some_iff_of_nodup h.nodup

theorem node?_eq_none_iff {id : String} : g.node? id = none ↔ id ∉ g.nodeIds := by
  simp [node?, nodeIds, List.find?_eq_none]

theorem Tidy.nextNode_not_mem (h : g.Tidy) : g.nodeId g.nextNode ∉ g.nodeIds := by
  intro hm
  obtain ⟨k, hk, he⟩ := h.node_id _ hm
  exact absurd (nodeId_injective he) (Nat.ne_of_gt hk)

theorem nodeIds_appendNode (g : Graph) (kind : NodeKind) (label : Json) (group : Option String) :
    (g.appendNode kind label group).nodeIds = g.nodeIds ++ [g.nodeId g.nextNode] := by
  simp [nodeIds, appendNode]

theorem Tidy.appendNode (h : g.Tidy) (kind : NodeKind) (label : Json) (group : Option String) :
    (g.appendNode kind label group).Tidy := by
  refine ⟨?_, ?_, h.edge_nodup, h.edge_id, ?_⟩
  · rw [nodeIds_appendNode, ← List.concat_eq_append]
    exact h.nodup.concat h.nextNode_not_mem
  · intro id hid
    rw [nodeIds_appendNode, List.mem_append, List.mem_singleton] at hid
    rcases hid with hid | rfl
    · obtain ⟨k, hk, rfl⟩ := h.node_id id hid
      exact ⟨k, Nat.lt_succ_of_lt hk, rfl⟩
    · exact ⟨g.nextNode, Nat.lt_succ_self _, rfl⟩
  · intro e he
    rw [nodeIds_appendNode]
    exact (h.ends e he).imp (List.mem_append_left _) (List.mem_append_left _)

theorem Tidy.nextEdge_ne (h : g.Tidy) {e : Edge} (he : e ∈ g.edges) :
    e.id ≠ g.edgeId g.nextEdge := by
  obtain ⟨k, hk, hid⟩ := h.edge_id e he
  rw [hid]
  exact fun hid' => absurd (edgeId_injective hid') (Nat.ne_of_lt hk)

theorem Tidy.appendEdge (h : g.Tidy) {source target : String} (hs : source ∈ g.nodeIds)
    (ht : target ∈ g.nodeIds) (isGroupEdge : Bool) :
    (g.appendEdge source target isGroupEdge).Tidy := by
  refine ⟨h.nodup, h.node_id, ?_, ?_, ?_⟩
  · rw [Graph.appendEdge, List.map_append, List.map_singleton, ← List.concat_eq_append]
    refine h.edge_nodup.concat fun hid => ?_
    obtain ⟨e, he, heq⟩ := List.mem_map.mp hid
    exact h.nextEdge_ne he heq
  · intro e he
    rcases List.mem_append.mp he with he | he
    · obtain ⟨k, hk, hid⟩ := h.edge_id e he
      exact ⟨k, Nat.lt_succ_of_lt hk, hid⟩
    · rw [List.mem_singleton.mp he]
      exact ⟨g.nextEdge, Nat.lt_succ_self _, rfl⟩
  · intro e he
    rcases List.mem_append.mp he with he | he
    · exact h.ends e he
    · rw [List.mem_singleton.mp he]
      exact ⟨hs, ht⟩

/-! ### Edits that go through -/

/-- A node in the group that it is put into, if it is one of the given nodes. -/
def assign (group : String) (ids : List String) (n : Node) : Node :=
  if n.id ∈ ids then { n with group := some group } else n

@[simp] theorem id_assign (group : String) (ids : List String) (n : Node) :
    (assign group ids n).id = n.id := by
  rw [assign]
  split <;> rfl

@[simp] theorem kind_assign (group : String) (ids : List String) (n : Node) :
    (assign group ids n).kind = n.kind := by
  rw [assign]
  split <;> rfl

@[simp] theorem label_assign (group : String) (ids : List String) (n : Node) :
    (assign group ids n).label = n.label := by
  rw [assign]
  split <;> rfl

theorem isGroup_assign (group : String) (ids : List String) (n : Node) :
    (assign group ids n).isGroup = n.isGroup := by
  simp [Node.isGroup]

/-- The graph with nodes put into a group. -/
def putInto (g : Graph) (group : String) (ids : List String) : Graph :=
  { g with nodes := g.nodes.map (assign group ids) }

theorem nodeIds_putInto (g : Graph) (group : String) (ids : List String) :
    (g.putInto group ids).nodeIds = g.nodeIds := by
  simp [nodeIds, putInto, Function.comp_def]

theorem requireNode_eq {id : String} (hid : id ∈ g.nodeIds) : requireNode id g = .ok ⟨⟩ g := by
  have hsome : g.node? id ≠ none := fun h => node?_eq_none_iff.mp h hid
  rw [requireNode, Outcome.run_bind_eq_ok]
  refine ⟨g, g, rfl, ?_⟩
  rw [if_neg (by simpa using hsome)]
  rfl

theorem requireGroup_eq (fault : Breach) {group : String} {n : Node} (hn : g.node? group = some n)
    (hgroup : n.isGroup = true) : requireGroup fault (some group) g = .ok ⟨⟩ g := by
  rw [requireGroup, Outcome.run_bind_eq_ok]
  refine ⟨g, g, rfl, ?_⟩
  simp only [hn, hgroup]
  rfl

theorem setGroup_eq {id group : String} (hid : id ∈ g.nodeIds) {n : Node}
    (hn : g.node? group = some n) (hgroup : n.isGroup = true) :
    setGroup id (some group) g = .ok ⟨⟩ (g.putInto group [id]) := by
  rw [setGroup, Outcome.run_bind_eq_ok]
  refine ⟨⟨⟩, g, requireNode_eq hid, ?_⟩
  rw [Outcome.run_bind_eq_ok]
  refine ⟨⟨⟩, g, requireGroup_eq _ hn hgroup, ?_⟩
  rw [Outcome.run_modify_eq_ok, putInto]
  congr 1
  refine List.map_congr_left fun m _ => ?_
  simp [assign]

/-! ### Leaves -/

/-- The nodes that `appendLeaves` adds, one for every label. -/
structure Leaves (kind : NodeKind) (labels : List String) (nodes : List Node) : Prop where
  labels_eq : nodes.map Node.label = labels.map fun (label : String) => .string label
  kind_eq : ∀ n ∈ nodes, n.kind = kind
  group_eq : ∀ n ∈ nodes, n.group = none

theorem appendLeaves_spec (h : g.Tidy) (kind : NodeKind) (labels : List String) :
    ∃ nodes, (appendLeaves kind labels g).nodes = g.nodes ++ nodes ∧ Leaves kind labels nodes ∧
      (appendLeaves kind labels g).edges = g.edges ∧ (appendLeaves kind labels g).Tidy := by
  induction labels generalizing g with
  | nil => exact ⟨[], by simp [appendLeaves], ⟨rfl, by simp, by simp⟩, rfl, h⟩
  | cons label labels ih =>
    obtain ⟨nodes, hnodes, hleaves, hedges, htidy⟩ := ih (h.appendNode kind (.string label) none)
    refine ⟨⟨g.nodeId g.nextNode, kind, .string label, none⟩ :: nodes, ?_, ?_, hedges, htidy⟩
    · refine hnodes.trans ?_
      simp [Graph.appendNode]
    · refine ⟨by rw [List.map_cons, hleaves.labels_eq, List.map_cons], ?_, ?_⟩
      · exact List.forall_mem_cons.mpr ⟨rfl, hleaves.kind_eq⟩
      · exact List.forall_mem_cons.mpr ⟨rfl, hleaves.group_eq⟩

theorem Leaves.exists_node {kind : NodeKind} {labels : List String} {nodes : List Node}
    (h : Leaves kind labels nodes) {label : String} (hl : label ∈ labels) :
    ∃ n ∈ nodes, n.label = .string label := by
  have hm : (.string label : Json) ∈ nodes.map Node.label := by
    rw [h.labels_eq]
    exact List.mem_map_of_mem hl
  exact List.mem_map.mp hm

/-! ### Nodes of a kind -/

/-- The nodes of a kind have the given labels, no two the same. -/
structure Labelled (g : Graph) (kind : NodeKind) (labels : List String) : Prop where
  exists_label : ∀ n ∈ g.nodes, n.kind = kind → ∃ label ∈ labels, n.label = .string label
  exists_node : ∀ label ∈ labels, ∃ n ∈ g.nodes, n.kind = kind ∧ n.label = .string label
  unique : ∀ m ∈ g.nodes, ∀ n ∈ g.nodes, m.kind = kind → n.kind = kind → m.label = n.label → m = n

theorem Labelled.of_nodes_eq {g' : Graph} {kind : NodeKind} {labels : List String}
    (h : g.Labelled kind labels) (hn : g'.nodes = g.nodes) : g'.Labelled kind labels := by
  refine ⟨?_, ?_, ?_⟩ <;> rw [hn]
  · exact h.exists_label
  · exact h.exists_node
  · exact h.unique

theorem Labelled.of_mem_iff {kind : NodeKind} {labels labels' : List String}
    (h : g.Labelled kind labels) (hl : ∀ label, label ∈ labels ↔ label ∈ labels') :
    g.Labelled kind labels' := by
  refine ⟨fun n hn hk => ?_, fun label hm => h.exists_node label ((hl label).mpr hm), h.unique⟩
  obtain ⟨label, hm, he⟩ := h.exists_label n hn hk
  exact ⟨label, (hl label).mp hm, he⟩

theorem label_same_iff {n : Node} {label : String} :
    n.label.same (.string label) = true ↔ n.label = .string label := by
  constructor
  · exact Json.eq_string_of_same
  · intro h
    rw [h, Json.same_string]
    simp

theorem labelled_of_labels {kind : NodeKind} {labels : List String} (hnodup : labels.Nodup)
    (h : (g.nodes.filter fun n => n.kind = kind).map Node.label =
      labels.map fun (label : String) => .string label) : g.Labelled kind labels := by
  have hmem {n : Node} (hn : n ∈ g.nodes) (hk : n.kind = kind) :
      n ∈ g.nodes.filter fun n => n.kind = kind := List.mem_filter.mpr ⟨hn, by simp [hk]⟩
  refine ⟨fun n hn hk => ?_, fun label hl => ?_, fun m hm n hn hmk hnk he => ?_⟩
  · have hlabel := List.mem_map_of_mem (f := Node.label) (hmem hn hk)
    rw [h] at hlabel
    obtain ⟨label, hl, he⟩ := List.mem_map.mp hlabel
    exact ⟨label, hl, he.symm⟩
  · have hlabel : (.string label : Json) ∈ (g.nodes.filter fun n => n.kind = kind).map Node.label := by
      rw [h]
      exact List.mem_map_of_mem hl
    obtain ⟨n, hn, he⟩ := List.mem_map.mp hlabel
    obtain ⟨hn, hk⟩ := List.mem_filter.mp hn
    exact ⟨n, hn, by simpa using hk, he⟩
  · refine List.inj_on_of_nodup_map ?_ (hmem hm hmk) (hmem hn hnk) he
    rw [h]
    refine hnodup.map fun a b hab => ?_
    rwa [Json.string_inj] at hab

/-- The node with a label is found. -/
theorem Labelled.findNode? {kind : NodeKind} {labels : List String} (h : g.Labelled kind labels)
    {n : Node} (hn : n ∈ g.nodes) (hk : n.kind = kind) {label : String}
    (hl : n.label = .string label) : g.findNode? (.string label) (some kind) = some n := by
  have hsome : (g.findNode? (.string label) (some kind)).isSome = true := by
    refine List.find?_isSome.mpr ⟨n, hn, ?_⟩
    simp [label_same_iff.mpr hl, hk]
  obtain ⟨m, hm⟩ := Option.isSome_iff_exists.mp hsome
  have hp := List.find?_some hm
  simp only [Option.all_some, Bool.and_eq_true, decide_eq_true_eq, label_same_iff] at hp
  rw [hm, h.unique m (List.mem_of_find?_eq_some hm) n hn hp.2 hk (hp.1.trans hl.symm)]

/-! ### Links -/

/-- The name of a pair of labels. -/
def pairName (pair : String × String) : String := pair.1 ++ "->" ++ pair.2

/-- An edge between the nodes with the labels of a pair. -/
def Joins (g : Graph) (kind : NodeKind) (e : Edge) (pair : String × String) : Prop :=
  e.isGroupEdge = false ∧
    (∃ n ∈ g.nodes, n.kind = kind ∧ n.label = .string pair.1 ∧ n.id = e.source) ∧
    ∃ n ∈ g.nodes, n.kind = kind ∧ n.label = .string pair.2 ∧ n.id = e.target

theorem Joins.of_nodes_eq {g' : Graph} {kind : NodeKind} {e : Edge} {pair : String × String}
    (hj : g.Joins kind e pair) (hn : g'.nodes = g.nodes) : g'.Joins kind e pair := by
  rwa [Joins, hn]

/-- The ends of an edge tell which pair it joins. -/
theorem Joins.eq_of_ends_eq (h : g.Tidy) {kind : NodeKind} {d e : Edge} {p q : String × String}
    (hd : g.Joins kind d p) (he : g.Joins kind e q) (hends : d.ends = e.ends) : p = q := by
  have hlabel {m n : Node} {s t : String} (hm : m ∈ g.nodes) (hn : n ∈ g.nodes)
      (hid : m.id = n.id) (hs : m.label = .string s) (ht : n.label = .string t) : s = t := by
    rw [List.inj_on_of_nodup_map h.nodup hm hn hid, ht, Json.string_inj] at hs
    exact hs.symm
  obtain ⟨hsource, htarget⟩ := Prod.mk.inj hends
  obtain ⟨-, ⟨m, hm, -, hml, hmid⟩, n, hn, -, hnl, hnid⟩ := hd
  obtain ⟨-, ⟨k, hk, -, hkl, hkid⟩, l, hl, -, hll, hlid⟩ := he
  exact Prod.ext (hlabel hm hk (hmid.trans (hsource.trans hkid.symm)) hml hkl)
    (hlabel hn hl (hnid.trans (htarget.trans hlid.symm)) hnl hll)

/-- Linking adds edges for the pairs and no others, and none twice. -/
structure Linked (g g' : Graph) (kind : NodeKind) (pairs : List (String × String))
    (seen : List String) (edges : List Edge) : Prop where
  nodes_eq : g'.nodes = g.nodes
  edges_eq : g'.edges = g.edges ++ edges
  tidy : g'.Tidy
  nodup : (edges.map Edge.ends).Nodup
  sound : ∀ e ∈ edges, ∃ pair ∈ pairs, pairName pair ∉ seen ∧ g.Joins kind e pair
  complete : ∀ pair ∈ pairs, pairName pair ∉ seen → ∃ e ∈ edges, g.Joins kind e pair

section Link

variable {kind : NodeKind} {seen : List String} {pair : String × String}
  {pairs : List (String × String)}

/-- A pair whose name was seen may be left out. -/
theorem Linked.cons {g' : Graph} {edges : List Edge} (h : Linked g g' kind pairs seen edges)
    (hseen : pairName pair ∈ seen) : Linked g g' kind (pair :: pairs) seen edges := by
  refine ⟨h.nodes_eq, h.edges_eq, h.tidy, h.nodup, fun e he => ?_, fun q hq hnot => ?_⟩
  · obtain ⟨q, hq, hjoins⟩ := h.sound e he
    exact ⟨q, List.mem_cons_of_mem _ hq, hjoins⟩
  · rcases List.mem_cons.mp hq with rfl | hq
    · exact absurd hseen hnot
    · exact h.complete q hq hnot

/-- The first pair of the list gave a new edge. -/
theorem Linked.cons_new {g' : Graph} {a b : String} {edges : List Edge} (hg : g.Tidy)
    (h : Linked (g.appendEdge a b) g' kind pairs (pairName pair :: seen) edges)
    (hnew : pairName pair ∉ seen) (hjoins : g.Joins kind ⟨g.edgeId g.nextEdge, a, b, false⟩ pair)
    (hinj : ∀ q ∈ pairs, pairName q = pairName pair → q = pair) :
    Linked g g' kind (pair :: pairs) seen (⟨g.edgeId g.nextEdge, a, b, false⟩ :: edges) := by
  refine ⟨h.nodes_eq, ?_, h.tidy, ?_, fun d hd => ?_, fun q hq hnot => ?_⟩
  · rw [h.edges_eq]
    simp [Graph.appendEdge]
  · -- an edge with the ends of the new one would have a name that was seen
    rw [List.map_cons, List.nodup_cons]
    refine ⟨fun hends => ?_, h.nodup⟩
    obtain ⟨d, hd, hde⟩ := List.mem_map.mp hends
    obtain ⟨q, -, hnot, hj⟩ := h.sound d hd
    obtain rfl := (hj.of_nodes_eq rfl).eq_of_ends_eq hg hjoins hde
    exact hnot (List.mem_cons_self ..)
  · rcases List.mem_cons.mp hd with rfl | hd
    · exact ⟨_, List.mem_cons_self .., hnew, hjoins⟩
    · obtain ⟨q, hq, hnot, hj⟩ := h.sound d hd
      exact ⟨q, List.mem_cons_of_mem _ hq, fun hm => hnot (List.mem_cons_of_mem _ hm), hj⟩
  · rcases List.mem_cons.mp hq with rfl | hq
    · exact ⟨_, List.mem_cons_self .., hjoins⟩
    · by_cases hname : pairName q = pairName pair
      · rw [hinj q hq hname]
        exact ⟨_, List.mem_cons_self .., hjoins⟩
      · obtain ⟨d, hd, hj⟩ := h.complete q hq (by simp [hname, hnot])
        exact ⟨d, List.mem_cons_of_mem _ hd, hj⟩

theorem link_spec {labels : List String} (seen : List String) (hg : g.Tidy)
    (hl : g.Labelled kind labels) (hpairs : ∀ pair ∈ pairs, pair.1 ∈ labels ∧ pair.2 ∈ labels)
    (hinj : ∀ a ∈ pairs, ∀ b ∈ pairs, pairName a = pairName b → a = b) :
    ∃ g' edges, link kind seen pairs g = .ok g' ∧ Linked g g' kind pairs seen edges := by
  induction pairs generalizing g seen with
  | nil => exact ⟨g, [], rfl, rfl, by simp, hg, List.nodup_nil, by simp, by simp⟩
  | cons pair pairs ih =>
    obtain ⟨⟨hs, ht⟩, hrest⟩ := List.forall_mem_cons.mp hpairs
    have hinj' : ∀ a ∈ pairs, ∀ b ∈ pairs, pairName a = pairName b → a = b :=
      fun a ha b hb => hinj a (List.mem_cons_of_mem _ ha) b (List.mem_cons_of_mem _ hb)
    obtain ⟨source, target⟩ := pair
    rw [link]
    split
    next hseen =>
      obtain ⟨g', edges, hlink, hspec⟩ := ih seen hg hl hrest hinj'
      exact ⟨g', edges, hlink, hspec.cons (List.contains_iff_mem.mp hseen)⟩
    next hnew =>
      obtain ⟨a, ha, hak, hal⟩ := hl.exists_node source hs
      obtain ⟨b, hb, hbk, hbl⟩ := hl.exists_node target ht
      rw [hl.findNode? ha hak hal, hl.findNode? hb hbk hbl]
      have htidy : (g.appendEdge a.id b.id).Tidy :=
        hg.appendEdge (List.mem_map_of_mem ha) (List.mem_map_of_mem hb) false
      obtain ⟨g', edges, hlink, hspec⟩ :=
        ih (pairName (source, target) :: seen) htidy (hl.of_nodes_eq rfl) hrest hinj'
      refine ⟨g', _, hlink, hspec.cons_new hg (fun hm => hnew (List.contains_iff_mem.mpr hm))
        ⟨rfl, ⟨a, ha, hak, hal, rfl⟩, ⟨b, hb, hbk, hbl, rfl⟩⟩ fun q hq hname => ?_⟩
      exact hinj q (List.mem_cons_of_mem _ hq) _ (List.mem_cons_self ..) hname

end Link

/-- A graph of leaves of one kind with an edge for every pair of labels. -/
structure LeafGraph (g : Graph) (kind : NodeKind) (labels : List String)
    (pairs : List (String × String)) : Prop where
  tidy : g.Tidy
  labelled : g.Labelled kind labels
  node : ∀ n ∈ g.nodes, n.kind = kind ∧ n.group = none
  nodup : (g.edges.map Edge.ends).Nodup
  sound : ∀ e ∈ g.edges, ∃ pair ∈ pairs, g.Joins kind e pair
  complete : ∀ pair ∈ pairs, ∃ e ∈ g.edges, g.Joins kind e pair

theorem exists_leafGraph (phase : String) (kind : NodeKind) {labels : List String}
    {pairs : List (String × String)} (hnodup : labels.Nodup)
    (hpairs : ∀ pair ∈ pairs, pair.1 ∈ labels ∧ pair.2 ∈ labels)
    (hinj : ∀ a ∈ pairs, ∀ b ∈ pairs, pairName a = pairName b → a = b) :
    ∃ g, link kind [] pairs (appendLeaves kind labels { phase }) = .ok g ∧
      g.LeafGraph kind labels pairs := by
  obtain ⟨nodes, hnodes, hleaves, hedges, htidy⟩ :=
    appendLeaves_spec (tidy_empty phase) kind labels
  generalize appendLeaves kind labels { phase } = start at *
  rw [List.nil_append] at hnodes
  have hkind : nodes.filter (fun n => n.kind = kind) = nodes :=
    List.filter_eq_self.mpr fun n hn => by simp [hleaves.kind_eq n hn]
  have hlabelled := labelled_of_labels (g := start) hnodup
    (by rw [hnodes, hkind, hleaves.labels_eq])
  obtain ⟨g, edges, hlink, hlinked⟩ := link_spec [] htidy hlabelled hpairs hinj
  have hedges' : g.edges = edges := by rw [hlinked.edges_eq, hedges, List.nil_append]
  refine ⟨g, hlink, hlinked.tidy, hlabelled.of_nodes_eq hlinked.nodes_eq, fun n hn => ?_,
    hedges'.symm ▸ hlinked.nodup, fun e he => ?_, fun pair hp => ?_⟩
  · rw [hlinked.nodes_eq, hnodes] at hn
    exact ⟨hleaves.kind_eq n hn, hleaves.group_eq n hn⟩
  · rw [hedges'] at he
    obtain ⟨pair, hp, -, hj⟩ := hlinked.sound e he
    exact ⟨pair, hp, hj.of_nodes_eq hlinked.nodes_eq⟩
  · obtain ⟨e, he, hj⟩ := hlinked.complete pair hp (by simp)
    exact ⟨e, hedges' ▸ he, hj.of_nodes_eq hlinked.nodes_eq⟩

end Graph

end Lookahead
