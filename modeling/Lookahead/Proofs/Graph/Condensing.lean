import Lookahead.Proofs.Components
import Lookahead.Proofs.Graph.Building
import Lookahead.Proofs.Outcome

/-!
# Condensing graphs

Condensing a tidy graph makes one group for every component of the leaves that lie in no
group, puts the members into it, and joins two different groups iff a leaf edge that
touches one of these leaves leads from the one to the other.
-/

namespace Lookahead.Graph

open Lookahead.Digraph (Reaches Mutual)

variable {g : Graph}

/-! ### Putting nodes into groups -/

theorem Tidy.putInto (h : g.Tidy) (group : String) (ids : List String) :
    (g.putInto group ids).Tidy := by
  refine ⟨?_, ?_, h.edge_nodup, h.edge_id, ?_⟩
  · rw [nodeIds_putInto]
    exact h.nodup
  · rw [nodeIds_putInto]
    exact h.node_id
  · rw [nodeIds_putInto]
    exact h.ends

theorem assign_assign (group : String) (ids ids' : List String) (n : Node) :
    assign group ids' (assign group ids n) = assign group (ids ++ ids') n := by
  by_cases h : n.id ∈ ids <;> by_cases h' : n.id ∈ ids' <;> simp [assign, h, h']

theorem setGroups_eq (h : g.Tidy) {ids : List String} (hids : ∀ id ∈ ids, id ∈ g.nodeIds)
    {n : Node} (hn : n ∈ g.nodes) (hgroup : n.isGroup = true) :
    setGroups n.id ids g = .ok ⟨⟩ (g.putInto n.id ids) := by
  induction ids generalizing g n with
  | nil =>
    have hkeep : g.nodes.map (assign n.id []) = g.nodes := by
      refine (List.map_congr_left fun m _ => ?_).trans (List.map_id _)
      simp [assign]
    rw [putInto, hkeep]
    rfl
  | cons id ids ih =>
    obtain ⟨hid, hrest⟩ := List.forall_mem_cons.mp hids
    rw [setGroups, Outcome.run_bind_eq_ok]
    refine ⟨⟨⟩, _, setGroup_eq hid (h.node?_eq_some_iff.mpr ⟨hn, rfl⟩) hgroup, ?_⟩
    have hput : assign n.id [id] n ∈ (g.putInto n.id [id]).nodes := List.mem_map_of_mem hn
    have hih := ih (h.putInto n.id [id]) (by rwa [nodeIds_putInto]) hput
      (by rwa [isGroup_assign])
    rw [id_assign] at hih
    rw [hih, putInto, putInto, putInto, List.map_map]
    congr 2
    refine List.map_congr_left fun m _ => ?_
    exact assign_assign n.id [id] ids m

/-! ### Groups -/

theorem addNode_eq (h : g.Tidy) (kind : NodeKind) (label : Json) :
    addNode kind label none none g =
      .ok ⟨g.nodeId g.nextNode, kind, label, none⟩ (g.appendNode kind label) := by
  have hfresh : Graph.node? { g with nextNode := g.nextNode + 1 } (g.nodeId g.nextNode) = none :=
    node?_eq_none_iff.mpr h.nextNode_not_mem
  simp only [addNode, requireGroup, chooseNodeId, Outcome.run_bind_eq_ok, Outcome.run_pure_eq_ok,
    Outcome.run_set_eq_ok, Outcome.run_get_eq_ok]
  refine ⟨⟨⟩, g, ⟨trivial, rfl⟩, _, _, ⟨g, g, ⟨rfl, rfl⟩, ⟨⟩, _, rfl, rfl, rfl⟩, _, _,
    ⟨rfl, rfl⟩, ?_⟩
  rw [hfresh]
  rfl

/-- The name of a group whose members have the given inner names. -/
def title (kind : NodeKind) (names : List String) : String :=
  let name := Naming.component (String.intercalate ", " (names.mergeSort fun a b => !(b < a)))
  if kind = .follow then Naming.followLeaf name else name

theorem innerNames_eq {members : List Node} {labels : List String}
    (h : members.map Node.label = labels.map fun (label : String) => .string label) :
    Naming.innerNames (members.map Node.label) = .ok (labels.map Naming.innerName) := by
  rw [h]
  clear h
  induction labels with
  | nil => rfl
  | cons label labels ih =>
    rw [List.map_cons, Naming.innerNames, ih]
    rfl

theorem group_eq {kind : NodeKind} {members : List Node} {labels : List String}
    (h : members.map Node.label = labels.map fun (label : String) => .string label) :
    Naming.group kind members = .ok (title kind (labels.map Naming.innerName)) := by
  rw [Naming.group, innerNames_eq h]
  rfl

theorem labelText_eq (h : g.Tidy) {n : Node} (hn : n ∈ g.nodes) :
    g.labelText n.id = n.label.text := by
  rw [labelText, h.node?_eq_some_iff.mpr ⟨hn, rfl⟩, Option.elim_some]

/-- A node of the graph that is no group and whose label is a text. -/
def IsLeaf (g : Graph) (id : String) : Prop :=
  ∃ n ∈ g.nodes, n.id = id ∧ n.isGroup = false ∧ ∃ label : String, n.label = .string label

theorem IsLeaf.mem_nodeIds {id : String} (h : g.IsLeaf id) : id ∈ g.nodeIds := by
  obtain ⟨n, hn, rfl, _⟩ := h
  exact List.mem_map_of_mem hn

theorem map_label_filterMap (h : g.Tidy) {ids : List String} (hids : ∀ id ∈ ids, g.IsLeaf id) :
    (ids.filterMap g.node?).map Node.label =
      (ids.map g.labelText).map fun (label : String) => .string label := by
  induction ids with
  | nil => rfl
  | cons id ids ih =>
    obtain ⟨⟨n, hn, rfl, _, label, hlabel⟩, hrest⟩ := List.forall_mem_cons.mp hids
    have hnode : g.node? n.id = some n := h.node?_eq_some_iff.mpr ⟨hn, rfl⟩
    rw [List.filterMap_cons_some hnode, List.map_cons, ih hrest, List.map_cons, List.map_cons,
      labelText_eq h hn, hlabel, Json.text_string]

/-- The group that is made of a component. -/
def groupOf (g : Graph) (kind : NodeKind) (ids : List String) : Node :=
  ⟨g.nodeId g.nextNode, .group, .string (title kind ((ids.map g.labelText).map Naming.innerName)),
    none⟩

/-- The graph with one more group and its members in it. -/
def withGroup (g : Graph) (kind : NodeKind) (ids : List String) : Graph :=
  (g.appendNode .group (g.groupOf kind ids).label).putInto (g.groupOf kind ids).id ids

theorem addGroup_eq (h : g.Tidy) (kind : NodeKind) {ids : List String}
    (hids : ∀ id ∈ ids, g.IsLeaf id) :
    addGroup kind ids g = .ok (g.groupOf kind ids) (g.withGroup kind ids) := by
  rw [addGroup, Outcome.run_bind_eq_ok]
  refine ⟨g, g, rfl, ?_⟩
  rw [group_eq (map_label_filterMap h hids), Outcome.run_bind_eq_ok]
  refine ⟨_, _, addNode_eq h .group _, ?_⟩
  rw [Outcome.run_bind_eq_ok]
  refine ⟨⟨⟩, g.withGroup kind ids, ?_, rfl⟩
  have htidy := h.appendNode .group (g.groupOf kind ids).label none
  refine setGroups_eq htidy (fun id hid => ?_) (n := g.groupOf kind ids) ?_ rfl
  · rw [nodeIds_appendNode]
    exact List.mem_append_left _ (hids id hid).mem_nodeIds
  · simp [appendNode, groupOf]

theorem Tidy.withGroup (h : g.Tidy) (kind : NodeKind) (ids : List String) :
    (g.withGroup kind ids).Tidy :=
  (h.appendNode .group _ none).putInto _ ids

theorem nodes_withGroup (h : g.Tidy) (kind : NodeKind) {ids : List String}
    (hids : ∀ id ∈ ids, g.IsLeaf id) : (g.withGroup kind ids).nodes =
      g.nodes.map (assign (g.groupOf kind ids).id ids) ++ [g.groupOf kind ids] := by
  have hkeep : assign (g.groupOf kind ids).id ids (g.groupOf kind ids) = g.groupOf kind ids :=
    if_neg fun hm => h.nextNode_not_mem (hids _ hm).mem_nodeIds
  calc (g.withGroup kind ids).nodes
      = (g.nodes ++ [g.groupOf kind ids]).map (assign (g.groupOf kind ids).id ids) := rfl
    _ = _ := by rw [List.map_append, List.map_singleton, hkeep]

/-- A node after all components were made groups. -/
def assignAll (made : List (List String × Node)) (n : Node) : Node :=
  made.foldl (fun n c => assign c.2.id c.1 n) n

section AssignAll

variable (made : List (List String × Node)) (n : Node)

@[simp] theorem id_assignAll : (assignAll made n).id = n.id := by
  induction made generalizing n with
  | nil => rfl
  | cons c made ih => exact (ih _).trans (id_assign ..)

@[simp] theorem kind_assignAll : (assignAll made n).kind = n.kind := by
  induction made generalizing n with
  | nil => rfl
  | cons c made ih => exact (ih _).trans (kind_assign ..)

@[simp] theorem label_assignAll : (assignAll made n).label = n.label := by
  induction made generalizing n with
  | nil => rfl
  | cons c made ih => exact (ih _).trans (label_assign ..)

theorem isGroup_assignAll : (assignAll made n).isGroup = n.isGroup := by
  simp [Node.isGroup]

variable {made n}

theorem assignAll_of_not_mem (h : ∀ c ∈ made, n.id ∉ c.1) : assignAll made n = n := by
  induction made with
  | nil => rfl
  | cons c made ih =>
    obtain ⟨hc, hrest⟩ := List.forall_mem_cons.mp h
    rw [assignAll, List.foldl_cons, assign, if_neg hc]
    exact ih hrest

/-- A member of a component lies in the group of the component. -/
theorem group_assignAll {c : List String × Node} (hc : c ∈ made) (hn : n.id ∈ c.1)
    (hdisjoint : (made.map Prod.fst).Pairwise List.Disjoint) :
    (assignAll made n).group = some c.2.id := by
  induction made generalizing n with
  | nil => cases hc
  | cons d made ih =>
    rw [List.map_cons, List.pairwise_cons] at hdisjoint
    rw [assignAll, List.foldl_cons, ← assignAll]
    rcases List.mem_cons.mp hc with rfl | hc
    · have hrest : ∀ d ∈ made, (assign c.2.id c.1 n).id ∉ d.1 := by
        intro d hd hm
        rw [id_assign] at hm
        exact hdisjoint.1 d.1 (List.mem_map_of_mem hd) hn hm
      rw [assignAll_of_not_mem hrest, assign, if_pos hn]
    · exact ih hc (by rwa [id_assign]) hdisjoint.2

end AssignAll

/-- What making groups of components leaves. -/
structure Grouped (g g' : Graph) (kind : NodeKind) (made : List (List String × Node)) : Prop where
  tidy : g'.Tidy
  edges_eq : g'.edges = g.edges
  nodes_eq : g'.nodes = g.nodes.map (assignAll made) ++ made.map Prod.snd
  group : ∀ c ∈ made, c.2.kind = .group ∧ c.2.group = none ∧
    c.2.label = .string (title kind ((c.1.map g.labelText).map Naming.innerName))

theorem IsLeaf.withGroup (kind : NodeKind) {ids : List String} (h : g.Tidy)
    (hids : ∀ id ∈ ids, g.IsLeaf id) {id : String} (hid : g.IsLeaf id) :
    (g.withGroup kind ids).IsLeaf id ∧ (g.withGroup kind ids).labelText id = g.labelText id := by
  obtain ⟨n, hn, rfl, hleaf, label, hlabel⟩ := hid
  have hmem : assign (g.groupOf kind ids).id ids n ∈ (g.withGroup kind ids).nodes := by
    rw [nodes_withGroup h kind hids]
    exact List.mem_append_left _ (List.mem_map_of_mem hn)
  constructor
  · exact ⟨_, hmem, id_assign .., (isGroup_assign ..).trans hleaf, label,
      (label_assign ..).trans hlabel⟩
  · have htext := labelText_eq (h.withGroup kind ids) hmem
    rwa [id_assign, label_assign, ← labelText_eq h hn] at htext

theorem addGroups_spec (h : g.Tidy) (kind : NodeKind) {components : List (List String)}
    (hleaves : ∀ ids ∈ components, ∀ id ∈ ids, g.IsLeaf id) :
    ∃ groups g', addGroups kind components g = .ok groups g' ∧
      ∃ made, made.map Prod.fst = components ∧ made.map Prod.snd = groups ∧
        Grouped g g' kind made := by
  induction components generalizing g with
  | nil =>
    refine ⟨[], g, rfl, [], rfl, rfl, h, rfl, ?_, by simp⟩
    exact ((List.append_nil _).trans (List.map_id _)).symm
  | cons ids components ih =>
    obtain ⟨hids, hrest⟩ := List.forall_mem_cons.mp hleaves
    have hstep (id : String) (hid : g.IsLeaf id) := hid.withGroup kind h hids
    obtain ⟨groups, g', hadd, made, hfst, hsnd, hgrouped⟩ := ih (h.withGroup kind ids)
      fun c hc id hid => (hstep id (hrest c hc id hid)).1
    refine ⟨g.groupOf kind ids :: groups, g', ?_, (ids, g.groupOf kind ids) :: made,
      by rw [List.map_cons, hfst], by rw [List.map_cons, hsnd], hgrouped.tidy, ?_, ?_, ?_⟩
    · rw [addGroups, Outcome.run_bind_eq_ok]
      refine ⟨_, _, addGroup_eq h kind hids, ?_⟩
      rw [Outcome.run_bind_eq_ok]
      exact ⟨_, _, hadd, rfl⟩
    · exact hgrouped.edges_eq
    · have hkeep : assignAll made (g.groupOf kind ids) = g.groupOf kind ids := by
        refine assignAll_of_not_mem fun c hc hm => h.nextNode_not_mem ?_
        have hc' : c.1 ∈ components := hfst ▸ List.mem_map_of_mem hc
        exact (hrest c.1 hc' _ hm).mem_nodeIds
      rw [hgrouped.nodes_eq, nodes_withGroup h kind hids, List.map_append, List.map_map,
        List.map_singleton, hkeep, List.append_assoc]
      rfl
    · refine List.forall_mem_cons.mpr ⟨⟨rfl, rfl, rfl⟩, fun c hc => ?_⟩
      obtain ⟨hk, hg, hl⟩ := hgrouped.group c hc
      refine ⟨hk, hg, hl.trans ?_⟩
      have htexts : c.1.map (g.withGroup kind ids).labelText = c.1.map g.labelText := by
        refine List.map_congr_left fun id hid => ?_
        have hc' : c.1 ∈ components := hfst ▸ List.mem_map_of_mem hc
        exact (hstep id (hrest c.1 hc' id hid)).2
      rw [htexts]

/-! ### Edges between groups -/

theorem addEdge_eq (h : g.Tidy) {source target : String} (hs : source ∈ g.nodeIds)
    (ht : target ∈ g.nodeIds) (isGroupEdge : Bool) : addEdge source target isGroupEdge none g =
      .ok ⟨g.edgeId g.nextEdge, source, target, isGroupEdge⟩
        (g.appendEdge source target isGroupEdge) := by
  have hfresh : Graph.edge? { g with nextEdge := g.nextEdge + 1 } (g.edgeId g.nextEdge) = none := by
    refine List.find?_eq_none.mpr fun e he => ?_
    simpa using h.nextEdge_ne he
  simp only [addEdge, chooseEdgeId, Outcome.run_bind_eq_ok, Outcome.run_pure_eq_ok,
    Outcome.run_set_eq_ok, Outcome.run_get_eq_ok]
  refine ⟨⟨⟩, g, requireNode_eq hs, ⟨⟩, g, requireNode_eq ht, _, _,
    ⟨g, g, ⟨rfl, rfl⟩, ⟨⟩, _, rfl, rfl, rfl⟩, _, _, ⟨rfl, rfl⟩, ?_⟩
  rw [hfresh]
  rfl

/-- An edge from a leaf in one group to a leaf in another, or in the same one. -/
structure Crosses (g : Graph) (e : Edge) (a b : String) : Prop where
  isLeafEdge : e.isGroupEdge = false
  source : ∃ n ∈ g.nodes, n.id = e.source ∧ n.isGroup = false ∧ n.group = some a
  target : ∃ n ∈ g.nodes, n.id = e.target ∧ n.isGroup = false ∧ n.group = some b

def Touches (touched : List String) (e : Edge) : Prop := e.source ∈ touched ∨ e.target ∈ touched

/-- What joining groups leaves. -/
structure Bridged (g g' : Graph) (touched : List String) (joined : List (String × String))
    (edges added : List Edge) : Prop where
  tidy : g'.Tidy
  nodes_eq : g'.nodes = g.nodes
  edges_eq : g'.edges = g.edges ++ added
  nodup : (added.map Edge.ends).Nodup
  fresh : ∀ e ∈ added, e.ends ∉ joined
  sound : ∀ e ∈ added, e.isGroupEdge = true ∧ e.source ≠ e.target ∧
    ∃ d ∈ edges, Touches touched d ∧ g.Crosses d e.source e.target
  complete : ∀ d ∈ edges, Touches touched d → ∀ a b, g.Crosses d a b → a ≠ b →
    (a, b) ∉ joined → ∃ e ∈ added, e.source = a ∧ e.target = b

theorem Crosses.eq (h : g.Tidy) {e : Edge} {a b a' b' : String} (hc : g.Crosses e a b)
    (hc' : g.Crosses e a' b') : a = a' ∧ b = b' := by
  have hsame {m n : Node} (hm : m ∈ g.nodes) (hn : n ∈ g.nodes) (hid : m.id = n.id) : m = n :=
    List.inj_on_of_nodup_map h.nodup hm hn hid
  obtain ⟨m, hm, hms, _, hma⟩ := hc.source
  obtain ⟨m', hm', hms', _, hma'⟩ := hc'.source
  obtain ⟨n, hn, hns, _, hnb⟩ := hc.target
  obtain ⟨n', hn', hns', _, hnb'⟩ := hc'.target
  obtain rfl := hsame hm hm' (hms.trans hms'.symm)
  obtain rfl := hsame hn hn' (hns.trans hns'.symm)
  exact ⟨Option.some.inj (hma.symm.trans hma'), Option.some.inj (hnb.symm.trans hnb')⟩

/-- An edge that adds no pair of groups may be left out. -/
theorem Bridged.cons {g' : Graph} {touched : List String} {joined : List (String × String)}
    {edges added : List Edge} (h : Bridged g g' touched joined edges added) {e : Edge}
    (hold : Touches touched e → ∀ a b, g.Crosses e a b → a = b ∨ (a, b) ∈ joined) :
    Bridged g g' touched joined (e :: edges) added := by
  refine ⟨h.tidy, h.nodes_eq, h.edges_eq, h.nodup, h.fresh, fun d hd => ?_,
    fun d hd ht a b hc hne hj => ?_⟩
  · obtain ⟨hg, hne, c, hc, hcross⟩ := h.sound d hd
    exact ⟨hg, hne, c, List.mem_cons_of_mem _ hc, hcross⟩
  · rcases List.mem_cons.mp hd with rfl | hd
    · rcases hold ht a b hc with rfl | hm
      · exact absurd rfl hne
      · exact absurd hm hj
    · exact h.complete d hd ht a b hc hne hj

section JoinGroups

variable {touched : List String} {joined : List (String × String)} {edges : List Edge} {e : Edge}

theorem touches_iff :
    (touched.contains e.source || touched.contains e.target) = true ↔ Touches touched e := by
  simp [Touches]

theorem joinGroups_cons_of_not (hnot : ¬(e.isGroupEdge = false ∧ Touches touched e)) :
    joinGroups touched joined (e :: edges) g = joinGroups touched joined edges g := by
  have hcond : (e.isGroupEdge ||
      !(touched.contains e.source || touched.contains e.target)) = true := by
    rw [Bool.or_eq_true, Bool.not_eq_true', ← Bool.not_eq_true, touches_iff]
    cases hg : e.isGroupEdge with
    | true => exact .inl rfl
    | false => exact .inr fun ht => hnot ⟨hg, ht⟩
  rw [joinGroups, Outcome.run_get_bind]
  rw [if_pos hcond]

theorem joinGroups_cons_of_crosses (h : g.Tidy) (ht : Touches touched e) {a b : String}
    (hc : g.Crosses e a b) : joinGroups touched joined (e :: edges) g =
      if a = b ∨ (a, b) ∈ joined then joinGroups touched joined edges g
      else (addEdge a b true >>= fun _ => joinGroups touched ((a, b) :: joined) edges) g := by
  obtain ⟨m, hm, hms, hmleaf, hma⟩ := hc.source
  obtain ⟨n, hn, hns, hnleaf, hnb⟩ := hc.target
  have hsource : g.node? e.source = some m := h.node?_eq_some_iff.mpr ⟨hm, hms⟩
  have htarget : g.node? e.target = some n := h.node?_eq_some_iff.mpr ⟨hn, hns⟩
  have hcond : ¬(e.isGroupEdge ||
      !(touched.contains e.source || touched.contains e.target)) = true := by
    rw [touches_iff.mpr ht, hc.isLeafEdge]
    simp
  rw [joinGroups, Outcome.run_get_bind]
  rw [if_neg hcond]
  simp only [hsource, htarget, hmleaf, hnleaf, hma, hnb, Bool.or_false, Bool.false_eq_true,
    if_false, Bool.or_eq_true, decide_eq_true_eq, List.contains_iff_mem]
  split <;> rfl

/-- A graph with one more group edge. -/
theorem crosses_appendEdge (g : Graph) (source target : String) (isGroupEdge : Bool) (e : Edge)
    (a b : String) : (g.appendEdge source target isGroupEdge).Crosses e a b ↔ g.Crosses e a b :=
  ⟨fun hc => ⟨hc.isLeafEdge, hc.source, hc.target⟩,
    fun hc => ⟨hc.isLeafEdge, hc.source, hc.target⟩⟩

/-- The first edge of the list gave a new group edge. -/
theorem Bridged.cons_new {g' : Graph} {added : List Edge} {a b : String} (h : g.Tidy)
    (hspec : Bridged (g.appendEdge a b true) g' touched ((a, b) :: joined) edges added)
    (ht : Touches touched e) (hc : g.Crosses e a b) (hne : a ≠ b) (hj : (a, b) ∉ joined) :
    Bridged g g' touched joined (e :: edges) (⟨g.edgeId g.nextEdge, a, b, true⟩ :: added) := by
  refine ⟨hspec.tidy, hspec.nodes_eq, ?_, ?_, ?_, ?_, ?_⟩
  · rw [hspec.edges_eq]
    simp [appendEdge]
  · rw [List.map_cons, List.nodup_cons]
    refine ⟨fun hends => ?_, hspec.nodup⟩
    obtain ⟨d, hd, hde⟩ := List.mem_map.mp hends
    exact hspec.fresh d hd (hde ▸ List.mem_cons_self ..)
  · exact List.forall_mem_cons.mpr
      ⟨hj, fun d hd hm => hspec.fresh d hd (List.mem_cons_of_mem _ hm)⟩
  · intro d hd
    rcases List.mem_cons.mp hd with rfl | hd
    · exact ⟨rfl, hne, e, List.mem_cons_self .., ht, hc⟩
    · obtain ⟨hg, hne, c, hc, ht, hc'⟩ := hspec.sound d hd
      exact ⟨hg, hne, c, List.mem_cons_of_mem _ hc, ht, (crosses_appendEdge ..).mp hc'⟩
  · intro d hd ht' a' b' hc' hne' hj
    by_cases hpair : (a', b') = (a, b)
    · obtain ⟨rfl, rfl⟩ := Prod.mk.inj hpair
      exact ⟨_, List.mem_cons_self .., rfl, rfl⟩
    · rcases List.mem_cons.mp hd with rfl | hd
      · obtain ⟨rfl, rfl⟩ := hc.eq h hc'
        exact absurd rfl hpair
      · obtain ⟨c, hmem, hends⟩ := hspec.complete d hd ht' a' b'
          ((crosses_appendEdge ..).mpr hc') hne' (by simp [hpair, hj])
        exact ⟨c, List.mem_cons_of_mem _ hmem, hends⟩

theorem joinGroups_spec (joined : List (String × String)) (h : g.Tidy)
    (hedges : ∀ e ∈ edges, e.isGroupEdge = false → Touches touched e →
      ∃ a b, g.Crosses e a b ∧ a ∈ g.nodeIds ∧ b ∈ g.nodeIds) :
    ∃ g' added, joinGroups touched joined edges g = .ok ⟨⟩ g' ∧
      Bridged g g' touched joined edges added := by
  induction edges generalizing g joined with
  | nil => exact ⟨g, [], rfl, h, rfl, by simp, by simp, by simp, by simp, by simp⟩
  | cons e edges ih =>
    obtain ⟨hedge, hrest⟩ := List.forall_mem_cons.mp hedges
    by_cases hleaf : e.isGroupEdge = false ∧ Touches touched e
    · obtain ⟨a, b, hcross, ha, hb⟩ := hedge hleaf.1 hleaf.2
      rw [joinGroups_cons_of_crosses h hleaf.2 hcross]
      by_cases hold : a = b ∨ (a, b) ∈ joined
      · rw [if_pos hold]
        obtain ⟨g', added, hrun, hspec⟩ := ih joined h hrest
        refine ⟨g', added, hrun, hspec.cons fun _ a' b' hc' => ?_⟩
        obtain ⟨rfl, rfl⟩ := hcross.eq h hc'
        exact hold
      · rw [if_neg hold]
        obtain ⟨g', added, hrun, hspec⟩ := ih ((a, b) :: joined)
          (h.appendEdge ha hb true) fun d hd hl ht => by
            obtain ⟨a, b, hc, hab⟩ := hrest d hd hl ht
            exact ⟨a, b, (crosses_appendEdge ..).mpr hc, hab⟩
        refine ⟨g', _, ?_, hspec.cons_new h hleaf.2 hcross (fun he => hold (.inl he))
          fun hj => hold (.inr hj)⟩
        rw [Outcome.run_bind_eq_ok]
        exact ⟨_, _, addEdge_eq h ha hb true, hrun⟩
    · rw [joinGroups_cons_of_not hleaf]
      obtain ⟨g', added, hrun, hspec⟩ := ih joined h hrest
      exact ⟨g', added, hrun, hspec.cons fun ht a b hc => absurd ⟨hc.isLeafEdge, ht⟩ hleaf⟩

end JoinGroups

/-! ### Condensing -/

/-- The ids of the leaves that are to be grouped. -/
def pendingIds (g : Graph) (kind : NodeKind) : List String := (g.pending kind).map Node.id

def groupIds (g : Graph) : List String := g.groups.map Node.id

theorem mem_pending {kind : NodeKind} {n : Node} :
    n ∈ g.pending kind ↔ n ∈ g.nodes ∧ n.isGroup = false ∧ n.kind = kind ∧ n.group = none := by
  simp only [pending, leaves, List.mem_filter, Bool.and_eq_true, decide_eq_true_eq,
    Option.isNone_iff_eq_none, Bool.not_eq_true', and_assoc]

theorem mem_groupIds {id : String} : id ∈ g.groupIds ↔ ∃ n ∈ g.nodes, n.isGroup = true ∧ n.id = id := by
  simp [groupIds, groups, List.mem_map, List.mem_filter, and_assoc]

theorem mem_nodeIds_of_mem_groupIds {id : String} (h : id ∈ g.groupIds) : id ∈ g.nodeIds := by
  obtain ⟨n, hn, _, rfl⟩ := mem_groupIds.mp h
  exact List.mem_map_of_mem hn

theorem Tidy.groupIds_nodup (h : g.Tidy) : g.groupIds.Nodup :=
  h.nodup.sublist (List.filter_sublist.map Node.id)

theorem Tidy.not_mem_groupIds_of_pending (h : g.Tidy) {kind : NodeKind} {id : String}
    (hid : id ∈ g.pendingIds kind) : id ∉ g.groupIds := by
  obtain ⟨m, hm, rfl⟩ := List.mem_map.mp hid
  obtain ⟨hm, hleaf, -⟩ := mem_pending.mp hm
  intro hgroup
  obtain ⟨n, hn, hg, he⟩ := mem_groupIds.mp hgroup
  rw [List.inj_on_of_nodup_map h.nodup hn hm he, hleaf] at hg
  cases hg

/-- A graph whose leaves of a kind can be grouped: the other leaves lie in groups, and edges at
leaves to be grouped join leaves. -/
structure Condensable (g : Graph) (kind : NodeKind) : Prop where
  tidy : g.Tidy
  leaf : ∀ n ∈ g.nodes, n.isGroup = false → (∃ label : String, n.label = .string label) ∧
    (n.kind = kind ∧ n.group = none ∨ ∃ a ∈ g.groupIds, n.group = some a)
  edge : ∀ e ∈ g.edges, e.isGroupEdge = false ∧
    (Touches (g.pendingIds kind) e → g.IsLeaf e.source ∧ g.IsLeaf e.target)
  pending : g.pendingIds kind ≠ []

/-- A graph and what condensing it gives: every component with its group, and the group edges. -/
structure Condensation (g g' : Graph) (kind : NodeKind) (made : List (List String × Node))
    (added : List Edge) : Prop where
  tidy : g'.Tidy
  nodes_eq : g'.nodes = g.nodes.map (assignAll made) ++ made.map Prod.snd
  edges_eq : g'.edges = g.edges ++ added
  nodup : (added.map Edge.ends).Nodup
  components : made.map Prod.fst =
    Digraph.components (g.linksWithin (g.pendingIds kind)) (g.pendingIds kind)
  group : ∀ c ∈ made, c.2.kind = .group ∧ c.2.group = none ∧
    c.2.label = .string (title kind ((c.1.map g.labelText).map Naming.innerName))
  sound : ∀ e ∈ added, e.isGroupEdge = true ∧ e.source ≠ e.target ∧
    ∃ d ∈ g.edges, Touches (g.pendingIds kind) d ∧ g'.Crosses d e.source e.target
  complete : ∀ d ∈ g.edges, Touches (g.pendingIds kind) d → ∀ a b, g'.Crosses d a b → a ≠ b →
    ∃ e ∈ added, e.source = a ∧ e.target = b

theorem mem_linksWithin {ids : List String} {a b : String} : (a, b) ∈ g.linksWithin ids ↔
    a ∈ ids ∧ b ∈ ids ∧ ∃ e ∈ g.edges, e.source = a ∧ e.target = b := by
  simp only [linksWithin, List.mem_map, List.mem_filter, Bool.and_eq_true, List.contains_iff_mem,
    Prod.mk.injEq]
  constructor
  · rintro ⟨e, ⟨he, hs, ht⟩, rfl, rfl⟩
    exact ⟨hs, ht, e, he, rfl, rfl⟩
  · rintro ⟨hs, ht, e, he, rfl, rfl⟩
    exact ⟨e, ⟨he, hs, ht⟩, rfl, rfl⟩

/-- Ways between nodes stay among them. -/
theorem mem_of_reaches {ids : List String} {a b : String} (h : Reaches (g.linksWithin ids) a b)
    (ha : a ∈ ids) : b ∈ ids := by
  rcases Relation.ReflTransGen.cases_tail h with rfl | ⟨c, _, hc⟩
  · exact ha
  · exact (mem_linksWithin.mp hc).2.1

section Condensation

variable {kind : NodeKind} {made : List (List String × Node)}

theorem exists_component (hcomponents : made.map Prod.fst =
    Digraph.components (g.linksWithin (g.pendingIds kind)) (g.pendingIds kind)) {id : String} :
    (∃ c ∈ made, id ∈ c.1) ↔ id ∈ g.pendingIds kind := by
  have hmade : (∃ c ∈ made, id ∈ c.1) ↔ ∃ ids ∈ made.map Prod.fst, id ∈ ids := by
    simp
  rw [hmade, hcomponents, Digraph.exists_mem_components_iff]
  constructor
  · rintro ⟨r, hr, h⟩
    exact mem_of_reaches h hr
  · exact fun h => ⟨id, h, .refl⟩

/-- The leaves after grouping lie in groups. -/
theorem exists_group_assignAll (hg : g.Tidy) (hcomponents : made.map Prod.fst =
    Digraph.components (g.linksWithin (g.pendingIds kind)) (g.pendingIds kind))
    {n : Node} (hn : n ∈ g.nodes) (hleaf : n.isGroup = false)
    (hgroup : n.kind = kind ∧ n.group = none ∨ ∃ a ∈ g.groupIds, n.group = some a) :
    (n.kind = kind ∧ n.group = none ∧
      ∃ c ∈ made, n.id ∈ c.1 ∧ (assignAll made n).group = some c.2.id) ∨
      ∃ a ∈ g.groupIds, n.group = some a ∧ assignAll made n = n := by
  rcases hgroup with ⟨hk, hnone⟩ | ⟨a, ha, hsome⟩
  · have hid : n.id ∈ g.pendingIds kind :=
      List.mem_map_of_mem (mem_pending.mpr ⟨hn, hleaf, hk, hnone⟩)
    obtain ⟨c, hc, hmem⟩ := (exists_component hcomponents).mpr hid
    have hdisjoint : (made.map Prod.fst).Pairwise List.Disjoint := by
      rw [hcomponents]
      exact Digraph.pairwise_disjoint_components ..
    exact .inl ⟨hk, hnone, c, hc, hmem, group_assignAll hc hmem hdisjoint⟩
  · refine .inr ⟨a, ha, hsome, assignAll_of_not_mem fun c hc hmem => ?_⟩
    obtain ⟨m, hm, hid⟩ := List.mem_map.mp ((exists_component hcomponents).mp ⟨c, hc, hmem⟩)
    obtain ⟨hm, _, _, hnone⟩ := mem_pending.mp hm
    rw [List.inj_on_of_nodup_map hg.nodup hm hn hid, hsome] at hnone
    cases hnone

theorem Condensable.isLeaf_of_mem_components (hg : g.Condensable kind) {ids : List String}
    (hids : ids ∈ Digraph.components (g.linksWithin (g.pendingIds kind)) (g.pendingIds kind))
    {id : String} (hid : id ∈ ids) : g.IsLeaf id := by
  obtain ⟨r, hr, h⟩ := Digraph.exists_mem_components_iff.mp ⟨ids, hids, hid⟩
  obtain ⟨n, hn, rfl⟩ := List.mem_map.mp (mem_of_reaches h hr)
  obtain ⟨hn, hleaf, _⟩ := mem_pending.mp hn
  exact ⟨n, hn, rfl, hleaf, (hg.leaf n hn hleaf).1⟩

theorem nodeIds_of_nodes_eq {g' : Graph}
    (h : g'.nodes = g.nodes.map (assignAll made) ++ made.map Prod.snd) :
    g'.nodeIds = g.nodeIds ++ made.map fun c => c.2.id := by
  simp [nodeIds, h, Function.comp_def]

/-- Every leaf lies in a group once the groups are made, so no edge at a grouped leaf is refused. -/
theorem Condensable.exists_group (hg : g.Condensable kind) (hcomponents : made.map Prod.fst =
    Digraph.components (g.linksWithin (g.pendingIds kind)) (g.pendingIds kind)) {g' : Graph}
    (hgrouped : Grouped g g' kind made) {id : String} (hid : g.IsLeaf id) :
    ∃ a ∈ g'.nodeIds, ∃ n ∈ g'.nodes, n.id = id ∧ n.isGroup = false ∧ n.group = some a := by
  obtain ⟨n, hn, rfl, hleaf, _⟩ := hid
  have hn' : assignAll made n ∈ g'.nodes := by
    rw [hgrouped.nodes_eq]
    exact List.mem_append_left _ (List.mem_map_of_mem hn)
  have hleaf' := (isGroup_assignAll made n).trans hleaf
  rw [nodeIds_of_nodes_eq hgrouped.nodes_eq]
  rcases exists_group_assignAll hg.tidy hcomponents hn hleaf (hg.leaf n hn hleaf).2 with
    ⟨_, _, c, hc, _, hsome⟩ | ⟨a, ha, hsome, hkeep⟩
  · exact ⟨c.2.id, List.mem_append_right _ (List.mem_map_of_mem hc), _, hn', id_assignAll made n,
      hleaf', hsome⟩
  · exact ⟨a, List.mem_append_left _ (mem_nodeIds_of_mem_groupIds ha), _, hn',
      id_assignAll made n, hleaf', hkeep.symm ▸ hsome⟩

/-- No groups are joined before there are any. -/
theorem Condensable.condense_eq_ok (hg : g.Condensable kind) {groups : List Node} {g₁ g' : Graph}
    (hadd : addGroups kind (Digraph.components (g.linksWithin (g.pendingIds kind))
      (g.pendingIds kind)) g = .ok groups g₁) (hedges : g₁.edges = g.edges)
    (hjoin : joinGroups (g.pendingIds kind) [] g₁.edges g₁ = .ok ⟨⟩ g') :
    condense kind g = .ok groups g' := by
  have hjoined : (g₁.edges.filter Edge.isGroupEdge).map (fun e => (e.source, e.target)) = [] := by
    rw [hedges, List.map_eq_nil_iff, List.filter_eq_nil_iff]
    intro e he
    simp [(hg.edge e he).1]
  rw [condense, Outcome.run_bind_eq_ok]
  refine ⟨g, g, rfl, ?_⟩
  have hne : ¬((g.pending kind).map Node.id).isEmpty = true := by
    simpa [pendingIds] using hg.pending
  rw [if_neg hne, Outcome.run_bind_eq_ok]
  refine ⟨groups, g₁, hadd, ?_⟩
  rw [Outcome.run_bind_eq_ok]
  refine ⟨g₁, g₁, rfl, ?_⟩
  rw [Outcome.run_bind_eq_ok, hjoined]
  exact ⟨⟨⟩, g', hjoin, rfl⟩

theorem condense_spec (hg : g.Condensable kind) :
    ∃ groups g' made added, condense kind g = .ok groups g' ∧
      Condensation g g' kind made added := by
  obtain ⟨groups, g₁, hadd, made, hfst, hsnd, hgrouped⟩ :=
    addGroups_spec hg.tidy kind fun _ hids _ hid => hg.isLeaf_of_mem_components hids hid
  have hedges : ∀ e ∈ g₁.edges, e.isGroupEdge = false → Touches (g.pendingIds kind) e →
      ∃ a b, g₁.Crosses e a b ∧ a ∈ g₁.nodeIds ∧ b ∈ g₁.nodeIds := by
    intro e he hl ht
    rw [hgrouped.edges_eq] at he
    obtain ⟨hs, ht⟩ := (hg.edge e he).2 ht
    obtain ⟨a, ha, hsource⟩ := hg.exists_group hfst hgrouped hs
    obtain ⟨b, hb, htarget⟩ := hg.exists_group hfst hgrouped ht
    exact ⟨a, b, ⟨hl, hsource, htarget⟩, ha, hb⟩
  obtain ⟨g', added, hjoin, hbridged⟩ := joinGroups_spec [] hgrouped.tidy hedges
  have hcrosses (e : Edge) (a b : String) : g'.Crosses e a b ↔ g₁.Crosses e a b := by
    constructor
    · exact fun hc => ⟨hc.isLeafEdge, hbridged.nodes_eq ▸ hc.source, hbridged.nodes_eq ▸ hc.target⟩
    · exact fun hc => ⟨hc.isLeafEdge, hbridged.nodes_eq.symm ▸ hc.source,
        hbridged.nodes_eq.symm ▸ hc.target⟩
  refine ⟨groups, g', made, added, hg.condense_eq_ok hadd hgrouped.edges_eq hjoin, hbridged.tidy,
    hbridged.nodes_eq.trans hgrouped.nodes_eq, ?_, hbridged.nodup, hfst, hgrouped.group, ?_, ?_⟩
  · rw [hbridged.edges_eq, hgrouped.edges_eq]
  · intro e he
    obtain ⟨hg', hne, d, hd, ht, hc⟩ := hbridged.sound e he
    exact ⟨hg', hne, d, hgrouped.edges_eq ▸ hd, ht, (hcrosses ..).mpr hc⟩
  · intro d hd ht a b hc hne
    exact hbridged.complete d (hgrouped.edges_eq.symm ▸ hd) ht a b ((hcrosses ..).mp hc) hne
      List.not_mem_nil

end Condensation

/-! ### The groups that are made -/

namespace Condensation

variable {g' : Graph} {kind : NodeKind} {made : List (List String × Node)} {added : List Edge}
  (hc : Condensation g g' kind made added)
include hc

theorem disjoint_made : (made.map Prod.fst).Pairwise List.Disjoint := by
  rw [hc.components]
  exact Digraph.pairwise_disjoint_components ..

theorem nodeIds_nodup : (g.nodeIds ++ made.map fun c => c.2.id).Nodup :=
  nodeIds_of_nodes_eq hc.nodes_eq ▸ hc.tidy.nodup

/-- The id of a new group is not that of an old one. -/
theorem id_not_mem_groupIds {c : List String × Node} (hm : c ∈ made) : c.2.id ∉ g.groupIds :=
  fun hid => (List.nodup_append.mp hc.nodeIds_nodup).2.2 _ (mem_nodeIds_of_mem_groupIds hid) _
    (List.mem_map_of_mem hm) rfl

theorem eq_of_id {c d : List String × Node} (hm : c ∈ made) (hd : d ∈ made)
    (hid : c.2.id = d.2.id) : c = d :=
  List.inj_on_of_nodup_map (List.nodup_append.mp hc.nodeIds_nodup).2.1 hm hd hid

theorem exists_pending {c : List String × Node} (hm : c ∈ made) {id : String} (hid : id ∈ c.1) :
    ∃ n ∈ g.pending kind, n.id = id :=
  List.mem_map.mp ((exists_component hc.components).mp ⟨c, hm, hid⟩)

theorem group_of_mem {c : List String × Node} (hm : c ∈ made) {n : Node} (hn : n.id ∈ c.1) :
    (assignAll made n).group = some c.2.id :=
  group_assignAll hm hn hc.disjoint_made

/-- A leaf that was to be grouped lies in the group that was made of its component. -/
theorem exists_made {n : Node} (hid : n.id ∈ g.pendingIds kind) :
    ∃ c ∈ made, n.id ∈ c.1 ∧ (assignAll made n).group = some c.2.id := by
  obtain ⟨c, hm, hn⟩ := (exists_component hc.components).mpr hid
  exact ⟨c, hm, hn, hc.group_of_mem hm hn⟩

theorem mem_components {c : List String × Node} (hm : c ∈ made) :
    c.1 ∈ Digraph.components (g.linksWithin (g.pendingIds kind)) (g.pendingIds kind) :=
  hc.components ▸ List.mem_map_of_mem hm

theorem mem_made_iff_mutual {c : List String × Node} (hm : c ∈ made) {a b : String}
    (ha : a ∈ c.1) : b ∈ c.1 ↔ Mutual (g.linksWithin (g.pendingIds kind)) a b :=
  Digraph.mem_iff_mutual_of_mem_components (hc.mem_components hm) ha

end Condensation

end Lookahead.Graph
