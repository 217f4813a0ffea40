import Lookahead.Graph.Seeds
import Lookahead.Proofs.Graph.FirstStep

/-!
# The graph of the follow step

The groups of the first step are carried over with their leaves, and the leaves of the
follow sets are added and grouped. Edges lead into the latter only, so carried groups stay
as they are; each is found by its name, and so is the group for the end of the input.
-/

namespace Lookahead.Graph

open Naming (Short terminalLeaf carried followLeaf endLeaf component)
open Lookahead.Digraph (Reaches Mutual)

variable {grammar : Grammar} {first g : Graph}

/-! ### Carrying over -/

def idPairs (made : List (Node × Node)) : List (String × String) :=
  made.map fun c => (c.1.id, c.2.id)

/-- A group and what it is carried to. -/
def GroupCopy (c : Node × Node) : Prop :=
  c.2.kind = .group ∧ c.2.label = .string (carried c.1.label.text) ∧ c.2.group = none

theorem carryGroups_spec (hg : g.Tidy) {old : List Node} (hold : (old.map Node.id).Nodup) :
    ∃ made g', carryGroups old g = (⟨idPairs made⟩, g') ∧ made.map Prod.fst = old ∧
      (∀ c ∈ made, GroupCopy c) ∧ g'.nodes = g.nodes ++ made.map Prod.snd ∧
      g'.edges = g.edges ∧ g'.Tidy := by
  suffices hgo : ∀ done : List (String × String), (done.map Prod.fst ++ old.map Node.id).Nodup →
      ∃ made g', old.foldl (fun (c : Assoc String String × Graph) n =>
          (c.1.put n.id (c.2.nodeId c.2.nextNode),
            c.2.appendNode .group (.string (carried n.label.text)))) (⟨done⟩, g) =
        (⟨done ++ idPairs made⟩, g') ∧ made.map Prod.fst = old ∧
        (∀ c ∈ made, GroupCopy c) ∧ g'.nodes = g.nodes ++ made.map Prod.snd ∧
        g'.edges = g.edges ∧ g'.Tidy from hgo [] hold
  clear hold
  induction old generalizing g with
  | nil => exact fun done _ => ⟨[], g, by simp [idPairs], rfl, by simp, by simp, rfl, hg⟩
  | cons n old ih =>
    intro done hnodup
    have hfresh : n.id ∉ (⟨done⟩ : Assoc String String).keys := by
      intro hmem
      rw [List.nodup_append] at hnodup
      exact hnodup.2.2 n.id hmem n.id (by simp) rfl
    obtain ⟨made, g', hrun, hold, hcopy, hnodes, hedges, htidy⟩ :=
      ih (hg.appendNode .group (.string (carried n.label.text)) none)
        (done ++ [(n.id, g.nodeId g.nextNode)]) (by simpa using hnodup)
    let copy : Node := ⟨g.nodeId g.nextNode, .group, .string (carried n.label.text), none⟩
    refine ⟨(n, copy) :: made, g', ?_, by rw [List.map_cons, hold], ?_, ?_, hedges, htidy⟩
    · simp only [List.foldl_cons, Assoc.put_of_not_mem _ hfresh]
      refine hrun.trans ?_
      simp [idPairs, copy]
    · exact List.forall_mem_cons.mpr ⟨⟨rfl, rfl, rfl⟩, hcopy⟩
    · rw [hnodes]
      simp [appendNode, copy]

/-- A leaf and what it is carried to. -/
def LeafCopy (ids : Assoc String String) (c : Node × Node) : Prop :=
  c.2.kind = .follow ∧ c.2.label = .string (carried c.1.label.text) ∧
    ∃ b, c.1.group.bind ids.get? = some b ∧ c.2.group = some b

theorem carryLeaves_spec (hg : g.Tidy) {ids : Assoc String String} {old : List Node}
    (hold : ∀ n ∈ old, ∃ b, n.group.bind ids.get? = some b) :
    ∃ (made : List (Node × Node)) (g' : Graph), carryLeaves ids old g = .ok g' ∧
      made.map Prod.fst = old ∧ (∀ c ∈ made, LeafCopy ids c) ∧ g'.nodes = g.nodes ++ made.map Prod.snd ∧
      g'.edges = g.edges ∧ g'.Tidy := by
  induction old generalizing g with
  | nil => exact ⟨[], g, rfl, rfl, by simp, by simp, rfl, hg⟩
  | cons n old ih =>
    obtain ⟨b, hb⟩ := hold n (List.mem_cons_self ..)
    obtain ⟨made, g', hrun, hold, hcopy, hnodes, hedges, htidy⟩ :=
      ih (hg.appendNode .follow (.string (carried n.label.text)) (some b))
        fun m hm => hold m (List.mem_cons_of_mem _ hm)
    let copy : Node := ⟨g.nodeId g.nextNode, .follow, .string (carried n.label.text), some b⟩
    refine ⟨(n, copy) :: made, g', ?_, by rw [List.map_cons, hold], ?_, ?_, hedges, htidy⟩
    · rw [carryLeaves, hb]
      exact hrun
    · exact List.forall_mem_cons.mpr ⟨⟨rfl, rfl, b, hb, rfl⟩, hcopy⟩
    · rw [hnodes]
      simp [appendNode, copy]

/-- The ids under which groups are carried over are those of groups. -/
def Into (ids : Assoc String String) (g : Graph) : Prop :=
  ∀ a b, ids.get? a = some b → b ∈ g.groupIds

theorem Into.ends_mem_groupIds {ids : Assoc String String} (h : Into ids g)
    {pair : String × String} (hpair : pair ∈ carriedEdges ids first) :
    pair.1 ∈ g.groupIds ∧ pair.2 ∈ g.groupIds := by
  obtain ⟨e, -, he⟩ := List.mem_filterMap.mp hpair
  simp only [Option.bind_eq_bind, Option.bind_eq_some_iff] at he
  obtain ⟨a, ha, b, hb, he⟩ := he
  obtain rfl := Option.some.inj he
  exact ⟨h _ _ ha, h _ _ hb⟩

theorem foldl_appendEdge_spec (hg : g.Tidy) {pairs : List (String × String)}
    (hpairs : ∀ pair ∈ pairs, pair.1 ∈ g.nodeIds ∧ pair.2 ∈ g.nodeIds) :
    ∃ added, (pairs.foldl (fun g e => g.appendEdge e.1 e.2) g).edges = g.edges ++ added ∧
      added.map Edge.ends = pairs ∧ (∀ e ∈ added, e.isGroupEdge = false) ∧
      (pairs.foldl (fun g e => g.appendEdge e.1 e.2) g).nodes = g.nodes ∧
      (pairs.foldl (fun g e => g.appendEdge e.1 e.2) g).Tidy := by
  induction pairs generalizing g with
  | nil => exact ⟨[], by simp, rfl, by simp, rfl, hg⟩
  | cons pair pairs ih =>
    obtain ⟨hs, ht⟩ := hpairs pair (List.mem_cons_self ..)
    obtain ⟨added, hedges, hends, hplain, hnodes, htidy⟩ := ih (hg.appendEdge hs ht false)
      fun q hq => hpairs q (List.mem_cons_of_mem _ hq)
    refine ⟨⟨g.edgeId g.nextEdge, pair.1, pair.2, false⟩ :: added, ?_, ?_,
      List.forall_mem_cons.mpr ⟨rfl, hplain⟩, hnodes, htidy⟩
    · refine hedges.trans ?_
      simp [appendEdge]
    · rw [List.map_cons, hends]
      rfl

/-! ### Leaves and links -/

def followLeaves (grammar : Grammar) : List String :=
  (firstLeaves grammar).map carried ++
    carried endLeaf :: grammar.nonterminalList.map fun s => followLeaf s.name

/-- The pairs of labels that are joined in the follow step. -/
def followEdges (grammar : Grammar) : List (String × String) :=
  (carried endLeaf, followLeaf Symbol.startName) :: followLinks grammar

theorem mem_followLeaves {label : String} : label ∈ followLeaves grammar ↔
    (∃ l ∈ firstLeaves grammar, label = carried l) ∨ label = carried endLeaf ∨
      ∃ s ∈ grammar.nonterminalList, label = followLeaf s.name := by
  simp only [followLeaves, List.mem_append, List.mem_cons, List.mem_map, eq_comm]

theorem mem_contributions {left x : Symbol} {rest : List Symbol} {pair : String × String} :
    pair ∈ contributions grammar left x rest ↔
      (∃ y ∈ takeThrough (fun y => !grammar.nullable y) rest,
        pair = (carried y.name, followLeaf x.name)) ∨
      (∀ y ∈ rest, grammar.nullable y = true) ∧ pair = (followLeaf left.name, followLeaf x.name) := by
  rw [contributions, List.mem_append, List.mem_map, List.mem_ite_nil_right, List.all_eq_true,
    List.mem_singleton]
  simp only [eq_comm (b := pair)]

theorem mem_followLinksOf {left : Symbol} {right : List Symbol} {pair : String × String} :
    pair ∈ followLinksOf grammar left right ↔ ∃ before x rest, right = before ++ x :: rest ∧
      x.isNonterminal = true ∧ pair ∈ contributions grammar left x rest := by
  induction right with
  | nil => simp [followLinksOf]
  | cons x rest ih =>
    rw [followLinksOf, List.mem_append, List.mem_ite_nil_right, ih]
    constructor
    · rintro (⟨hx, hp⟩ | ⟨before, y, more, rfl, hy, hp⟩)
      · exact ⟨[], x, rest, rfl, hx, hp⟩
      · exact ⟨x :: before, y, more, rfl, hy, hp⟩
    · rintro ⟨before, y, more, he, hy, hp⟩
      rcases List.cons_eq_append_iff.mp he with ⟨-, he⟩ | ⟨before', -, rfl⟩
      · obtain ⟨rfl, rfl⟩ := List.cons.inj he
        exact .inl ⟨hy, hp⟩
      · exact .inr ⟨before', y, more, rfl, hy, hp⟩

theorem mem_followLinks {pair : String × String} : pair ∈ followLinks grammar ↔
    ∃ p ∈ grammar.productionList, p.isEpsilon = false ∧
      pair ∈ followLinksOf grammar p.left p.right := by
  simp only [followLinks, List.mem_flatMap, List.mem_ite_nil_left, Bool.not_eq_true]

section Names

variable (h : grammar.Standard)
include h

theorem arrowless_of_mem_firstLeaves {label : String} (hl : label ∈ firstLeaves grammar) :
    Naming.Arrowless label := by
  rcases mem_firstLeaves.mp hl with ⟨s, hs, rfl⟩ | ⟨_, rfl⟩ | ⟨t, ht, rfl⟩
  · exact (short_of_registered h hs).arrowless
  · exact Symbol.short_epsilon.arrowless
  · exact (short_of_registered h (.inr ht)).arrowless.terminalLeaf

/-- A symbol with a symbol behind it in a body is registered, and what is behind it too. -/
theorem registered_of_right_eq {p : Production} (hp : p ∈ grammar.productionList)
    (hepsilon : p.isEpsilon = false) : ∀ s ∈ p.right, grammar.Registered s := by
  rcases h.right_cases hp with hr | hr
  · rw [(h.isEpsilon_iff hp).mpr hr] at hepsilon
    cases hepsilon
  · exact hr

theorem mem_nonterminalList_of_isNonterminal {s : Symbol} (hs : grammar.Registered s)
    (hn : s.isNonterminal = true) : s ∈ grammar.nonterminalList := by
  rcases hs with hs | hs
  · exact hs
  · simp [Symbol.isNonterminal, h.kind_of_mem_terminalList hs] at hn

/-- The ends of links are leaves; the second end is one of a follow set. -/
theorem ends_of_mem_followEdges {pair : String × String} (hpair : pair ∈ followEdges grammar) :
    (pair.1 ∈ followLeaves grammar ∧ ∃ s ∈ grammar.nonterminalList, pair.2 = followLeaf s.name) ∧
      Naming.Arrowless pair.1 := by
  rcases List.mem_cons.mp hpair with rfl | hpair
  · exact ⟨⟨mem_followLeaves.mpr (.inr (.inl rfl)), _, h.start_mem, rfl⟩,
      Symbol.short_endOfInput.arrowless.terminalLeaf.carried⟩
  · obtain ⟨p, hp, hepsilon, hlink⟩ := mem_followLinks.mp hpair
    have hregistered := registered_of_right_eq h hp hepsilon
    obtain ⟨before, x, rest, hright, hx, hlink⟩ := mem_followLinksOf.mp hlink
    have hx := mem_nonterminalList_of_isNonterminal h (hregistered x (by simp [hright])) hx
    rcases mem_contributions.mp hlink with ⟨y, hy, rfl⟩ | ⟨-, rfl⟩
    · have hy := hregistered y (by simp [hright, mem_of_mem_takeThrough hy])
      exact ⟨⟨mem_followLeaves.mpr (.inl ⟨_, mem_firstLeaves.mpr (.inl ⟨y, hy, rfl⟩), rfl⟩),
        x, hx, rfl⟩, (short_of_registered h hy).arrowless.carried⟩
    · exact ⟨⟨mem_followLeaves.mpr (.inr (.inr ⟨p.left, h.left_mem hp, rfl⟩)), x, hx, rfl⟩,
        (short_of_registered h (.inl (h.left_mem hp))).arrowless.followLeaf⟩

/-- No other link starts at the end of the input. -/
theorem fst_ne_endLeaf_of_mem_followLinks {pair : String × String}
    (hpair : pair ∈ followLinks grammar) : pair.1 ≠ carried endLeaf := by
  obtain ⟨p, hp, hepsilon, hlink⟩ := mem_followLinks.mp hpair
  obtain ⟨before, x, rest, hright, -, hlink⟩ := mem_followLinksOf.mp hlink
  rcases mem_contributions.mp hlink with ⟨y, hy, rfl⟩ | ⟨-, rfl⟩
  · have hy := registered_of_right_eq h hp hepsilon y
      (by simp [hright, mem_of_mem_takeThrough hy])
    exact fun he => (short_of_registered h hy).ne_terminalLeaf Symbol.short_endOfInput
      (Naming.carried_injective he)
  · exact (Naming.carried_ne_followLeaf _ _).symm

end Names

/-! ### The nodes -/

/-- The nodes of the follow step: copies of the groups and leaves of the first step, the group
and the leaf of the end of the input, and the leaves of the follow sets. -/
structure FollowNodes (grammar : Grammar) (first g : Graph) (made leaves : List (Node × Node))
    (endGroup endNode : Node) (follows : List Node) : Prop where
  nodes_eq : g.nodes =
    made.map Prod.snd ++ (leaves.map Prod.snd ++ endGroup :: endNode :: follows)
  groups_eq : made.map Prod.fst = first.groups
  leaves_eq : leaves.map Prod.fst = first.leaves
  groupCopy : ∀ c ∈ made, GroupCopy c
  leafCopy : ∀ c ∈ leaves, LeafCopy ⟨idPairs made⟩ c
  endGroup_eq : endGroup.kind = .group ∧ endGroup.group = none ∧
    endGroup.label = .string (carried (component endLeaf))
  endNode_eq : endNode.kind = .follow ∧ endNode.group = some endGroup.id ∧
    endNode.label = .string (carried endLeaf)
  follows : Leaves .follow (grammar.nonterminalList.map fun s => followLeaf s.name) follows

namespace FollowNodes

variable {made leaves : List (Node × Node)} {endGroup endNode : Node} {follows : List Node}
  (hn : FollowNodes grammar first g made leaves endGroup endNode follows)
include hn

theorem of_nodes_eq {g' : Graph} (he : g'.nodes = g.nodes) :
    FollowNodes grammar first g' made leaves endGroup endNode follows :=
  ⟨he.trans hn.nodes_eq, hn.groups_eq, hn.leaves_eq, hn.groupCopy, hn.leafCopy, hn.endGroup_eq,
    hn.endNode_eq, hn.follows⟩

/-- A node is a group, or a leaf of the kind of the step. -/
theorem mem_nodes {n : Node} : n ∈ g.nodes ↔ (∃ c ∈ made, c.2 = n) ∨ (∃ c ∈ leaves, c.2 = n) ∨
    n = endGroup ∨ n = endNode ∨ n ∈ follows := by
  rw [hn.nodes_eq]
  simp only [List.mem_append, List.mem_map, List.mem_cons]

theorem groups : g.groups = made.map Prod.snd ++ [endGroup] := by
  have hmade : (made.map Prod.snd).filter Node.isGroup = made.map Prod.snd := by
    refine List.filter_eq_self.mpr fun n hm => ?_
    obtain ⟨c, hc, rfl⟩ := List.mem_map.mp hm
    simp [Node.isGroup, (hn.groupCopy c hc).1]
  have hleaves : (leaves.map Prod.snd).filter Node.isGroup = [] := by
    refine List.filter_eq_nil_iff.mpr fun n hm => ?_
    obtain ⟨c, hc, rfl⟩ := List.mem_map.mp hm
    simp [Node.isGroup, (hn.leafCopy c hc).1]
  have hend : endGroup.isGroup = true := by simp [Node.isGroup, hn.endGroup_eq.1]
  have hnode : ¬endNode.isGroup = true := by simp [Node.isGroup, hn.endNode_eq.1]
  have hfollows : follows.filter Node.isGroup = [] :=
    List.filter_eq_nil_iff.mpr fun n hm => by simp [Node.isGroup, hn.follows.kind_eq n hm]
  rw [Graph.groups, hn.nodes_eq, List.filter_append, List.filter_append, hmade, hleaves,
    List.filter_cons_of_pos hend, List.filter_cons_of_neg hnode, hfollows, List.nil_append]

theorem leaf_cases {n : Node} (hm : n ∈ g.nodes) (hleaf : n.isGroup = false) :
    (∃ c ∈ leaves, c.2 = n) ∨ n = endNode ∨ n ∈ follows := by
  rcases hn.mem_nodes.mp hm with ⟨c, hc, rfl⟩ | hl | rfl | he
  · simp [Node.isGroup, (hn.groupCopy c hc).1] at hleaf
  · exact .inl hl
  · simp [Node.isGroup, hn.endGroup_eq.1] at hleaf
  · exact .inr he

theorem mem_groups {n : Node} : n ∈ g.groups ↔ (∃ c ∈ made, c.2 = n) ∨ n = endGroup := by
  simp only [hn.groups, List.mem_append, List.mem_map, List.mem_singleton]

/-- The groups are told apart by their labels. -/
theorem eq_of_label_eq (h : grammar.Standard) (hf : FirstGraph grammar first) {m n : Node}
    (hm : m ∈ g.groups) (hm' : n ∈ g.groups) (he : m.label = n.label) : m = n := by
  have hold {c : Node × Node} (hc : c ∈ made) : c.1 ∈ first.groups :=
    hn.groups_eq ▸ List.mem_map_of_mem hc
  have hlabel {c : Node × Node} (hc : c ∈ made) :
      ∃ l : String, c.1.label = .string l ∧ c.2.label = .string (carried l) := by
    obtain ⟨labels, hlabel, -⟩ := hf.titled c.1 (hold hc)
    refine ⟨_, hlabel, ?_⟩
    rw [(hn.groupCopy c hc).2.1, hlabel, Json.text_string]
  have hend {c : Node × Node} (hc : c ∈ made) : c.2.label ≠ endGroup.label := by
    obtain ⟨l, hl, hcarried⟩ := hlabel hc
    rw [hcarried, hn.endGroup_eq.2.2, ne_eq, Json.string_inj]
    intro he
    exact hf.label_ne_end h (hold hc) (hl.trans (by rw [Naming.carried_injective he]))
  rcases hn.mem_groups.mp hm with ⟨c, hc, rfl⟩ | rfl
  · rcases hn.mem_groups.mp hm' with ⟨d, hd, rfl⟩ | rfl
    · obtain ⟨l, hl, hcarried⟩ := hlabel hc
      obtain ⟨l', hl', hcarried'⟩ := hlabel hd
      rw [hcarried, hcarried', Json.string_inj] at he
      have hfst : c.1 = d.1 := hf.eq_of_label_eq h (hold hc) (hold hd)
        (by rw [hl, hl', Naming.carried_injective he])
      have hnodup : (made.map Prod.fst).Nodup :=
        hn.groups_eq ▸ (List.Nodup.of_map _ hf.tidy.nodup).filter _
      rw [List.inj_on_of_nodup_map hnodup hc hd hfst]
    · exact absurd he (hend hc)
  · rcases hn.mem_groups.mp hm' with ⟨d, hd, rfl⟩ | rfl
    · exact absurd he.symm (hend hd)
    · rfl

theorem mem_groupIds {b : String} :
    b ∈ g.groupIds ↔ (∃ c ∈ made, c.2.id = b) ∨ b = endGroup.id := by
  rw [groupIds, hn.groups]
  simp [or_comm]

theorem into : Into ⟨idPairs made⟩ g := by
  intro a b hget
  obtain ⟨c, hc, he⟩ := List.mem_map.mp (Assoc.get?_eq_some_of_lookupIn hget)
  exact hn.mem_groupIds.mpr (.inl ⟨c, hc, (Prod.mk.inj he).2⟩)

theorem labelled (h : grammar.Standard) (hf : FirstGraph grammar first) :
    g.Labelled .follow (followLeaves grammar) := by
  let labels := (first.leaves.map fun n => n.label.text).map carried ++
    carried endLeaf :: grammar.nonterminalList.map fun s => followLeaf s.name
  have hmem (label : String) : label ∈ labels ↔ label ∈ followLeaves grammar := by
    simp only [labels, followLeaves, List.mem_append, List.mem_map (f := carried), hf.leafTexts.2]
  refine Labelled.of_mem_iff (labelled_of_labels ?_ ?_) hmem
  · have hfirst : ((first.leaves.map fun n => n.label.text).map carried).Nodup :=
      hf.leafTexts.1.map fun a b => Naming.carried_injective
    have hfollow : (grammar.nonterminalList.map fun s => followLeaf s.name).Nodup := by
      have hmap := (nodup_names h.toLawful).2.map fun a b => Naming.followLeaf_injective
      rwa [List.map_map] at hmap
    rw [List.nodup_append]
    refine ⟨hfirst, List.nodup_cons.mpr ⟨fun hend => ?_, hfollow⟩, ?_⟩
    · obtain ⟨s, -, he⟩ := List.mem_map.mp hend
      exact Naming.carried_ne_followLeaf _ _ he.symm
    · rintro _ ha _ hb rfl
      obtain ⟨l, hl, rfl⟩ := List.mem_map.mp ha
      rcases List.mem_cons.mp hb with he | hb
      · rw [Naming.carried_injective he, hf.leafTexts.2] at hl
        exact endLeaf_not_mem_firstLeaves h hl
      · obtain ⟨s, -, he⟩ := List.mem_map.mp hb
        exact Naming.carried_ne_followLeaf _ _ he.symm
  · have hgroups : (made.map Prod.snd).filter (fun n => n.kind = .follow) = [] := by
      refine List.filter_eq_nil_iff.mpr fun n hm => ?_
      obtain ⟨c, hc, rfl⟩ := List.mem_map.mp hm
      simp [(hn.groupCopy c hc).1]
    have hleaves : (leaves.map Prod.snd).filter (fun n => n.kind = .follow) =
        leaves.map Prod.snd := by
      refine List.filter_eq_self.mpr fun n hm => ?_
      obtain ⟨c, hc, rfl⟩ := List.mem_map.mp hm
      simp [(hn.leafCopy c hc).1]
    have hfollows : follows.filter (fun n => n.kind = .follow) = follows :=
      List.filter_eq_self.mpr fun n hm => by simp [hn.follows.kind_eq n hm]
    have hcopies : (leaves.map Prod.snd).map Node.label =
        ((first.leaves.map fun n => n.label.text).map carried).map
          fun (label : String) => .string label := by
      rw [← hn.leaves_eq]
      simp only [List.map_map]
      exact List.map_congr_left fun c hc => (hn.leafCopy c hc).2.1
    rw [hn.nodes_eq, List.filter_append, List.filter_append, hgroups, hleaves,
      List.filter_cons_of_neg (by simp [hn.endGroup_eq.1]),
      List.filter_cons_of_pos (by simp [hn.endNode_eq.1]), hfollows, List.nil_append,
      List.map_append, hcopies, List.map_cons, hn.endNode_eq.2.2, hn.follows.labels_eq]
    simp only [labels, List.map_append, List.map_cons]

section Leaves

variable (hg : g.Tidy)
include hg

theorem eq_of_copy_id {c d : Node × Node} (hc : c ∈ made) (hd : d ∈ made)
    (he : c.2.id = d.2.id) : c = d := by
  have hnodup := hg.groupIds_nodup
  rw [groupIds, hn.groups, List.map_append, List.nodup_append, List.map_map] at hnodup
  exact List.inj_on_of_nodup_map hnodup.1 hc hd he

theorem copy_id_ne_endGroup {c : Node × Node} (hc : c ∈ made) : c.2.id ≠ endGroup.id := by
  have hnodup := hg.groupIds_nodup
  rw [groupIds, hn.groups, List.map_append, List.nodup_append, List.map_map] at hnodup
  exact hnodup.2.2 _ (List.mem_map_of_mem (f := Node.id ∘ Prod.snd) hc) _ (by simp)

/-- The leaves of a copy are the carried ones. -/
theorem leafIn_copy_iff (hf : FirstGraph grammar first) {c : Node × Node} (hc : c ∈ made)
    {label : String} : g.LeafIn label c.2.id ↔ ∃ l, label = carried l ∧ first.LeafIn l c.1.id := by
  have hkeys : ((⟨idPairs made⟩ : Assoc String String)).keys.Nodup := by
    have hids := hf.tidy.groupIds_nodup
    rw [groupIds, ← hn.groups_eq, List.map_map] at hids
    rwa [Assoc.keys, idPairs, List.map_map]
  have hget {a b : String} : (⟨idPairs made⟩ : Assoc String String).get? a = some b ↔
      ∃ d ∈ made, d.1.id = a ∧ d.2.id = b := by
    rw [Assoc.get?_eq_some_iff hkeys, idPairs, List.mem_map]
    simp only [Prod.mk.injEq]
  constructor
  · rintro ⟨n, hm, hleaf, hlabel, hgroup⟩
    rcases hn.leaf_cases hm hleaf with ⟨d, hd, rfl⟩ | rfl | hfollow
    · obtain ⟨-, hcarried, b, hb, hsome⟩ := hn.leafCopy d hd
      obtain rfl : b = c.2.id := Option.some.inj (hsome.symm.trans hgroup)
      obtain ⟨a, ha, hids⟩ := Option.bind_eq_some_iff.mp hb
      obtain ⟨e, he, hea, hec⟩ := hget.mp hids
      obtain rfl := hn.eq_of_copy_id hg he hc hec
      have hold : d.1 ∈ first.leaves := hn.leaves_eq ▸ List.mem_map_of_mem hd
      obtain ⟨hold, hg'⟩ := List.mem_filter.mp hold
      have hleaf' : d.1.isGroup = false := by simpa using hg'
      obtain ⟨l, -, hl, -⟩ := hf.leaf d.1 hold hleaf'
      rw [hlabel, hl, Json.text_string, Json.string_inj] at hcarried
      exact ⟨l, hcarried, d.1, hold, hleaf', hl, hea ▸ ha⟩
    · rw [hn.endNode_eq.2.1, Option.some.injEq] at hgroup
      exact absurd hgroup.symm (hn.copy_id_ne_endGroup hg hc)
    · rw [hn.follows.group_eq n hfollow] at hgroup
      cases hgroup
  · rintro ⟨l, rfl, n, hm, hleaf, hlabel, hgroup⟩
    have hold : n ∈ leaves.map Prod.fst :=
      hn.leaves_eq ▸ List.mem_filter.mpr ⟨hm, by simp [hleaf]⟩
    obtain ⟨d, hd, rfl⟩ := List.mem_map.mp hold
    obtain ⟨hkind, hcarried, b, hb, hsome⟩ := hn.leafCopy d hd
    rw [hgroup, Option.bind_some, hget.mpr ⟨c, hc, rfl, rfl⟩] at hb
    refine ⟨d.2, hn.mem_nodes.mpr (.inr (.inl ⟨d, hd, rfl⟩)), by simp [Node.isGroup, hkind], ?_,
      hsome.trans hb.symm⟩
    rw [hcarried, hlabel, Json.text_string]

/-- The group of the end of the input has its own leaf only. -/
theorem leafIn_endGroup_iff {label : String} :
    g.LeafIn label endGroup.id ↔ label = carried endLeaf := by
  constructor
  · rintro ⟨n, hm, hleaf, hlabel, hgroup⟩
    rcases hn.leaf_cases hm hleaf with ⟨d, hd, rfl⟩ | rfl | hfollow
    · obtain ⟨-, -, b, hb, hsome⟩ := hn.leafCopy d hd
      obtain rfl : b = endGroup.id := Option.some.inj (hsome.symm.trans hgroup)
      obtain ⟨a, -, hids⟩ := Option.bind_eq_some_iff.mp hb
      obtain ⟨c, hc, he⟩ := List.mem_map.mp (Assoc.get?_eq_some_of_lookupIn hids)
      exact absurd (Prod.mk.inj he).2 (hn.copy_id_ne_endGroup hg hc)
    · rw [hn.endNode_eq.2.2, Json.string_inj] at hlabel
      exact hlabel.symm
    · rw [hn.follows.group_eq n hfollow] at hgroup
      cases hgroup
  · rintro rfl
    exact ⟨endNode, hn.mem_nodes.mpr (by simp), by simp [Node.isGroup, hn.endNode_eq.1],
      hn.endNode_eq.2.2, hn.endNode_eq.2.1⟩

/-- A carried group has one original. -/
theorem get?_injective {a a' b : String}
    (ha : (⟨idPairs made⟩ : Assoc String String).get? a = some b)
    (ha' : (⟨idPairs made⟩ : Assoc String String).get? a' = some b) : a = a' := by
  obtain ⟨c, hc, he⟩ := List.mem_map.mp (Assoc.get?_eq_some_of_lookupIn ha)
  obtain ⟨d, hd, he'⟩ := List.mem_map.mp (Assoc.get?_eq_some_of_lookupIn ha')
  obtain ⟨rfl, hcb⟩ := Prod.mk.inj he
  obtain ⟨rfl, hdb⟩ := Prod.mk.inj he'
  rw [hn.eq_of_copy_id hg hc hd (hcb.trans hdb.symm)]

theorem nodup_carriedEdges (hf : FirstGraph grammar first) :
    (carriedEdges ⟨idPairs made⟩ first).Nodup := by
  let carry (ends : String × String) : Option (String × String) := do
    return (← (⟨idPairs made⟩ : Assoc String String).get? ends.1,
      ← (⟨idPairs made⟩ : Assoc String String).get? ends.2)
  have hcarry : carriedEdges ⟨idPairs made⟩ first =
      ((first.edges.filter Edge.isGroupEdge).map Edge.ends).filterMap carry := by
    rw [List.filterMap_map]
    rfl
  rw [hcarry]
  refine List.Nodup.filterMap ?_ (hf.nodup.sublist (List.filter_sublist.map Edge.ends))
  intro ends ends' pair hpair hpair'
  simp only [carry, Option.mem_def, Option.bind_eq_bind, Option.bind_eq_some_iff] at hpair hpair'
  obtain ⟨a, ha, b, hb, he⟩ := hpair
  obtain ⟨a', ha', b', hb', he'⟩ := hpair'
  obtain ⟨rfl, rfl⟩ := Prod.mk.inj (Option.some.inj (he'.trans he.symm))
  exact Prod.ext (hn.get?_injective hg ha ha') (hn.get?_injective hg hb hb')

end Leaves

end FollowNodes

theorem Joins.source_not_mem_groupIds (hg : g.Tidy) {e : Edge} {pair : String × String}
    (hj : g.Joins .follow e pair) : e.source ∉ g.groupIds := by
  intro hgroup
  obtain ⟨-, ⟨m, hm, hkind, -, hmid⟩, -⟩ := hj
  obtain ⟨n, hn, hngroup, hnid⟩ := mem_groupIds.mp hgroup
  have hsame := List.inj_on_of_nodup_map hg.nodup hn hm (hnid.trans hmid.symm)
  rw [hsame, Node.isGroup, hkind] at hngroup
  cases hngroup

/-- The edge from the end of the input, edges between groups and links have different ends. -/
theorem nodup_ends_follow (h : grammar.Standard) (hg : g.Tidy) {e : Edge}
    {between links : List Edge}
    (hend : g.Joins .follow e (carried endLeaf, followLeaf Symbol.startName))
    (hbetween : (between.map Edge.ends).Nodup) (hgroups : ∀ e ∈ between, e.source ∈ g.groupIds)
    (hlinks : (links.map Edge.ends).Nodup)
    (hjoins : ∀ e ∈ links, ∃ pair ∈ followLinks grammar, g.Joins .follow e pair) :
    (([e] ++ between ++ links).map Edge.ends).Nodup := by
  have hsource {d e : Edge} (hends : d.ends = e.ends) : d.source = e.source := (Prod.mk.inj hends).1
  rw [List.map_append, List.map_append, List.nodup_append, List.nodup_append]
  refine ⟨⟨by simp, hbetween, ?_⟩, hlinks, ?_⟩
  · rintro _ hleft _ hright rfl
    obtain rfl : _ = e.ends := by simpa using hleft
    obtain ⟨d, hd, hde⟩ := List.mem_map.mp hright
    exact hend.source_not_mem_groupIds hg (hsource hde ▸ hgroups d hd)
  · rintro _ hleft _ hright rfl
    obtain ⟨d, hd, rfl⟩ := List.mem_map.mp hright
    obtain ⟨pair, hpair, hj⟩ := hjoins d hd
    rcases List.mem_append.mp hleft with hleft | hleft
    · have hends : d.ends = e.ends := by simpa using hleft
      rw [hj.eq_of_ends_eq hg hend hends] at hpair
      exact fst_ne_endLeaf_of_mem_followLinks h hpair rfl
    · obtain ⟨c, hc, hends⟩ := List.mem_map.mp hleft
      exact hj.source_not_mem_groupIds hg (hsource hends ▸ hgroups c hc)

/-! ### The graph -/

/-- The graph of the follow step before its leaves are grouped: links join leaves, all other
edges join groups. -/
structure FollowLinked (grammar : Grammar) (first g : Graph) (made leaves : List (Node × Node))
    (endGroup endNode : Node) (follows : List Node) : Prop
    extends FollowNodes grammar first g made leaves endGroup endNode follows where
  tidy : g.Tidy
  edge : ∀ e ∈ g.edges, (∃ pair ∈ followEdges grammar, g.Joins .follow e pair) ∨
    e.isGroupEdge = false ∧ e.source ∈ g.groupIds ∧ e.target ∈ g.groupIds
  complete : ∀ pair ∈ followEdges grammar, ∃ e ∈ g.edges, g.Joins .follow e pair
  nodup : (g.edges.map Edge.ends).Nodup
  between : (g.edges.filter fun e => g.groupIds.contains e.source).map Edge.ends =
    carriedEdges ⟨idPairs made⟩ first

/-- The edges of the follow step, put into a graph that has its nodes. -/
def joinFollow (grammar : Grammar) (between : List (String × String)) (endNode : String)
    (g : Graph) : Except Fault Graph :=
  match g.findNode? (.string (followLeaf Symbol.startName)) (some .follow) with
  | none => throw (.breach .noStartLeaf)
  | some start =>
    link .follow [] (followLinks grammar)
      (between.foldl (fun g e => g.appendEdge e.1 e.2) (g.appendEdge endNode start.id))

/-- Every leaf of the first step lies in a group, so all nodes can be carried over. -/
theorem exists_followNodes (hf : FirstGraph grammar first) :
    ∃ g made leaves endGroup endNode follows,
      (∀ condensed, follow grammar first condensed = do
        let g ← joinFollow grammar (carriedEdges ⟨idPairs made⟩ first) endNode.id g
        if condensed then (condense .follow).result g else return g) ∧
      FollowNodes grammar first g made leaves endGroup endNode follows ∧ g.edges = [] ∧ g.Tidy := by
  obtain ⟨made, g₁, hcarry, hgroups, hcopy, hnodes₁, hedges₁, htidy₁⟩ :=
    carryGroups_spec (tidy_empty "Follow") hf.tidy.groupIds_nodup
  have hkeys : (⟨idPairs made⟩ : Assoc String String).keys = first.groupIds := by
    rw [Assoc.keys, idPairs, List.map_map, groupIds, ← hgroups, List.map_map]
    rfl
  have hgrouped : ∀ n ∈ first.leaves,
      ∃ b, n.group.bind (⟨idPairs made⟩ : Assoc String String).get? = some b := by
    intro n hn
    obtain ⟨hn, hg⟩ := List.mem_filter.mp hn
    obtain ⟨-, -, -, a, ha, hsome⟩ := hf.leaf n hn (by simpa using hg)
    rw [hsome, Option.bind_some]
    exact Assoc.exists_get?_of_mem_keys (hkeys ▸ ha)
  obtain ⟨leaves, g₂, hleaves, hold, hleafCopy, hnodes₂, hedges₂, htidy₂⟩ :=
    carryLeaves_spec htidy₁ hgrouped
  let endGroup : Node :=
    ⟨g₂.nodeId g₂.nextNode, .group, .string (carried (component endLeaf)), none⟩
  let g₃ := g₂.appendNode .group (.string (carried (component endLeaf)))
  let endNode : Node :=
    ⟨g₃.nodeId g₃.nextNode, .follow, .string (carried endLeaf), some endGroup.id⟩
  let g₄ := g₃.appendNode .follow (.string (carried endLeaf)) (some endGroup.id)
  have htidy₄ : g₄.Tidy := (htidy₂.appendNode ..).appendNode ..
  obtain ⟨follows, hnodes, hfollows, hedges, htidy⟩ :=
    appendLeaves_spec htidy₄ .follow (grammar.nonterminalList.map fun s => followLeaf s.name)
  refine ⟨_, made, leaves, endGroup, endNode, follows, fun condensed => ?_,
    ⟨?_, hgroups, hold, hcopy, hleafCopy, ⟨rfl, rfl, rfl⟩, ⟨rfl, rfl, rfl⟩, hfollows⟩,
    hedges.trans (hedges₂.trans hedges₁), htidy⟩
  · simp only [follow, joinFollow, hcarry, hleaves, bind, Except.bind, g₄, g₃, endNode, endGroup]
    cases Graph.findNode? _ (.string (followLeaf Symbol.startName)) (some .follow) <;> rfl
  · refine hnodes.trans ?_
    simp [g₄, g₃, appendNode, endGroup, endNode, hnodes₂, hnodes₁]

/-- The carried edges join groups, which no link touches, so the two are told apart by the sources
of edges. -/
theorem filter_groupIds_source (hg : g.Tidy) {e : Edge} {pair : String × String}
    {between links : List Edge} (hend : g.Joins .follow e pair)
    (hbetween : ∀ e ∈ between, e.source ∈ g.groupIds)
    (hlinks : ∀ e ∈ links, ∃ pair ∈ followLinks grammar, g.Joins .follow e pair) :
    ([e] ++ between ++ links).filter (fun e => g.groupIds.contains e.source) = between := by
  have hkept : between.filter (fun e => g.groupIds.contains e.source) = between :=
    List.filter_eq_self.mpr fun e he => by simpa using hbetween e he
  have hdropped : links.filter (fun e => g.groupIds.contains e.source) = [] := by
    refine List.filter_eq_nil_iff.mpr fun e he => ?_
    obtain ⟨_, -, hj⟩ := hlinks e he
    simpa using hj.source_not_mem_groupIds hg
  have hfirst : [e].filter (fun e => g.groupIds.contains e.source) = [] := by
    simpa using hend.source_not_mem_groupIds hg
  rw [List.filter_append, List.filter_append, hkept, hdropped, hfirst, List.nil_append,
    List.append_nil]

/-- All leaves that links join are there, so all edges can be put in. -/
theorem FollowNodes.exists_joinFollow {made leaves : List (Node × Node)} {endGroup endNode : Node}
    {follows : List Node} (hn : FollowNodes grammar first g made leaves endGroup endNode follows)
    (h : grammar.Standard) (hf : FirstGraph grammar first) (hnone : g.edges = []) (hg : g.Tidy) :
    ∃ g', joinFollow grammar (carriedEdges ⟨idPairs made⟩ first) endNode.id g = .ok g' ∧
      FollowLinked grammar first g' made leaves endGroup endNode follows := by
  have hlabelled := hn.labelled h hf
  -- the edge from the end of the input to the start marker
  obtain ⟨start, hstart, hstartKind, hstartLabel⟩ := hlabelled.exists_node
    (followLeaf Symbol.startName) (mem_followLeaves.mpr (.inr (.inr ⟨_, h.start_mem, rfl⟩)))
  have hfind := hlabelled.findNode? hstart hstartKind hstartLabel
  have hendNode : endNode ∈ g.nodes := hn.mem_nodes.mpr (by simp)
  let e : Edge := ⟨g.edgeId g.nextEdge, endNode.id, start.id, false⟩
  have hjoins : g.Joins .follow e (carried endLeaf, followLeaf Symbol.startName) :=
    ⟨rfl, ⟨endNode, hendNode, hn.endNode_eq.1, hn.endNode_eq.2.2, rfl⟩,
      start, hstart, hstartKind, hstartLabel, rfl⟩
  have hedges₁ : (g.appendEdge endNode.id start.id).edges = [e] := by
    simp [appendEdge, hnone, e]
  have htidy₁ : (g.appendEdge endNode.id start.id).Tidy :=
    hg.appendEdge (List.mem_map_of_mem hendNode) (List.mem_map_of_mem hstart) false
  -- the edges between the groups that are carried over
  have hcarried : ∀ pair ∈ carriedEdges ⟨idPairs made⟩ first,
      pair.1 ∈ g.groupIds ∧ pair.2 ∈ g.groupIds := fun _ => hn.into.ends_mem_groupIds
  obtain ⟨between, hedges₂, hends, hplain, hnodes₂, htidy₂⟩ := foldl_appendEdge_spec htidy₁
    fun pair hpair => (hcarried pair hpair).imp mem_nodeIds_of_mem_groupIds
      mem_nodeIds_of_mem_groupIds
  -- the links between leaves
  obtain ⟨g', links, hlink, hlinked⟩ := link_spec [] htidy₂ (hlabelled.of_nodes_eq hnodes₂)
    (fun pair hp => by
      obtain ⟨⟨hs, s, hs', ht⟩, -⟩ := ends_of_mem_followEdges h (List.mem_cons_of_mem _ hp)
      exact ⟨hs, ht ▸ mem_followLeaves.mpr (.inr (.inr ⟨s, hs', rfl⟩))⟩)
    (fun a ha b hb => Naming.pairName_injective
      (ends_of_mem_followEdges h (List.mem_cons_of_mem _ ha)).2
      (ends_of_mem_followEdges h (List.mem_cons_of_mem _ hb)).2)
  have hedges : g'.edges = [e] ++ between ++ links := by rw [hlinked.edges_eq, hedges₂, hedges₁]
  have hnodes : g'.nodes = g.nodes := hlinked.nodes_eq.trans hnodes₂
  have hjoins' := hjoins.of_nodes_eq hnodes
  have hbetween : ∀ e ∈ between, e.source ∈ g'.groupIds ∧ e.target ∈ g'.groupIds := by
    intro e he
    have hpair : e.ends ∈ carriedEdges ⟨idPairs made⟩ first := hends ▸ List.mem_map_of_mem he
    rw [groupIds, Graph.groups, hnodes]
    exact hcarried _ hpair
  have hsources : ∀ e ∈ between, e.source ∈ g'.groupIds := fun e he => (hbetween e he).1
  have hlinks : ∀ e ∈ links, ∃ pair ∈ followLinks grammar, g'.Joins .follow e pair := by
    intro e he
    obtain ⟨pair, hpair, -, hj⟩ := hlinked.sound e he
    exact ⟨pair, hpair, hj.of_nodes_eq hlinked.nodes_eq⟩
  refine ⟨g', ?_, hn.of_nodes_eq hnodes, hlinked.tidy, ?_, ?_, ?_, ?_⟩
  · rw [joinFollow, hfind]
    exact hlink
  · intro e he
    rw [hedges, List.mem_append, List.mem_append] at he
    rcases he with (he | he) | he
    · obtain rfl := List.mem_singleton.mp he
      exact .inl ⟨_, List.mem_cons_self .., hjoins'⟩
    · exact .inr ⟨hplain e he, hbetween e he⟩
    · obtain ⟨pair, hpair, hj⟩ := hlinks e he
      exact .inl ⟨pair, List.mem_cons_of_mem _ hpair, hj⟩
  · intro pair hpair
    rw [hedges]
    rcases List.mem_cons.mp hpair with rfl | hpair
    · exact ⟨e, by simp, hjoins'⟩
    · obtain ⟨e, he, hj⟩ := hlinked.complete pair hpair (by simp)
      exact ⟨e, List.mem_append_right _ he, hj.of_nodes_eq hlinked.nodes_eq⟩
  · rw [hedges]
    refine nodup_ends_follow h hlinked.tidy hjoins' ?_ hsources hlinked.nodup hlinks
    rw [hends]
    exact hn.nodup_carriedEdges hg hf
  · rw [hedges, filter_groupIds_source hlinked.tidy hjoins' hsources hlinks, hends]

theorem exists_followLinked (h : grammar.Standard) (hf : FirstGraph grammar first) :
    ∃ g made leaves endGroup endNode follows,
      (∀ condensed, follow grammar first condensed =
        if condensed then (condense .follow).result g else .ok g) ∧
      FollowLinked grammar first g made leaves endGroup endNode follows := by
  obtain ⟨g, made, leaves, endGroup, endNode, follows, hrun, hn, hnone, hg⟩ :=
    exists_followNodes hf
  obtain ⟨g', hjoin, hlinked⟩ := hn.exists_joinFollow h hf hnone hg
  refine ⟨g', made, leaves, endGroup, endNode, follows, fun condensed => ?_, hlinked⟩
  rw [hrun, hjoin]
  rfl

section Linked

variable {made leaves : List (Node × Node)} {endGroup endNode : Node} {follows : List Node}
  (hl : FollowLinked grammar first g made leaves endGroup endNode follows)
include hl

/-- The leaves of the follow sets are those to be grouped. -/
theorem FollowLinked.mem_pending {n : Node} : n ∈ g.pending .follow ↔ n ∈ follows := by
  rw [Graph.mem_pending]
  constructor
  · rintro ⟨hn, hleaf, -, hnone⟩
    rcases hl.leaf_cases hn hleaf with ⟨c, hc, rfl⟩ | rfl | hn
    · obtain ⟨-, -, b, -, hsome⟩ := hl.leafCopy c hc
      rw [hsome] at hnone
      cases hnone
    · rw [hl.endNode_eq.2.1] at hnone
      cases hnone
    · exact hn
  · intro hn
    have hkind := hl.follows.kind_eq n hn
    exact ⟨hl.mem_nodes.mpr (by simp [hn]), by simp [Node.isGroup, hkind], hkind,
      hl.follows.group_eq n hn⟩

theorem FollowLinked.kind_of_leaf {n : Node} (hn : n ∈ g.nodes) (hleaf : n.isGroup = false) :
    n.kind = .follow := by
  rcases hl.leaf_cases hn hleaf with ⟨c, hc, rfl⟩ | rfl | hn
  · exact (hl.leafCopy c hc).1
  · exact hl.endNode_eq.1
  · exact hl.follows.kind_eq n hn

/-- No edge between groups touches a leaf that is to be grouped. -/
theorem FollowLinked.exists_joins_of_touches {e : Edge} (he : e ∈ g.edges)
    (ht : Touches (g.pendingIds .follow) e) :
    ∃ pair ∈ followEdges grammar, g.Joins .follow e pair := by
  refine (hl.edge e he).resolve_right fun hgroups => ?_
  obtain ⟨-, hs, ht'⟩ := hgroups
  exact ht.elim (hl.tidy.not_mem_groupIds_of_pending · hs)
    (hl.tidy.not_mem_groupIds_of_pending · ht')

/-- The leaves that are carried over lie in the groups that are. -/
theorem FollowLinked.pending_or_grouped {n : Node} (hn : n ∈ g.nodes) (hleaf : n.isGroup = false) :
    n.kind = .follow ∧ n.group = none ∨ ∃ b ∈ g.groupIds, n.group = some b := by
  rcases hl.leaf_cases hn hleaf with ⟨c, hc, rfl⟩ | rfl | hn
  · obtain ⟨-, -, b, hb, hsome⟩ := hl.leafCopy c hc
    obtain ⟨a, -, hids⟩ := Option.bind_eq_some_iff.mp hb
    exact .inr ⟨b, hl.into a b hids, hsome⟩
  · exact .inr ⟨_, hl.mem_groupIds.mpr (.inr rfl), hl.endNode_eq.2.1⟩
  · exact .inl ⟨hl.follows.kind_eq n hn, hl.follows.group_eq n hn⟩

theorem FollowLinked.condensable (h : grammar.Standard) (hf : FirstGraph grammar first) :
    g.Condensable .follow where
  tidy := hl.tidy
  leaf n hn hleaf := by
    obtain ⟨label, -, hlabel⟩ :=
      (hl.labelled h hf).exists_label n hn (hl.kind_of_leaf hn hleaf)
    exact ⟨⟨label, hlabel⟩, hl.pending_or_grouped hn hleaf⟩
  edge e he := by
    have hkind : e.isGroupEdge = false := by
      rcases hl.edge e he with ⟨_, _, hj⟩ | ⟨hkind, -⟩
      · exact hj.1
      · exact hkind
    refine ⟨hkind, fun ht => ?_⟩
    obtain ⟨pair, -, hj⟩ := hl.exists_joins_of_touches he ht
    exact hj.isLeaf (by decide)
  pending := by
    obtain ⟨n, hn, -⟩ := hl.follows.exists_node
      (List.mem_map_of_mem (f := fun s : Symbol => followLeaf s.name) h.start_mem)
    exact List.ne_nil_of_mem (List.mem_map_of_mem (hl.mem_pending.mpr hn))

theorem FollowLinked.free {n : Node} (hn : n ∈ g.nodes) (hgroup : n.isGroup = true) :
    n.group = none := by
  rcases hl.mem_groups.mp (List.mem_filter.mpr ⟨hn, hgroup⟩) with ⟨c, hc, rfl⟩ | rfl
  · exact (hl.groupCopy c hc).2.2
  · exact hl.endGroup_eq.2.1

theorem FollowLinked.inhabited (hf : FirstGraph grammar first) {b : String} (hb : b ∈ g.groupIds) :
    ∃ label, g.LeafIn label b := by
  rcases hl.mem_groupIds.mp hb with ⟨c, hc, rfl⟩ | rfl
  · have hold : c.1.id ∈ first.groupIds := by
      rw [groupIds, ← hl.groups_eq]
      exact List.mem_map_of_mem (List.mem_map_of_mem hc)
    obtain ⟨l, hl'⟩ := hf.inhabited _ hold
    exact ⟨_, (hl.leafIn_copy_iff hl.tidy hf hc).mpr ⟨l, rfl, hl'⟩⟩
  · exact ⟨_, (hl.leafIn_endGroup_iff hl.tidy).mpr rfl⟩

/-- The carried leaves and that of the end of the input lie in groups already. -/
theorem FollowLinked.exists_leafIn_or_follow (hf : FirstGraph grammar first) {label : String}
    (hm : label ∈ followLeaves grammar) : (∃ b ∈ g.groupIds, g.LeafIn label b) ∨
      ∃ s ∈ grammar.nonterminalList, label = followLeaf s.name := by
  rcases mem_followLeaves.mp hm with ⟨l, hl', rfl⟩ | rfl | hs
  · obtain ⟨b, hb⟩ := hf.exists_leafIn l hl'
    obtain ⟨n, hn, rfl⟩ := List.mem_map.mp (hf.mem_leaves hb).2
    rw [← hl.groups_eq] at hn
    obtain ⟨c, hc, rfl⟩ := List.mem_map.mp hn
    exact .inl ⟨c.2.id, hl.mem_groupIds.mpr (.inl ⟨c, hc, rfl⟩),
      (hl.leafIn_copy_iff hl.tidy hf hc).mpr ⟨l, rfl, hb⟩⟩
  · exact .inl ⟨_, hl.mem_groupIds.mpr (.inr rfl), (hl.leafIn_endGroup_iff hl.tidy).mpr rfl⟩
  · exact .inr hs

/-- A carried leaf has another label than the leaf of a follow set. -/
theorem FollowLinked.mem_follows {n : Node} {l : String} (hn : n ∈ g.nodes)
    (hleaf : n.isGroup = false) (hlabel : n.label = .string (followLeaf l)) : n ∈ follows := by
  rcases hl.leaf_cases hn hleaf with ⟨c, hc, rfl⟩ | rfl | hn
  · rw [(hl.leafCopy c hc).2.1, Json.string_inj] at hlabel
    exact absurd hlabel (Naming.carried_ne_followLeaf _ _)
  · rw [hl.endNode_eq.2.2, Json.string_inj] at hlabel
    exact absurd hlabel (Naming.carried_ne_followLeaf _ _)
  · exact hn

theorem FollowLinked.shows (h : grammar.Standard) (hf : FirstGraph grammar first) :
    g.Shows .follow (followLeaves grammar) (followEdges grammar) where
  condensable := hl.condensable h hf
  free _ hn hgroup := hl.free hn hgroup
  label n hn hleaf := (hl.labelled h hf).exists_label n hn (hl.kind_of_leaf hn hleaf)
  exists_leaf label hm := by
    obtain ⟨n, hn, hkind, hlabel⟩ := (hl.labelled h hf).exists_node label hm
    exact ⟨n, hn, by simp [Node.isGroup, hkind], hlabel⟩
  unique m hm n hn hmleaf hnleaf :=
    (hl.labelled h hf).unique m hm n hn (hl.kind_of_leaf hm hmleaf) (hl.kind_of_leaf hn hnleaf)
  inhabited _ hb := hl.inhabited hf hb
  nodup := hl.nodup
  sound e he ht := by
    obtain ⟨pair, hp, hj⟩ := hl.exists_joins_of_touches he ht
    exact ⟨pair, hp, hj.exists_leaves (by decide)⟩
  complete pair hp := by
    obtain ⟨e, he, hj⟩ := hl.complete pair hp
    obtain ⟨hs, n, hn, hleaf, hlabel, hid⟩ := hj.exists_leaves (by decide)
    obtain ⟨⟨-, s, -, htarget⟩, -⟩ := ends_of_mem_followEdges h hp
    exact ⟨e, he, hs, n, hl.mem_pending.mpr (hl.mem_follows hn hleaf (htarget ▸ hlabel)), hlabel,
      hid⟩

end Linked

/-- The graph of the follow step, with its groups: copies of those of the first step, one for
the end of the input, and groups of follow sets. -/
structure FollowGraph (grammar : Grammar) (first g : Graph) : Prop
    extends g.Condensed (followLeaves grammar) (followEdges grammar) where
  carriedGroup : ∀ n ∈ first.groups, ∃ m ∈ g.groups,
    g.lastGroup? (carried n.label.text) = some m ∧
      ∀ label, g.LeafIn label m.id ↔ ∃ l, label = carried l ∧ first.LeafIn l n.id
  endGroup : ∃ m ∈ g.groups, g.lastGroup? (carried (component endLeaf)) = some m ∧
    ∀ label, g.LeafIn label m.id ↔ label = carried endLeaf
  titled : ∀ m ∈ g.groups,
    (∃ l, m.label = .string (carried l) ∧ ∀ label, g.LeafIn label m.id → ∃ l, label = carried l) ∨
    ∃ l, m.label = .string (followLeaf l) ∧
      ∀ label, g.LeafIn label m.id → ∃ s ∈ grammar.nonterminalList, label = followLeaf s.name

theorem lastGroup?_eq {m : Node} {name : String} (hm : m ∈ g.groups)
    (hlabel : m.label = .string name) (hunique : ∀ n ∈ g.groups, n.label = .string name → n = m) :
    g.lastGroup? name = some m := by
  have hsome : (g.lastGroup? name).isSome = true :=
    List.find?_isSome.mpr ⟨m, List.mem_reverse.mpr hm, label_same_iff.mpr hlabel⟩
  obtain ⟨n, hn⟩ := Option.isSome_iff_exists.mp hsome
  have hmem := List.mem_reverse.mp (List.mem_of_find?_eq_some hn)
  have hsame := List.find?_some (p := fun n : Node => n.label.same (.string name)) hn
  rw [hn, hunique n hmem (label_same_iff.mp hsame)]

/-- A group that is new has the title of a follow set. -/
theorem Extends.group_cases {g' : Graph} {edges : List (String × String)}
    (he : g.Extends g' .follow edges) (hg : g'.Tidy) {m : Node} (hm : m ∈ g'.groups) :
    m ∈ g.groups ∨ m.id ∉ g.groupIds ∧ ∃ l, m.label = .string (followLeaf l) := by
  obtain ⟨added, hgroups, hadded⟩ := he.groups
  have hnodup := hg.groupIds_nodup
  rw [groupIds, hgroups, List.map_append, List.nodup_append] at hnodup
  rw [hgroups, List.mem_append] at hm
  rcases hm with hm | hm
  · exact .inl hm
  · obtain ⟨⟨labels, hlabel, -⟩, -⟩ := hadded m hm
    exact .inr ⟨fun hold => hnodup.2.2 _ hold _ (List.mem_map_of_mem hm) rfl, _, hlabel⟩

theorem Extends.mem_groups {g' : Graph} {kind : NodeKind} {edges : List (String × String)}
    (he : g.Extends g' kind edges) {m : Node} (hm : m ∈ g.groups) : m ∈ g'.groups := by
  obtain ⟨added, hgroups, -⟩ := he.groups
  exact hgroups ▸ List.mem_append_left _ hm

/-- The groups that were there before the leaves of follow sets were grouped are found by their
labels. -/
theorem FollowLinked.lastGroup?_carried {g' : Graph} {made leaves : List (Node × Node)}
    {endGroup endNode : Node} {follows : List Node} {edges : List (String × String)}
    (hl : FollowLinked grammar first g made leaves endGroup endNode follows)
    (h : grammar.Standard) (hf : FirstGraph grammar first) (he : g.Extends g' .follow edges)
    (hg : g'.Tidy) {m : Node} {name : String} (hm : m ∈ g.groups)
    (hlabel : m.label = .string (carried name)) : g'.lastGroup? (carried name) = some m := by
  refine lastGroup?_eq (he.mem_groups hm) hlabel fun n hn hname => ?_
  rcases he.group_cases hg hn with hn | ⟨-, l, hfollow⟩
  · exact hl.eq_of_label_eq h hf hn hm (hname.trans hlabel.symm)
  · rw [hfollow, Json.string_inj] at hname
    exact absurd hname.symm (Naming.carried_ne_followLeaf _ _)

theorem exists_followGraph (h : grammar.Standard) (hf : FirstGraph grammar first) :
    ∃ g, follow grammar first = .ok g ∧ FollowGraph grammar first g := by
  obtain ⟨g, made, leaves, endGroup, endNode, follows, hrun, hl⟩ := exists_followLinked h hf
  obtain ⟨g', hcondense, hcondensed, he⟩ := (hl.shows h hf).condense
  have hcopy {c : Node × Node} (hc : c ∈ made) {label : String} :
      g'.LeafIn label c.2.id ↔ ∃ l, label = carried l ∧ first.LeafIn l c.1.id :=
    (he.kept (hl.mem_groupIds.mpr (.inl ⟨c, hc, rfl⟩))).trans (hl.leafIn_copy_iff hl.tidy hf hc)
  have hend {label : String} : g'.LeafIn label endGroup.id ↔ label = carried endLeaf :=
    (he.kept (hl.mem_groupIds.mpr (.inr rfl))).trans (hl.leafIn_endGroup_iff hl.tidy)
  refine ⟨g', (hrun true).trans hcondense, hcondensed, fun n hn => ?_, ?_, fun m hm => ?_⟩
  · rw [← hl.groups_eq] at hn
    obtain ⟨c, hc, rfl⟩ := List.mem_map.mp hn
    have hold := hl.mem_groups.mpr (.inl ⟨c, hc, rfl⟩)
    exact ⟨c.2, he.mem_groups hold,
      hl.lastGroup?_carried h hf he hcondensed.tidy hold (hl.groupCopy c hc).2.1, fun _ => hcopy hc⟩
  · have hold := hl.mem_groups.mpr (.inr rfl)
    exact ⟨endGroup, he.mem_groups hold,
      hl.lastGroup?_carried h hf he hcondensed.tidy hold hl.endGroup_eq.2.2, fun _ => hend⟩
  · rcases he.group_cases hcondensed.tidy hm with hm | ⟨hnew, l, hlabel⟩
    · rcases hl.mem_groups.mp hm with ⟨c, hc, rfl⟩ | rfl
      · refine .inl ⟨_, (hl.groupCopy c hc).2.1, fun label hleaf => ?_⟩
        obtain ⟨l, hlabel, -⟩ := (hcopy hc).mp hleaf
        exact ⟨l, hlabel⟩
      · exact .inl ⟨_, hl.endGroup_eq.2.2, fun label hleaf => ⟨_, hend.mp hleaf⟩⟩
    · refine .inr ⟨l, hlabel, fun label hleaf => ?_⟩
      rcases hl.exists_leafIn_or_follow hf (hcondensed.mem_leaves hleaf).1 with ⟨b, hb, hin⟩ | hs
      · rw [hcondensed.eq_of_leafIn ((he.kept hb).mpr hin) hleaf] at hb
        exact absurd hb hnew
      · exact hs

end Lookahead.Graph
