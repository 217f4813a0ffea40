import Lookahead.Proofs.Graph.Condensing

/-!
# Condensed graphs

In a condensed graph every leaf lies in one group, leaves with ways there and back lie in
the same group, and a group edge leads from one group to another iff an edge leads from a
leaf of the one to a leaf of the other. Edges are spoken of by the labels of their ends.
-/

namespace Lookahead.Graph

open Lookahead.Digraph (Reaches Mutual)

variable {g g' : Graph} {kind : NodeKind} {leaves : List String} {edges : List (String × String)}

/-- The leaf with a label lies in a group. -/
def LeafIn (g : Graph) (label group : String) : Prop :=
  ∃ n ∈ g.nodes, n.isGroup = false ∧ n.label = .string label ∧ n.group = some group

structure Condensed (g : Graph) (leaves : List String) (edges : List (String × String)) :
    Prop where
  tidy : g.Tidy
  free : ∀ n ∈ g.nodes, n.isGroup = true → n.group = none
  leaf : ∀ n ∈ g.nodes, n.isGroup = false →
    ∃ label ∈ leaves, n.label = .string label ∧ ∃ b ∈ g.groupIds, n.group = some b
  exists_leafIn : ∀ label ∈ leaves, ∃ b, g.LeafIn label b
  unique : ∀ m ∈ g.nodes, ∀ n ∈ g.nodes, m.isGroup = false → n.isGroup = false →
    m.label = n.label → m = n
  inhabited : ∀ b ∈ g.groupIds, ∃ label, g.LeafIn label b
  separate : ∀ {s t a b}, g.LeafIn s a → g.LeafIn t b → Mutual edges s t → a = b
  /-- The leaves of a group that an edge leads into have ways to each other. -/
  coherent : ∀ {r s t b}, (r, t) ∈ edges → g.LeafIn t b → g.LeafIn s b → Mutual edges t s
  joined : ∀ {a b}, (∃ e ∈ g.edges, e.isGroupEdge = true ∧ e.source = a ∧ e.target = b) ↔
    a ≠ b ∧ ∃ s t, (s, t) ∈ edges ∧ g.LeafIn s a ∧ g.LeafIn t b
  nodup : (g.edges.map Edge.ends).Nodup

theorem Condensed.eq_of_leafIn (h : g.Condensed leaves edges) {label a b : String}
    (ha : g.LeafIn label a) (hb : g.LeafIn label b) : a = b := by
  obtain ⟨m, hm, hml, hm', hma⟩ := ha
  obtain ⟨n, hn, hnl, hn', hnb⟩ := hb
  obtain rfl := h.unique m hm n hn hml hnl (hm'.trans hn'.symm)
  exact Option.some.inj (hma.symm.trans hnb)

theorem Condensed.mem_leaves (h : g.Condensed leaves edges) {label b : String}
    (hl : g.LeafIn label b) : label ∈ leaves ∧ b ∈ g.groupIds := by
  obtain ⟨n, hn, hleaf, hlabel, hgroup⟩ := hl
  obtain ⟨label', hl', he, b', hb', hg'⟩ := h.leaf n hn hleaf
  rw [hlabel, Json.string_inj] at he
  rw [hgroup, Option.some.injEq] at hg'
  exact ⟨he ▸ hl', hg' ▸ hb'⟩

/-- The labels of the leaves, each of them once. -/
theorem Condensed.leafTexts (h : g.Condensed leaves edges) :
    (g.leaves.map fun n => n.label.text).Nodup ∧
      ∀ label, label ∈ g.leaves.map (fun n => n.label.text) ↔ label ∈ leaves := by
  have hleaf {n : Node} (hn : n ∈ g.leaves) : n ∈ g.nodes ∧ n.isGroup = false := by
    simpa [Graph.leaves] using hn
  refine ⟨List.Nodup.map_on (fun m hm n hn he => ?_) ?_, fun label => ?_⟩
  · obtain ⟨s, -, hs, -⟩ := h.leaf m (hleaf hm).1 (hleaf hm).2
    obtain ⟨t, -, ht, -⟩ := h.leaf n (hleaf hn).1 (hleaf hn).2
    rw [hs, ht, Json.text_string, Json.text_string] at he
    exact h.unique m (hleaf hm).1 n (hleaf hn).1 (hleaf hm).2 (hleaf hn).2 (by rw [hs, ht, he])
  · exact (List.Nodup.of_map _ h.tidy.nodup).filter _
  · rw [List.mem_map]
    constructor
    · rintro ⟨n, hn, rfl⟩
      obtain ⟨s, hs, he, -⟩ := h.leaf n (hleaf hn).1 (hleaf hn).2
      rwa [he, Json.text_string]
    · intro hl
      obtain ⟨b, n, hn, hg, hlabel, -⟩ := h.exists_leafIn label hl
      exact ⟨n, List.mem_filter.mpr ⟨hn, by simp [hg]⟩, by rw [hlabel, Json.text_string]⟩

theorem Condensed.ends_mem_groupIds (h : g.Condensed leaves edges) {e : Edge} (he : e ∈ g.edges)
    (hg : e.isGroupEdge = true) : e.source ∈ g.groupIds ∧ e.target ∈ g.groupIds := by
  obtain ⟨-, _, _, -, hs, ht⟩ := h.joined.mp ⟨e, he, hg, rfl, rfl⟩
  exact ⟨(h.mem_leaves hs).2, (h.mem_leaves ht).2⟩

/-- The members of a group are the leaves in it. -/
theorem Condensed.mem_members (h : g.Condensed leaves edges) {b : String} {n : Node}
    (hn : n ∈ g.members b) : n.isGroup = false ∧ ∃ label : String, n.label = .string label ∧
      g.LeafIn label b := by
  obtain ⟨hn, hb⟩ := List.mem_filter.mp hn
  have hb' : n.group = some b := by simpa using hb
  have hleaf : n.isGroup = false := by
    cases hg : n.isGroup with
    | true => simp [h.free n hn hg] at hb'
    | false => rfl
  obtain ⟨label, _, hlabel, _⟩ := h.leaf n hn hleaf
  exact ⟨hleaf, label, hlabel, n, hn, hleaf, hlabel, hb'⟩

theorem exists_member_of_leafIn {label b : String} (h : g.LeafIn label b) :
    ∃ n ∈ g.members b, n.label = .string label := by
  obtain ⟨n, hn, _, hlabel, hgroup⟩ := h
  exact ⟨n, List.mem_filter.mpr ⟨hn, by simp [hgroup]⟩, hlabel⟩

/-- A leaf is a member of its own group only. -/
theorem Condensed.exists_member_iff (h : g.Condensed leaves edges) {label a b : String}
    (hb : g.LeafIn label b) : (∃ n ∈ g.members a, n.label = .string label) ↔ a = b := by
  constructor
  · rintro ⟨n, hn, hlabel⟩
    obtain ⟨-, label', hlabel', hleaf⟩ := h.mem_members hn
    rw [hlabel, Json.string_inj] at hlabel'
    exact h.eq_of_leafIn (hlabel' ▸ hleaf) hb
  · rintro rfl
    exact exists_member_of_leafIn hb

/-! ### Graphs before they are condensed -/

/-- A graph with the given leaves whose edges at the leaves to be grouped are the given ones. -/
structure Shows (g : Graph) (kind : NodeKind) (leaves : List String)
    (edges : List (String × String)) : Prop where
  condensable : g.Condensable kind
  free : ∀ n ∈ g.nodes, n.isGroup = true → n.group = none
  label : ∀ n ∈ g.nodes, n.isGroup = false → ∃ label ∈ leaves, n.label = .string label
  exists_leaf : ∀ label ∈ leaves, ∃ n ∈ g.nodes, n.isGroup = false ∧ n.label = .string label
  unique : ∀ m ∈ g.nodes, ∀ n ∈ g.nodes, m.isGroup = false → n.isGroup = false →
    m.label = n.label → m = n
  inhabited : ∀ b ∈ g.groupIds, ∃ label, g.LeafIn label b
  nodup : (g.edges.map Edge.ends).Nodup
  sound : ∀ e ∈ g.edges, Touches (g.pendingIds kind) e → ∃ pair ∈ edges,
    (∃ n ∈ g.nodes, n.isGroup = false ∧ n.label = .string pair.1 ∧ n.id = e.source) ∧
      ∃ n ∈ g.nodes, n.isGroup = false ∧ n.label = .string pair.2 ∧ n.id = e.target
  complete : ∀ pair ∈ edges, ∃ e ∈ g.edges,
    (∃ n ∈ g.nodes, n.isGroup = false ∧ n.label = .string pair.1 ∧ n.id = e.source) ∧
      ∃ n ∈ g.pending kind, n.label = .string pair.2 ∧ n.id = e.target

/-- What a link joins are leaves. -/
theorem Joins.exists_leaves (hk : kind ≠ .group) {e : Edge} {pair : String × String}
    (hj : g.Joins kind e pair) :
    (∃ n ∈ g.nodes, n.isGroup = false ∧ n.label = .string pair.1 ∧ n.id = e.source) ∧
      ∃ n ∈ g.nodes, n.isGroup = false ∧ n.label = .string pair.2 ∧ n.id = e.target := by
  have hleaf {n : Node} (hn : n.kind = kind) : n.isGroup = false := by
    simp [Node.isGroup, hn, hk]
  obtain ⟨-, ⟨m, hm, hmk, hml, hmid⟩, n, hn, hnk, hnl, hnid⟩ := hj
  exact ⟨⟨m, hm, hleaf hmk, hml, hmid⟩, n, hn, hleaf hnk, hnl, hnid⟩

theorem Joins.isLeaf (hk : kind ≠ .group) {e : Edge} {pair : String × String}
    (hj : g.Joins kind e pair) : g.IsLeaf e.source ∧ g.IsLeaf e.target := by
  obtain ⟨⟨m, hm, hml, hmlabel, hmid⟩, n, hn, hnl, hnlabel, hnid⟩ := hj.exists_leaves hk
  exact ⟨⟨m, hm, hmid, hml, _, hmlabel⟩, n, hn, hnid, hnl, _, hnlabel⟩

/-- Leaves that are joined by links and not grouped yet. -/
theorem LeafGraph.shows (hg : g.LeafGraph kind leaves edges) (hk : kind ≠ .group)
    (hne : leaves ≠ []) : g.Shows kind leaves edges := by
  have hleaf {n : Node} (hn : n ∈ g.nodes) : n.isGroup = false := by
    simp [Node.isGroup, (hg.node n hn).1, hk]
  have hnone {n : Node} (hn : n ∈ g.nodes) : n.isGroup ≠ true := by simp [hleaf hn]
  have hpending {n : Node} (hn : n ∈ g.nodes) : n ∈ g.pending kind :=
    mem_pending.mpr ⟨hn, hleaf hn, hg.node n hn⟩
  refine ⟨⟨hg.tidy, ?_, ?_, ?_⟩, ?_, ?_, ?_, ?_, ?_, hg.nodup, ?_, ?_⟩
  · intro n hn _
    obtain ⟨label, -, hl⟩ := hg.labelled.exists_label n hn (hg.node n hn).1
    exact ⟨⟨label, hl⟩, .inl (hg.node n hn)⟩
  · intro e he
    obtain ⟨pair, -, hj⟩ := hg.sound e he
    exact ⟨hj.1, fun _ => hj.isLeaf hk⟩
  · obtain ⟨label, hl⟩ := List.exists_mem_of_ne_nil _ hne
    obtain ⟨n, hn, -⟩ := hg.labelled.exists_node label hl
    exact List.ne_nil_of_mem (List.mem_map_of_mem (hpending hn))
  · exact fun n hn hgroup => absurd hgroup (hnone hn)
  · exact fun n hn _ => hg.labelled.exists_label n hn (hg.node n hn).1
  · intro label hl
    obtain ⟨n, hn, -, hlabel⟩ := hg.labelled.exists_node label hl
    exact ⟨n, hn, hleaf hn, hlabel⟩
  · exact fun m hm n hn _ _ => hg.labelled.unique m hm n hn (hg.node m hm).1 (hg.node n hn).1
  · intro b hb
    obtain ⟨n, hn, hgroup, -⟩ := mem_groupIds.mp hb
    exact absurd hgroup (hnone hn)
  · intro e he _
    obtain ⟨pair, hp, hj⟩ := hg.sound e he
    exact ⟨pair, hp, hj.exists_leaves hk⟩
  · intro pair hp
    obtain ⟨e, he, hj⟩ := hg.complete pair hp
    obtain ⟨hs, n, hn, -, hlabel, hid⟩ := hj.exists_leaves hk
    exact ⟨e, he, hs, n, hpending hn, hlabel, hid⟩

namespace Shows

variable (h : g.Shows kind leaves edges)
include h

theorem eq_of_id {m n : Node} (hm : m ∈ g.nodes) (hn : n ∈ g.nodes) (hid : m.id = n.id) : m = n :=
  List.inj_on_of_nodup_map h.condensable.tidy.nodup hm hn hid

/-- Edges between leaves to be grouped, by labels. -/
theorem mem_linksWithin {m n : Node} {s t : String} (hm : m ∈ g.pending kind)
    (hn : n ∈ g.pending kind) (hs : m.label = .string s) (ht : n.label = .string t) :
    (m.id, n.id) ∈ g.linksWithin (g.pendingIds kind) ↔ (s, t) ∈ edges := by
  obtain ⟨hm', hml, -⟩ := mem_pending.mp hm
  obtain ⟨hn', hnl, -⟩ := mem_pending.mp hn
  rw [Graph.mem_linksWithin]
  constructor
  · rintro ⟨_, hid, e, he, hsource, htarget⟩
    obtain ⟨⟨s', t'⟩, hpair, ⟨a, ha, _, hal, haid⟩, b, hb, _, hbl, hbid⟩ :=
      h.sound e he (.inr (htarget ▸ hid))
    obtain rfl := h.eq_of_id ha hm' (haid.trans hsource)
    obtain rfl := h.eq_of_id hb hn' (hbid.trans htarget)
    rw [hal, Json.string_inj] at hs
    rw [hbl, Json.string_inj] at ht
    exact hs ▸ ht ▸ hpair
  · intro hpair
    obtain ⟨e, he, ⟨a, ha, half, hal, haid⟩, b, hb, hbl, hbid⟩ := h.complete _ hpair
    obtain ⟨hb', hbleaf, -⟩ := mem_pending.mp hb
    obtain rfl := h.unique a ha m hm' half hml (hal.trans hs.symm)
    obtain rfl := h.unique b hb' n hn' hbleaf hnl (hbl.trans ht.symm)
    exact ⟨List.mem_map_of_mem hm, List.mem_map_of_mem hn, e, he, haid.symm, hbid.symm⟩

/-- Ways between leaves to be grouped, by labels. -/
theorem reaches_iff {m n : Node} {s t : String} (hm : m ∈ g.pending kind)
    (hn : n ∈ g.pending kind) (hs : m.label = .string s) (ht : n.label = .string t) :
    Reaches (g.linksWithin (g.pendingIds kind)) m.id n.id ↔ Reaches edges s t := by
  have hpending {id : String} (hid : id ∈ g.pendingIds kind) :
      ∃ n ∈ g.pending kind, n.id = id ∧ ∃ label : String, n.label = .string label := by
    obtain ⟨n, hn, rfl⟩ := List.mem_map.mp hid
    obtain ⟨hn', hleaf, -⟩ := mem_pending.mp hn
    exact ⟨n, hn, rfl, (h.condensable.leaf n hn' hleaf).1⟩
  constructor
  · intro hr
    suffices hall : ∀ id, Reaches (g.linksWithin (g.pendingIds kind)) m.id id →
        ∀ n ∈ g.pending kind, n.id = id → ∀ t : String, n.label = .string t → Reaches edges s t from
      hall n.id hr n hn rfl t ht
    intro id hr
    induction hr with
    | refl =>
      intro n hn hid t ht
      obtain rfl := h.eq_of_id (mem_pending.mp hm).1 (mem_pending.mp hn).1 hid.symm
      rw [hs, Json.string_inj] at ht
      exact ht ▸ .refl
    | @tail b c _ hstep ih =>
      intro n hn hid t ht
      obtain ⟨k, hk, rfl, r, hkr⟩ := hpending (Graph.mem_linksWithin.mp hstep).1
      subst hid
      exact (ih k hk rfl r hkr).tail ((h.mem_linksWithin hk hn hkr ht).mp hstep)
  · intro hr
    suffices hall : ∀ t, Reaches edges s t → ∃ n ∈ g.pending kind, n.label = .string t ∧
        Reaches (g.linksWithin (g.pendingIds kind)) m.id n.id by
      obtain ⟨k, hk, hkt, hreach⟩ := hall t hr
      obtain ⟨hk', hkl, -⟩ := mem_pending.mp hk
      obtain ⟨hn', hnl, -⟩ := mem_pending.mp hn
      obtain rfl := h.unique k hk' n hn' hkl hnl (hkt.trans ht.symm)
      exact hreach
    intro t hr
    induction hr with
    | refl => exact ⟨m, hm, hs, .refl⟩
    | @tail b c _ hstep ih =>
      obtain ⟨k, hk, hkb, hreach⟩ := ih
      obtain ⟨_, _, _, n, hn, hnc, _⟩ := h.complete _ hstep
      exact ⟨n, hn, hnc, hreach.tail ((h.mem_linksWithin hk hn hkb hnc).mpr hstep)⟩

end Shows

/-! ### Graphs after they were condensed -/

section Condensation

variable {made : List (List String × Node)} {added : List Edge}
  (h : g.Shows kind leaves edges) (hc : Condensation g g' kind made added)
include h hc

omit h in
theorem leafIn_iff {label b : String} : g'.LeafIn label b ↔ ∃ n ∈ g.nodes,
    n.isGroup = false ∧ n.label = .string label ∧ (assignAll made n).group = some b := by
  rw [LeafIn, hc.nodes_eq]
  constructor
  · rintro ⟨n', hn', hleaf, hlabel, hgroup⟩
    rcases List.mem_append.mp hn' with hn' | hn'
    · obtain ⟨n, hn, rfl⟩ := List.mem_map.mp hn'
      exact ⟨n, hn, (isGroup_assignAll made n).symm.trans hleaf,
        (label_assignAll made n).symm.trans hlabel, hgroup⟩
    · obtain ⟨c, hm, rfl⟩ := List.mem_map.mp hn'
      simp [Node.isGroup, (hc.group c hm).1] at hleaf
  · rintro ⟨n, hn, hleaf, hlabel, hgroup⟩
    exact ⟨assignAll made n, List.mem_append_left _ (List.mem_map_of_mem hn),
      (isGroup_assignAll made n).trans hleaf, (label_assignAll made n).trans hlabel, hgroup⟩

theorem assignAll_of_isGroup {n : Node} (hn : n ∈ g.nodes) (hgroup : n.isGroup = true) :
    assignAll made n = n := by
  refine assignAll_of_not_mem fun c hm hid => ?_
  obtain ⟨m, hmem, he⟩ := hc.exists_pending hm hid
  obtain ⟨hmem, hleaf, _⟩ := mem_pending.mp hmem
  obtain rfl := h.eq_of_id hmem hn he
  simp [hgroup] at hleaf

/-- The new groups come behind the old ones. -/
theorem groups_condensation : g'.groups = g.groups ++ made.map Prod.snd := by
  have hold : (g.nodes.map (assignAll made)).filter Node.isGroup = g.nodes.filter Node.isGroup := by
    have hcond : g.nodes.filter (Node.isGroup ∘ assignAll made) = g.nodes.filter Node.isGroup :=
      List.filter_congr fun n _ => isGroup_assignAll made n
    rw [List.filter_map, hcond]
    refine (List.map_congr_left fun n hn => ?_).trans (List.map_id _)
    obtain ⟨hn, hg⟩ := List.mem_filter.mp hn
    exact assignAll_of_isGroup h hc hn hg
  have hnew : (made.map Prod.snd).filter Node.isGroup = made.map Prod.snd := by
    rw [List.filter_eq_self]
    intro n hn
    obtain ⟨c, hm, rfl⟩ := List.mem_map.mp hn
    simp [Node.isGroup, (hc.group c hm).1]
  rw [groups, hc.nodes_eq, List.filter_append, hold, hnew, groups]

theorem groupIds_condensation : g'.groupIds = g.groupIds ++ made.map fun c => c.2.id := by
  rw [groupIds, groups_condensation h hc, List.map_append, List.map_map]
  rfl

theorem exists_group_of_leaf {n : Node} (hn : n ∈ g.nodes) (hleaf : n.isGroup = false) :
    (n.kind = kind ∧ n.group = none ∧
      ∃ c ∈ made, n.id ∈ c.1 ∧ (assignAll made n).group = some c.2.id) ∨
      ∃ a ∈ g.groupIds, n.group = some a ∧ assignAll made n = n :=
  exists_group_assignAll h.condensable.tidy hc.components hn hleaf
    (h.condensable.leaf n hn hleaf).2

/-- A leaf was to be grouped and lies in a new group now, or it stays in its group. -/
theorem group_cases {n : Node} (hn : n ∈ g.nodes) (hleaf : n.isGroup = false) {b : String}
    (hb : (assignAll made n).group = some b) :
    (n ∈ g.pending kind ∧ ∃ c ∈ made, n.id ∈ c.1 ∧ c.2.id = b) ∨
      b ∈ g.groupIds ∧ n.group = some b := by
  rcases exists_group_of_leaf h hc hn hleaf with
    ⟨hk, hnone, c, hm, hid, hsome⟩ | ⟨a, ha, hsome, hkeep⟩
  · refine .inl ⟨mem_pending.mpr ⟨hn, hleaf, hk, hnone⟩, c, hm, hid, ?_⟩
    exact Option.some.inj (hsome.symm.trans hb)
  · rw [hkeep, hsome, Option.some.injEq] at hb
    exact .inr ⟨hb ▸ ha, hb ▸ hsome⟩

/-- Leaves to be grouped come into one group iff there are ways between them. -/
theorem mem_made_iff {c : List String × Node} (hm : c ∈ made) {m n : Node} {s t : String}
    (hmp : m ∈ g.pending kind) (hn : n ∈ g.pending kind) (hs : m.label = .string s)
    (ht : n.label = .string t) (hid : m.id ∈ c.1) : n.id ∈ c.1 ↔ Mutual edges s t := by
  rw [hc.mem_made_iff_mutual hm hid]
  exact and_congr (h.reaches_iff hmp hn hs ht) (h.reaches_iff hn hmp ht hs)

theorem separate_condensation {s t a b : String} (ha : g'.LeafIn s a) (hb : g'.LeafIn t b)
    (hmutual : Mutual edges s t) : a = b := by
  obtain ⟨m, hm, hml, hs, hma⟩ := (leafIn_iff hc).mp ha
  obtain ⟨n, hn, hnl, ht, hnb⟩ := (leafIn_iff hc).mp hb
  by_cases hst : s = t
  · subst hst
    obtain rfl := h.unique m hm n hn hml hnl (hs.trans ht.symm)
    exact Option.some.inj (hma.symm.trans hnb)
  · -- each of two different leaves on a circle is entered by an edge
    have hentered {k : Node} {r u : String} (hk : k ∈ g.nodes) (hkl : k.isGroup = false)
        (hu : k.label = .string u) (hne : r ≠ u) (hr : Reaches edges r u) :
        k ∈ g.pending kind := by
      rcases Relation.ReflTransGen.cases_tail hr with he | ⟨v, _, hstep⟩
      · exact absurd he.symm hne
      · obtain ⟨_, _, _, l, hl, hlu, _⟩ := h.complete _ hstep
        obtain ⟨hl', hll, -⟩ := mem_pending.mp hl
        rwa [h.unique k hk l hl' hkl hll (hu.trans hlu.symm)]
    have hmp := hentered hm hml hs (Ne.symm hst) hmutual.2
    have hnp := hentered hn hnl ht hst hmutual.1
    obtain ⟨c, hcm, hid, hgroup⟩ := hc.exists_made (List.mem_map_of_mem hmp)
    have hid' := (mem_made_iff h hc hcm hmp hnp hs ht hid).mpr hmutual
    rw [hgroup] at hma
    rw [hc.group_of_mem hcm hid'] at hnb
    exact Option.some.inj (hma.symm.trans hnb)

theorem coherent_condensation {r s t b : String} (hrt : (r, t) ∈ edges) (ht : g'.LeafIn t b)
    (hs : g'.LeafIn s b) : Mutual edges t s := by
  obtain ⟨n, hn, hnl, hnt, hnb⟩ := (leafIn_iff hc).mp ht
  obtain ⟨m, hm, hml, hms, hmb⟩ := (leafIn_iff hc).mp hs
  obtain ⟨_, _, _, k, hk, hkt, _⟩ := h.complete _ hrt
  obtain ⟨hk', hkl, -, hknone⟩ := mem_pending.mp hk
  obtain rfl := h.unique k hk' n hn hkl hnl (hkt.trans hnt.symm)
  rcases group_cases h hc hn hnl hnb with ⟨_, c, hcm, hid, rfl⟩ | ⟨_, hsome⟩
  · rcases group_cases h hc hm hml hmb with ⟨hmp, d, hdm, hid', he⟩ | ⟨hb, _⟩
    · obtain rfl := hc.eq_of_id hdm hcm he
      exact (mem_made_iff h hc hdm hk hmp hnt hms hid).mp hid'
    · exact absurd hb (hc.id_not_mem_groupIds hcm)
  · rw [hknone] at hsome
    cases hsome

/-- The leaf at an end of an edge, before and after. -/
theorem leaf_of_id {n' : Node} (hn' : n' ∈ g'.nodes) (hleaf' : n'.isGroup = false) {n : Node}
    (hn : n ∈ g.nodes) (hid : n.id = n'.id) : n' = assignAll made n := by
  rw [hc.nodes_eq] at hn'
  rcases List.mem_append.mp hn' with hm | hm
  · obtain ⟨k, hk, rfl⟩ := List.mem_map.mp hm
    rw [id_assignAll] at hid
    rw [h.eq_of_id hn hk hid]
  · obtain ⟨c, hcm, rfl⟩ := List.mem_map.mp hm
    simp [Node.isGroup, (hc.group c hcm).1] at hleaf'

theorem joined_condensation {a b : String} :
    (∃ e ∈ g'.edges, e.isGroupEdge = true ∧ e.source = a ∧ e.target = b) ↔
      a ≠ b ∧ ∃ s t, (s, t) ∈ edges ∧ g'.LeafIn s a ∧ g'.LeafIn t b := by
  rw [hc.edges_eq]
  constructor
  · rintro ⟨e, he, hg, rfl, rfl⟩
    rcases List.mem_append.mp he with he | he
    · rw [(h.condensable.edge e he).1] at hg
      cases hg
    · obtain ⟨_, hne, d, hd, htouch, hcross⟩ := hc.sound e he
      obtain ⟨⟨s, t⟩, hpair, ⟨m, hm, hml, hs, hmid⟩, n, hn, hnl, ht, hnid⟩ := h.sound d hd htouch
      obtain ⟨m', hm', hmid', hml', hma⟩ := hcross.source
      obtain ⟨n', hn', hnid', hnl', hnb⟩ := hcross.target
      obtain rfl := leaf_of_id h hc hm' hml' hm (hmid.trans hmid'.symm)
      obtain rfl := leaf_of_id h hc hn' hnl' hn (hnid.trans hnid'.symm)
      exact ⟨hne, s, t, hpair, (leafIn_iff hc).mpr ⟨m, hm, hml, hs, hma⟩,
        (leafIn_iff hc).mpr ⟨n, hn, hnl, ht, hnb⟩⟩
  · rintro ⟨hne, s, t, hpair, hs, ht⟩
    obtain ⟨m, hm, hml, hms, hma⟩ := (leafIn_iff hc).mp hs
    obtain ⟨n, hn, hnl, hnt, hnb⟩ := (leafIn_iff hc).mp ht
    obtain ⟨e, he, ⟨k, hk, hkl, hks, hkid⟩, l, hl, hlt, hlid⟩ := h.complete _ hpair
    obtain ⟨hl', hll, -⟩ := mem_pending.mp hl
    obtain rfl := h.unique k hk m hm hkl hml (hks.trans hms.symm)
    obtain rfl := h.unique l hl' n hn hll hnl (hlt.trans hnt.symm)
    have htouch : Touches (g.pendingIds kind) e := .inr (hlid ▸ List.mem_map_of_mem hl)
    have hafter {k : Node} (hk : k ∈ g.nodes) : assignAll made k ∈ g'.nodes := by
      rw [hc.nodes_eq]
      exact List.mem_append_left _ (List.mem_map_of_mem hk)
    have hcross : g'.Crosses e a b := ⟨(h.condensable.edge e he).1,
      ⟨_, hafter hk, (id_assignAll made k).trans hkid, (isGroup_assignAll made k).trans hkl, hma⟩,
      ⟨_, hafter hl', (id_assignAll made l).trans hlid, (isGroup_assignAll made l).trans hll, hnb⟩⟩
    obtain ⟨d, hd, hends⟩ := hc.complete e he htouch a b hcross hne
    exact ⟨d, List.mem_append_right _ hd, (hc.sound d hd).1, hends⟩

/-- A new edge leads into a new group, so it has not the ends of an old edge. -/
theorem nodup_condensation : (g'.edges.map Edge.ends).Nodup := by
  rw [hc.edges_eq, List.map_append, List.nodup_append]
  refine ⟨h.nodup, hc.nodup, ?_⟩
  rintro _ hold _ hnew rfl
  obtain ⟨d, hd, hde⟩ := List.mem_map.mp hold
  obtain ⟨e, he, rfl⟩ := List.mem_map.mp hnew
  obtain ⟨-, -, c, hcold, htouch, hcross⟩ := hc.sound e he
  obtain ⟨pair, hpair, -, k, hk, hkl, hkt, hkid⟩ := h.sound c hcold htouch
  obtain ⟨-, -, -, n, hn, hnt, -⟩ := h.complete pair hpair
  obtain ⟨hn', hnl, -, hnone⟩ := mem_pending.mp hn
  obtain rfl := h.unique n hn' k hk hnl hkl (hnt.trans hkt.symm)
  obtain ⟨n', hm', hid', hml', hgroup⟩ := hcross.target
  obtain rfl := leaf_of_id h hc hm' hml' hk (hkid.trans hid'.symm)
  rcases group_cases h hc hk hkl hgroup with ⟨-, m, hm, -, he⟩ | ⟨-, hsome⟩
  · refine (List.nodup_append.mp hc.nodeIds_nodup).2.2 _ (h.condensable.tidy.ends d hd).2 _
      (List.mem_map_of_mem hm) ?_
    exact (Prod.mk.inj hde).2.trans he.symm
  · rw [hnone] at hsome
    cases hsome

/-- New groups have the leaves of their components, which are not empty. -/
theorem inhabited_condensation {b : String} (hb : b ∈ g'.groupIds) :
    ∃ label, g'.LeafIn label b := by
  rw [groupIds_condensation h hc] at hb
  rcases List.mem_append.mp hb with hb | hb
  · obtain ⟨label, n, hn, hleaf, hlabel, hsome⟩ := h.inhabited b hb
    refine ⟨label, (leafIn_iff hc).mpr ⟨n, hn, hleaf, hlabel, ?_⟩⟩
    rcases exists_group_of_leaf h hc hn hleaf with ⟨_, hnone, _⟩ | ⟨a, _, _, hkeep⟩
    · simp [hnone] at hsome
    · rw [hkeep, hsome]
  · obtain ⟨c, hm, rfl⟩ := List.mem_map.mp hb
    obtain ⟨id, hid⟩ := List.exists_mem_of_ne_nil c.1
      (Digraph.ne_nil_of_mem_components (hc.mem_components hm))
    obtain ⟨n, hn, rfl⟩ := hc.exists_pending hm hid
    obtain ⟨hn', hleaf, -⟩ := mem_pending.mp hn
    obtain ⟨label, _, hlabel⟩ := h.label n hn' hleaf
    exact ⟨label, (leafIn_iff hc).mpr ⟨n, hn', hleaf, hlabel, hc.group_of_mem hm hid⟩⟩

/-- Condensing a graph that shows edges gives a condensed graph. -/
theorem condensed_condensation : g'.Condensed leaves edges := by
  have hnodes {n' : Node} (hn' : n' ∈ g'.nodes) :
      (∃ n ∈ g.nodes, assignAll made n = n') ∨ ∃ c ∈ made, c.2 = n' := by
    rw [hc.nodes_eq] at hn'
    exact (List.mem_append.mp hn').imp List.mem_map.mp List.mem_map.mp
  have hgroup {n : Node} (hn : n ∈ g.nodes) (hleaf : n.isGroup = false) :
      ∃ b ∈ g'.groupIds, (assignAll made n).group = some b := by
    rw [groupIds_condensation h hc]
    rcases exists_group_of_leaf h hc hn hleaf with
      ⟨_, _, c, hm, _, hsome⟩ | ⟨a, ha, hsome, hkeep⟩
    · exact ⟨c.2.id, List.mem_append_right _ (List.mem_map_of_mem hm), hsome⟩
    · exact ⟨a, List.mem_append_left _ ha, hkeep.symm ▸ hsome⟩
  refine ⟨hc.tidy, ?_, ?_, ?_, ?_, fun b hb => inhabited_condensation h hc hb,
    separate_condensation h hc, coherent_condensation h hc, joined_condensation h hc,
    nodup_condensation h hc⟩
  · intro n' hn' hg
    rcases hnodes hn' with ⟨n, hn, rfl⟩ | ⟨c, hm, rfl⟩
    · rw [isGroup_assignAll] at hg
      rw [assignAll_of_isGroup h hc hn hg]
      exact h.free n hn hg
    · exact (hc.group c hm).2.1
  · intro n' hn' hleaf
    rcases hnodes hn' with ⟨n, hn, rfl⟩ | ⟨c, hm, rfl⟩
    · rw [isGroup_assignAll] at hleaf
      obtain ⟨label, hl, hlabel⟩ := h.label n hn hleaf
      exact ⟨label, hl, (label_assignAll made n).trans hlabel, hgroup hn hleaf⟩
    · simp [Node.isGroup, (hc.group c hm).1] at hleaf
  · intro label hl
    obtain ⟨n, hn, hleaf, hlabel⟩ := h.exists_leaf label hl
    obtain ⟨b, _, hb⟩ := hgroup hn hleaf
    exact ⟨b, (leafIn_iff hc).mpr ⟨n, hn, hleaf, hlabel, hb⟩⟩
  · intro m' hm' n' hn' hml hnl he
    rcases hnodes hm' with ⟨m, hm, rfl⟩ | ⟨c, hcm, rfl⟩
    · rcases hnodes hn' with ⟨n, hn, rfl⟩ | ⟨d, hdm, rfl⟩
      · rw [isGroup_assignAll] at hml hnl
        rw [label_assignAll, label_assignAll] at he
        rw [h.unique m hm n hn hml hnl he]
      · simp [Node.isGroup, (hc.group d hdm).1] at hnl
    · simp [Node.isGroup, (hc.group c hcm).1] at hml

/-- Groups that were there before keep their leaves. -/
theorem leafIn_old {label b : String} (hb : b ∈ g.groupIds) :
    g'.LeafIn label b ↔ g.LeafIn label b := by
  rw [leafIn_iff hc, LeafIn]
  refine exists_congr fun n => and_congr_right fun hn => and_congr_right fun hleaf =>
    and_congr_right fun _ => ?_
  constructor
  · intro hgroup
    rcases group_cases h hc hn hleaf hgroup with ⟨_, c, hm, _, rfl⟩ | ⟨_, hsome⟩
    · exact absurd hb (hc.id_not_mem_groupIds hm)
    · exact hsome
  · intro hsome
    rcases exists_group_of_leaf h hc hn hleaf with
      ⟨_, hnone, _⟩ | ⟨_, _, _, hkeep⟩
    · simp [hnone] at hsome
    · rw [hkeep, hsome]

/-- The leaves of a new group are those of its component. -/
theorem exists_pending_of_made {c : List String × Node} (hm : c ∈ made) {label : String}
    (hl : g'.LeafIn label c.2.id) : ∃ n ∈ g.pending kind, n.label = .string label ∧ n.id ∈ c.1 := by
  obtain ⟨n, hn, hleaf, hlabel, hgroup⟩ := (leafIn_iff hc).mp hl
  rcases group_cases h hc hn hleaf hgroup with ⟨hp, d, hdm, hid, he⟩ | ⟨hb, _⟩
  · obtain rfl := hc.eq_of_id hdm hm he
    exact ⟨n, hp, hlabel, hid⟩
  · exact absurd hb (hc.id_not_mem_groupIds hm)

/-- The labels of a component are those of the leaves in its group. -/
theorem mem_labels_iff {c : List String × Node} (hm : c ∈ made) {label : String} :
    label ∈ c.1.map g.labelText ↔ g'.LeafIn label c.2.id := by
  constructor
  · intro hl
    obtain ⟨id, hid, rfl⟩ := List.mem_map.mp hl
    obtain ⟨n, hn, rfl⟩ := hc.exists_pending hm hid
    obtain ⟨hn', hleaf, -⟩ := mem_pending.mp hn
    obtain ⟨label, _, hlabel⟩ := h.label n hn' hleaf
    refine (leafIn_iff hc).mpr
      ⟨n, hn', hleaf, ?_, hc.group_of_mem hm hid⟩
    rw [hlabel, labelText_eq h.condensable.tidy hn', hlabel, Json.text_string]
  · intro hl
    obtain ⟨n, hp, hlabel, hid⟩ := exists_pending_of_made h hc hm hl
    refine List.mem_map.mpr ⟨n.id, hid, ?_⟩
    rw [labelText_eq h.condensable.tidy (mem_pending.mp hp).1, hlabel, Json.text_string]

theorem nodup_labels {c : List String × Node} (hm : c ∈ made) : (c.1.map g.labelText).Nodup := by
  have hmem : c.1 ∈ Digraph.components (g.linksWithin (g.pendingIds kind)) (g.pendingIds kind) := by
    rw [← hc.components]
    exact List.mem_map_of_mem hm
  refine List.Nodup.map_on (fun a ha b hb he => ?_) (Digraph.nodup_of_mem_components hmem)
  obtain ⟨m, hmp, rfl⟩ := hc.exists_pending hm ha
  obtain ⟨n, hnp, rfl⟩ := hc.exists_pending hm hb
  obtain ⟨hm', hml, -⟩ := mem_pending.mp hmp
  obtain ⟨hn', hnl, -⟩ := mem_pending.mp hnp
  obtain ⟨s, _, hs⟩ := h.label m hm' hml
  obtain ⟨t, _, ht⟩ := h.label n hn' hnl
  rw [labelText_eq h.condensable.tidy hm', labelText_eq h.condensable.tidy hn', hs, ht,
    Json.text_string, Json.text_string] at he
  rw [h.unique m hm' n hn' hml hnl (by rw [hs, ht, he])]

/-- The leaves of a new group have ways to each other. -/
theorem mutual_of_made {c : List String × Node} (hm : c ∈ made) {s t : String}
    (hs : g'.LeafIn s c.2.id) (ht : g'.LeafIn t c.2.id) : Mutual edges s t := by
  obtain ⟨m, hmp, hml, hmid⟩ := exists_pending_of_made h hc hm hs
  obtain ⟨n, hnp, hnl, hnid⟩ := exists_pending_of_made h hc hm ht
  exact (mem_made_iff h hc hm hmp hnp hml hnl hmid).mp hnid

end Condensation

/-- What condensing adds to a graph: groups behind the old ones, each with the title of its
leaves; the old groups keep their leaves. -/
structure Extends (g g' : Graph) (kind : NodeKind) (edges : List (String × String)) : Prop where
  groups : ∃ added, g'.groups = g.groups ++ added ∧ ∀ n ∈ added,
    (∃ labels : List String, n.label = .string (title kind (labels.map Naming.innerName)) ∧
      labels.Nodup ∧ ∀ label, label ∈ labels ↔ g'.LeafIn label n.id) ∧
    ∀ s t, g'.LeafIn s n.id → g'.LeafIn t n.id → Mutual edges s t
  kept : ∀ {label b}, b ∈ g.groupIds → (g'.LeafIn label b ↔ g.LeafIn label b)

/-- A graph that shows edges can be condensed. -/
theorem Shows.condense (h : g.Shows kind leaves edges) :
    ∃ g', (Graph.condense kind).result g = .ok g' ∧ g'.Condensed leaves edges ∧
      g.Extends g' kind edges := by
  obtain ⟨groups, g', made, added, hrun, hc⟩ := condense_spec h.condensable
  refine ⟨g', by rw [Edit.result, hrun], condensed_condensation h hc, ?_,
    fun hb => leafIn_old h hc hb⟩
  refine ⟨made.map Prod.snd, groups_condensation h hc, fun n hn => ?_⟩
  obtain ⟨c, hm, rfl⟩ := List.mem_map.mp hn
  exact ⟨⟨c.1.map g.labelText, (hc.group c hm).2.2, nodup_labels h hc hm,
      fun label => mem_labels_iff h hc hm⟩,
    fun s t => mutual_of_made h hc hm⟩

end Lookahead.Graph
