import Lookahead.Proofs.Graph.Circles
import Lookahead.Proofs.Graph.FollowStep

/-!
# Graphs of any grammar

Whatever the symbols of a grammar are called and whatever its graph of the first step looks
like: if the graphs of the steps are built at all, they are ripe before their leaves are
grouped. In the first step all leaves are to be grouped. In the follow step those of the
follow sets are, and every edge leads into one of these or joins carried groups. So the
groups are joined without circles, and no group edge leads into a carried group.
-/

namespace Lookahead.Graph

open Naming (carried followLeaf endLeaf component)

variable {g g' : Graph} {kind : NodeKind}

/-! ### Linking -/

theorem findNode?_eq_some {label : String} {n : Node}
    (h : g.findNode? (.string label) (some kind) = some n) :
    n ∈ g.nodes ∧ n.kind = kind ∧ n.label = .string label := by
  have hn := List.find?_some h
  simp only [Option.all_some, Bool.and_eq_true, decide_eq_true_eq, label_same_iff] at hn
  exact ⟨List.mem_of_find?_eq_some h, hn.2, hn.1⟩

/-- What edges between found nodes keep holds after linking. -/
theorem link_induction {motive : Graph → Prop} {seen : List String}
    {pairs : List (String × String)} (h : link kind seen pairs g = .ok g') (base : motive g)
    (step : ∀ {g : Graph} {pair : String × String} {a b : Node}, pair ∈ pairs →
      g.findNode? (.string pair.1) (some kind) = some a →
      g.findNode? (.string pair.2) (some kind) = some b → motive g →
      motive (g.appendEdge a.id b.id)) : motive g' := by
  fun_induction link kind seen pairs g with
  | case1 => exact Except.ok.inj h ▸ base
  | case2 _ _ _ _ _ _ _ ih =>
    exact ih h base fun hp => step (List.mem_cons_of_mem _ hp)
  | case3 _ _ _ _ _ _ _ a b hb ha ih =>
    exact ih h (step (List.mem_cons_self ..) ha hb base) fun hp => step (List.mem_cons_of_mem _ hp)
  | case4 => cases h

/-! ### The first step -/

/-- A graph of leaves of one kind that lie in no group. -/
structure Bare (g : Graph) (kind : NodeKind) : Prop where
  tidy : g.Tidy
  node : ∀ n ∈ g.nodes, n.kind = kind ∧ n.group = none ∧ ∃ label : String, n.label = .string label
  edge : ∀ e ∈ g.edges, e.isGroupEdge = false

namespace Bare

variable (h : g.Bare kind) (hk : kind ≠ .group)
include h hk

theorem mem_pendingIds {id : String} (hid : id ∈ g.nodeIds) : id ∈ g.pendingIds kind := by
  obtain ⟨n, hn, rfl⟩ := List.mem_map.mp hid
  obtain ⟨hkind, hnone, -⟩ := h.node n hn
  exact List.mem_map_of_mem (mem_pending.mpr ⟨hn, by simp [Node.isGroup, hkind, hk], hkind, hnone⟩)

theorem ripe : g.Ripe kind := by
  refine ⟨h.tidy, fun n hn _ => ?_, fun e he => ⟨h.edge e he, fun _ => ?_⟩⟩
  · obtain ⟨hkind, hnone, hlabel⟩ := h.node n hn
    exact ⟨hlabel, .inl ⟨hkind, hnone⟩⟩
  · obtain ⟨hs, ht⟩ := h.tidy.ends e he
    refine ⟨?_, h.mem_pendingIds hk ht⟩
    obtain ⟨n, hn, hid⟩ := List.mem_map.mp hs
    obtain ⟨hkind, -, hlabel⟩ := h.node n hn
    exact ⟨n, hn, hid, by simp [Node.isGroup, hkind, hk], hlabel⟩

end Bare

theorem exists_bare_of_first {grammar : Grammar} (h : first grammar = .ok g') :
    ∃ g, g.Bare .first ∧ (condense .first).result g = .ok g' := by
  simp only [first, Outcome.bind_eq_ok] at h
  obtain ⟨g, hlink, hrun⟩ := h
  refine ⟨g, ?_, hrun⟩
  obtain ⟨nodes, hnodes, hleaves, hedges, htidy⟩ :=
    appendLeaves_spec (tidy_empty "First") .first (firstLeaves grammar)
  rw [List.nil_append] at hnodes
  refine link_induction (motive := fun g => g.Bare .first) hlink
    ⟨htidy, fun n hn => ?_, by simp [hedges]⟩
    fun {g _ a b} _ ha hb hg => ⟨?_, hg.node, fun e he => ?_⟩
  · rw [hnodes] at hn
    refine ⟨hleaves.kind_eq n hn, hleaves.group_eq n hn, ?_⟩
    have hlabel : n.label ∈ nodes.map Node.label := List.mem_map_of_mem hn
    rw [hleaves.labels_eq] at hlabel
    obtain ⟨label, -, he⟩ := List.mem_map.mp hlabel
    exact ⟨label, he.symm⟩
  · exact hg.tidy.appendEdge (List.mem_map_of_mem (findNode?_eq_some ha).1)
      (List.mem_map_of_mem (findNode?_eq_some hb).1) false
  · rcases List.mem_append.mp he with he | he
    · exact hg.edge e he
    · rw [List.mem_singleton.mp he]

/-! ### The follow step -/

/-- What a node of the follow step is: a carried group, a carried leaf in such a group, or a leaf
of a follow set in no group. -/
inductive Role (groups : List String) (n : Node) : Prop
  | group (l : String) (kind : n.kind = .group) (label : n.label = .string (carried l))
  | carried (l : String) (kind : n.kind = .follow) (label : n.label = .string (carried l))
      (group : ∃ b ∈ groups, n.group = some b)
  | follow (l : String) (kind : n.kind = .follow) (label : n.label = .string (followLeaf l))
      (group : n.group = none)

/-- The graph of the follow step before its leaves are grouped. -/
structure Laid (g : Graph) : Prop where
  tidy : g.Tidy
  node : ∀ n ∈ g.nodes, Role g.groupIds n
  edge : ∀ e ∈ g.edges, e.isGroupEdge = false ∧
    (e.source ∈ g.groupIds ∧ e.target ∈ g.groupIds ∨
      (∃ m ∈ g.nodes, m.kind = .follow ∧ m.id = e.source) ∧
        ∃ n ∈ g.nodes, n.kind = .follow ∧ (∃ l, n.label = .string (followLeaf l)) ∧
          n.id = e.target)

theorem groupIds_subset_appendNode {label : Json} {group : Option String} {id : String}
    (h : id ∈ g.groupIds) : id ∈ (g.appendNode kind label group).groupIds := by
  obtain ⟨n, hn, hgroup, hid⟩ := mem_groupIds.mp h
  exact mem_groupIds.mpr ⟨n, List.mem_append_left _ hn, hgroup, hid⟩

theorem mem_groupIds_appendNode (g : Graph) (label : Json) :
    g.nodeId g.nextNode ∈ (g.appendNode .group label).groupIds :=
  mem_groupIds.mpr ⟨_, List.mem_append_right _ (List.mem_singleton.mpr rfl), rfl, rfl⟩

theorem Laid.appendNode (h : g.Laid) {kind : NodeKind} {label : Json} {group : Option String}
    (hrole : Role g.groupIds ⟨g.nodeId g.nextNode, kind, label, group⟩) :
    (g.appendNode kind label group).Laid := by
  have hkeep {n : Node} (hn : Role g.groupIds n) :
      Role (g.appendNode kind label group).groupIds n := by
    cases hn with
    | group l hkind hlabel => exact .group l hkind hlabel
    | carried l hkind hlabel hgroup =>
      obtain ⟨b, hb, hsome⟩ := hgroup
      exact .carried l hkind hlabel ⟨b, groupIds_subset_appendNode hb, hsome⟩
    | follow l hkind hlabel hgroup => exact .follow l hkind hlabel hgroup
  refine ⟨h.tidy.appendNode .., fun n hn => ?_, fun e he => ?_⟩
  · rcases List.mem_append.mp hn with hn | hn
    · exact hkeep (h.node n hn)
    · exact hkeep (List.mem_singleton.mp hn ▸ hrole)
  · refine (h.edge e he).imp_right (Or.imp ?_ ?_)
    · exact And.imp groupIds_subset_appendNode groupIds_subset_appendNode
    · rintro ⟨⟨m, hm, hs⟩, n, hn, ht⟩
      exact ⟨⟨m, List.mem_append_left _ hm, hs⟩, n, List.mem_append_left _ hn, ht⟩

/-- An edge between groups. -/
theorem Laid.appendEdge_between (h : g.Laid) {a b : String} (ha : a ∈ g.groupIds)
    (hb : b ∈ g.groupIds) : (g.appendEdge a b).Laid := by
  refine ⟨h.tidy.appendEdge (mem_nodeIds_of_mem_groupIds ha) (mem_nodeIds_of_mem_groupIds hb) false,
    h.node, fun e he => ?_⟩
  rcases List.mem_append.mp he with he | he
  · exact h.edge e he
  · rw [List.mem_singleton.mp he]
    exact ⟨rfl, .inl ⟨ha, hb⟩⟩

/-- An edge into a leaf of a follow set. -/
theorem Laid.appendEdge_into (h : g.Laid) {m n : Node} (hm : m ∈ g.nodes) (hmk : m.kind = .follow)
    (hn : n ∈ g.nodes) (hnk : n.kind = .follow) {l : String}
    (hl : n.label = .string (followLeaf l)) : (g.appendEdge m.id n.id).Laid := by
  refine ⟨h.tidy.appendEdge (List.mem_map_of_mem hm) (List.mem_map_of_mem hn) false, h.node,
    fun e he => ?_⟩
  rcases List.mem_append.mp he with he | he
  · exact h.edge e he
  · rw [List.mem_singleton.mp he]
    exact ⟨rfl, .inr ⟨⟨m, hm, hmk, rfl⟩, n, hn, hnk, ⟨l, hl⟩, rfl⟩⟩

theorem Into.appendNode {ids : Assoc String String} (h : Into ids g) {kind : NodeKind}
    {label : Json} {group : Option String} : Into ids (g.appendNode kind label group) :=
  fun a b hb => groupIds_subset_appendNode (h a b hb)

theorem laid_carryGroups (old : List Node) (phase : String) :
    (carryGroups old { phase }).2.Laid ∧
      Into (carryGroups old { phase }).1 (carryGroups old { phase }).2 := by
  refine List.foldlRecOn old _ (motive := fun c : Assoc String String × Graph =>
    c.2.Laid ∧ Into c.1 c.2) ?_ ?_
  · exact ⟨⟨tidy_empty phase, by simp, by simp⟩, fun _ _ hb => by simp [Assoc.get?_empty] at hb⟩
  · rintro ⟨ids, g⟩ ⟨h, hids⟩ n -
    refine ⟨h.appendNode (.group _ rfl rfl), fun a b hb => ?_⟩
    rw [Assoc.get?_put] at hb
    split at hb
    · exact Option.some.inj hb ▸ mem_groupIds_appendNode g _
    · exact groupIds_subset_appendNode (hids a b hb)

theorem Laid.carryLeaves {ids : Assoc String String} {old : List Node} (h : g.Laid)
    (hids : Into ids g) (hrun : Graph.carryLeaves ids old g = .ok g') : g'.Laid ∧ Into ids g' := by
  induction old generalizing g with
  | nil => exact Except.ok.inj hrun ▸ ⟨h, hids⟩
  | cons n old ih =>
    rw [Graph.carryLeaves] at hrun
    split at hrun
    · cases hrun
    · rename_i group hgroup
      obtain ⟨a, -, ha⟩ := Option.bind_eq_some_iff.mp hgroup
      have hmem := hids a group ha
      exact ih (h.appendNode (.carried _ rfl rfl ⟨group, hmem, rfl⟩)) hids.appendNode hrun

theorem Laid.appendLeaves {ids : Assoc String String} (h : g.Laid) (hids : Into ids g)
    {labels : List String} (hlabels : ∀ label ∈ labels, ∃ l, label = followLeaf l) :
    (Graph.appendLeaves .follow labels g).Laid ∧ Into ids (Graph.appendLeaves .follow labels g) ∧
      g.nodes ⊆ (Graph.appendLeaves .follow labels g).nodes := by
  induction labels generalizing g with
  | nil => exact ⟨h, hids, List.Subset.refl _⟩
  | cons label labels ih =>
    obtain ⟨⟨l, rfl⟩, hrest⟩ := List.forall_mem_cons.mp hlabels
    obtain ⟨hlaid, hids', hsub⟩ := ih (h.appendNode (.follow l rfl rfl rfl)) hids.appendNode hrest
    exact ⟨hlaid, hids', fun n hn => hsub (List.mem_append_left _ hn)⟩

theorem Laid.foldl_appendEdge (h : g.Laid) {pairs : List (String × String)}
    (hpairs : ∀ pair ∈ pairs, pair.1 ∈ g.groupIds ∧ pair.2 ∈ g.groupIds) :
    (pairs.foldl (fun g e => g.appendEdge e.1 e.2) g).Laid := by
  induction pairs generalizing g with
  | nil => exact h
  | cons pair pairs ih =>
    obtain ⟨⟨ha, hb⟩, hrest⟩ := List.forall_mem_cons.mp hpairs
    exact ih (h.appendEdge_between ha hb) hrest

/-- Every edge that the productions ask for leads from a leaf into one of a follow set. -/
theorem Laid.link (h : g.Laid) {grammar : Grammar} {seen : List String}
    (hrun : Graph.link .follow seen (followLinks grammar) g = .ok g') : g'.Laid := by
  refine link_induction (motive := Laid) hrun h fun {g pair a b} hpair ha hb hg => ?_
  obtain ⟨p, -, -, hlink⟩ := mem_followLinks.mp hpair
  obtain ⟨_, x, _, -, -, hlink⟩ := mem_followLinksOf.mp hlink
  have htarget : pair.2 = followLeaf x.name := by
    rcases mem_contributions.mp hlink with ⟨y, -, rfl⟩ | ⟨-, rfl⟩ <;> rfl
  obtain ⟨hma, hka, -⟩ := findNode?_eq_some ha
  obtain ⟨hmb, hkb, hlb⟩ := findNode?_eq_some hb
  exact hg.appendEdge_into hma hka hmb hkb (htarget ▸ hlb)

theorem exists_laid_of_follow {grammar : Grammar} {first : Graph}
    (h : follow grammar first = .ok g') : ∃ g, g.Laid ∧ (condense .follow).result g = .ok g' := by
  obtain ⟨hlaid₁, hids₁⟩ := laid_carryGroups first.groups "Follow"
  generalize hcarry : carryGroups first.groups { phase := "Follow" } = carry at hlaid₁ hids₁
  obtain ⟨ids, g₁⟩ := carry
  simp only [follow, hcarry, Outcome.bind_eq_ok] at h
  obtain ⟨g₂, hleaves, h⟩ := h
  obtain ⟨hlaid₂, hids₂⟩ := hlaid₁.carryLeaves hids₁ hleaves
  let g₃ := g₂.appendNode .group (.string (carried (component endLeaf)))
  let g₄ := g₃.appendNode .follow (.string (carried endLeaf)) (some (g₂.nodeId g₂.nextNode))
  have hlaid₃ : g₃.Laid := hlaid₂.appendNode (.group _ rfl rfl)
  have hlaid₄ : g₄.Laid := hlaid₃.appendNode
    (.carried _ rfl rfl ⟨_, mem_groupIds_appendNode g₂ _, rfl⟩)
  let labels := grammar.nonterminalList.map fun n => followLeaf n.name
  have hlabels : ∀ label ∈ labels, ∃ l, label = followLeaf l := fun label hl => by
    obtain ⟨n, -, rfl⟩ := List.mem_map.mp hl
    exact ⟨n.name, rfl⟩
  obtain ⟨hlaid₅, hids₅, hsub⟩ := hlaid₄.appendLeaves hids₂.appendNode.appendNode hlabels
  have hend : ⟨g₃.nodeId g₃.nextNode, .follow, .string (carried endLeaf),
      some (g₂.nodeId g₂.nextNode)⟩ ∈ g₄.nodes :=
    List.mem_append_right _ (List.mem_singleton.mpr rfl)
  split at h
  · exact (Outcome.throw_eq_ok.mp h).elim
  · rename_i start hstart
    obtain ⟨hstartMem, hstartKind, hstartLabel⟩ := findNode?_eq_some hstart
    obtain ⟨g, hlink, hrun⟩ := Outcome.bind_eq_ok.mp h
    have hlaid₆ := hlaid₅.appendEdge_into (hsub hend) rfl hstartMem hstartKind hstartLabel
    have hcarried := hlaid₆.foldl_appendEdge fun _ (hpair : _ ∈ carriedEdges ids first) =>
      hids₅.ends_mem_groupIds hpair
    exact ⟨g, hcarried.link hlink, hrun⟩

/-- The leaves of the follow sets are those to be grouped. -/
theorem Laid.mem_pendingIds_iff (h : g.Laid) {n : Node} (hn : n ∈ g.leaves) :
    n.id ∈ g.pendingIds .follow ↔ ∃ l, n.label = .string (followLeaf l) := by
  obtain ⟨hn, hleaf⟩ := mem_leaves.mp hn
  constructor
  · intro hid
    obtain ⟨m, hm, hid⟩ := List.mem_map.mp hid
    obtain ⟨hm, -, -, hnone⟩ := mem_pending.mp hm
    obtain rfl := List.inj_on_of_nodup_map h.tidy.nodup hm hn hid
    cases h.node m hm with
    | group _ hkind => simp [Node.isGroup, hkind] at hleaf
    | carried _ _ _ hgroup =>
      obtain ⟨b, -, hsome⟩ := hgroup
      rw [hsome] at hnone
      cases hnone
    | follow l _ hlabel => exact ⟨l, hlabel⟩
  · rintro ⟨l, hl⟩
    have hne (l' : String) : n.label ≠ .string (carried l') := by
      rw [hl, ne_eq, Json.string_inj]
      exact fun he => Naming.carried_ne_followLeaf _ _ he.symm
    cases h.node n hn with
    | group l' _ hlabel => exact absurd hlabel (hne l')
    | carried l' _ hlabel => exact absurd hlabel (hne l')
    | follow _ hkind _ hgroup =>
      exact List.mem_map_of_mem (mem_pending.mpr ⟨hn, hleaf, hkind, hgroup⟩)

theorem Laid.ripe (h : g.Laid) : g.Ripe .follow := by
  refine ⟨h.tidy, fun n hn hleaf => ?_, fun e he => ⟨(h.edge e he).1, fun ht => ?_⟩⟩
  · cases h.node n hn with
    | group _ hkind => simp [Node.isGroup, hkind] at hleaf
    | carried l _ hlabel hgroup => exact ⟨⟨_, hlabel⟩, .inr hgroup⟩
    | follow l hkind hlabel hgroup => exact ⟨⟨_, hlabel⟩, .inl ⟨hkind, hgroup⟩⟩
  · have hleaf {n : Node} (hn : n ∈ g.nodes) (hkind : n.kind = .follow) : n ∈ g.leaves :=
      mem_leaves.mpr ⟨hn, by simp [Node.isGroup, hkind]⟩
    rcases (h.edge e he).2 with ⟨hs, ht'⟩ | ⟨⟨m, hm, hmk, hs⟩, n, hn, hnk, hlabel, ht'⟩
    · -- an edge between groups touches no leaf
      exact (ht.elim (h.tidy.not_mem_groupIds_of_pending · hs)
        (h.tidy.not_mem_groupIds_of_pending · ht')).elim
    · refine ⟨⟨m, hm, hs, (mem_leaves.mp (hleaf hm hmk)).2, ?_⟩,
        ht' ▸ (h.mem_pendingIds_iff (hleaf hn hnk)).mpr hlabel⟩
      cases h.node m hm with
      | group l _ hlabel | carried l _ hlabel | follow l _ hlabel => exact ⟨_, hlabel⟩

/-! ### Grouped graphs -/

theorem acyclic_of_first {grammar : Grammar} (h : first grammar = .ok g) :
    g.nodeIds.Nodup ∧ g.Acyclic := by
  obtain ⟨g₀, hbare, hrun⟩ := exists_bare_of_first h
  have hripe := hbare.ripe (by decide)
  obtain ⟨made, added, hc⟩ := hripe.exists_condensation hrun
  exact ⟨hc.tidy.nodup, hripe.acyclic hc⟩

/-- The groups of the follow step are joined without circles, and nothing leads into the groups that
were carried over. -/
theorem acyclic_of_follow {grammar : Grammar} {first : Graph}
    (h : follow grammar first = .ok g) : g.nodeIds.Nodup ∧ g.Acyclic ∧
      ∀ n ∈ g.groups, ∀ l, n.label = .string (carried l) → ∀ a, ¬g.Joined a n.id := by
  obtain ⟨g₀, hlaid, hrun⟩ := exists_laid_of_follow h
  obtain ⟨made, added, hc⟩ := hlaid.ripe.exists_condensation hrun
  refine ⟨hc.tidy.nodup, hlaid.ripe.acyclic hc, fun n hn l hl a hj => ?_⟩
  refine hlaid.ripe.not_mem_groupIds_of_joined hc hj (mem_groupIds.mpr ?_)
  obtain ⟨hn, hgroup⟩ := List.mem_filter.mp hn
  rw [hc.nodes_eq] at hn
  rcases List.mem_append.mp hn with hn | hn
  · obtain ⟨m, hm, rfl⟩ := List.mem_map.mp hn
    exact ⟨m, hm, (isGroup_assignAll made m).symm.trans hgroup, (id_assignAll made m).symm⟩
  · -- a new group has the title of a follow set
    obtain ⟨c, hcm, rfl⟩ := List.mem_map.mp hn
    rw [(hc.group c hcm).2.2, Json.string_inj] at hl
    exact absurd hl.symm (Naming.carried_ne_followLeaf _ _)

theorem mem_groups_of_lastGroup? {name : String} {n : Node} (h : g.lastGroup? name = some n) :
    n ∈ g.groups ∧ n.label = .string name := by
  refine ⟨List.mem_reverse.mp (List.mem_of_find?_eq_some h), ?_⟩
  exact label_same_iff.mp (List.find?_some (p := fun n : Node => n.label.same (.string name)) h)

theorem carriedGroup_of_mem_carriedSeeds {sets : Assoc String NameSet} {old : List Node}
    {entries : List (String × NameSet)} (h : carriedSeeds sets g old = .ok entries) :
    ∀ e ∈ entries, ∃ n ∈ g.groups, n.id = e.1 ∧ ∃ l, n.label = .string (carried l) := by
  induction old generalizing entries with
  | nil => exact Except.ok.inj h ▸ by simp
  | cons n old ih =>
    rw [carriedSeeds] at h
    split at h
    · cases h
    · rename_i target hlast
      obtain ⟨more, hmore, h⟩ := Outcome.bind_eq_ok.mp h
      obtain rfl := Outcome.pure_eq_ok.mp h
      obtain ⟨hmem, hlabel⟩ := mem_groups_of_lastGroup? hlast
      exact List.forall_mem_cons.mpr ⟨⟨target, hmem, rfl, _, hlabel⟩, ih hmore⟩

theorem mem_keys_of_mem_keys_ofList {α : Type} {entries : List (String × α)} {k : String}
    (h : k ∈ (Assoc.ofList entries).keys) : ∃ e ∈ entries, e.1 = k := by
  by_contra hno
  have hno : ∀ e ∈ entries, e.1 ≠ k := fun e he hk => hno ⟨e, he, hk⟩
  rw [← Assoc.isSome_get?_iff, Assoc.ofList, Assoc.get?_foldl_put_of_not_mem hno] at h
  cases h

/-- The groups of the follow step that are active from the beginning are carried ones. -/
theorem carriedGroup_of_mem_active {first : Graph} {sets : Assoc String NameSet} {start : FollowSeeds}
    (h : followSeeds first sets g = .ok start) : ∀ id ∈ start.active,
      ∃ n ∈ g.groups, n.id = id ∧ ∃ l, n.label = .string (carried l) := by
  simp only [followSeeds, Outcome.bind_eq_ok, Outcome.guard_eq_ok] at h
  obtain ⟨-, entries, hentries, h⟩ := h
  split at h
  · cases h
  · rename_i target hlast
    obtain rfl := Outcome.pure_eq_ok.mp h
    intro id hid
    have hkey := (List.mem_filter.mp hid).1
    rw [Assoc.keys_put] at hkey
    have hcases : id ∈ (Assoc.ofList entries).keys ∨ id = target.id := by
      split at hkey
      · exact .inl hkey
      · simpa using hkey
    rcases hcases with hkey | rfl
    · obtain ⟨e, he, rfl⟩ := mem_keys_of_mem_keys_ofList hkey
      exact carriedGroup_of_mem_carriedSeeds hentries e he
    · obtain ⟨hmem, hlabel⟩ := mem_groups_of_lastGroup? hlast
      exact ⟨target, hmem, rfl, _, hlabel⟩

end Lookahead.Graph
