import Lookahead.Proofs.Graph.FollowStep

/-!
# Labels and names tell apart

In the graph of every step no two nodes have the same label and no two edges the same name.
A label is no arrow and has none in it, so the name of an edge tells the labels of its ends;
a link is made once, and so is the edge from one group to another. Symbols may be named with
the characters that labels are glued together with: this is where that could matter.
-/

namespace Lookahead

open Naming (Short Arrowless carried followLeaf endLeaf component)

namespace Graph

variable {grammar : Grammar} {first g : Graph}

/-- Nodes are told apart by their labels, and edges by the labels of their ends. -/
structure Distinct (g : Graph) : Prop where
  tidy : g.Tidy
  group : ∀ n ∈ g.nodes, ∀ b, n.group = some b → b ∈ g.groupIds
  label : ∀ n ∈ g.nodes, ∃ label : String, n.label = .string label ∧ Arrowless label
  unique : ∀ m ∈ g.nodes, ∀ n ∈ g.nodes, m.label = n.label → m = n
  nodup : (g.edges.map Edge.ends).Nodup

theorem Distinct.labelText_eq (h : g.Distinct) {n : Node} (hn : n ∈ g.nodes) :
    n.label = .string (g.labelText n.id) ∧ Arrowless (g.labelText n.id) := by
  obtain ⟨label, hlabel, harrow⟩ := h.label n hn
  rw [Graph.labelText_eq h.tidy hn, hlabel, Json.text_string]
  exact ⟨rfl, harrow⟩

theorem Distinct.nodup_edgeNames (h : g.Distinct) : g.edgeNames.Nodup := by
  -- a node is told by the text of its label
  have hend {a b : String} (ha : a ∈ g.nodeIds) (hb : b ∈ g.nodeIds)
      (he : g.labelText a = g.labelText b) : a = b := by
    obtain ⟨m, hm, rfl⟩ := List.mem_map.mp ha
    obtain ⟨n, hn, rfl⟩ := List.mem_map.mp hb
    rw [h.unique m hm n hn (by rw [(h.labelText_eq hm).1, (h.labelText_eq hn).1, he])]
  have harrow {a : String} (ha : a ∈ g.nodeIds) : Arrowless (g.labelText a) := by
    obtain ⟨m, hm, rfl⟩ := List.mem_map.mp ha
    exact (h.labelText_eq hm).2
  refine List.Nodup.map_on (fun d hd e he hname => ?_) (List.Nodup.of_map _ h.nodup)
  obtain ⟨hds, hdt⟩ := h.tidy.ends d hd
  obtain ⟨hes, het⟩ := h.tidy.ends e he
  have hpair : (g.labelText d.source, g.labelText d.target) =
      (g.labelText e.source, g.labelText e.target) :=
    Naming.pairName_injective (harrow hds) (harrow hes) hname
  obtain ⟨hs, ht⟩ := Prod.mk.inj hpair
  exact List.inj_on_of_nodup_map h.nodup hd he (Prod.ext (hend hds hes hs) (hend hdt het ht))

/-! ### The graph of the nullability step -/

theorem LeafGraph.distinct {kind : NodeKind} {labels : List String}
    {pairs : List (String × String)} (hg : g.LeafGraph kind labels pairs)
    (hlabels : ∀ label ∈ labels, Arrowless label) : g.Distinct := by
  refine ⟨hg.tidy, fun n hn b hb => ?_, fun n hn => ?_, fun m hm n hn => ?_, hg.nodup⟩
  · rw [(hg.node n hn).2] at hb
    cases hb
  · obtain ⟨label, hl, he⟩ := hg.labelled.exists_label n hn (hg.node n hn).1
    exact ⟨label, he, hlabels label hl⟩
  · exact hg.labelled.unique m hm n hn (hg.node m hm).1 (hg.node n hn).1

theorem distinct_nullability (h : grammar.Standard) (hg : nullability grammar = .ok g) :
    g.Distinct := by
  obtain ⟨_, hg', hleaf⟩ := exists_nullability h.toLawful
  obtain rfl := Except.ok.inj (hg'.symm.trans hg)
  refine hleaf.distinct fun label hl => ?_
  obtain ⟨s, hs, rfl⟩ := List.mem_map.mp hl
  simp only [Grammar.nullabilitySymbols, List.mem_append, List.mem_ite_nil_right,
    List.mem_singleton] at hs
  rcases hs with ⟨-, rfl⟩ | hs | hs
  · exact Symbol.short_epsilon.arrowless
  · exact (short_of_registered h (.inl hs)).arrowless
  · exact (short_of_registered h (.inr hs)).arrowless

/-! ### Graphs with groups -/

/-- Leaves are told apart by their labels, so it is the titles of the groups that matter. -/
theorem Condensed.distinct {leaves : List String} {edges : List (String × String)}
    (hc : g.Condensed leaves edges) (hleaves : ∀ label ∈ leaves, Arrowless label)
    (hgroups : ∀ n ∈ g.groups, ∃ label : String, n.label = .string label ∧ Arrowless label ∧
      label ∉ leaves)
    (hunique : ∀ m ∈ g.groups, ∀ n ∈ g.groups, m.label = n.label → m = n) : g.Distinct := by
  have hgroup {n : Node} (hn : n ∈ g.nodes) (hg : n.isGroup = true) : n ∈ g.groups :=
    List.mem_filter.mpr ⟨hn, hg⟩
  have hdiffer {m n : Node} (hm : m ∈ g.nodes) (hn : n ∈ g.nodes) (hml : m.isGroup = false)
      (hng : n.isGroup = true) : m.label ≠ n.label := by
    obtain ⟨s, hs, hms, -⟩ := hc.leaf m hm hml
    obtain ⟨t, hnt, -, ht⟩ := hgroups n (hgroup hn hng)
    rw [hms, hnt, ne_eq, Json.string_inj]
    rintro rfl
    exact ht hs
  refine ⟨hc.tidy, fun n hn b hb => ?_, fun n hn => ?_, fun m hm n hn he => ?_, hc.nodup⟩
  · cases hg : n.isGroup with
    | true =>
      rw [hc.free n hn hg] at hb
      cases hb
    | false =>
      obtain ⟨-, -, -, a, ha, hsome⟩ := hc.leaf n hn hg
      exact Option.some.inj (hsome.symm.trans hb) ▸ ha
  · cases hg : n.isGroup with
    | true =>
      obtain ⟨label, hlabel, harrow, -⟩ := hgroups n (hgroup hn hg)
      exact ⟨label, hlabel, harrow⟩
    | false =>
      obtain ⟨label, hl, hlabel, -⟩ := hc.leaf n hn hg
      exact ⟨label, hlabel, hleaves label hl⟩
  · cases hmg : m.isGroup with
    | true =>
      cases hng : n.isGroup with
      | true => exact hunique m (hgroup hm hmg) n (hgroup hn hng) he
      | false => exact absurd he.symm (hdiffer hn hm hng hmg)
    | false =>
      cases hng : n.isGroup with
      | true => exact absurd he (hdiffer hm hn hmg hng)
      | false => exact hc.unique m hm n hn hmg hng he

/-! ### The graph of the first step -/

/-- The title of a group, which is longer than any label of a leaf. -/
theorem FirstGraph.exists_title (h : grammar.Standard) (hg : FirstGraph grammar g) {n : Node}
    (hn : n ∈ g.groups) : ∃ names, n.label = .string (title .first names) ∧
      ∀ name ∈ names, Arrowless name := by
  obtain ⟨labels, hlabel, hnodup, hlabels⟩ := hg.titled n hn
  rw [(hg.telling h (List.mem_map_of_mem hn) hnodup hlabels).1] at hlabel
  exact ⟨labels, hlabel, fun name hname =>
    arrowless_of_mem_firstLeaves h (hg.mem_leaves ((hlabels name).mp hname)).1⟩

theorem FirstGraph.distinct (h : grammar.Standard) (hg : FirstGraph grammar g) : g.Distinct := by
  refine Condensed.distinct hg.toCondensed (fun _ => arrowless_of_mem_firstLeaves h)
    (fun n hn => ?_) (fun m hm n hn => hg.eq_of_label_eq h hm hn)
  obtain ⟨names, hlabel, hnames⟩ := hg.exists_title h hn
  refine ⟨_, hlabel, Naming.arrowless_title hnames, fun hl => ?_⟩
  have hlong := Naming.length_title names
  have hshort := (innerName_of_mem_firstLeaves h hl).2
  omega

/-! ### The graph of the follow step -/

/-- The labels of leaves are short. -/
theorem not_mem_followLeaves (h : grammar.Standard) {names : List String} :
    carried (title .first names) ∉ followLeaves grammar ∧
      followLeaf (title .first names) ∉ followLeaves grammar := by
  have hlong := Naming.length_title names
  constructor
  · intro hl
    rcases mem_followLeaves.mp hl with ⟨l, hl, he⟩ | he | ⟨s, -, he⟩
    · have hshort := (innerName_of_mem_firstLeaves h (Naming.carried_injective he ▸ hl)).2
      omega
    · have hshort : endLeaf.toList.length = 3 := by decide
      rw [Naming.carried_injective he, hshort] at hlong
      omega
    · exact Naming.carried_ne_followLeaf _ _ he
  · intro hl
    rcases mem_followLeaves.mp hl with ⟨l, -, he⟩ | he | ⟨s, hs, he⟩
    · exact Naming.carried_ne_followLeaf _ _ he.symm
    · exact Naming.carried_ne_followLeaf _ _ he.symm
    · have hshort := (short_of_registered h (.inl hs)).length_le
      rw [Naming.followLeaf_injective he] at hlong
      omega

theorem arrowless_of_mem_followLeaves (h : grammar.Standard) {label : String}
    (hl : label ∈ followLeaves grammar) : Arrowless label := by
  rcases mem_followLeaves.mp hl with ⟨l, hfirst, rfl⟩ | rfl | ⟨s, hs, rfl⟩
  · exact (arrowless_of_mem_firstLeaves h hfirst).carried
  · exact Symbol.short_endOfInput.arrowless.terminalLeaf.carried
  · exact (short_of_registered h (.inl hs)).arrowless.followLeaf

/-- The title of a group that is carried over, or of the end of the input. -/
theorem FollowNodes.exists_title (h : grammar.Standard) (hf : FirstGraph grammar first)
    {made leaves : List (Node × Node)} {endGroup endNode : Node} {follows : List Node}
    (hn : FollowNodes grammar first g made leaves endGroup endNode follows) {n : Node}
    (hm : n ∈ g.groups) : ∃ names, n.label = .string (carried (title .first names)) ∧
      ∀ name ∈ names, Arrowless name := by
  simp only [hn.groups, List.mem_append, List.mem_map, List.mem_singleton] at hm
  rcases hm with ⟨c, hc, rfl⟩ | rfl
  · obtain ⟨names, hlabel, hnames⟩ :=
      hf.exists_title h (hn.groups_eq ▸ List.mem_map_of_mem hc : c.1 ∈ first.groups)
    refine ⟨names, ?_, hnames⟩
    rw [(hn.groupCopy c hc).2.1, hlabel, Json.text_string]
  · refine ⟨[endLeaf], ?_, ?_⟩
    · rw [hn.endGroup_eq.2.2]
      simp [title]
    · intro name hname
      obtain rfl := List.mem_singleton.mp hname
      exact Symbol.short_endOfInput.arrowless.terminalLeaf

/-- The names in the title of a new group, each of them with its leaf in the group. -/
structure Heads (grammar : Grammar) (g : Graph) (n : Node) (names : List String) : Prop where
  label : n.label = .string (followLeaf (title .first names))
  symbol : ∀ name ∈ names, ∃ s ∈ grammar.nonterminalList, name = s.name
  leafIn : ∀ name ∈ names, g.LeafIn (followLeaf name) n.id
  ne_nil : names ≠ []

theorem Heads.eq_of_label_eq (h : grammar.Standard) {leaves : List String}
    {edges : List (String × String)} (hc : g.Condensed leaves edges) {m n : Node}
    (hm : m ∈ g.nodes) (hn : n ∈ g.nodes) {names names' : List String}
    (hnames : Heads grammar g m names) (hnames' : Heads grammar g n names')
    (he : m.label = n.label) : m = n := by
  have htelling {n : Node} {names : List String} (hnames : Heads grammar g n names) :
      Naming.Telling names := by
    refine Naming.telling_of_short hnames.ne_nil fun name hname => ?_
    obtain ⟨s, hs, rfl⟩ := hnames.symbol name hname
    exact ⟨short_of_registered h (.inl hs), comma_not_mem_of_mem_nonterminalList h hs⟩
  rw [hnames.label, hnames'.label, Json.string_inj] at he
  obtain ⟨name, hmem, hmem'⟩ := Naming.exists_common_of_title_eq (htelling hnames)
    (htelling hnames') (Naming.followLeaf_injective he)
  have hid := hc.eq_of_leafIn (hnames.leafIn name hmem) (hnames'.leafIn name hmem')
  exact List.inj_on_of_nodup_map hc.tidy.nodup hm hn hid

theorem exists_heads (h : grammar.Standard) (hg : FollowGraph grammar first g) {n : Node}
    (hn : n ∈ g.groups) {labels : List String}
    (hlabel : n.label = .string (title .follow (labels.map Naming.innerName)))
    (hlabels : ∀ label, label ∈ labels ↔ g.LeafIn label n.id) :
    Heads grammar g n (labels.map Naming.innerName) := by
  rw [Naming.title_follow] at hlabel
  -- a title of the follow step is that of a group of follow sets
  have hsymbol : ∀ label ∈ labels, ∃ s ∈ grammar.nonterminalList, label = followLeaf s.name := by
    intro label hl
    rcases hg.titled n hn with ⟨l, he, -⟩ | ⟨-, -, hfollow⟩
    · rw [hlabel, Json.string_inj] at he
      exact absurd he.symm (Naming.carried_ne_followLeaf _ _)
    · exact hfollow label ((hlabels label).mp hl)
  have hname : ∀ name ∈ labels.map Naming.innerName,
      ∃ s ∈ grammar.nonterminalList, name = s.name ∧ followLeaf s.name ∈ labels := by
    intro name hname
    obtain ⟨label, hl, rfl⟩ := List.mem_map.mp hname
    obtain ⟨s, hs, rfl⟩ := hsymbol label hl
    exact ⟨s, hs, (short_of_registered h (.inl hs)).innerName_followLeaf, hl⟩
  refine ⟨hlabel, fun name hn' => ?_, fun name hn' => ?_, ?_⟩
  · obtain ⟨s, hs, he, -⟩ := hname name hn'
    exact ⟨s, hs, he⟩
  · obtain ⟨s, -, rfl, hl⟩ := hname name hn'
    exact (hlabels _).mp hl
  · obtain ⟨label, hleaf⟩ := hg.inhabited n.id (List.mem_map_of_mem hn)
    exact List.ne_nil_of_mem (List.mem_map_of_mem ((hlabels label).mpr hleaf))

theorem distinct_follow (h : grammar.Standard) (hf : FirstGraph grammar first)
    (hrun : follow grammar first = .ok g) : g.Distinct := by
  obtain ⟨g₀, made, leaves, endGroup, endNode, follows, hfollow, hl⟩ := exists_followLinked h hf
  obtain ⟨g₁, hcondense, hcondensed, hextends⟩ := (hl.shows h hf).condense
  obtain rfl := Except.ok.inj (hrun.symm.trans ((hfollow true).trans hcondense))
  obtain ⟨g₂, hrun', hg⟩ := exists_followGraph h hf
  obtain rfl := Except.ok.inj (hrun.symm.trans hrun')
  obtain ⟨added, hgroups, hadded⟩ := hextends.groups
  have hmem {n : Node} (hn : n ∈ g.groups) : n ∈ g₀.groups ∨ n ∈ added :=
    List.mem_append.mp (hgroups ▸ hn)
  have hold {n : Node} (hn : n ∈ g₀.groups) := hl.exists_title h hf hn
  have hnew {n : Node} (hn : n ∈ added) : ∃ names, Heads grammar g n names := by
    obtain ⟨⟨labels, hlabel, -, hlabels⟩, -⟩ := hadded n hn
    exact ⟨_, exists_heads h hg (hgroups ▸ List.mem_append_right _ hn) hlabel hlabels⟩
  have hdiffer {m n : Node} (hm : m ∈ g₀.groups) (hn : n ∈ added) : m.label ≠ n.label := by
    obtain ⟨names, hlabel, -⟩ := hold hm
    obtain ⟨names', hheads⟩ := hnew hn
    rw [hlabel, hheads.label, ne_eq, Json.string_inj]
    exact Naming.carried_ne_followLeaf _ _
  have hnode {n : Node} (hn : n ∈ g.groups) : n ∈ g.nodes := (List.mem_filter.mp hn).1
  refine hcondensed.distinct (fun _ => arrowless_of_mem_followLeaves h) (fun n hn => ?_)
    (fun m hm n hn he => ?_)
  · rcases hmem hn with hn | hn
    · obtain ⟨names, hlabel, hnames⟩ := hold hn
      exact ⟨_, hlabel, (Naming.arrowless_title hnames).carried, (not_mem_followLeaves h).1⟩
    · obtain ⟨names, hheads⟩ := hnew hn
      refine ⟨_, hheads.label, (Naming.arrowless_title fun name hname => ?_).followLeaf,
        (not_mem_followLeaves h).2⟩
      obtain ⟨s, hs, rfl⟩ := hheads.symbol name hname
      exact (short_of_registered h (.inl hs)).arrowless
  · rcases hmem hm with hm' | hm'
    · rcases hmem hn with hn' | hn'
      · exact hl.eq_of_label_eq h hf hm' hn' he
      · exact absurd he (hdiffer hm' hn')
    · rcases hmem hn with hn' | hn'
      · exact absurd he.symm (hdiffer hn' hm')
      · obtain ⟨names, hheads⟩ := hnew hm'
        obtain ⟨names', hheads'⟩ := hnew hn'
        exact hheads.eq_of_label_eq h hcondensed (hnode hm) (hnode hn) hheads' he

end Graph

end Lookahead
