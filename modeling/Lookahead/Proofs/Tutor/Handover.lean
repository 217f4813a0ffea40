import Lookahead.Proofs.Graph.Edges
import Lookahead.Proofs.Propagation.Histories

/-!
# What is handed over by name

Edges are kept apart by their names, and the steps hand over what they have found by the names
of nodes. No two nodes of a graph have the same name and no two edges either, so nothing is
merged: every link has its edge, every set arrives at the group that it was computed for, and
the leaf of a follow set gives back its nonterminal.
-/

namespace Lookahead

open Naming (terminalLeaf carried followLeaf endLeaf component Arrowless)

/-! ### Names in the graph of a step -/

namespace Graph

variable {grammar : Grammar} {first g : Graph}

/-- Nodes and edges are told apart by their names, and so are links by the names of their edges;
every link has its edge. -/
structure Named (g : Graph) (kind : NodeKind) (links : List (String × String)) : Prop where
  node : ∀ m ∈ g.nodes, ∀ n ∈ g.nodes, m.label.text = n.label.text → m = n
  edge : ∀ d ∈ g.edges, ∀ e ∈ g.edges, g.edgeName d = g.edgeName e → d = e
  link : ∀ a ∈ links, ∀ b ∈ links, pairName a = pairName b → a = b
  linked : ∀ pair ∈ links, ∃! e, e ∈ g.edges ∧ g.Joins kind e pair

theorem Distinct.eq_of_text_eq (h : g.Distinct) {m n : Node} (hm : m ∈ g.nodes) (hn : n ∈ g.nodes)
    (he : m.label.text = n.label.text) : m = n := by
  obtain ⟨s, hs, -⟩ := h.label m hm
  obtain ⟨t, ht, -⟩ := h.label n hn
  rw [hs, ht, Json.text_string, Json.text_string] at he
  exact h.unique m hm n hn (by rw [hs, ht, he])

theorem Distinct.named (h : g.Distinct) {kind : NodeKind} {links : List (String × String)}
    {R : NodeKind → String → String → Prop} (hplain : g.PlainEdges R)
    (hlinks : ∀ pair ∈ links, Arrowless pair.1 ∧ R kind pair.1 pair.2) : g.Named kind links := by
  constructor
  · exact fun m hm n hn => h.eq_of_text_eq hm hn
  · exact fun d hd e he => List.inj_on_of_nodup_map h.nodup_edgeNames hd he
  · exact fun a ha b hb => Naming.pairName_injective (hlinks a ha).1 (hlinks b hb).1
  · exact fun pair hpair => hplain.complete kind pair.1 pair.2 (hlinks pair hpair).2

theorem exists_named_nullability (h : grammar.Standard) : ∃ g, nullability grammar = .ok g ∧
    g.Named .empty (nullabilityLinks grammar) := by
  obtain ⟨g, hg, hplain⟩ := exists_plain_nullability h.toLawful
  refine ⟨g, hg, (distinct_nullability h hg).named hplain fun pair hpair => ?_⟩
  have hedge := mem_nullabilityLinks.mp hpair
  obtain ⟨p, hp, s, hs, hname, -⟩ := id hedge
  rw [hname]
  exact ⟨(short_of_mem_right h.toLawful hp hs).arrowless, rfl, hname ▸ hedge⟩

theorem FirstGraph.named (h : grammar.Standard) (hg : FirstGraph grammar g)
    (hrun : Graph.first grammar = .ok g) : g.Named .first (firstLinks grammar) := by
  obtain ⟨_, hrun', hplain⟩ := exists_plain_first h true
  obtain rfl := Except.ok.inj (hrun.symm.trans hrun')
  refine (hg.distinct h).named hplain fun pair hpair => ?_
  exact ⟨(ends_of_mem_firstLinks h.toLawful hpair).2, rfl,
    (mem_firstLinks_iff h.toLawful).mp hpair⟩

theorem FirstGraph.named_follow (h : grammar.Standard) (hf : FirstGraph grammar first)
    (hrun : follow grammar first = .ok g) : g.Named .follow (followLinks grammar) := by
  obtain ⟨_, hrun', hplain⟩ := exists_plain_follow h hf true
  obtain rfl := Except.ok.inj (hrun.symm.trans hrun')
  refine (distinct_follow h hf hrun).named hplain fun pair hpair => ?_
  have hedge : pair ∈ followEdges grammar := List.mem_cons_of_mem _ hpair
  exact ⟨(ends_of_mem_followEdges h hedge).2, .inl ⟨rfl, (mem_followEdges_iff h.toLawful).mp hedge⟩⟩

end Graph

/-! ### Names in the sets -/

/-- Whatever clicks came before, a name in a set comes from a seed. -/
theorem Propagation.Tracked.exists_seed {p : Propagation} (h : p.Tracked) (ha : p.Acyclic)
    {id x : String} (hx : x ∈ p.computedOf id) : ∃ q ∈ p.order, x ∈ p.seedOf q := by
  have hid := mem_order_of_mem_computedOf h.consistent hx
  induction id using ha.induction h.wired with
  | step id ih =>
    rcases (mem_computedOf h.consistent h.wired hid).mp hx with hx | ⟨q, names, hl, hheld, hx⟩
    · exact ⟨id, hid, hx⟩
    · exact ih q hl (h.growing.earlier hl hheld x hx) (h.wired.source_mem _ hl)

namespace Tutor

open Lookahead.Graph (FirstGraph FollowGraph Named nullabilityLinks firstLinks followLinks)

variable {e g grammar : Grammar} {p : Propagation} {f h : Graph} {seeds : Assoc String NameSet}

/-- Groups with different names have entries of their own. -/
theorem entries_setsByName {kind : NodeKind} {links : List (String × String)}
    (hn : p.graph.Named kind links) (ht : p.graph.Tidy) :
    (setsByName p).entries = p.graph.groups.map fun n => (n.label.text, p.computedOf n.id) := by
  rw [setsByName, Assoc.ofList_eq]
  rw [List.map_map]
  refine List.Nodup.map_on (fun m hm n hn' he => ?_) ?_
  · exact hn.node m (List.mem_filter.mp hm).1 n (List.mem_filter.mp hn').1 he
  · exact (List.Nodup.of_map _ ht.nodup).filter _

/-! ### The seeds of the first step -/

/-- A terminal is the seed of the group of its leaf, and all other groups start with nothing. -/
structure FirstSeeded (grammar : Grammar) (f : Graph) (seeds : Assoc String NameSet) : Prop where
  keys : seeds.keys = f.groupIds
  terminal : ∀ t ∈ grammar.terminalList, ∃ n ∈ f.groups,
    f.LeafIn (terminalLeaf t.name) n.id ∧ seeds.get? n.id = some (.ofList [t.name])
  other : ∀ n ∈ f.groups, (∀ t ∈ grammar.terminalList, ¬f.LeafIn (terminalLeaf t.name) n.id) →
    seeds.get? n.id = some {}

theorem exists_firstSeeded (hs : grammar.Standard) (hf : FirstGraph grammar f) :
    ∃ seeds, f.firstSeeds = .ok seeds ∧ FirstSeeded grammar f seeds := by
  obtain ⟨seeds, hseeds, hkeys, hmem⟩ := hf.firstSeeds hs.toLawful
  -- every group has a seed, and the seed is told by its names
  have hseed {n : Node} (hn : n ∈ f.groups) {names : NameSet}
      (hnames : ∀ x, (∃ t ∈ grammar.terminalList, t.name = x ∧
        f.LeafIn (terminalLeaf t.name) n.id) ↔ x ∈ names) : seeds.get? n.id = some names := by
    have hid : n.id ∈ f.groupIds := List.mem_map_of_mem hn
    obtain ⟨found, hget⟩ := Assoc.exists_get?_of_mem_keys (hkeys ▸ hid)
    have hfound := hmem n.id hid
    rw [hget, Option.getD_some] at hfound
    rw [hget, NameSet.ext_mem fun x => (hfound x).trans (hnames x)]
  refine ⟨seeds, hseeds, hkeys, fun t ht => ?_, fun n hn hnone => hseed hn fun x => ?_⟩
  · obtain ⟨b, hb⟩ := hf.exists_leafIn (terminalLeaf t.name)
      (Graph.mem_firstLeaves.mpr (.inr (.inr ⟨t, ht, rfl⟩)))
    obtain ⟨n, hn, rfl⟩ := List.mem_map.mp (hf.mem_leaves hb).2
    refine ⟨n, hn, hb, hseed hn fun x => ?_⟩
    rw [NameSet.mem_ofList, List.mem_singleton]
    constructor
    · rintro ⟨t', ht', rfl, hb'⟩
      exact Naming.terminalLeaf_injective (hf.eq_terminalLeaf hs.toLawful ht hb hb')
    · rintro rfl
      exact ⟨t, ht, rfl, hb⟩
  · refine iff_of_false ?_ (NameSet.not_mem_empty x)
    rintro ⟨t, ht, -, hb⟩
    exact hnone t ht hb

/-! ### The seeds of the follow step -/

/-- A group that is carried over starts with the present set of its own group, the group of the end
of the input with that end, which no other group starts with, and groups of follow sets with no
set at all. -/
structure FollowSeeded (p : Propagation) (h : Graph) (seeds : Assoc String NameSet) : Prop where
  keys : ∀ id ∈ seeds.keys, id ∈ h.groupIds
  carried : ∀ n ∈ p.graph.groups, ∃ m ∈ h.groups, m.label.text = carried n.label.text ∧
    seeds.get? m.id = some (p.computedOf n.id)
  ending : ∃ m ∈ h.groups, m.label.text = Naming.carried (component endLeaf) ∧
    seeds.get? m.id = some (.ofList [Symbol.endOfInput.name])
  only : ∀ m ∈ h.groups, seeds.get? m.id = some (.ofList [Symbol.endOfInput.name]) →
    m.label.text = Naming.carried (component endLeaf)
  group : ∀ m ∈ h.groups, (∃ n ∈ p.graph.groups, m.label.text = Naming.carried n.label.text) ∨
    m.label.text = Naming.carried (component endLeaf) ∨
    isFollowGroup m = true ∧ seeds.get? m.id = none

theorem text_of_lastGroup? {m : Node} {name : String} (hm : h.lastGroup? name = some m) :
    m.label.text = name := by
  have hsame := List.find?_some (p := fun n : Node => n.label.same (.string name)) hm
  rw [Graph.label_same_iff.mp hsame, Json.text_string]

/-- What a group of the follow step stands for, with the name and a leaf that tell it. -/
inductive Origin (grammar : Grammar) (f h : Graph) (m : Node) : Prop where
  | carried {n : Node} {l : String} (mem : n ∈ f.groups)
      (name : m.label.text = carried n.label.text) (old : f.LeafIn l n.id)
      (leaf : h.LeafIn (Naming.carried l) m.id)
  | ending (name : m.label.text = Naming.carried (component endLeaf))
      (leaf : h.LeafIn (Naming.carried endLeaf) m.id)
  | follow {s : Symbol} (mem : s ∈ grammar.nonterminalList) (name : isFollowGroup m = true)
      (leaf : h.LeafIn (followLeaf s.name) m.id)

theorem exists_carriedGroup (hf : FirstGraph grammar f) (hh : FollowGraph grammar f h) {n : Node}
    (hn : n ∈ f.groups) : ∃ m ∈ h.groups, m.label.text = carried n.label.text ∧
      ∃ l, f.LeafIn l n.id ∧ h.LeafIn (carried l) m.id := by
  obtain ⟨m, hm, hlast, hleaves⟩ := hh.carriedGroup n hn
  obtain ⟨l, hl⟩ := hf.inhabited n.id (List.mem_map_of_mem hn)
  exact ⟨m, hm, text_of_lastGroup? hlast, l, hl, (hleaves _).mpr ⟨l, rfl, hl⟩⟩

/-- A group with the leaf of a follow set is told by its name. -/
theorem isFollowGroup_of_leafIn (hh : FollowGraph grammar f h) {m : Node} (hm : m ∈ h.groups)
    {l : String} (hleaf : h.LeafIn (followLeaf l) m.id) : isFollowGroup m = true := by
  rcases hh.titled m hm with ⟨l', -, hleaves⟩ | ⟨l', hl', -⟩
  · obtain ⟨other, he⟩ := hleaves _ hleaf
    exact absurd he.symm (Naming.carried_ne_followLeaf _ _)
  · exact isFollowGroup_followLeaf hl'

theorem origin_of_mem_groups (hf : FirstGraph grammar f) (hh : FollowGraph grammar f h) {m : Node}
    (hm : m ∈ h.groups) : Origin grammar f h m := by
  have heq {m' : Node} {label : String} (hm' : m' ∈ h.groups) (hl : h.LeafIn label m.id)
      (hl' : h.LeafIn label m'.id) : m = m' :=
    List.inj_on_of_nodup_map hh.tidy.groupIds_nodup hm hm' (hh.eq_of_leafIn hl hl')
  obtain ⟨label, hleaf⟩ := hh.inhabited m.id (List.mem_map_of_mem hm)
  rcases Graph.mem_followLeaves.mp (hh.mem_leaves hleaf).1 with ⟨l, hl, rfl⟩ | rfl | ⟨s, hs, rfl⟩
  · obtain ⟨a, ha⟩ := hf.exists_leafIn l hl
    obtain ⟨n, hn, rfl⟩ := List.mem_map.mp (hf.mem_leaves ha).2
    obtain ⟨m', hm', hlast, hleaves⟩ := hh.carriedGroup n hn
    obtain rfl := heq hm' hleaf ((hleaves _).mpr ⟨l, rfl, ha⟩)
    exact .carried hn (text_of_lastGroup? hlast) ha hleaf
  · obtain ⟨m', hm', hlast, hleaves⟩ := hh.endGroup
    obtain rfl := heq hm' hleaf ((hleaves _).mpr rfl)
    exact .ending (text_of_lastGroup? hlast) hleaf
  · exact .follow hs (isFollowGroup_of_leafIn hh hm hleaf) hleaf

theorem exists_followSeeded (hs : grammar.Standard) (hf : FirstGraph grammar p.graph)
    (hh : FollowGraph grammar p.graph h)
    (hnames : ∀ id, Symbol.endOfInput.name ∉ p.computedOf id) :
    ∃ start, Graph.followSeeds p.graph (setsById p) h = .ok start ∧
      FollowSeeded p h start.seeds := by
  obtain ⟨start, hstart, hspec⟩ := hh.followSeeds hs hf (setsById p)
  have hcarried {l a b : String} (hl : p.graph.LeafIn l a) (hb : h.LeafIn (carried l) b) :
      start.seeds.get? b = some (p.computedOf a) := by
    rw [hspec.atCarried hl hb, get?_setsById hf.tidy (hf.mem_leaves hl).2, Option.getD_some]
  refine ⟨start, hstart, hspec.keys, fun n hn => ?_, ?_, fun m hm hget => ?_, fun m hm => ?_⟩
  · obtain ⟨m, hm, hname, l, hl, hleaf⟩ := exists_carriedGroup hf hh hn
    exact ⟨m, hm, hname, hcarried hl hleaf⟩
  · obtain ⟨m, hm, hlast, hleaves⟩ := hh.endGroup
    exact ⟨m, hm, text_of_lastGroup? hlast, hspec.atEnd ((hleaves _).mpr rfl)⟩
  · cases origin_of_mem_groups hf hh hm with
    | @carried n _ _ _ old leaf =>
      have he := Option.some.inj ((hcarried old leaf).symm.trans hget)
      exact absurd (he ▸ NameSet.mem_ofList.mpr (List.mem_singleton_self _)) (hnames n.id)
    | ending name _ => exact name
    | follow mem _ leaf =>
      rw [hspec.atFollow _ mem leaf] at hget
      cases hget
  · cases origin_of_mem_groups hf hh hm with
    | carried mem name _ _ => exact .inl ⟨_, mem, name⟩
    | ending name _ => exact .inr (.inl name)
    | follow mem name leaf => exact .inr (.inr ⟨name, hspec.atFollow _ mem leaf⟩)

/-! ### The leaves of follow sets -/

/-- Groups of follow sets have no leaves but those of follow sets, whose names give back the
nonterminals, and every nonterminal has its leaf in one of them. -/
structure GivesBack (grammar : Grammar) (h : Graph) : Prop where
  leaf : ∀ m ∈ h.groups, isFollowGroup m = true → ∀ n ∈ h.members m.id,
    ∃ s ∈ grammar.nonterminalList, n.label.text = followLeaf s.name ∧
      grammar.nonterminals.get? (Naming.innerName n.label.text) = some s
  nonterminal : ∀ s ∈ grammar.nonterminalList, ∃ m ∈ h.groups, isFollowGroup m = true ∧
    h.LeafIn (followLeaf s.name) m.id

theorem givesBack_of_followGraph (hs : grammar.Standard) (hh : FollowGraph grammar f h) :
    GivesBack grammar h := by
  constructor
  · intro m hm hfollow n hn
    rcases hh.titled m hm with ⟨l, hl, -⟩ | ⟨l, -, hleaves⟩
    · rw [isFollowGroup_carried hl] at hfollow
      cases hfollow
    · obtain ⟨-, label, hlabel, hleaf⟩ := hh.mem_members hn
      obtain ⟨s, hmem, rfl⟩ := hleaves label hleaf
      rw [hlabel, Json.text_string]
      exact ⟨s, hmem, rfl, get?_innerName_followLeaf hs hmem⟩
  · intro s hmem
    obtain ⟨b, hb⟩ := hh.exists_leafIn (followLeaf s.name)
      (Graph.mem_followLeaves.mpr (.inr (.inr ⟨s, hmem, rfl⟩)))
    obtain ⟨m, hm, rfl⟩ := List.mem_map.mp (hh.mem_leaves hb).2
    exact ⟨m, hm, isFollowGroup_of_leafIn hh hm hb, hb⟩

/-! ### Grammars read from a text -/

/-- The end of the input is in no set of the first step, whatever clicks came before. -/
theorem endOfInput_not_mem_computedOf (hs : grammar.Standard) (hf : FirstGraph grammar f)
    (hseeds : FirstSeeded grammar f seeds) {first : Propagation}
    (hstart : Propagation.start f seeds = .ok first) (hp : first.Reached p) (id : String) :
    Symbol.endOfInput.name ∉ p.computedOf id := by
  obtain ⟨hbegun, -⟩ := Propagation.begun_of_reached hf.tidy.groupIds_nodup hstart hp
  intro hx
  obtain ⟨q, hq, hx⟩ := hbegun.tracked.exists_seed
    (Propagation.acyclic_of_condensed hf.toCondensed hbegun.isOver) hx
  rw [Propagation.seedOf, hbegun.isOver.seeds_eq] at hx
  rw [hbegun.isOver.order_eq] at hq
  obtain ⟨n, hn, rfl⟩ := List.mem_map.mp hq
  by_cases hleaf : ∃ t ∈ grammar.terminalList, f.LeafIn (terminalLeaf t.name) n.id
  · obtain ⟨t, ht, hb⟩ := hleaf
    obtain ⟨m, hm, hb', hget⟩ := hseeds.terminal t ht
    rw [hf.eq_of_leafIn hb hb', hget, Option.getD_some, NameSet.mem_ofList,
      List.mem_singleton] at hx
    exact (hs.proper_of_registered (.inr ht)).name_ne.2 hx.symm
  · rw [hseeds.other n hn fun t ht hb => hleaf ⟨t, ht, hb⟩] at hx
    exact NameSet.not_mem_empty _ hx

/-- Whatever is marked in a grammar that was read from a text, the graphs of the three steps have
names that tell apart what they name. So a terminal starts in the group of its own leaf only,
the follow step starts with the present sets of the first step, the sets by name are those of all
groups, and the follow sets are written to the nonterminals that their leaves were made for. -/
theorem exists_named_graphs (hg : g.FromText) (he : g.Varies e) :
    ∃ n f h, Graph.nullability e = .ok n ∧ Graph.first e = .ok f ∧ Graph.follow e f = .ok h ∧
      (n.Named .empty (nullabilityLinks e) ∧ f.Named .first (firstLinks e) ∧
        h.Named .follow (followLinks e)) ∧
      (∃ seeds first, f.firstSeeds = .ok seeds ∧ FirstSeeded e f seeds ∧
        Propagation.start f seeds = .ok first ∧ ∀ p, first.Reached p → p.graph = f ∧
          ∃ start, Graph.followSeeds f (setsById p) h = .ok start ∧
            FollowSeeded p h start.seeds) ∧
      (∀ p : Propagation, p.graph = f ∨ p.graph = h → (setsByName p).entries =
        p.graph.groups.map fun n => (n.label.text, p.computedOf n.id)) ∧
      GivesBack e h ∧ ∀ (p : Propagation) (t : Tutor), p.graph = h → e.Varies t.grammar →
        ∃ g', commitFollow p h.groups t = .ok () { t with grammar := g' } ∧
          ∀ s ∈ e.nonterminalList, ∀ m ∈ h.groups, h.LeafIn (followLeaf s.name) m.id →
            g'.follow s = p.computedOf m.id := by
  have hs := he.standard hg.standard
  obtain ⟨n, hn, hnamed⟩ := Graph.exists_named_nullability hs
  obtain ⟨f, hfirst, hf⟩ := Graph.exists_firstGraph hs.toLawful (Graph.firstLeaves_ne_nil hs)
  obtain ⟨h, hfollow, hh⟩ := Graph.exists_followGraph hs hf
  obtain ⟨seeds, hseeds, hseeded⟩ := exists_firstSeeded hs hf
  have hnamedf := hf.named hs hfirst
  have hnamedh := hf.named_follow hs hfollow
  obtain ⟨_, _, first, hfirst', hseeds', hstart, -⟩ :=
    exists_firstRun hs.toLawful (Graph.firstLeaves_ne_nil hs)
  obtain rfl := Except.ok.inj (hfirst.symm.trans hfirst')
  obtain rfl := Except.ok.inj (hseeds.symm.trans hseeds')
  refine ⟨n, f, h, hn, hfirst, hfollow, ⟨hnamed, hnamedf, hnamedh⟩,
    ⟨seeds, first, hseeds, hseeded, hstart, fun p hp => ?_⟩, ?_, givesBack_of_followGraph hs hh,
    ?_⟩
  · have hends := endOfInput_not_mem_computedOf hs hf hseeded hstart hp
    obtain ⟨hbegun, -⟩ := Propagation.begun_of_reached hf.tidy.groupIds_nodup hstart hp
    obtain rfl := hbegun.isOver.graph_eq
    exact ⟨rfl, exists_followSeeded hs hf hh hends⟩
  · rintro p (rfl | rfl)
    · exact entries_setsByName hnamedf hf.tidy
    · exact entries_setsByName hnamedh hh.tidy
  · rintro p t rfl hv
    obtain ⟨g', hrun, -, hset⟩ := commitFollow_spec hh (hv.standard hs) hv.nonterminalList
    exact ⟨g', hrun, fun s hmem m _ hb => hset s hmem m.id hb⟩

/-- The terminal of the sample starts in the group of its leaf, the follow step starts with what the
first one has just started with, and the second nonterminal gets the set of its own group. -/
theorem exists_named_graphs_sample : ∃ g f h seeds first, Grammar.ofText Sample.text = .ok g ∧
    Graph.first (Nullability.solved g) = .ok f ∧ Graph.follow (Nullability.solved g) f = .ok h ∧
    f.firstSeeds = .ok seeds ∧ Propagation.start f seeds = .ok first ∧
    (∃ n ∈ f.groups, f.LeafIn (terminalLeaf "b") n.id ∧
      seeds.get? n.id = some (.ofList ["b"])) ∧
    ∃ start q, Graph.followSeeds f (setsById first) h = .ok start ∧
      FollowSeeded first h start.seeds ∧ q.graph = h ∧
      ∃ g' m, commitFollow q h.groups { grammar := Nullability.solved g } = .ok () { grammar := g' } ∧
        m ∈ h.groups ∧ h.LeafIn (followLeaf "A") m.id ∧ g'.follow Sample.a = q.computedOf m.id := by
  obtain ⟨g, hg, hnonterminals, hterminals, -⟩ := Sample.exists_grammar
  have hfrom : g.FromText := ⟨_, g, hg, .inl rfl⟩
  obtain ⟨hv, -⟩ := Nullability.solved_spec hfrom.standard
  obtain ⟨n, f, h, -, hf, hh, -, ⟨seeds, first, hseeds, hseeded, hstart, hcarry⟩, -, hback, hcommit⟩ :=
    exists_named_graphs hfrom hv
  obtain ⟨-, start, hfollow, hfollowed⟩ := hcarry first .start
  have hb : Sample.b ∈ (Nullability.solved g).terminalList := by
    rw [hv.terminalList, hterminals]
    exact List.mem_singleton_self _
  have ha : Sample.a ∈ (Nullability.solved g).nonterminalList := by
    rw [hv.nonterminalList, hnonterminals]
    simp
  obtain ⟨m, hm, -, hleaf⟩ := hback.nonterminal _ ha
  obtain ⟨g', hrun, hset⟩ :=
    hcommit { first with graph := h } { grammar := Nullability.solved g } rfl (.refl _)
  exact ⟨g, f, h, seeds, first, hg, hf, hh, hseeds, hstart, hseeded.terminal _ hb, start,
    { first with graph := h }, hfollow, hfollowed, rfl, g', m, hrun, hm, hleaf,
    hset _ ha m hm hleaf⟩

end Tutor

end Lookahead
