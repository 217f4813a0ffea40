import Lookahead.Proofs.Graph.Distinct
import Lookahead.Proofs.Tutor.SolveAll

/-!
# The edges of the three graphs

Which edges the graph of a step has, said by the productions: none is missing, none is too
many and none is there twice. An edge is spoken of by the kind of its ends and their labels.
Grouping the leaves adds group edges only.
-/

namespace Lookahead.Graph

open Naming (terminalLeaf carried followLeaf endLeaf)

variable {grammar : Grammar} {first g g' : Graph} {R : NodeKind → String → String → Prop}

/-- The edges that are no group edges lead from the node of a kind with one label to the node of
that kind with another, one edge for each pair of labels that is related. -/
structure PlainEdges (g : Graph) (R : NodeKind → String → String → Prop) : Prop where
  sound : ∀ e ∈ g.edges, e.isGroupEdge = false → ∃ kind x y, R kind x y ∧ g.Joins kind e (x, y)
  complete : ∀ kind x y, R kind x y → ∃! e, e ∈ g.edges ∧ g.Joins kind e (x, y)

theorem PlainEdges.congr {R' : NodeKind → String → String → Prop} (h : g.PlainEdges R)
    (hR : ∀ kind x y, R kind x y ↔ R' kind x y) : g.PlainEdges R' := by
  have he : R = R' := funext fun kind => funext fun x => funext fun y => propext (hR kind x y)
  exact he ▸ h

/-- No two nodes of a kind have the same label, and no two edges the same ends. -/
structure Plain (g : Graph) : Prop where
  unique : ∀ m ∈ g.nodes, ∀ n ∈ g.nodes, m.kind = n.kind → m.label = n.label → m = n
  nodup : (g.edges.map Edge.ends).Nodup

theorem Distinct.plain (h : g.Distinct) : g.Plain :=
  ⟨fun m hm n hn _ => h.unique m hm n hn, h.nodup⟩

theorem Plain.plainEdges (h : g.Plain)
    (hsound : ∀ e ∈ g.edges, e.isGroupEdge = false →
      ∃ kind x y, R kind x y ∧ g.Joins kind e (x, y))
    (hcomplete : ∀ kind x y, R kind x y → ∃ e ∈ g.edges, g.Joins kind e (x, y)) :
    g.PlainEdges R := by
  refine ⟨hsound, fun kind x y hxy => ?_⟩
  obtain ⟨e, he, hj⟩ := hcomplete kind x y hxy
  refine ⟨e, ⟨he, hj⟩, fun d ⟨hd, hj'⟩ => List.inj_on_of_nodup_map h.nodup hd he ?_⟩
  obtain ⟨-, ⟨m, hm, hmk, hml, hmid⟩, n, hn, hnk, hnl, hnid⟩ := hj
  obtain ⟨-, ⟨m', hm', hmk', hml', hmid'⟩, n', hn', hnk', hnl', hnid'⟩ := hj'
  obtain rfl := h.unique m hm m' hm' (hmk.trans hmk'.symm) (hml.trans hml'.symm)
  obtain rfl := h.unique n hn n' hn' (hnk.trans hnk'.symm) (hnl.trans hnl'.symm)
  exact Prod.ext (hmid'.symm.trans hmid) (hnid'.symm.trans hnid)

theorem LeafGraph.plainEdges {kind : NodeKind} {labels : List String}
    {pairs : List (String × String)} (h : g.LeafGraph kind labels pairs) :
    g.PlainEdges fun k x y => k = kind ∧ (x, y) ∈ pairs := by
  have hplain : g.Plain := by
    refine ⟨fun m hm n hn _ => ?_, h.nodup⟩
    exact h.labelled.unique m hm n hn (h.node m hm).1 (h.node n hn).1
  refine hplain.plainEdges (fun e he _ => ?_) ?_
  · obtain ⟨⟨x, y⟩, hpair, hj⟩ := h.sound e he
    exact ⟨kind, x, y, ⟨rfl, hpair⟩, hj⟩
  · rintro _ x y ⟨rfl, hpair⟩
    exact h.complete (x, y) hpair

/-- Grouping leaves keeps the edges that are no group edges. -/
theorem PlainEdges.condense {kind : NodeKind} {made : List (List String × Node)}
    {added : List Edge} (h : g.PlainEdges R) (hc : Condensation g g' kind made added)
    (hplain : g'.Plain) : g'.PlainEdges R := by
  have hkeeps {n : Node} (hn : n ∈ g.nodes) : assignAll made n ∈ g'.nodes := by
    rw [hc.nodes_eq]
    exact List.mem_append_left _ (List.mem_map_of_mem hn)
  have hjoins {k : NodeKind} {e : Edge} {pair : String × String} (hj : g.Joins k e pair) :
      g'.Joins k e pair := by
    obtain ⟨he, ⟨m, hm, hmk, hml, hmid⟩, n, hn, hnk, hnl, hnid⟩ := hj
    exact ⟨he, ⟨_, hkeeps hm, by simpa using hmk, by simpa using hml, by simpa using hmid⟩,
      _, hkeeps hn, by simpa using hnk, by simpa using hnl, by simpa using hnid⟩
  refine hplain.plainEdges (fun e he hp => ?_) fun k x y hxy => ?_
  · rw [hc.edges_eq] at he
    rcases List.mem_append.mp he with he | he
    · obtain ⟨k, x, y, hxy, hj⟩ := h.sound e he hp
      exact ⟨k, x, y, hxy, hjoins hj⟩
    · rw [(hc.sound e he).1] at hp
      cases hp
  · obtain ⟨e, ⟨he, hj⟩, -⟩ := h.complete k x y hxy
    exact ⟨e, hc.edges_eq ▸ List.mem_append_left _ he, hjoins hj⟩

/-! ### The edges by the productions -/

theorem mem_takeThrough {α : Type} {stop : α → Bool} {a : α} {xs : List α} :
    a ∈ takeThrough stop xs ↔
      ∃ before after, xs = before ++ a :: after ∧ ∀ b ∈ before, stop b = false := by
  induction xs with
  | nil => simp [takeThrough]
  | cons x xs ih =>
    rw [takeThrough]
    constructor
    · intro h
      split at h
      · obtain rfl := List.mem_singleton.mp h
        exact ⟨[], xs, rfl, by simp⟩
      · rename_i hx
        rcases List.mem_cons.mp h with rfl | h
        · exact ⟨[], xs, rfl, by simp⟩
        · obtain ⟨before, after, rfl, hgo⟩ := ih.mp h
          exact ⟨x :: before, after, rfl, List.forall_mem_cons.mpr ⟨by simpa using hx, hgo⟩⟩
    · rintro ⟨before, after, he, hgo⟩
      rcases List.cons_eq_append_iff.mp he with ⟨rfl, he⟩ | ⟨before', rfl, rfl⟩
      · obtain ⟨rfl, rfl⟩ := List.cons.inj he
        split <;> simp
      · obtain ⟨hx, hgo⟩ := List.forall_mem_cons.mp hgo
        rw [if_neg (by simp [hx])]
        exact List.mem_cons_of_mem _ (ih.mpr ⟨before', after, rfl, hgo⟩)

/-- A symbol stands on the right side of a production of a nonterminal. -/
def NullabilityEdge (grammar : Grammar) (x y : String) : Prop :=
  ∃ p ∈ grammar.productionList, ∃ s ∈ p.right, x = s.name ∧ y = p.left.name

/-- The leaf of a terminal and the terminal, or a symbol behind nullable ones on the right side of a
production, and the left side. -/
def FirstEdge (grammar : Grammar) (x y : String) : Prop :=
  (∃ t ∈ grammar.terminalList, x = terminalLeaf t.name ∧ y = t.name) ∨
    ∃ p ∈ grammar.productionList, ∃ before s after, p.right = before ++ s :: after ∧
      (∀ r ∈ before, grammar.nullable r = true) ∧ x = s.name ∧ y = p.left.name

/-- The end of the input and the follow set of the start marker, or something that leads into the
follow set of a nonterminal of a right side: a symbol of which only nullable ones keep it apart, or
the follow set of the left side if only nullable symbols come after it. -/
def FollowEdge (grammar : Grammar) (x y : String) : Prop :=
  (x = carried endLeaf ∧ y = followLeaf Symbol.startName) ∨
    ∃ p ∈ grammar.productionList, ∃ before n after, p.right = before ++ n :: after ∧
      n.isNonterminal = true ∧ y = followLeaf n.name ∧
      ((∃ between s rest, after = between ++ s :: rest ∧
          (∀ r ∈ between, grammar.nullable r = true) ∧ x = carried s.name) ∨
        (∀ r ∈ after, grammar.nullable r = true) ∧ x = followLeaf p.left.name)

theorem mem_nullabilityLinks {x y : String} :
    (x, y) ∈ nullabilityLinks grammar ↔ NullabilityEdge grammar x y := by
  simp [nullabilityLinks, NullabilityEdge, List.mem_flatMap, eq_comm]

/-- On the right side of a production only a symbol that is not nullable ends the symbols that can
begin it: the marker of the empty word stands alone. -/
theorem mem_openers (h : grammar.Lawful) {p : Production} (hp : p ∈ grammar.productionList)
    {s : Symbol} : s ∈ openers grammar p.right ↔ ∃ before after, p.right = before ++ s :: after ∧
      ∀ r ∈ before, grammar.nullable r = true := by
  rw [openers, mem_takeThrough]
  refine exists_congr fun before => exists_congr fun after => and_congr_right fun hright => ?_
  refine forall₂_congr fun r hr => ?_
  rcases h.right_cases hp with hsingle | hregistered
  · have hlength := congrArg List.length (hright.symm.trans hsingle)
    have hpos := List.length_pos_of_mem hr
    simp at hlength
    omega
  · have hepsilon := h.not_isEpsilon (hregistered r (hright ▸ List.mem_append_left _ hr))
    simp [hepsilon]

theorem mem_firstLinks_iff (h : grammar.Lawful) {x y : String} :
    (x, y) ∈ firstLinks grammar ↔ FirstEdge grammar x y := by
  rw [mem_firstLinks, FirstEdge]
  refine or_congr (by simp only [Prod.mk.injEq]) ?_
  refine exists_congr fun p => and_congr_right fun hp => ?_
  simp only [mem_openers h hp, Prod.mk.injEq]
  constructor
  · rintro ⟨s, ⟨before, after, hright, hnull⟩, hx, hy⟩
    exact ⟨before, s, after, hright, hnull, hx, hy⟩
  · rintro ⟨before, s, after, hright, hnull, hx, hy⟩
    exact ⟨s, ⟨before, after, hright, hnull⟩, hx, hy⟩

theorem mem_followEdges_iff (h : grammar.Lawful) {x y : String} :
    (x, y) ∈ followEdges grammar ↔ FollowEdge grammar x y := by
  rw [followEdges, List.mem_cons, mem_followLinks, FollowEdge, Prod.mk.injEq]
  refine or_congr Iff.rfl (exists_congr fun p => and_congr_right fun hp => ?_)
  simp only [mem_followLinksOf, mem_contributions, mem_takeThrough, Prod.mk.injEq,
    Bool.not_eq_false']
  constructor
  · rintro ⟨-, before, n, after, hright, hn, ⟨s, ⟨between, rest, hafter, hnull⟩, hx, hy⟩ | hlast⟩
    · exact ⟨before, n, after, hright, hn, hy, .inl ⟨between, s, rest, hafter, hnull, hx⟩⟩
    · exact ⟨before, n, after, hright, hn, hlast.2.2, .inr ⟨hlast.1, hlast.2.1⟩⟩
  · rintro ⟨before, n, after, hright, hn, hy, hx⟩
    have hepsilon : p.isEpsilon = false := by
      refine Bool.eq_false_iff.mpr fun he => ?_
      have hmem : n ∈ p.right := by simp [hright]
      rw [(h.isEpsilon_iff hp).mp he, List.mem_singleton] at hmem
      rw [hmem] at hn
      cases hn
    refine ⟨hepsilon, before, n, after, hright, hn, ?_⟩
    rcases hx with ⟨between, s, rest, hafter, hnull, hx⟩ | ⟨hnull, hx⟩
    · exact .inl ⟨s, ⟨between, rest, hafter, hnull⟩, hx, hy⟩
    · exact .inr ⟨hnull, hx, hy⟩

/-- The copies of the two groups that a group edge of the first step joins. -/
def CarriedEdge (first : Graph) (x y : String) : Prop :=
  ∃ d ∈ first.edges, d.isGroupEdge = true ∧ x = carried (first.labelText d.source) ∧
    y = carried (first.labelText d.target)

/-! ### The graphs -/

theorem exists_plain_nullability (h : grammar.Lawful) : ∃ g, nullability grammar = .ok g ∧
    g.PlainEdges fun kind x y => kind = .empty ∧ NullabilityEdge grammar x y := by
  obtain ⟨g, hg, hleaf⟩ := exists_nullability h
  refine ⟨g, hg, hleaf.plainEdges.congr fun kind x y => ?_⟩
  rw [mem_nullabilityLinks]

theorem exists_plain_first (h : grammar.Standard) (condensed : Bool) :
    ∃ g, Graph.first grammar condensed = .ok g ∧
      g.PlainEdges fun kind x y => kind = .first ∧ FirstEdge grammar x y := by
  obtain ⟨g, hlinked, hfirst⟩ := exists_firstLinked h.toLawful
  have hplain : g.PlainEdges fun kind x y => kind = .first ∧ FirstEdge grammar x y :=
    hlinked.plainEdges.congr fun kind x y => by rw [mem_firstLinks_iff h.toLawful]
  cases condensed with
  | false => exact ⟨g, hfirst false, hplain⟩
  | true =>
    have hshows := hlinked.shows (by decide) (firstLeaves_ne_nil h)
    obtain ⟨_, g', made, added, hrun, hc⟩ := condense_spec hshows.condensable
    have hg' : Graph.first grammar = .ok g' := by
      refine (hfirst true).trans ?_
      simp [Edit.result, hrun]
    obtain ⟨f, hf, hgraph⟩ := exists_firstGraph h.toLawful (firstLeaves_ne_nil h)
    obtain rfl := Except.ok.inj (hg'.symm.trans hf)
    exact ⟨g', hg', hplain.condense hc (hgraph.distinct h).plain⟩

section Follow

variable {made leaves : List (Node × Node)} {endGroup endNode : Node} {follows : List Node}

/-- The nodes of the follow step before its leaves are grouped are told apart by kind and label. -/
theorem FollowLinked.plain (hl : FollowLinked grammar first g made leaves endGroup endNode follows)
    (h : grammar.Standard) (hf : FirstGraph grammar first) : g.Plain := by
  refine ⟨fun m hm n hn hkind hlabel => ?_, hl.nodup⟩
  cases hmg : m.isGroup with
  | true =>
    have hng : n.isGroup = true := by
      rw [Node.isGroup, ← hkind]
      exact hmg
    exact hl.eq_of_label_eq h hf (List.mem_filter.mpr ⟨hm, hmg⟩) (List.mem_filter.mpr ⟨hn, hng⟩)
      hlabel
  | false =>
    have hmk := hl.kind_of_leaf hm hmg
    exact (hl.labelled h hf).unique m hm n hn hmk (hkind.symm.trans hmk) hlabel

/-- What a group is carried to. -/
theorem FollowLinked.exists_copy
    (hl : FollowLinked grammar first g made leaves endGroup endNode follows)
    (hf : FirstGraph grammar first) {a b : String}
    (hget : (⟨idPairs made⟩ : Assoc String String).get? a = some b) :
    ∃ n ∈ g.nodes, n.kind = .group ∧ n.label = .string (carried (first.labelText a)) ∧
      n.id = b := by
  obtain ⟨c, hc, he⟩ := List.mem_map.mp (Assoc.get?_eq_some_of_lookupIn hget)
  obtain ⟨rfl, rfl⟩ := Prod.mk.inj he
  obtain ⟨hkind, hlabel, -⟩ := hl.groupCopy c hc
  have hold : c.1 ∈ first.nodes :=
    (List.mem_filter.mp (hl.groups_eq ▸ List.mem_map_of_mem hc : c.1 ∈ first.groups)).1
  refine ⟨c.2, hl.mem_nodes.mpr (.inl ⟨c, hc, rfl⟩), hkind, ?_, rfl⟩
  rw [hlabel, labelText_eq hf.tidy hold]

theorem FollowLinked.plainEdges
    (hl : FollowLinked grammar first g made leaves endGroup endNode follows)
    (h : grammar.Standard) (hf : FirstGraph grammar first) :
    g.PlainEdges fun kind x y => kind = .follow ∧ FollowEdge grammar x y ∨
      kind = .group ∧ CarriedEdge first x y := by
  have hjoins {a b : String} {e : Edge} (hplain : e.isGroupEdge = false)
      (ha : (⟨idPairs made⟩ : Assoc String String).get? a = some e.source)
      (hb : (⟨idPairs made⟩ : Assoc String String).get? b = some e.target) :
      g.Joins .group e (carried (first.labelText a), carried (first.labelText b)) :=
    ⟨hplain, hl.exists_copy hf ha, hl.exists_copy hf hb⟩
  refine (hl.plain h hf).plainEdges (fun e he hplain => ?_) ?_
  · rcases hl.edge e he with ⟨⟨x, y⟩, hpair, hj⟩ | ⟨-, hsource, -⟩
    · exact ⟨.follow, x, y, .inl ⟨rfl, (mem_followEdges_iff h.toLawful).mp hpair⟩, hj⟩
    · have hends : e.ends ∈ carriedEdges ⟨idPairs made⟩ first := by
        rw [← hl.between]
        exact List.mem_map_of_mem (List.mem_filter.mpr ⟨he, by simpa using hsource⟩)
      obtain ⟨d, hd, hcarry⟩ := List.mem_filterMap.mp hends
      simp only [Option.bind_eq_bind, Option.bind_eq_some_iff] at hcarry
      obtain ⟨a, ha, b, hb, hab⟩ := hcarry
      obtain ⟨rfl, rfl⟩ := Prod.mk.inj (Option.some.inj hab)
      obtain ⟨hd, hgroup⟩ := List.mem_filter.mp hd
      exact ⟨.group, _, _, .inr ⟨rfl, d, hd, hgroup, rfl, rfl⟩, hjoins hplain ha hb⟩
  · rintro kind x y (⟨rfl, hxy⟩ | ⟨rfl, d, hd, hgroup, rfl, rfl⟩)
    · exact hl.complete (x, y) ((mem_followEdges_iff h.toLawful).mpr hxy)
    · have hcopy {id : String} (hid : id ∈ first.groupIds) :
          ∃ b, (⟨idPairs made⟩ : Assoc String String).get? id = some b := by
        refine Assoc.exists_get?_of_mem_keys ?_
        rw [groupIds, ← hl.groups_eq] at hid
        simpa [Assoc.keys, idPairs] using hid
      obtain ⟨hsource, htarget⟩ := hf.ends_mem_groupIds hd hgroup
      obtain ⟨a, ha⟩ := hcopy hsource
      obtain ⟨b, hb⟩ := hcopy htarget
      have hends : (a, b) ∈ carriedEdges ⟨idPairs made⟩ first :=
        List.mem_filterMap.mpr ⟨d, List.mem_filter.mpr ⟨hd, hgroup⟩, by simp [ha, hb]⟩
      rw [← hl.between] at hends
      obtain ⟨e, he, hab⟩ := List.mem_map.mp hends
      obtain ⟨rfl, rfl⟩ := Prod.mk.inj hab
      obtain ⟨he, hfrom⟩ := List.mem_filter.mp he
      refine ⟨e, he, hjoins ?_ ha hb⟩
      -- an edge between groups is no group edge before the leaves are grouped
      exact (hl.shows h hf).condensable.edge e he |>.1

theorem exists_plain_follow (h : grammar.Standard) (hf : FirstGraph grammar first)
    (condensed : Bool) : ∃ g, follow grammar first condensed = .ok g ∧
      g.PlainEdges fun kind x y => kind = .follow ∧ FollowEdge grammar x y ∨
        kind = .group ∧ CarriedEdge first x y := by
  obtain ⟨g, made, leaves, endGroup, endNode, follows, hfollow, hl⟩ := exists_followLinked h hf
  have hplain := hl.plainEdges h hf
  cases condensed with
  | false => exact ⟨g, hfollow false, hplain⟩
  | true =>
    obtain ⟨_, g', made, added, hrun, hc⟩ := condense_spec (hl.shows h hf).condensable
    have hg' : follow grammar first = .ok g' := by
      refine (hfollow true).trans ?_
      simp [Edit.result, hrun]
    exact ⟨g', hg', hplain.condense hc (distinct_follow h hf hg').plain⟩

end Follow

/-! ### Grammars read from a text -/

/-- No two group edges join groups with the same labels. -/
theorem Distinct.nodup_groupEdges (h : g.Distinct) :
    ((g.edges.filter Edge.isGroupEdge).map
      fun e => (g.labelText e.source, g.labelText e.target)).Nodup := by
  have hnames : ((g.edges.filter Edge.isGroupEdge).map g.edgeName).Nodup :=
    h.nodup_edgeNames.sublist (List.filter_sublist.map _)
  refine List.Nodup.of_map pairName ?_
  rw [List.map_map]
  exact hnames

end Lookahead.Graph

namespace Lookahead

open Lookahead.Graph (PlainEdges NullabilityEdge FirstEdge FollowEdge CarriedEdge)
open Naming (carried followLeaf)

/-- With the marks of the solved rounds the graphs of all steps are built, condensed or not, and
their leaf edges are those that the productions ask for, each once. The edges between groups of the
follow step are the group edges of the first step, which join different pairs of groups. -/
theorem Graph.exists_exact_graphs {g : Grammar} (hg : g.FromText) :
    ((Nullability.solved g).productionList = g.productionList ∧
      (Nullability.solved g).terminalList = g.terminalList ∧
      ∀ s, g.Registered s →
        ((Nullability.solved g).nullable s = true ↔ Vanishes g.productionList [s])) ∧
    (∃ n, Graph.nullability (Nullability.solved g) = .ok n ∧
      n.PlainEdges fun kind x y => kind = .empty ∧ NullabilityEdge (Nullability.solved g) x y) ∧
    (∀ condensed, ∃ f, Graph.first (Nullability.solved g) condensed = .ok f ∧
      f.PlainEdges fun kind x y => kind = .first ∧ FirstEdge (Nullability.solved g) x y) ∧
    ∃ f, Graph.first (Nullability.solved g) = .ok f ∧
      ((f.edges.filter Edge.isGroupEdge).map
        fun e => (f.labelText e.source, f.labelText e.target)).Nodup ∧
      ∀ condensed, ∃ h, Graph.follow (Nullability.solved g) f condensed = .ok h ∧
        h.PlainEdges fun kind x y => kind = .follow ∧ FollowEdge (Nullability.solved g) x y ∨
          kind = .group ∧ CarriedEdge f x y := by
  obtain ⟨hv, hs, hm⟩ := Nullability.solved_spec hg.standard
  refine ⟨⟨hv.productionList, hv.terminalList, fun s hreg => ?_⟩,
    exists_plain_nullability hs.toLawful, exists_plain_first hs, ?_⟩
  · rw [← hv.productionList]
    refine hm.nullable s ?_
    rwa [Grammar.Registered, hv.nonterminalList, hv.terminalList]
  · obtain ⟨f, hf, hgraph⟩ := exists_firstGraph hs.toLawful (firstLeaves_ne_nil hs)
    exact ⟨f, hf, (hgraph.distinct hs).nodup_groupEdges, exists_plain_follow hs hgraph⟩

theorem Graph.exists_exact_graphs_sample : ∃ g f h, Grammar.ofText Tutor.Sample.text = .ok g ∧
    Graph.first (Nullability.solved g) = .ok f ∧
    Graph.follow (Nullability.solved g) f = .ok h ∧
    ∃! e, e ∈ h.edges ∧ h.Joins .follow e (carried "b", followLeaf "A") := by
  obtain ⟨g, hg, -, -, hproductions⟩ := Tutor.Sample.exists_grammar
  obtain ⟨⟨hlist, -⟩, -, -, f, hf, -, hfollow⟩ := exists_exact_graphs ⟨_, g, hg, .inl rfl⟩
  obtain ⟨h, hh, hedges⟩ := hfollow true
  refine ⟨g, f, h, hg, hf, hh, hedges.complete .follow _ _ (.inl ⟨rfl, .inr ?_⟩)⟩
  rw [hlist, hproductions]
  exact ⟨Tutor.Sample.long, by simp, [], Tutor.Sample.a, [Tutor.Sample.b], rfl, rfl, rfl,
    .inl ⟨[], Tutor.Sample.b, [], rfl, by simp, rfl⟩⟩

end Lookahead
