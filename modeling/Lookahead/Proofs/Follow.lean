import Lookahead.Proofs.First
import Lookahead.Proofs.Graph.FollowStep

/-!
# Follow sets

With all groups active the sets of the follow step hold the terminals that stand behind a
nonterminal in a derived form, and the end of the input where the nonterminal can stand at
the end of a form derived from the start marker.
-/

namespace Lookahead

open Naming (carried followLeaf endLeaf component)
open Lookahead.Graph (FirstGraph FollowGraph takeThrough)

/-- A terminal stands behind a symbol in a form derived from some nonterminal, or the symbol at the
end of a form derived from the start marker. -/
def Grammar.FollowOf (g : Grammar) (s : Symbol) (x : String) : Prop :=
  (∃ t ∈ g.terminalList, t.name = x ∧ Follows g.productionList g.nonterminalList t s) ∨
    x = Symbol.endOfInput.name ∧ EndsWith g.productionList Symbol.start s

/-! ### Seeds -/

namespace Graph

variable {grammar : Grammar} {first g : Graph}

theorem carriedSeeds_spec {sets : Assoc String NameSet} {nodes : List Node}
    (h : ∀ n ∈ nodes, ∃ m, g.lastGroup? (carried n.label.text) = some m) :
    ∃ entries, carriedSeeds sets g nodes = .ok entries ∧
      ∀ e, e ∈ entries ↔ ∃ n ∈ nodes, ∃ m, g.lastGroup? (carried n.label.text) = some m ∧
        e = (m.id, (sets.get? n.id).getD {}) := by
  induction nodes with
  | nil => exact ⟨[], rfl, by simp⟩
  | cons n nodes ih =>
    obtain ⟨entries, hentries, hmem⟩ := ih fun m hm => h m (List.mem_cons_of_mem _ hm)
    obtain ⟨m, hm⟩ := h n (List.mem_cons_self ..)
    refine ⟨(m.id, (sets.get? n.id).getD {}) :: entries, ?_, fun e => ?_⟩
    · simp only [carriedSeeds, hm, hentries]
      rfl
    · rw [List.mem_cons, hmem, List.exists_mem_cons_iff, hm]
      simp

/-- What the follow step starts with: the sets of the groups that are carried over, the end of the
input in its own group, and active groups that lead nowhere. -/
structure FollowStart (grammar : Grammar) (first g : Graph) (sets : Assoc String NameSet)
    (start : FollowSeeds) : Prop where
  keys : ∀ id ∈ start.seeds.keys, id ∈ g.groupIds
  active : ∀ id ∈ start.active, id ∈ g.groupIds ∧
    ∀ e ∈ g.edges, e.isGroupEdge = true → e.source ≠ id
  atCarried : ∀ {l a b}, first.LeafIn l a → g.LeafIn (carried l) b →
    start.seeds.get? b = some ((sets.get? a).getD {})
  atEnd : ∀ {b}, g.LeafIn (carried endLeaf) b →
    start.seeds.get? b = some (.ofList [Symbol.endOfInput.name])
  atFollow : ∀ s ∈ grammar.nonterminalList, ∀ {b}, g.LeafIn (followLeaf s.name) b →
    start.seeds.get? b = none

/-- The seeds of the groups that are carried over: one for each group of the first step, in a group
with the same leaves. -/
theorem FollowGraph.exists_carriedSeeds (hg : FollowGraph grammar first g)
    (sets : Assoc String NameSet) : ∃ entries, carriedSeeds sets g first.groups = .ok entries ∧
      (∀ e ∈ entries, ∃ n ∈ first.groups, ∃ m ∈ g.groups, e = (m.id, (sets.get? n.id).getD {}) ∧
        ∀ label, g.LeafIn label m.id ↔ ∃ l, label = carried l ∧ first.LeafIn l n.id) ∧
      ∀ n ∈ first.groups, ∃ m ∈ g.groups, (m.id, (sets.get? n.id).getD {}) ∈ entries ∧
        ∀ label, g.LeafIn label m.id ↔ ∃ l, label = carried l ∧ first.LeafIn l n.id := by
  obtain ⟨entries, hentries, hmem⟩ := carriedSeeds_spec (g := g)
    fun n hn => (hg.carriedGroup n hn).imp fun m hm => hm.2.1
  refine ⟨entries, hentries, fun e he => ?_, fun n hn => ?_⟩
  · obtain ⟨n, hn, m, hm, rfl⟩ := (hmem e).mp he
    obtain ⟨m', hm', hlast, hleaf⟩ := hg.carriedGroup n hn
    obtain rfl := Option.some.inj (hm.symm.trans hlast)
    exact ⟨n, hn, m, hm', rfl, hleaf⟩
  · obtain ⟨m, hm, hlast, hleaf⟩ := hg.carriedGroup n hn
    exact ⟨m, hm, (hmem _).mpr ⟨n, hn, m, hlast, rfl⟩, hleaf⟩

theorem FollowGraph.followSeeds (hg : FollowGraph grammar first g) (h : grammar.Standard)
    (hf : FirstGraph grammar first) (sets : Assoc String NameSet) :
    ∃ start, Graph.followSeeds first sets g = .ok start ∧
      FollowStart grammar first g sets start := by
  have hscalar : (g.groups.any fun n => n.label.scalar?.isNone) = false := by
    refine List.any_eq_false.mpr fun n hn => ?_
    rcases hg.titled n hn with ⟨l, hlabel, -⟩ | ⟨l, hlabel, -⟩ <;> simp [hlabel]
  obtain ⟨entries, hentries, hentry, hcarried⟩ := hg.exists_carriedSeeds sets
  obtain ⟨target, htarget, hlast, hleaf⟩ := hg.endGroup
  let seeds := (Assoc.ofList entries).put target.id (.ofList [Symbol.endOfInput.name])
  let isFinal (id : String) : Bool := id != target.id && !(g.outEdges id).any Edge.isGroupEdge
  have hkeys : ∀ id ∈ seeds.keys, id ∈ g.groupIds := by
    intro id hid
    by_cases he : id = target.id
    · exact he ▸ List.mem_map_of_mem htarget
    · obtain ⟨names, hget⟩ := Assoc.exists_get?_of_mem_keys hid
      by_contra hno
      rw [Assoc.get?_put_of_ne _ _ (Ne.symm he), Assoc.ofList,
        Assoc.get?_foldl_put_of_not_mem fun e hm => ?_] at hget
      · cases hget
      · rintro rfl
        obtain ⟨_, _, m, hmem, rfl, _⟩ := hentry _ hm
        exact hno (List.mem_map_of_mem hmem)
  refine ⟨⟨seeds, seeds.keys.filter isFinal⟩, ?_, hkeys, fun id hid => ?_, ?_, ?_, ?_⟩
  · simp only [Graph.followSeeds, hscalar, hentries, hlast]
    rfl
  · obtain ⟨hid, hfinal⟩ := List.mem_filter.mp hid
    refine ⟨hkeys id hid, fun e he hgroup hsource => ?_⟩
    simp only [isFinal, Bool.and_eq_true, Bool.not_eq_true', List.any_eq_false] at hfinal
    exact hfinal.2 e (List.mem_filter.mpr ⟨he, by simp [hsource]⟩) hgroup
  · intro l a b hl hb
    obtain ⟨n, hn, rfl⟩ := List.mem_map.mp (hf.mem_leaves hl).2
    obtain ⟨m, hm, hmem, hleaf'⟩ := hcarried n hn
    obtain rfl := hg.eq_of_leafIn hb ((hleaf' _).mpr ⟨l, rfl, hl⟩)
    have hne : target.id ≠ m.id := by
      intro he
      have hend := Naming.carried_injective ((hleaf (carried l)).mp (he ▸ hb))
      exact endLeaf_not_mem_firstLeaves h (hend ▸ (hf.mem_leaves hl).1)
    rw [Assoc.get?_put_of_ne _ _ hne, Assoc.ofList]
    refine Assoc.get?_foldl_put (fun e he hid => ?_) (.inr ⟨_, hmem, rfl⟩)
    obtain ⟨n', hn', m', hm', rfl, hleaf''⟩ := hentry e he
    have hid' : m'.id = m.id := hid
    obtain ⟨l', hl', hin⟩ := (hleaf'' (carried l)).mp (hid' ▸ hb)
    rw [hf.eq_of_leafIn hin (Naming.carried_injective hl' ▸ hl)]
  · intro b hb
    obtain rfl := hg.eq_of_leafIn hb ((hleaf _).mpr rfl)
    exact Assoc.get?_put_self ..
  · intro s hs b hb
    have hne : target.id ≠ b := by
      rintro rfl
      exact Naming.carried_ne_followLeaf _ _ ((hleaf _).mp hb).symm
    rw [Assoc.get?_put_of_ne _ _ hne, Assoc.ofList, Assoc.get?_foldl_put_of_not_mem]
    · rfl
    · rintro e he rfl
      obtain ⟨_, _, m, _, rfl, hleaf'⟩ := hentry e he
      obtain ⟨l, hl, -⟩ := (hleaf' _).mp hb
      exact Naming.carried_ne_followLeaf _ _ hl.symm

end Graph

/-! ### The propagation -/

/-- A propagation of follow sets over the graph of a grammar. -/
structure FollowRun (grammar : Grammar) (p : Propagation) : Prop where
  graph : ∃ first, FollowGraph grammar first p.graph
  onGraph : p.Over p.graph p.seeds p.initiallyActive
  atCarried : ∀ {s b}, grammar.Registered s → p.graph.LeafIn (carried s.name) b →
    ∀ x, x ∈ p.seedOf b ↔ grammar.FirstOf s x
  atEnd : ∀ {b}, p.graph.LeafIn (carried endLeaf) b →
    ∀ x, x ∈ p.seedOf b ↔ x = Symbol.endOfInput.name
  atFollow : ∀ s ∈ grammar.nonterminalList, ∀ {b}, p.graph.LeafIn (followLeaf s.name) b →
    ∀ x, x ∉ p.seedOf b

variable {grammar : Grammar} {p : Propagation}

theorem FollowRun.of_varies {q : Propagation} (h : FollowRun grammar p) (hv : p.Varies q) :
    FollowRun grammar q := by
  have hover := h.onGraph.of_varies hv
  obtain ⟨_, _, rfl⟩ := hv
  exact ⟨h.graph, hover, h.atCarried, h.atEnd, h.atFollow⟩

theorem FollowRun.acyclic (h : FollowRun grammar p) : p.Acyclic := by
  obtain ⟨_, hg⟩ := h.graph
  exact Propagation.acyclic_of_condensed hg.toCondensed h.onGraph

section Sets

variable (h : grammar.Standard) (he : Nullability.Marked grammar)
include h he

/-- The propagation of the follow step starts with the sets of a first step in which all groups are
active. -/
theorem exists_followRun {q : Propagation} (hq : FirstRun grammar q) (hsteady : q.Steady)
    (ha : q.AllActive) {sets : Assoc String NameSet}
    (hsets : ∀ b ∈ q.graph.groupIds, sets.get? b = some (q.computedOf b)) :
    ∃ graph start p, Graph.follow grammar q.graph = .ok graph ∧
      Graph.followSeeds q.graph sets graph = .ok start ∧
      Propagation.start graph start.seeds start.active = .ok p ∧ p.graph = graph ∧
      FollowRun grammar p ∧ p.Steady ∧ p.finished = false := by
  obtain ⟨graph, hgraph, hg⟩ := Graph.exists_followGraph h hq.graph
  obtain ⟨start, hstart, hs⟩ := hg.followSeeds h hq.graph sets
  obtain ⟨p, hp, hover, hsteady', hopen⟩ := Propagation.start_spec start.seeds
    start.active hg.tidy.groupIds_nodup (fun _ he => hg.ends_mem_groupIds he) hs.keys
    hs.active
  obtain rfl := hover.graph_eq
  refine ⟨p.graph, start, p, hgraph, hstart, hp, rfl, ⟨⟨_, hg⟩, ?_, ?_, ?_, ?_⟩, hsteady', hopen⟩
  · rwa [hover.seeds_eq, hover.initiallyActive_eq]
  · intro s b hreg hb x
    obtain ⟨a, hl⟩ := hq.graph.exists_leafIn s.name (Graph.mem_firstLeaves.mpr (.inl ⟨s, hreg, rfl⟩))
    rw [Propagation.seedOf, hover.seeds_eq, hs.atCarried hl hb,
      hsets a (hq.graph.mem_leaves hl).2]
    exact hq.mem_computedOf_iff h he hsteady ha hreg hl
  · intro b hb x
    rw [Propagation.seedOf, hover.seeds_eq, hs.atEnd hb]
    simp
  · intro s hmem b hb x
    rw [Propagation.seedOf, hover.seeds_eq, hs.atFollow s hmem hb]
    exact NameSet.not_mem_empty x

/-! ### The sets -/

omit h in
/-- The symbols that carry their first sets behind a symbol are those that can open what stands
behind it. -/
theorem opens_rest_iff {F : Symbol → Prop} {rest : List Symbol}
    (hregistered : ∀ s ∈ rest, grammar.Registered s) :
    Opens (fun s => Vanishes grammar.productionList [s]) F rest ↔
      ∃ s ∈ takeThrough (fun s => !grammar.nullable s) rest, F s := by
  rw [opens_iff_exists_mem_takeThrough]
  intro s hs
  simp [← he.nullable s (hregistered s hs)]

/-- What a set that comes from a leaf may hold. -/
def FollowRun.Reason (grammar : Grammar) (label x : String) : Prop :=
  (∀ s, grammar.Registered s → label = carried s.name → grammar.FirstOf s x) ∧
    (label = carried endLeaf → x = Symbol.endOfInput.name) ∧
    ∀ s ∈ grammar.nonterminalList, label = followLeaf s.name → grammar.FollowOf s x

omit he in
/-- What stands before an opening or a vanishing rest of a body has its reason to follow. -/
theorem followOf_of_supplies {r : Production} (hr : r ∈ grammar.productionList)
    {before rest : List Symbol} {s : Symbol} (hbody : r.body = before ++ s :: rest)
    (hs : s.isNonterminal = true) {x : String}
    (hx : (∃ t ∈ grammar.terminalList, t.name = x ∧
        Supplies (fun s => Vanishes grammar.productionList [s])
          (fun s => Begins grammar.productionList t [s])
          (Follows grammar.productionList grammar.nonterminalList t r.left) rest) ∨
      x = Symbol.endOfInput.name ∧ (∀ s ∈ rest, Vanishes grammar.productionList [s]) ∧
        EndsWith grammar.productionList Symbol.start r.left) : grammar.FollowOf s x := by
  rcases hx with ⟨t, ht, rfl, hsup⟩ | ⟨rfl, hrest, hend⟩
  · have hobeys := followingClosed_follows (fun p hp => h.left_mem hp) t r hr
    rw [hbody] at hobeys
    exact .inl ⟨t, ht, rfl, hobeys.of_append hs hsup⟩
  · have hobeys := followingClosed_endsWith Symbol.start r hr
    rw [hbody] at hobeys
    exact .inr ⟨rfl, hobeys.of_append hs (.inr ⟨hrest, hend⟩)⟩

theorem FollowRun.reason_of_mem_followEdges {a b x : String}
    (hlink : (a, b) ∈ Graph.followEdges grammar) (hx : Reason grammar a x) :
    Reason grammar b x := by
  obtain ⟨⟨-, target, htarget, hb⟩, -⟩ := Graph.ends_of_mem_followEdges h hlink
  have hb : b = followLeaf target.name := hb
  refine ⟨fun s _ hs => ?_, fun hs => ?_, fun s hs hname => ?_⟩
  · exact absurd (hs.symm.trans hb) (Naming.carried_ne_followLeaf _ _)
  · exact absurd (hs.symm.trans hb) (Naming.carried_ne_followLeaf _ _)
  rcases List.mem_cons.mp hlink with hpair | hlink
  · obtain ⟨rfl, rfl⟩ := Prod.mk.inj hpair
    obtain rfl := h.eq_of_name_eq (.inl hs) (.inl h.start_mem)
      (Naming.followLeaf_injective hname).symm
    exact .inr ⟨hx.2.1 rfl, [], .refl _⟩
  · obtain ⟨r, hr, hepsilon, hlink⟩ := Graph.mem_followLinks.mp hlink
    have hregistered := Graph.registered_of_right_eq h hr hepsilon
    obtain ⟨before, y, rest, hright, hy, hlink⟩ := Graph.mem_followLinksOf.mp hlink
    have hbody : r.body = before ++ y :: rest := by rw [Production.body, hepsilon]; exact hright
    have hrest : ∀ s ∈ rest, grammar.Registered s := fun s hs => hregistered s (by simp [hright, hs])
    have hyr : grammar.Registered y := hregistered y (by simp [hright])
    rcases Graph.mem_contributions.mp hlink with ⟨z, hz, hpair⟩ | ⟨hnull, hpair⟩
    · obtain ⟨rfl, rfl⟩ := Prod.mk.inj hpair
      obtain rfl := h.eq_of_name_eq hyr (.inl hs) (Naming.followLeaf_injective hname)
      obtain ⟨t, ht, rfl, hbegins⟩ :=
        hx.1 z (hrest z (Graph.mem_of_mem_takeThrough hz)) rfl
      exact followOf_of_supplies h hr hbody hy
        (.inl ⟨t, ht, rfl, .inl ((opens_rest_iff he hrest).mpr ⟨z, hz, hbegins⟩)⟩)
    · obtain ⟨rfl, rfl⟩ := Prod.mk.inj hpair
      obtain rfl := h.eq_of_name_eq hyr (.inl hs) (Naming.followLeaf_injective hname)
      have hvanish : ∀ s ∈ rest, Vanishes grammar.productionList [s] :=
        fun s hs => (he.nullable s (hrest s hs)).mp (hnull s hs)
      refine followOf_of_supplies h hr hbody hy ?_
      rcases hx.2.2 r.left (h.left_mem hr) rfl with ⟨t, ht, rfl, hfollows⟩ | ⟨rfl, hend⟩
      · exact .inl ⟨t, ht, rfl, .inr ⟨hvanish, hfollows⟩⟩
      · exact .inr ⟨rfl, hvanish, hend⟩

section Run

variable (hp : FollowRun grammar p) (hsteady : p.Steady) (ha : p.AllActive)
include hp hsteady ha

theorem FollowRun.reason_of_mem_computedOf {label b x : String} (hl : p.graph.LeafIn label b)
    (hx : x ∈ p.computedOf b) : Reason grammar label x := by
  obtain ⟨first, hg⟩ := hp.graph
  refine Propagation.of_mem_computedOf_leaf (motive := Reason grammar) hg.toCondensed hp.onGraph
    hsteady ha (fun {label b x} hl hx => ⟨fun s hs hname => ?_, fun hname => ?_,
      fun s hs hname => ?_⟩) (fun hlink hx => reason_of_mem_followEdges h he hlink hx) hl hx
  · exact (hp.atCarried hs (hname ▸ hl) x).mp hx
  · exact (hp.atEnd (hname ▸ hl) x).mp hx
  · exact absurd hx (hp.atFollow s hs (hname ▸ hl) x)

/-- The nonterminals whose sets hold a name, which everything is passed on to that can stand behind
them. -/
theorem FollowRun.followingClosed {F : Symbol → Prop} {x : String}
    (hF : ∀ s, grammar.Registered s → F s → grammar.FirstOf s x) :
    FollowingClosed grammar.productionList (fun s => Vanishes grammar.productionList [s]) F
      fun s => ∃ b, p.graph.LeafIn (followLeaf s.name) b ∧ x ∈ p.computedOf b := by
  obtain ⟨first, hg⟩ := hp.graph
  have hcarry {a b i : String} (hlink : (a, b) ∈ Graph.followEdges grammar)
      (hi : p.graph.LeafIn a i) (hx : x ∈ p.computedOf i) :
      ∃ j, p.graph.LeafIn b j ∧ x ∈ p.computedOf j := by
    obtain ⟨⟨-, target, htarget, hb⟩, -⟩ := Graph.ends_of_mem_followEdges h hlink
    have hb : b = followLeaf target.name := hb
    obtain ⟨j, hj⟩ := hg.exists_leafIn b
      (Graph.mem_followLeaves.mpr (.inr (.inr ⟨target, htarget, hb⟩)))
    exact ⟨j, hj, Propagation.computedOf_subset_of_edge hg.toCondensed hp.onGraph hsteady ha hlink
      hi hj hx⟩
  intro r hr
  rcases h.body_cases hr with ⟨-, hbody⟩ | ⟨hbody, hregistered⟩
  · rw [hbody]
    trivial
  · have hepsilon : r.isEpsilon = false := by
      by_contra hno
      rw [Bool.not_eq_false] at hno
      rw [Production.body, if_pos hno] at hbody
      exact h.right_ne_nil hr hbody.symm
    have hlink {before rest : List Symbol} {s : Symbol} {pair : String × String}
        (hb : r.body = before ++ s :: rest) (hs : s.isNonterminal = true)
        (hp : pair ∈ Graph.contributions grammar r.left s rest) :
        pair ∈ Graph.followEdges grammar :=
      List.mem_cons_of_mem _ (Graph.mem_followLinks.mpr ⟨r, hr, hepsilon,
        Graph.mem_followLinksOf.mpr ⟨before, s, rest, hbody ▸ hb, hs, hp⟩⟩)
    refine obeys_of_parts (fun before s rest hb hs hopens => ?_)
      fun before s rest hb hs hvanish ⟨i, hi, hx⟩ => ?_
    · have hrest : ∀ z ∈ rest, grammar.Registered z := fun z hz =>
        h.registered_of_mem_body hr (by simp [hb, hz])
      obtain ⟨z, hz, hFz⟩ := (opens_rest_iff he hrest).mp hopens
      have hzr := hrest z (Graph.mem_of_mem_takeThrough hz)
      obtain ⟨i, hi⟩ := hg.exists_leafIn (carried z.name)
        (Graph.mem_followLeaves.mpr (.inl ⟨_, Graph.mem_firstLeaves.mpr (.inl ⟨z, hzr, rfl⟩), rfl⟩))
      have hi' : i ∈ p.order := by
        rw [hp.onGraph.order_eq]
        exact (hg.mem_leaves hi).2
      have hseed := (hp.atCarried hzr hi x).mpr (hF z hzr hFz)
      exact hcarry (hlink hb hs (Graph.mem_contributions.mpr (.inl ⟨z, hz, rfl⟩))) hi
        (Propagation.seedOf_subset hsteady ha hi' hseed)
    · have hnull : ∀ z ∈ rest, grammar.nullable z = true := fun z hz =>
        (he.nullable z (h.registered_of_mem_body hr (by simp [hb, hz]))).mpr (hvanish z hz)
      exact hcarry (hlink hb hs (Graph.mem_contributions.mpr (.inr ⟨hnull, rfl⟩))) hi hx

/-- The sets of the follow step are the follow sets. -/
theorem FollowRun.mem_computedOf_iff {s : Symbol} (hs : s ∈ grammar.nonterminalList)
    {b x : String} (hb : p.graph.LeafIn (followLeaf s.name) b) :
    x ∈ p.computedOf b ↔ grammar.FollowOf s x := by
  obtain ⟨first, hg⟩ := id hp.graph
  have hleft : ∀ r ∈ grammar.productionList, r.left.isNonterminal = true :=
    fun r hr => h.isNonterminal_left hr
  have hnonterminal {a : Symbol} (ha : a ∈ grammar.nonterminalList) : a.isNonterminal = true := by
    simp [Symbol.isNonterminal, h.kind_of_mem_nonterminalList ha]
  constructor
  · exact fun hx => (hp.reason_of_mem_computedOf h he hsteady ha hb hx).2.2 s hs rfl
  rintro (⟨t, ht, rfl, root, hroot, u, v, hderives⟩ | ⟨rfl, u, hderives⟩)
  · have hclosed := hp.followingClosed h he hsteady ha
      (F := fun s => Begins grammar.productionList t [s]) fun s _ hF => ⟨t, ht, rfl, hF⟩
    have hobeys := hclosed.obeys_of_root vanishingClosed_vanishes (openingClosed_begins t) hleft
      False hderives False.elim
    obtain ⟨i, hi, hx⟩ := hobeys.of_append (hnonterminal hs) (.inl (.inl ⟨[], .refl _⟩))
    exact hg.eq_of_leafIn hi hb ▸ hx
  · have hclosed := hp.followingClosed h he hsteady ha (F := fun _ => False)
      (x := Symbol.endOfInput.name) fun _ _ hF => hF.elim
    -- the end of the input stands behind the start marker
    have hstart : ∃ i, p.graph.LeafIn (followLeaf Symbol.startName) i ∧
        Symbol.endOfInput.name ∈ p.computedOf i := by
      obtain ⟨i, hi⟩ := hg.exists_leafIn (carried endLeaf)
        (Graph.mem_followLeaves.mpr (.inr (.inl rfl)))
      obtain ⟨j, hj⟩ := hg.exists_leafIn (followLeaf Symbol.startName)
        (Graph.mem_followLeaves.mpr (.inr (.inr ⟨_, h.start_mem, rfl⟩)))
      have hi' : i ∈ p.order := by
        rw [hp.onGraph.order_eq]
        exact (hg.mem_leaves hi).2
      have hseed := (hp.atEnd hi Symbol.endOfInput.name).mpr rfl
      exact ⟨j, hj, Propagation.computedOf_subset_of_edge hg.toCondensed hp.onGraph hsteady ha
        (List.mem_cons_self ..) hi hj (Propagation.seedOf_subset hsteady ha hi' hseed)⟩
    have hobeys := hclosed.obeys_of_root vanishingClosed_vanishes
      (fun _ _ h => absurd h not_opens_false) hleft True hderives fun _ => hstart
    obtain ⟨i, hi, hx⟩ := hobeys.of_append (hnonterminal hs) (.inr ⟨by simp, trivial⟩)
    exact hg.eq_of_leafIn hi hb ▸ hx

end Run

end Sets

end Lookahead
