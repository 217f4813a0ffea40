import Lookahead.Graph.Seeds
import Lookahead.Proofs.Graph.FirstStep
import Lookahead.Proofs.Nullability
import Lookahead.Proofs.Propagation.Leaves

/-!
# First sets

With all groups active the set of a group of the first step holds the terminals with which
the forms derived from its symbols begin: the terminals that the propagation brings are
derived along the edges it took, and the sets are closed under the productions, so none is
missing.
-/

namespace Lookahead

open Naming (terminalLeaf)
open Lookahead.Graph (FirstGraph takeThrough)

/-- A form derived from a symbol begins with the terminal of a name. -/
def Grammar.FirstOf (g : Grammar) (s : Symbol) (x : String) : Prop :=
  ∃ t ∈ g.terminalList, t.name = x ∧ Begins g.productionList t [s]

/-! ### Seeds -/

namespace Graph

variable {grammar : Grammar} {g : Graph}

theorem terminalsOf_spec {nodes : List Node}
    (h : ∀ n ∈ nodes, ∃ label : String, n.label = .string label) :
    ∃ names, terminalsOf nodes = .ok names ∧ ∀ x, x ∈ names ↔
      ∃ n ∈ nodes, ∃ label : String, n.label = .string label ∧
        Naming.leafTerminal? label = some x := by
  induction nodes with
  | nil => exact ⟨[], rfl, by simp⟩
  | cons n nodes ih =>
    obtain ⟨names, hnames, hmem⟩ := ih fun m hm => h m (List.mem_cons_of_mem _ hm)
    obtain ⟨label, hlabel⟩ := h n (List.mem_cons_self ..)
    refine ⟨(Naming.leafTerminal? label).toList ++ names, ?_, fun x => ?_⟩
    · rw [terminalsOf, hlabel]
      simp only [Text.Loose.text_ofString, hnames]
      rfl
    · have hself : (∃ l : String, n.label = .string l ∧ Naming.leafTerminal? l = some x) ↔
          Naming.leafTerminal? label = some x := by
        simp only [hlabel, Json.string_inj]
        constructor
        · rintro ⟨_, he, hx⟩
          exact he ▸ hx
        · exact fun hx => ⟨label, rfl, hx⟩
      rw [List.mem_append, hmem, Option.mem_toList, List.exists_mem_cons_iff, hself]

theorem seedsOf_spec {groups : List Node} (h : ∀ n ∈ groups, ∀ m ∈ g.members n.id,
    ∃ label : String, m.label = .string label) :
    ∃ entries, g.seedsOf groups = .ok entries ∧ entries.map Prod.fst = groups.map Node.id ∧
      ∀ e ∈ entries, ∀ x, x ∈ e.2 ↔ ∃ m ∈ g.members e.1, ∃ label : String,
        m.label = .string label ∧ Naming.leafTerminal? label = some x := by
  induction groups with
  | nil => exact ⟨[], rfl, rfl, by simp⟩
  | cons n groups ih =>
    obtain ⟨entries, hentries, hids, hmem⟩ := ih fun m hm => h m (List.mem_cons_of_mem _ hm)
    obtain ⟨names, hnames, hspec⟩ := terminalsOf_spec (h n (List.mem_cons_self ..))
    refine ⟨(n.id, .ofList names) :: entries, ?_, ?_, ?_⟩
    · simp only [seedsOf, hnames, hentries]
      rfl
    · rw [List.map_cons, List.map_cons, hids]
    · refine List.forall_mem_cons.mpr ⟨fun x => ?_, hmem⟩
      rw [NameSet.mem_ofList, hspec]

/-- Every terminal starts in the group of its own leaf. -/
theorem FirstGraph.firstSeeds (hg : FirstGraph grammar g) (h : grammar.Lawful) :
    ∃ seeds, g.firstSeeds = .ok seeds ∧ seeds.keys = g.groupIds ∧ ∀ b ∈ g.groupIds, ∀ x,
      x ∈ (seeds.get? b).getD {} ↔ ∃ t ∈ grammar.terminalList, t.name = x ∧
        g.LeafIn (terminalLeaf t.name) b := by
  obtain ⟨entries, hentries, hids, hmem⟩ := seedsOf_spec (g := g)
    fun n _ m hm => (hg.mem_members hm).2.imp fun _ h => h.1
  have hids' : entries.map Prod.fst = g.groupIds := hids
  have hnodup : (entries.map Prod.fst).Nodup := hids' ▸ hg.tidy.groupIds_nodup
  refine ⟨.ofList entries, by simp only [Graph.firstSeeds, hentries]; rfl, ?_, fun b hb x => ?_⟩
  · rw [Assoc.ofList_eq hnodup]
    exact hids
  · rw [Assoc.ofList_eq hnodup]
    obtain ⟨e, he, rfl⟩ := List.mem_map.mp (hids' ▸ hb : b ∈ entries.map Prod.fst)
    rw [(Assoc.get?_eq_some_iff (m := ⟨entries⟩) hnodup).mpr he, Option.getD_some, hmem e he]
    constructor
    · rintro ⟨m, hm, label, hlabel, hx⟩
      obtain ⟨-, label', hlabel', hleaf⟩ := hg.mem_members hm
      rw [hlabel, Json.string_inj] at hlabel'
      subst hlabel'
      rcases mem_firstLeaves.mp (hg.mem_leaves hleaf).1 with ⟨s, hs, rfl⟩ | ⟨_, rfl⟩ | ⟨t, ht, rfl⟩
      · rw [(short_of_registered h hs).leafTerminal?_eq_none] at hx
        cases hx
      · rw [Symbol.short_epsilon.leafTerminal?_eq_none] at hx
        cases hx
      · rw [(short_of_registered h (.inr ht)).leafTerminal?_terminalLeaf] at hx
        exact ⟨t, ht, Option.some.inj hx, hleaf⟩
    · rintro ⟨t, ht, rfl, hleaf⟩
      obtain ⟨m, hm, hlabel⟩ := exists_member_of_leafIn hleaf
      exact ⟨m, hm, _, hlabel, (short_of_registered h (.inr ht)).leafTerminal?_terminalLeaf⟩

end Graph

/-! ### The propagation -/

/-- A propagation of first sets over the graph of a grammar. -/
structure FirstRun (grammar : Grammar) (p : Propagation) : Prop where
  graph : FirstGraph grammar p.graph
  onGraph : p.Over p.graph p.seeds []
  seed : ∀ b ∈ p.graph.groupIds, ∀ x, x ∈ p.seedOf b ↔
    ∃ t ∈ grammar.terminalList, t.name = x ∧ p.graph.LeafIn (terminalLeaf t.name) b

variable {grammar : Grammar} {p : Propagation}

theorem FirstRun.of_varies {q : Propagation} (h : FirstRun grammar p) (hv : p.Varies q) :
    FirstRun grammar q := by
  have hover := h.onGraph.of_varies hv
  obtain ⟨_, _, rfl⟩ := hv
  exact ⟨h.graph, hover, h.seed⟩

theorem FirstRun.acyclic (h : FirstRun grammar p) : p.Acyclic :=
  Propagation.acyclic_of_condensed h.graph.toCondensed h.onGraph

/-- The propagation of the first step starts, for every valid grammar that has symbols. -/
theorem exists_firstRun (h : grammar.Lawful) (hne : Graph.firstLeaves grammar ≠ []) :
    ∃ graph seeds p, Graph.first grammar = .ok graph ∧ graph.firstSeeds = .ok seeds ∧
      Propagation.start graph seeds = .ok p ∧ p.graph = graph ∧ FirstRun grammar p ∧
      p.Steady ∧ p.finished = false := by
  obtain ⟨graph, hgraph, hg⟩ := Graph.exists_firstGraph h hne
  obtain ⟨seeds, hseeds, hkeys, hseed⟩ := hg.firstSeeds h
  obtain ⟨p, hp, hover, hsteady, hopen⟩ := Propagation.start_spec seeds []
    hg.tidy.groupIds_nodup (fun _ he => hg.ends_mem_groupIds he)
    (fun id hid => by rwa [hkeys] at hid) (by simp)
  obtain rfl := hover.graph_eq
  obtain rfl := hover.seeds_eq
  exact ⟨p.graph, p.seeds, p, hgraph, hseeds, hp, rfl, ⟨hg, hover, hseed⟩, hsteady, hopen⟩

/-! ### The sets -/

theorem opens_iff_exists_mem_takeThrough {N F : Symbol → Prop} {stop : Symbol → Bool}
    {u : List Symbol} (hstop : ∀ s ∈ u, stop s = true ↔ ¬N s) :
    Opens N F u ↔ ∃ s ∈ takeThrough stop u, F s := by
  induction u with
  | nil => simp [Opens, takeThrough]
  | cons s u ih =>
    have hs := hstop s (List.mem_cons_self ..)
    rw [Opens, ih fun t ht => hstop t (List.mem_cons_of_mem _ ht), takeThrough]
    by_cases hN : N s
    · have hgo : stop s = false := by simpa [hN] using hs
      simp [hgo, hN]
    · rw [if_pos (hs.mpr hN)]
      simp [hN]

section Sets

variable (h : grammar.Standard) (he : Nullability.Marked grammar)
include h he

/-- The symbols that are linked to a left side are those that can open a body. -/
theorem opens_body_iff {F : Symbol → Prop} {r : Production} (hbody : r.body = r.right)
    (hregistered : ∀ s ∈ r.right, grammar.Registered s) :
    Opens (fun s => Vanishes grammar.productionList [s]) F r.body ↔
      ∃ s ∈ Graph.openers grammar r.right, F s := by
  rw [hbody, Graph.openers, opens_iff_exists_mem_takeThrough]
  intro s hs
  have hnull := he.nullable s (hregistered s hs)
  simp [← hnull, h.not_isEpsilon (hregistered s hs)]

/-- What a set that comes from a leaf may hold. -/
def FirstRun.Reason (grammar : Grammar) (label x : String) : Prop :=
  ∃ t ∈ grammar.terminalList, t.name = x ∧ (label = terminalLeaf t.name ∨
    ∃ s, grammar.Registered s ∧ label = s.name ∧ Begins grammar.productionList t [s])

theorem FirstRun.reason_of_mem_firstLinks {s t x : String}
    (hlink : (s, t) ∈ Graph.firstLinks grammar) (hx : Reason grammar s x) :
    Reason grammar t x := by
  obtain ⟨u, hu, rfl, hx⟩ := hx
  have hleaf := Graph.short_of_registered h (.inr hu)
  rcases Graph.mem_firstLinks.mp hlink with ⟨t', ht', hpair⟩ | ⟨r, hr, a, ha, hpair⟩
  · obtain ⟨rfl, rfl⟩ := Prod.mk.inj hpair
    rcases hx with hname | ⟨a, ha, hname, -⟩
    · obtain rfl := h.eq_of_name_eq (.inr ht') (.inr hu) (Naming.terminalLeaf_injective hname)
      exact ⟨t', hu, rfl, .inr ⟨t', .inr hu, rfl, [], .refl _⟩⟩
    · exact absurd hname.symm ((Graph.short_of_registered h ha).ne_terminalLeaf
        (Graph.short_of_registered h (.inr ht')))
  · obtain ⟨rfl, rfl⟩ := Prod.mk.inj hpair
    have hright := Graph.mem_of_mem_takeThrough ha
    rcases hx with hname | ⟨b, hb, hname, hbegins⟩
    · exact absurd hname ((Graph.short_of_mem_right h hr hright).ne_terminalLeaf hleaf)
    · rcases h.body_cases hr with ⟨hepsilon, -⟩ | ⟨hbody, hregistered⟩
      · rw [hepsilon, List.mem_singleton] at hright
        exact absurd (hright ▸ hname).symm (h.proper_of_registered hb).name_ne.1
      · obtain rfl := h.eq_of_name_eq (hregistered a hright) hb hname
        refine ⟨u, hu, rfl, .inr ⟨r.left, .inl (h.left_mem hr), rfl, ?_⟩⟩
        exact openingClosed_begins u r hr
          ((opens_body_iff h he hbody hregistered).mpr ⟨a, ha, hbegins⟩)

/-- The sets of the first step are the first sets. -/
theorem FirstRun.mem_computedOf_iff (hp : FirstRun grammar p) (hsteady : p.Steady)
    (ha : p.AllActive) {s : Symbol} (hs : grammar.Registered s) {b x : String}
    (hb : p.graph.LeafIn s.name b) : x ∈ p.computedOf b ↔ grammar.FirstOf s x := by
  have horder {label b : String} (hl : p.graph.LeafIn label b) : b ∈ p.order := by
    rw [hp.onGraph.order_eq]
    exact (hp.graph.mem_leaves hl).2
  constructor
  · intro hx
    obtain ⟨t, ht, rfl, hreason⟩ := Propagation.of_mem_computedOf_leaf
      (motive := FirstRun.Reason grammar) hp.graph.toCondensed hp.onGraph hsteady ha
      (fun {label b x} hl hx => by
        obtain ⟨t, ht, rfl, hleaf⟩ := (hp.seed b (hp.graph.mem_leaves hl).2 x).mp hx
        exact ⟨t, ht, rfl, .inl (hp.graph.eq_terminalLeaf h ht hleaf hl)⟩)
      (fun hlink hx => reason_of_mem_firstLinks h he hlink hx) hb hx
    rcases hreason with hname | ⟨a, ha, hname, hbegins⟩
    · exact absurd hname ((Graph.short_of_registered h hs).ne_terminalLeaf
        (Graph.short_of_registered h (.inr ht)))
    · exact ⟨t, ht, rfl, h.eq_of_name_eq hs ha hname ▸ hbegins⟩
  · rintro ⟨t, ht, rfl, hbegins⟩
    have hcarry {a b : Symbol} (hlink : (a.name, b.name) ∈ Graph.firstLinks grammar) {i j : String}
        (hi : p.graph.LeafIn a.name i) (hj : p.graph.LeafIn b.name j) (hx : t.name ∈ p.computedOf i) :
        t.name ∈ p.computedOf j :=
      Propagation.computedOf_subset_of_edge hp.graph.toCondensed hp.onGraph hsteady ha hlink hi hj hx
    -- the symbols whose groups hold the terminal are closed under the productions
    let F (a : Symbol) : Prop := ∃ i, p.graph.LeafIn a.name i ∧ t.name ∈ p.computedOf i
    have hclosed : OpeningClosed grammar.productionList
        (fun s => Vanishes grammar.productionList [s]) F := by
      intro r hr hopens
      rcases h.body_cases hr with ⟨-, hbody⟩ | ⟨hbody, hregistered⟩
      · rw [hbody] at hopens
        exact hopens.elim
      · obtain ⟨a, hmem, i, hi, hx⟩ := (opens_body_iff h he hbody hregistered).mp hopens
        obtain ⟨j, hj⟩ := hp.graph.exists_leafIn r.left.name
          (Graph.mem_firstLeaves.mpr (.inl ⟨r.left, .inl (h.left_mem hr), rfl⟩))
        exact ⟨j, hj, hcarry (Graph.mem_firstLinks.mpr (.inr ⟨r, hr, a, hmem, rfl⟩)) hi hj hx⟩
    have hterminal : F t := by
      obtain ⟨i, hi⟩ := hp.graph.exists_leafIn (terminalLeaf t.name)
        (Graph.mem_firstLeaves.mpr (.inr (.inr ⟨t, ht, rfl⟩)))
      obtain ⟨j, hj⟩ := hp.graph.exists_leafIn t.name
        (Graph.mem_firstLeaves.mpr (.inl ⟨t, .inr ht, rfl⟩))
      have hseed : t.name ∈ p.seedOf i :=
        (hp.seed i (hp.graph.mem_leaves hi).2 t.name).mpr ⟨t, ht, rfl, hi⟩
      have hlink : (terminalLeaf t.name, t.name) ∈ Graph.firstLinks grammar :=
        Graph.mem_firstLinks.mpr (.inl ⟨t, ht, rfl⟩)
      exact ⟨j, hj, Propagation.computedOf_subset_of_edge hp.graph.toCondensed hp.onGraph hsteady ha
        hlink hi hj (Propagation.seedOf_subset hsteady ha (horder hi) hseed)⟩
    rcases hclosed.opens vanishingClosed_vanishes hterminal hbegins with ⟨i, hi, hx⟩ | ⟨_, hno⟩
    · exact hp.graph.eq_of_leafIn hi hb ▸ hx
    · exact hno.elim

end Sets

end Lookahead
