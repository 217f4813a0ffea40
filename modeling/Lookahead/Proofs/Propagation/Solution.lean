import Lookahead.Proofs.Propagation.Settling

/-!
# The solution of a propagation

In a current state every set is the seed of its group with the sets of the active senders.
Without circles among the links this determines the sets, and where more groups are active
they are larger. With all groups active they are the least sets that contain the seeds and
are passed on along the links. A check of a current state finds inactive groups only.
-/

namespace Lookahead.Propagation

variable {p q : Propagation}

/-! ### Starting -/

section Links

variable {graph : Graph} {order : List String} {links found : List (String × String)}
  {edges : List Edge}

theorem exists_readLinks (graph : Graph) (links : List (String × String))
    (hedges : ∀ e ∈ edges, e.isGroupEdge = true → e.source ≠ e.target →
      e.source ∈ order ∧ e.target ∈ order) :
    ∃ found, readLinks graph order links edges = .ok found := by
  fun_induction readLinks graph order links edges with
  | case1 links => exact ⟨links, rfl⟩
  | case2 _ _ _ _ ih => exact ih (List.forall_mem_cons.mp hedges).2
  | case3 _ _ _ hskip hends =>
    simp only [Bool.or_eq_true, Bool.not_eq_true', decide_eq_true_eq, not_or,
      Bool.not_eq_false] at hskip
    obtain ⟨hs, ht⟩ := (List.forall_mem_cons.mp hedges).1 hskip.1 hskip.2
    simp [hs, ht] at hends
  | case4 _ _ _ _ _ _ ih | case5 _ _ _ _ _ _ ih => exact ih (List.forall_mem_cons.mp hedges).2

/-- The links are read only if all group edges between different nodes join groups. -/
theorem ends_of_readLinks
    (h : readLinks graph order links edges = .ok found) : ∀ e ∈ edges, e.isGroupEdge = true →
      e.source ≠ e.target → e.source ∈ order ∧ e.target ∈ order := by
  fun_induction readLinks graph order links edges with
  | case1 => exact fun e he => absurd he List.not_mem_nil
  | case2 links e edges hskip ih =>
    refine List.forall_mem_cons.mpr ⟨fun hg hne => ?_, ih h⟩
    simp [hg, hne] at hskip
  | case3 => cases h
  | case4 links e edges _ hends _ ih | case5 links e edges _ hends _ ih =>
    refine List.forall_mem_cons.mpr ⟨fun _ _ => ?_, ih h⟩
    simpa using hends

theorem nodup_of_readLinks (h : readLinks graph order links edges = .ok found)
    (hlinks : links.Nodup) : found.Nodup := by
  fun_induction readLinks graph order links edges with
  | case1 => exact Except.ok.inj h ▸ hlinks
  | case2 _ _ _ _ ih | case4 _ _ _ _ _ _ ih => exact ih h hlinks
  | case3 => cases h
  | case5 links e edges _ _ hnew ih =>
    refine ih h ?_
    rw [← List.concat_eq_append]
    exact hlinks.concat (by simpa using hnew)

/-- The pairs read are those of the group edges between different nodes. -/
theorem mem_of_readLinks (h : readLinks graph order links edges = .ok found) (a b : String) :
    (a, b) ∈ found ↔ (a, b) ∈ links ∨
      a ≠ b ∧ ∃ e ∈ edges, e.isGroupEdge = true ∧ e.source = a ∧ e.target = b := by
  fun_induction readLinks graph order links edges with
  | case1 => simp [Except.ok.inj h]
  | case2 links e edges hskip ih =>
    rw [ih h, List.exists_mem_cons_iff]
    refine or_congr_right (and_congr_right fun hne => (or_iff_right ?_).symm)
    rintro ⟨hg, rfl, rfl⟩
    simp [hg, hne] at hskip
  | case3 => cases h
  | case4 links e edges _ _ hold ih =>
    rw [ih h, List.exists_mem_cons_iff]
    have hold : (e.source, e.target) ∈ links := List.contains_iff_mem.mp hold
    constructor
    · exact Or.imp_right fun ⟨hne, hd⟩ => ⟨hne, .inr hd⟩
    · rintro (hl | ⟨hne, ⟨-, rfl, rfl⟩ | hd⟩)
      · exact .inl hl
      · exact .inl hold
      · exact .inr ⟨hne, hd⟩
  | case5 links e edges hskip _ _ ih =>
    simp only [Bool.or_eq_true, Bool.not_eq_true', decide_eq_true_eq, not_or,
      Bool.not_eq_false] at hskip
    rw [ih h, List.exists_mem_cons_iff, List.mem_append, List.mem_singleton, Prod.mk.injEq]
    constructor
    · rintro ((hl | ⟨rfl, rfl⟩) | ⟨hne, hd⟩)
      · exact .inl hl
      · exact .inr ⟨hskip.2, .inl ⟨hskip.1, rfl, rfl⟩⟩
      · exact .inr ⟨hne, .inr hd⟩
    · rintro (hl | ⟨hne, ⟨-, rfl, rfl⟩ | hd⟩)
      · exact .inl (.inl hl)
      · exact .inl (.inr ⟨rfl, rfl⟩)
      · exact .inr ⟨hne, hd⟩

end Links

/-- A propagation over the groups and group edges of a graph. -/
structure Over (p : Propagation) (graph : Graph) (seeds : Assoc String NameSet)
    (initiallyActive : List String) : Prop where
  graph_eq : p.graph = graph
  order_eq : p.order = graph.groups.map Node.id
  seeds_eq : p.seeds = seeds
  initiallyActive_eq : p.initiallyActive = initiallyActive
  mem_links : ∀ a b, (a, b) ∈ p.links ↔
    a ≠ b ∧ ∃ e ∈ graph.edges, e.isGroupEdge = true ∧ e.source = a ∧ e.target = b

theorem Over.of_varies {graph : Graph} {seeds : Assoc String NameSet} {ids : List String}
    (h : p.Over graph seeds ids) (hv : p.Varies q) : q.Over graph seeds ids := by
  obtain ⟨_, _, rfl⟩ := hv
  exact ⟨h.graph_eq, h.order_eq, h.seeds_eq, h.initiallyActive_eq, h.mem_links⟩

/-- What it takes to start: group edges between different nodes join groups, and the seeds and the
groups that are active from the beginning are those of groups. -/
structure Startable (graph : Graph) (seeds : Assoc String NameSet) (ids : List String) : Prop where
  edges : ∀ e ∈ graph.edges, e.isGroupEdge = true → e.source ≠ e.target →
    e.source ∈ graph.groups.map Node.id ∧ e.target ∈ graph.groups.map Node.id
  seeds : ∀ id ∈ seeds.keys, id ∈ graph.groups.map Node.id
  active : ∀ id ∈ ids, id ∈ graph.groups.map Node.id

theorem startable_of_start {graph : Graph} {seeds : Assoc String NameSet} {ids : List String}
    (h : start graph seeds ids = .ok p) : Startable graph seeds ids := by
  simp only [start, Outcome.bind_eq_ok] at h
  obtain ⟨links, hlinks, h⟩ := h
  split at h
  · cases h
  · rename_i hseeds
    split at h
    · cases h
    · rename_i hids
      exact ⟨ends_of_readLinks hlinks, by simpa using hseeds, by simpa using hids⟩

/-- A propagation starts with a reset. -/
theorem exists_start {graph : Graph} {seeds : Assoc String NameSet} {ids : List String}
    (hgroups : (graph.groups.map Node.id).Nodup) (h : Startable graph seeds ids) :
    ∃ p : Propagation, start graph seeds ids = .ok p.reset ∧ p.Over graph seeds ids ∧ p.Wired := by
  obtain ⟨links, hlinks⟩ := exists_readLinks graph [] h.edges
  have hmem := mem_of_readLinks hlinks
  simp only [List.not_mem_nil, false_or] at hmem
  have hseeds : seeds.keys.find? (fun id => !(graph.groups.map Node.id).contains id) = none :=
    List.find?_eq_none.mpr fun id hid => by simpa using h.seeds id hid
  have hids : ids.find? (fun id => !(graph.groups.map Node.id).contains id) = none :=
    List.find?_eq_none.mpr fun id hid => by simpa using h.active id hid
  refine ⟨⟨graph, graph.groups.map Node.id, links, seeds, ids, {}, false⟩, ?_,
    ⟨rfl, rfl, rfl, rfl, hmem⟩, hgroups, ?_, ?_, ?_,
    nodup_of_readLinks hlinks List.nodup_nil⟩
  · simp only [start, hlinks, hseeds, hids]
    rfl
  · intro l hl
    obtain ⟨hne, e, he, hg, hs, ht⟩ := (hmem l.1 l.2).mp hl
    exact hs ▸ (h.edges e he hg (by rwa [hs, ht])).1
  · intro l hl
    obtain ⟨hne, e, he, hg, hs, ht⟩ := (hmem l.1 l.2).mp hl
    exact ht ▸ (h.edges e he hg (by rwa [hs, ht])).2
  · exact fun l hl => ((hmem l.1 l.2).mp hl).1

/-- A propagation whose active groups send to no one starts in a steady state. -/
theorem start_spec {graph : Graph} (seeds : Assoc String NameSet) (ids : List String)
    (hgroups : (graph.groups.map Node.id).Nodup)
    (hedges : ∀ e ∈ graph.edges, e.isGroupEdge = true →
      e.source ∈ graph.groups.map Node.id ∧ e.target ∈ graph.groups.map Node.id)
    (hseeds : ∀ id ∈ seeds.keys, id ∈ graph.groups.map Node.id)
    (hids : ∀ id ∈ ids, id ∈ graph.groups.map Node.id ∧
      ∀ e ∈ graph.edges, e.isGroupEdge = true → e.source ≠ id) :
    ∃ p, start graph seeds ids = .ok p ∧ p.Over graph seeds ids ∧ p.Steady ∧
      p.finished = false := by
  obtain ⟨p, hp, hover, hwired⟩ := exists_start hgroups
    ⟨fun e he hg _ => hedges e he hg, hseeds, fun id hid => (hids id hid).1⟩
  refine ⟨p.reset, hp, hover.of_varies (varies_reset p), steady_reset hwired fun id hid => ?_,
    finished_reset p⟩
  rw [hover.initiallyActive_eq] at hid
  refine ⟨hover.order_eq ▸ (hids id hid).1, fun t hl => ?_⟩
  obtain ⟨_, e, he, hg, hs, _⟩ := (hover.mem_links id t).mp hl
  exact (hids id hid).2 e he hg hs

/-! ### Checks -/

theorem isStale_eq_false {entries : List (String × Option NameSet)}
    (h : ∀ e ∈ entries, ∃ s, p.states.get? e.1 = some s ∧ e.2 = some s.computed) :
    p.isStale entries = .ok false := by
  induction entries with
  | nil => rfl
  | cons e entries ih =>
    obtain ⟨s, hs, he⟩ := h e (List.mem_cons_self ..)
    rw [isStale, hs]
    simp only [he, if_true]
    exact ih fun d hd => h d (List.mem_cons_of_mem _ hd)

theorem firstStale_eq_none {states : List (String × GroupState)}
    (h : ∀ e ∈ states, p.isStale e.2.incoming.entries = .ok false) :
    p.firstStale states = .ok none := by
  induction states with
  | nil => rfl
  | cons e states ih =>
    have hrest := ih fun d hd => h d (List.mem_cons_of_mem _ hd)
    simp only [firstStale, h e (List.mem_cons_self ..), bind, Except.bind, hrest]
    rfl

/-- With all groups active no group of a current state holds an outdated set. -/
theorem isStale_of_allActive (h : p.Current) (ha : p.AllActive) {id : String} {s : GroupState}
    (hs : p.states.get? id = some s) : p.isStale s.incoming.entries = .ok false := by
  have hnodup : s.incoming.keys.Nodup := h.consistent.senders hs ▸ h.wired.sources_nodup id
  refine isStale_eq_false fun e he => ?_
  have hget : s.incoming.get? e.1 = some e.2 := (Assoc.get?_eq_some_iff hnodup).mpr he
  have hl : (e.1, id) ∈ p.links := by
    rw [← mem_sources, ← h.consistent.senders hs]
    exact Assoc.mem_keys_of_get? hget
  have hsource : e.1 ∈ p.order := h.wired.source_mem _ hl
  obtain ⟨r, hr⟩ := exists_state h.consistent hsource
  refine ⟨r, hr, ?_⟩
  have hheld := h.faithful e.1 id hl
  rwa [if_pos (ha _ hsource), held_eq hs, hget, Option.join_some, computedOf_eq hr] at hheld

/-- A check of a current state is correct or names the first inactive group. -/
theorem check_eq (h : p.Current) : p.check = .ok
    (match p.order.find? fun id => !p.isActive id with
      | some id => .wrong ⟨.inactiveNode, p.groupLabel id⟩
      | none => .correct) := by
  rw [check]
  cases hf : p.order.find? fun id => !p.isActive id with
  | some id => rfl
  | none =>
    have ha : p.AllActive := fun id hid => by simpa using List.find?_eq_none.mp hf id hid
    have hstates : p.states.keys.Nodup := h.consistent.keys ▸ h.wired.order_nodup
    have hstale : p.firstStale p.states.entries = .ok none := firstStale_eq_none fun e he =>
      isStale_of_allActive h ha ((Assoc.get?_eq_some_iff hstates).mpr he)
    simp only [hstale, bind, Except.bind]
    rfl

theorem allActive_iff_find? :
    p.AllActive ↔ p.order.find? (fun id => !p.isActive id) = none := by
  simp [AllActive, List.find?_eq_none]

/-- The check of a current state is correct iff all groups are active. -/
theorem check_eq_correct_iff (h : p.Current) : p.check = .ok .correct ↔ p.AllActive := by
  rw [check_eq h, allActive_iff_find?]
  cases p.order.find? fun id => !p.isActive id <;> simp

/-! ### The sets -/

/-- The set of a group is its seed with the sets of its active senders. -/
theorem Current.mem_computedOf (h : p.Current) {id x : String} (hid : id ∈ p.order) :
    x ∈ p.computedOf id ↔ x ∈ p.seedOf id ∨
      ∃ q, (q, id) ∈ p.links ∧ p.isActive q = true ∧ x ∈ p.computedOf q := by
  rw [Propagation.mem_computedOf h.consistent h.wired hid]
  refine or_congr_right (exists_congr fun q => ?_)
  constructor
  · rintro ⟨names, hl, hheld, hx⟩
    rw [h.faithful q id hl] at hheld
    split at hheld
    · rename_i hactive
      exact ⟨hl, hactive, Option.some.inj hheld ▸ hx⟩
    · cases hheld
  · rintro ⟨hl, hactive, hx⟩
    refine ⟨p.computedOf q, hl, ?_, hx⟩
    rw [h.faithful q id hl, if_pos hactive]

theorem mem_computedOf_iff (h : p.Current) (ha : p.AllActive) {id x : String}
    (hid : id ∈ p.order) : x ∈ p.computedOf id ↔
      x ∈ p.seedOf id ∨ ∃ q, (q, id) ∈ p.links ∧ x ∈ p.computedOf q := by
  rw [h.mem_computedOf hid]
  refine or_congr_right (exists_congr fun q => and_congr_right fun hl => ?_)
  exact and_iff_right (ha q (h.wired.source_mem _ hl))

/-- What holds of the seeds and is passed on along the links holds of the sets. -/
theorem of_mem_computedOf (h : p.Current) (ha : p.AllActive) (hacyclic : p.Acyclic)
    {motive : String → String → Prop}
    (seed : ∀ id ∈ p.order, ∀ x ∈ p.seedOf id, motive id x)
    (link : ∀ a b x, (a, b) ∈ p.links → motive a x → motive b x) {id x : String}
    (hid : id ∈ p.order) (hx : x ∈ p.computedOf id) : motive id x := by
  induction id using hacyclic.induction h.wired with
  | step id ih =>
    rcases (mem_computedOf_iff h ha hid).mp hx with hx | ⟨q, hl, hx⟩
    · exact seed id hid x hx
    · exact link q id x hl (ih q hl (h.wired.source_mem _ hl) hx)

/-- Where more groups are active the sets are larger. -/
theorem computedOf_subset_of_marks (h : p.Current) (h' : q.Current) (hacyclic : p.Acyclic)
    (hv : p.Varies q) (hmarks : ∀ t ∈ p.order, p.isActive t = true → q.isActive t = true)
    {id : String} (hid : id ∈ p.order) : ∀ x ∈ p.computedOf id, x ∈ q.computedOf id := by
  induction id using hacyclic.induction h.wired with
  | step id ih =>
    intro x hx
    rw [h'.mem_computedOf (hv.order.symm ▸ hid), hv.links, hv.seedOf]
    rcases (h.mem_computedOf hid).mp hx with hseed | ⟨r, hl, hactive, hx⟩
    · exact .inl hseed
    · have hr : r ∈ p.order := h.wired.source_mem _ hl
      exact .inr ⟨r, hl, hmarks r hr hactive, ih r hl hr x hx⟩

/-- The sets depend on the seeds, the links and the marks only, not on how the groups became
active. -/
theorem computedOf_eq_of_marks (h : p.Current) (h' : q.Current) (hacyclic : p.Acyclic)
    (hv : p.Varies q) (hmarks : ∀ t ∈ p.order, p.isActive t = q.isActive t) {id : String}
    (hid : id ∈ p.order) : p.computedOf id = q.computedOf id := by
  have hacyclic' : q.Acyclic := by
    rw [Acyclic, hv.links]
    exact hacyclic
  apply NameSet.ext_mem
  intro x
  constructor
  · exact computedOf_subset_of_marks h h' hacyclic hv (fun t ht => (hmarks t ht ▸ ·)) hid x
  · refine computedOf_subset_of_marks h' h hacyclic' hv.symm (fun t ht => ?_)
      (hv.order.symm ▸ hid) x
    exact (hmarks t (hv.order ▸ ht) ▸ ·)

end Lookahead.Propagation
