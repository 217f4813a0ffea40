import Lookahead.Proofs.Grammar.History
import Lookahead.Proofs.Nullability
import Lookahead.Proofs.Useful

/-!
# What reducing removes

The closure of names under the productions is the set of productive nonterminals, and the
closure from the start under the productions with productive bodies is the set of what these
reach. So reducing removes the productions that no derivation of a word uses. The words stay,
every nonterminal that is left is of use, and there is nothing more to remove.
-/

namespace Lookahead.Grammar

variable {g g' : Grammar} {p : Production} {s : Symbol} {kept removed : List Production}
variable {name : String}

/-! ### Names and symbols -/

namespace Lawful

variable (h : g.Lawful)
include h

/-- The names on the right side are those of the nonterminals of the body. -/
theorem mem_nonterminalNames (hp : p ∈ g.productionList) : name ∈ nonterminalNames p ↔
    ∃ s ∈ p.body, s.isNonterminal = true ∧ s.name = name := by
  simp only [nonterminalNames, List.mem_map, List.mem_filter, and_assoc]
  rcases h.body_cases hp with ⟨hr, hb⟩ | ⟨hb, _⟩
  · simp [hr, hb, Symbol.isNonterminal, Symbol.epsilon]
  · rw [hb]

theorem isTerminal_eq_false (hs : s ∈ g.nonterminalList) : s.isTerminal = false := by
  simp [Symbol.isTerminal, h.kind_of_mem_nonterminalList hs]

/-- A symbol of a body is a nonterminal of the grammar or a terminal. -/
theorem body_symbol_cases (hp : p ∈ g.productionList) (hs : s ∈ p.body) :
    s ∈ g.nonterminalList ∧ s.isNonterminal = true ∨ s.isTerminal = true := by
  rcases h.registered_of_mem_body hp hs with hs | hs
  · exact .inl ⟨hs, by simp [Symbol.isNonterminal, h.kind_of_mem_nonterminalList hs]⟩
  · exact .inr (by simp [Symbol.isTerminal, h.kind_of_mem_terminalList hs])

theorem mem_nonterminalList_of_mem_body (hp : p ∈ g.productionList) (hs : s ∈ p.body)
    (hn : s.isNonterminal = true) : s ∈ g.nonterminalList := by
  rcases h.body_symbol_cases hp hs with ⟨hs, -⟩ | ht
  · exact hs
  · simp_all [Symbol.isNonterminal, Symbol.isTerminal]

/-- The productive names are those of the nonterminals that derive a word. -/
theorem mem_productiveNames (hs : s ∈ g.nonterminalList) :
    s.name ∈ g.productiveNames ↔ Productive g.productionList [s] := by
  constructor
  · intro hname
    refine Rule.closure_subset (s := fun name => ∀ t ∈ g.nonterminalList, t.name = name →
      Productive g.productionList [t]) (by simp) ?_ s.name hname s hs rfl
    intro r hr hneeds t ht htname
    obtain ⟨p, hp, rfl⟩ := List.mem_map.mp hr
    obtain rfl := h.eq_of_name_eq (.inl ht) (.inl (h.left_mem hp)) htname
    apply vanishingClosed_productive p hp
    intro s hs
    rcases h.body_symbol_cases hp hs with ⟨hlisted, hn⟩ | hterminal
    · exact hneeds s.name ((h.mem_nonterminalNames hp).mpr ⟨s, hs, hn, rfl⟩) s hlisted rfl
    · exact productive_of_isTerminal hterminal
  · intro hproductive
    have hclosed : VanishingClosed g.productionList
        fun t => t.isTerminal = true ∨ t.name ∈ g.productiveNames := by
      intro p hp hbody
      have hrule : (⟨p.left.name, nonterminalNames p⟩ : Rule) ∈
          g.productionList.map fun p => ⟨p.left.name, nonterminalNames p⟩ :=
        List.mem_map_of_mem hp
      refine .inr (Rule.head_mem_closure hrule fun name hname => ?_)
      obtain ⟨t, ht, hn, rfl⟩ := (h.mem_nonterminalNames hp).mp hname
      have hlisted := h.mem_nonterminalList_of_mem_body hp ht hn
      exact (hbody t ht).resolve_left (by simp [h.isTerminal_eq_false hlisted])
    have hmem := hclosed.of_productive (fun _ => .inl) hproductive s (List.mem_singleton_self s)
    exact hmem.resolve_left (by simp [h.isTerminal_eq_false hs])

theorem all_nonterminalNames_iff (hp : p ∈ g.productionList) :
    (nonterminalNames p).all g.productiveNames.contains = true ↔
      ∀ s ∈ p.body, Productive g.productionList [s] := by
  simp only [List.all_eq_true, List.contains_iff_mem]
  constructor
  · intro hnames s hs
    rcases h.body_symbol_cases hp hs with ⟨hlisted, hn⟩ | hterminal
    · exact (h.mem_productiveNames hlisted).mp
        (hnames s.name ((h.mem_nonterminalNames hp).mpr ⟨s, hs, hn, rfl⟩))
    · exact productive_of_isTerminal hterminal
  · intro hbody name hname
    obtain ⟨s, hs, hn, rfl⟩ := (h.mem_nonterminalNames hp).mp hname
    exact (h.mem_productiveNames (h.mem_nonterminalList_of_mem_body hp hs hn)).mpr (hbody s hs)

/-- The reachable names are those of the nonterminals that the productions reach. -/
theorem mem_reachableNames (hkept : kept ⊆ g.productionList)
    (hstart : Symbol.start ∈ g.nonterminalList) (hs : s ∈ g.nonterminalList) :
    s.name ∈ reachableNames kept ↔ Appears kept Symbol.start s := by
  constructor
  · intro hname
    refine Rule.closure_subset (s := fun name => ∀ t ∈ g.nonterminalList, t.name = name →
      Appears kept Symbol.start t) ?_ ?_ s.name hname s hs rfl
    · intro name hname t ht htname
      rw [List.mem_singleton.mp hname] at htname
      rw [h.eq_of_name_eq (.inl ht) (.inl hstart) htname]
      exact appears_root
    · intro r hr hneeds t ht htname
      obtain ⟨p, hp, hr⟩ := List.mem_flatMap.mp hr
      obtain ⟨name, hname, rfl⟩ := List.mem_map.mp hr
      obtain ⟨s, hs, hn, rfl⟩ := (h.mem_nonterminalNames (hkept hp)).mp hname
      have hlisted := h.mem_nonterminalList_of_mem_body (hkept hp) hs hn
      obtain rfl := h.eq_of_name_eq (.inl ht) (.inl hlisted) htname
      have hleft := hneeds p.left.name (by simp) p.left (h.left_mem (hkept hp)) rfl
      exact reachingClosed_appears p hp hleft t hs
  · intro happears
    have hclosed : ReachingClosed kept
        fun t => t.isNonterminal = true → t.name ∈ reachableNames kept := by
      intro p hp hleft s hs hn
      have hrule : (⟨s.name, [p.left.name]⟩ : Rule) ∈
          kept.flatMap fun p => (nonterminalNames p).map fun n => ⟨n, [p.left.name]⟩ :=
        List.mem_flatMap.mpr ⟨p, hp, List.mem_map_of_mem
          ((h.mem_nonterminalNames (hkept hp)).mpr ⟨s, hs, hn, rfl⟩)⟩
      refine Rule.head_mem_closure hrule fun name hname => ?_
      rw [List.mem_singleton.mp hname]
      exact hleft (h.isNonterminal_left (hkept hp))
    refine hclosed.of_appears (fun _ => ?_) happears ?_
    · exact Rule.mem_closure_of_mem (List.mem_singleton_self _)
    · simp [Symbol.isNonterminal, h.kind_of_mem_nonterminalList hs]

end Lawful

/-- The useless productions are those that no derivation of a word uses. -/
theorem Standard.mem_useless (h : g.Standard)
    (hproductive : Productive g.productionList [Symbol.start]) : p ∈ g.useless ↔
      p ∈ g.productionList ∧ ¬Used g.productionList Symbol.start p := by
  have hkept (q : Production) :
      q ∈ g.productionList.filter (fun p => (nonterminalNames p).all g.productiveNames.contains) ↔
        q ∈ g.productionList ∧ ∀ s ∈ q.body, Productive g.productionList [s] := by
    rw [List.mem_filter]
    exact and_congr_right fun hq => h.all_nonterminalNames_iff hq
  rw [useless, List.mem_filter]
  apply and_congr_right
  intro hp
  rw [used_iff hproductive hkept hp, hkept p, ← h.all_nonterminalNames_iff hp,
    ← h.mem_reachableNames (List.filter_subset_self _) h.start_mem (h.left_mem hp)]
  simp only [hp, true_and, Bool.not_eq_true', ← Bool.not_eq_true,
    Bool.and_eq_true, List.contains_iff_mem]

/-! ### Reducing -/

/-- What reducing a grammar removes and leaves. -/
structure Reduced (g : Grammar) (removed : List Production) (g' : Grammar) : Prop where
  inOrder : removed.Sublist g.productionList
  unused : ∀ p, p ∈ removed ↔
    p ∈ g.productionList ∧ ¬Used g.productionList Symbol.start p
  kept : g'.productionList = g.productionList.filter fun p => p ∉ removed
  startKept : g'.startProduction? = g.startProduction?
  sameWords : ∀ w, IsWord w →
    (Derives g'.productionList [Symbol.start] w ↔ Derives g.productionList [Symbol.start] w)
  occurs : ∀ s ∈ g'.nonterminalList, Occurs g'.productionList Symbol.start s
  valid : g'.validate = .ok ()
  again : reduce g' = .ok [] g'

theorem Lawful.standard (h : g.Lawful) (hstart : g.startProduction?.isSome = true) :
    g.Standard := by
  obtain ⟨p, hp, hleft⟩ := List.find?_isSome.mp hstart
  exact ⟨h, p, hp, of_decide_eq_true hleft⟩

/-- Taking out productions that are not used keeps the start production if there is a word. -/
theorem Consistent.startProduction?_filter (h : g.Consistent)
    (hproductive : Productive g.productionList [Symbol.start])
    (hremoved : ∀ p ∈ removed, ¬Used g.productionList Symbol.start p) :
    (g.productionList.filter fun p => p ∉ removed).find? (fun p => p.left = Symbol.start) =
      g.startProduction? := by
  obtain ⟨p, hp, hleft, hused⟩ := exists_used rfl hproductive
  rw [startProduction?, ← List.head?_filter, ← List.head?_filter, List.filter_filter]
  refine congrArg List.head? (List.filter_congr fun q hq => ?_)
  by_cases hq' : q.left = Symbol.start
  · have hqp := h.oneStart q hq p hp hq' hleft
    have hstays : q ∉ removed := fun hr => hremoved q hr (hqp ▸ hused)
    simp [hq', hstays]
  · simp [hq']

theorem Consistent.occurs (h : g'.Consistent)
    (hlist : ∀ p, p ∈ g'.productionList ↔
      p ∈ g.productionList ∧ Used g.productionList Symbol.start p) (hs : s ∈ g'.nonterminalList) :
    Occurs g'.productionList Symbol.start s := by
  have hlawful := h.toTidy.lawful
  obtain ⟨hkind, hused⟩ := h.toTidy.mem_nonterminalList.mp hs
  obtain ⟨p, hp, hmem⟩ := List.mem_flatMap.mp hused
  apply occurs_of_mem hlist hp
  rcases List.mem_cons.mp hmem with hleft | hright
  · exact .inl hleft
  · refine .inr ?_
    rcases hlawful.body_cases hp with ⟨hr, -⟩ | ⟨hb, -⟩
    · rw [hr, List.mem_singleton] at hright
      rw [hright] at hkind
      cases hkind
    · rwa [hb]

theorem Consistent.reduced (h : g.Consistent) (hrun : Grammar.reduce g = .ok removed g') :
    Reduced g removed g' ∧ g'.Consistent := by
  obtain ⟨hstart, hname, rfl, -⟩ := Grammar.reduce_eq_ok.mp hrun
  have hstandard := h.toTidy.lawful.standard hstart
  have hproductive := (hstandard.mem_productiveNames hstandard.start_mem).mp hname
  obtain ⟨_, hrun', hg', hlist⟩ := h.reduce_eq_ok hstart hname
  rw [hrun] at hrun'
  cases hrun'
  have hunused (p : Production) := hstandard.mem_useless hproductive (p := p)
  have hkept (p : Production) : p ∈ g'.productionList ↔
      p ∈ g.productionList ∧ Used g.productionList Symbol.start p := by
    rw [hlist, List.mem_filter, decide_eq_true_iff, hunused]
    tauto
  have hstart' : g'.startProduction? = g.startProduction? := by
    rw [startProduction?, hlist]
    exact h.startProduction?_filter hproductive fun p hp => ((hunused p).mp hp).2
  -- the reduced grammar derives the same words, and nothing in it is useless
  have hproductive' : Productive g'.productionList [Symbol.start] := by
    obtain ⟨w, hw, hderives⟩ := hproductive
    exact ⟨w, hw, (derives_word_iff hkept hw).mpr hderives⟩
  have hstandard' := hg'.toTidy.lawful.standard (hstart' ▸ hstart)
  have hname' := (hstandard'.mem_productiveNames hstandard'.start_mem).mpr hproductive'
  have hnone : g'.useless = [] := by
    apply List.eq_nil_iff_forall_not_mem.mpr
    intro p hp
    obtain ⟨hmem, hnot⟩ := (hstandard'.mem_useless hproductive').mp hp
    exact hnot (used_of_mem hkept hmem)
  have hagain : Grammar.reduce g' = .ok [] g' :=
    Grammar.reduce_eq_ok.mpr ⟨hstart' ▸ hstart, hname', hnone, rfl⟩
  exact ⟨{
    inOrder := List.filter_sublist
    unused := hunused
    kept := hlist
    startKept := hstart'
    sameWords := fun w hw => derives_word_iff hkept hw
    occurs := fun s hs => hg'.occurs hkept hs
    valid := validate_eq_ok_iff.mpr hg'.toTidy.valid
    again := hagain }, hg'⟩

/-- Whatever was done to a grammar with a start production, reducing it is refused if no word is
derived from the start, and then changes nothing. Otherwise it removes the productions that no
derivation of a word uses and gives them in order. -/
theorem reduce_of_reached (h : Reached g) (hstart : g.startProduction?.isSome = true) :
    (¬Productive g.productionList [Symbol.start] →
      reduce g = .error (.mistake .nothingProductive) g) ∧
    (Productive g.productionList [Symbol.start] →
      ∃ removed g', reduce g = .ok removed g' ∧ Reduced g removed g') := by
  have hg := h.consistent
  have hstandard := hg.toTidy.lawful.standard hstart
  constructor
  · intro hnone
    apply reduce_eq_error_of_not_mem hstart
    intro hname
    exact hnone ((hstandard.mem_productiveNames hstandard.start_mem).mp hname)
  · intro hproductive
    have hname := (hstandard.mem_productiveNames hstandard.start_mem).mpr hproductive
    obtain ⟨g', hrun, -⟩ := hg.reduce_eq_ok hstart hname
    exact ⟨_, g', hrun, (hg.reduced hrun).1⟩

/-- One production is unproductive, one needs it, and one is reached only through that. -/
theorem reduce_of_reached_sample : ∃ g removed g', Reached g ∧
    g.productionList.map Production.name =
      ["S->a", "S->B C", "B->B b", "C->c", "S'->S"] ∧
    reduce g = .ok removed g' ∧ Reduced g removed g' ∧
    removed.map Production.name = ["S->B C", "B->B b", "C->c"] := by
  let changes : List Change :=
    [.add "S -> a", .add "S -> B C", .add "B -> B b", .add "C -> c", .setStart "S"]
  let g := changes.foldl (fun g c => c.left g) {}
  have hg : Reached g :=
    (((((Reached.empty.step (.add "S -> a") trivial).step (.add "S -> B C") trivial).step
      (.add "B -> B b") trivial).step (.add "C -> c") trivial).step (.setStart "S") trivial)
  have hstart : g.startProduction?.isSome = true := by decide +kernel
  have hstandard := hg.consistent.toTidy.lawful.standard hstart
  have hproductive : Productive g.productionList [Symbol.start] :=
    (hstandard.mem_productiveNames hstandard.start_mem).mp (by decide +kernel)
  obtain ⟨removed, g', hrun, hreduced⟩ := (reduce_of_reached hg hstart).2 hproductive
  refine ⟨g, removed, g', hg, by decide +kernel, hrun, hreduced, ?_⟩
  obtain ⟨-, -, rfl, -⟩ := reduce_eq_ok.mp hrun
  decide +kernel

end Lookahead.Grammar
