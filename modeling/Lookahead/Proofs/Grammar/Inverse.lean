import Lookahead.Proofs.Grammar.Calls
import Lookahead.Proofs.Grammar.Canonical

/-!
# Adding and removing take each other back

A new production lists its symbols at the end of their tables if it brings them, whether once
or several times and on which side. Removing it drops exactly those, so the tables are the old
ones in their order, and the counts follow from the productions that are listed. In the other
direction a production that is removed and added again stands at the end, and the symbols that
had gone with it are new ones of the same names.
-/

namespace Lookahead

open List (Perm Sublist)

/-- Of distinct elements the front is told by its members. -/
theorem eq_of_sublist_append {α : Type} {kept front back : List α}
    (hsub : Sublist kept (front ++ back)) (hnodup : (front ++ back).Nodup)
    (hmem : ∀ a, a ∈ kept ↔ a ∈ front) : kept = front := by
  obtain ⟨kept, rest, rfl, hkept, hrest⟩ := List.sublist_append_iff.mp hsub
  have hnone : rest = [] := by
    apply List.eq_nil_iff_forall_not_mem.mpr
    intro a ha
    have hfront : a ∈ front := (hmem a).mp (List.mem_append_right _ ha)
    exact (List.nodup_append.mp hnodup).2.2 a hfront a (hrest.subset ha) rfl
  subst hnone
  rw [List.append_nil] at hmem ⊢
  have hperm : Perm kept front :=
    (List.perm_ext_iff_of_nodup (hnodup.of_append_left.sublist hkept) hnodup.of_append_left).mpr hmem
  exact hkept.eq_of_length hperm.length_eq

namespace Production

variable {p q : Production}

/-- What the name of a production says is what its sides say. -/
theorem Formed.sides_eq (hp : p.Formed) (hq : q.Formed) (h : p.names = q.names) :
    p.sides = q.sides := by
  have hbare : ({ p with number := q.number } : Production).bare = q.bare :=
    Formed.bare_eq (p := { p with number := q.number }) hp hq h rfl
  have hepsilon : p.isEpsilon = q.isEpsilon := by
    change ({ p with number := q.number } : Production).isEpsilon = q.isEpsilon
    exact Grammar.isEpsilon_eq_of_bare hbare
  obtain ⟨hleft, hright⟩ := Prod.mk.inj h
  rw [sides, sides, rightNames, rightNames, hleft, hright, hepsilon]

theorem Formed.name_eq (hp : p.Formed) {text : ProductionText} (h : p.sides = text.sides) :
    p.name = text.name := by
  obtain ⟨hleft, hright⟩ := Prod.mk.inj h
  rw [name, ProductionText.name, ← hleft, ← hright]
  rcases hp with ⟨-, s, hs, hplain, hkind⟩ | hrule
  · have hmark : p.isEpsilon = false := by
      rw [isEpsilon, hs]
      simp [Symbol.isEpsilon, hkind]
    rw [rightNames, hmark, hs]
    rfl
  · rcases hrule.right_cases with ⟨hone, hnone⟩ | ⟨hne, -, hnames⟩
    · rw [hnone, hone]
      rfl
    · rw [hnames, List.isEmpty_eq_false_iff.mpr (by simpa using hne)]
      rfl

end Production

namespace Grammar

variable {g g' : Grammar} {p q : Production} {text : ProductionText}

/-! ### Tables -/

theorem prefix_keys_register (g : Grammar) (s : Symbol) (kind : SymbolKind) :
    (g.registry kind).keys <+: ((g.register s).registry kind).keys := by
  have hput (m : Assoc String Symbol) : m.keys <+: (m.put s.name s).keys := by
    rw [Assoc.keys_put]
    split
    · exact List.prefix_rfl
    · exact List.prefix_append ..
  rw [register]
  cases s.kind <;> cases kind <;> first | exact List.prefix_rfl | exact hput _

theorem prefix_keys_acquire (g : Grammar) (s : Symbol) (kind : SymbolKind) :
    (g.registry kind).keys <+: ((g.acquire s).registry kind).keys := by
  have hregistry : (g.acquire s).registry kind =
      (if g.references s = 0 then g.register s else g).registry kind := by
    cases kind <;> rfl
  rw [hregistry]
  split
  · exact prefix_keys_register g s kind
  · exact List.prefix_rfl

/-- Attaching a production lists new names behind the others. -/
theorem prefix_keys_attach (g : Grammar) (p : Production) (kind : SymbolKind) :
    (g.registry kind).keys <+: ((g.attach p).registry kind).keys := by
  have hfoldl (symbols : List Symbol) (g : Grammar) :
      (g.registry kind).keys <+: ((symbols.foldl acquire g).registry kind).keys := by
    induction symbols generalizing g with
    | nil => exact List.prefix_rfl
    | cons s symbols ih => exact (prefix_keys_acquire g s kind).trans (ih (g.acquire s))
  have hregistry : (g.attach p).registry kind = (p.symbols.foldl acquire g).registry kind := by
    cases kind <;> rfl
  rw [hregistry]
  exact hfoldl p.symbols g

theorem sublist_keys_release (g : Grammar) (s : Symbol) (kind : SymbolKind) :
    Sublist ((g.release s).registry kind).keys (g.registry kind).keys := by
  have herase (m : Assoc String Symbol) : Sublist (m.erase s.name).keys m.keys := by
    rw [Assoc.keys_erase]
    exact List.filter_sublist
  have hcounted : (g.addReferences s (-1)).registry kind = g.registry kind := by
    cases kind <;> rfl
  unfold release
  dsimp only
  split
  · rw [← hcounted, unregister]
    cases s.kind <;> cases kind <;> first | exact List.Sublist.refl _ | exact herase _
  · rw [hcounted]

/-- Detaching a production drops names and leaves the others in their order. -/
theorem sublist_keys_detach (g : Grammar) (p : Production) (kind : SymbolKind) :
    Sublist ((g.detach p).registry kind).keys (g.registry kind).keys := by
  have hfoldl (symbols : List Symbol) (g : Grammar) :
      Sublist ((symbols.foldl release g).registry kind).keys (g.registry kind).keys := by
    induction symbols generalizing g with
    | nil => exact List.Sublist.refl _
    | cons s symbols ih => exact (ih (g.release s)).trans (sublist_keys_release g s kind)
  obtain ⟨mid, ⟨⟨_, rfl⟩, -⟩, -, heq⟩ := exists_detach_eq g p
  rw [heq]
  apply (hfoldl p.symbols _).trans
  cases kind <;> exact List.Sublist.refl _

/-! ### What the listed productions say -/

/-- The listed productions determine what is registered under a name. -/
theorem Tidy.get?_registry_eq (h : g.Tidy) (h' : g'.Tidy)
    (hlist : g'.productionList = g.productionList) (kind : SymbolKind) (name : String) :
    (g'.registry kind).get? name = (g.registry kind).get? name := by
  apply Option.ext
  intro s
  rw [h.counted.registered, h'.counted.registered, occurrences, occurrences, hlist]

theorem Consistent.usage_eq (h : g.Consistent) (h' : g'.Consistent)
    (hlist : g'.productionList = g.productionList) (s : Symbol) : g'.usage s = g.usage s := by
  have hreferences : g'.references s = g.references s := by
    rw [h.counted.references, h'.counted.references, occurrences, occurrences, hlist]
  have hstart : g'.isStart s = g.isStart s := by
    rw [Bool.eq_iff_iff, h.starts, h'.starts, hlist]
  rw [references, references] at hreferences
  rw [isStart, isStart] at hstart
  cases hu : g.usage s
  cases hu' : g'.usage s
  simp_all

/-- The production of a text is listed under the name of the text. -/
theorem Tidy.get?_name_iff (h : g.Tidy) (ht : text.Plain) :
    g.productions.get? text.name = some q ↔ q ∈ g.productionList ∧ q.sides = text.sides := by
  constructor
  · intro hget
    obtain ⟨hq, hname⟩ := h.mem_of_get? hget
    obtain ⟨hform, hname', -⟩ := production_stands h.toMade ht
    have hnames : q.names = (g.production text).1.names :=
      (h.formed q hq).names_eq (.inr hform) (hname.trans hname'.symm)
    exact ⟨hq, ((h.formed q hq).sides_eq (.inr hform) hnames).trans (production_sides h.toMade ht)⟩
  · rintro ⟨hq, hsides⟩
    rw [← (h.formed q hq).name_eq hsides]
    exact h.get?_name hq

/-! ### Adding -/

/-- What adding the production of a text to a grammar that lists no such production gives. -/
structure Added (text : ProductionText) (g : Grammar) (p : Production) (g' : Grammar) : Prop where
  run : addParsed text g = .ok p g'
  consistent : g'.Consistent
  form : p.RuleForm
  sides : p.sides = text.sides
  productions : g'.productions = g.productions.put p.name p
  new : p.name ∉ g.productions.keys
  keys : ∀ kind, (g.registry kind).keys <+: (g'.registry kind).keys

theorem Consistent.exists_added (h : g.Consistent) (ht : text.Plain)
    (hnew : ∀ q ∈ g.productionList, q.sides ≠ text.sides) : ∃ p g', Added text g p g' := by
  obtain ⟨p, g', hrun, hg'⟩ := h.addParsed ht
  have hnone : g.productions.get? text.name = none := by
    rw [Option.eq_none_iff_forall_ne_some]
    intro q hget
    obtain ⟨hq, hsides⟩ := (h.toTidy.get?_name_iff ht).mp hget
    exact hnew q hq hsides
  have hadd := hrun
  rw [Grammar.addParsed, Outcome.run_get_bind, hnone] at hadd
  obtain ⟨-, -, -, hissued⟩ := production_spec h.toMade ht
  obtain ⟨hform, hname, -⟩ := production_stands h.toMade ht
  simp only [Outcome.run_bind_eq_ok, Outcome.run_set_eq_ok] at hadd
  obtain ⟨-, _, rfl, hadd⟩ := hadd
  obtain ⟨rfl, -, rfl⟩ := add_eq_ok.mp hadd
  rw [hissued] at hrun hg'
  refine ⟨(g.production text).1, _, hrun, hg', hform, production_sides h.toMade ht, ?_, ?_, ?_⟩
  · rw [attach, (productions_foldl_acquire _ _).1]
  · rw [hname]
    exact Assoc.get?_eq_none_iff.mp hnone
  · intro kind
    have hregistry : Grammar.registry { g with issued := (g.production text).1.stamp } kind =
        g.registry kind := by
      cases kind <;> rfl
    rw [← hregistry]
    exact prefix_keys_attach _ _ kind

theorem Added.mem (h : Added text g p g') : p ∈ g'.productionList := by
  rw [productionList, h.productions]
  exact Assoc.mem_values_of_get? (Assoc.get?_put_self ..)

theorem Added.productionList_eq (h : Added text g p g') :
    g'.productionList = g.productionList ++ [p] := by
  rw [productionList, h.productions, Assoc.put_of_not_mem p h.new, Assoc.values, List.map_append]
  rfl

/-! ### Adding and removing -/

/-- The listed productions, the registered symbols in their order, the counts and the marks. -/
structure SameContents (g g' : Grammar) : Prop where
  productions : g'.productions = g.productions
  nonterminals : g'.nonterminals = g.nonterminals
  terminals : g'.terminals = g.terminals
  usage : ∀ s, g'.usage s = g.usage s

/-- Detaching the production that was added leaves what there was before. -/
theorem Added.sameContents (h : Added text g p g') (hg : g.Consistent) :
    g.SameContents (g'.detach p) := by
  obtain ⟨-, hdetached⟩ := h.consistent.remove h.mem
  have hproductions : (g'.detach p).productions = g.productions := by
    rw [(productions_detach g' p).1, h.productions, Assoc.erase_put_of_not_mem p h.new]
  have hlist : (g'.detach p).productionList = g.productionList := by
    rw [productionList, hproductions, productionList]
  have hget := hg.toTidy.get?_registry_eq hdetached.toTidy hlist
  have hregistry (kind : SymbolKind) : (g'.detach p).registry kind = g.registry kind := by
    obtain ⟨new, hkeys⟩ := h.keys kind
    have hsub : Sublist ((g'.detach p).registry kind).keys ((g.registry kind).keys ++ new) := by
      rw [hkeys]
      exact sublist_keys_detach g' p kind
    have hnodup : ((g.registry kind).keys ++ new).Nodup := by
      rw [hkeys]
      exact h.consistent.nodup_keys_registry kind
    -- the names that stay are the old ones, as the same names are registered as before
    have hsame : ((g'.detach p).registry kind).keys = (g.registry kind).keys := by
      apply eq_of_sublist_append hsub hnodup
      intro name
      rw [← Assoc.isSome_get?_iff, hget, Assoc.isSome_get?_iff]
    exact Assoc.ext_get? (hdetached.nodup_keys_registry kind) hsame fun name _ => hget kind name
  exact ⟨hproductions, hregistry .nonterminal, hregistry .terminal, hg.usage_eq hdetached hlist⟩

/-- The same names of productions and of symbols, each symbol counted as often as before. -/
structure SameNames (g g' : Grammar) : Prop where
  productions : Perm (g'.productionList.map Production.name) (g.productionList.map Production.name)
  nonterminals : Perm g'.nonterminals.keys g.nonterminals.keys
  terminals : Perm g'.terminals.keys g.terminals.keys
  references : ∀ s ∈ g.allSymbols, ∀ s' ∈ g'.allSymbols, s'.kind = s.kind → s'.name = s.name →
    g'.references s' = g.references s

/-- Grammars that list productions of the same names use the same symbols equally often. -/
theorem Tidy.sameNames (h : g.Tidy) (h' : g'.Tidy) (hsame : g.SameProductions g') :
    g.SameNames g' := by
  have hoccurrences : Perm (g'.occurrences.map Symbol.bare) (g.occurrences.map Symbol.bare) := by
    have hsorted {k : Grammar} (hk : k.Tidy) :
        Perm (k.sort.occurrences.map Symbol.bare) (k.occurrences.map Symbol.bare) :=
      (perm_symbols_sort hk.toMade hk.valid).map Symbol.bare
    apply (hsorted h').symm.trans
    rw [← bare_occurrences_sort h h' hsame]
    exact hsorted h
  constructor
  · have hkeys {k : Grammar} (hk : k.Tidy) :
        k.productionList.map Production.name = k.productions.keys := (keys_productions hk.valid).symm
    rw [hkeys h, hkeys h']
    apply (List.perm_ext_iff_of_nodup h'.productions_nodup h.productions_nodup).mpr
    intro name
    rw [← hkeys h, ← hkeys h']
    exact (hsame name).symm
  · exact (perm_keys_registry h h' hsame .nonterminal (.inr rfl)).symm
  · exact (perm_keys_registry h h' hsame .terminal (.inl rfl)).symm
  · intro s hs s' hs' hkind hname
    rw [h.references_eq hs, h'.references_eq hs', Symbol.bare_eq_iff.mpr ⟨hkind, hname⟩,
      hoccurrences.count_eq]

/-- Detaching a rule and adding it again, by any text with its sides. -/
theorem Consistent.exists_readded (h : g.Consistent) (hp : p ∈ g.productionList)
    (ht : text.Plain) (hsides : p.sides = text.sides) :
    ∃ q g', Added text (g.detach p) q g' ∧ g.SameNames g' := by
  obtain ⟨-, hdetached⟩ := h.remove hp
  have hgone : ∀ r ∈ (g.detach p).productionList, r.sides ≠ text.sides := by
    intro r hr hsame
    obtain ⟨hmem, hne⟩ := (h.toTidy.mem_detach_iff hp).mp hr
    have hname : r.name = p.name :=
      ((h.formed r hmem).name_eq hsame).trans ((h.formed p hp).name_eq hsides).symm
    have hget := h.toTidy.get?_name hmem
    rw [hname, h.toTidy.get?_name hp] at hget
    exact hne (Option.some.inj hget).symm
  obtain ⟨q, g', hadded⟩ := hdetached.exists_added ht hgone
  refine ⟨q, g', hadded, h.toTidy.sameNames hadded.consistent.toTidy ?_⟩
  have hname : q.name = p.name := by
    rw [(h.formed p hp).name_eq hsides,
      Production.Formed.name_eq (.inr hadded.form) hadded.sides]
  intro name
  rw [((h.toTidy.perm_detach hp).map Production.name).mem_iff, hadded.productionList_eq]
  simp [hname, or_comm]

/-- Adding a production that is new and removing it leaves the grammar as it was, adding one that
is listed changes nothing, and a rule that is removed comes back from the line that shows it. -/
theorem added_and_removed_undone (h : g.Given) :
    (∀ line text, ProductionText.parse line = .ok text →
      (∀ q ∈ g.productionList, q.sides ≠ text.sides) →
        ∃ p g₁ g₂, addText line g = .ok p g₁ ∧ p.sides = text.sides ∧
          g₁.productionList = g.productionList ++ [p] ∧
          remove p g₁ = .ok () g₂ ∧ g.SameContents g₂) ∧
    (∀ line text q, ProductionText.parse line = .ok text → q ∈ g.productionList →
      q.sides = text.sides → addText line g = .ok q g) ∧
    ∀ p ∈ g.productionList, p.left ≠ Symbol.start →
      ∃ g₁ q g₂, remove p g = .ok () g₁ ∧ p ∉ g₁.productionList ∧ g₁.shown p = g.shown p ∧
        addText (g₁.shown p) g₁ = .ok q g₂ ∧ q.sides = p.sides ∧ g.SameNames g₂ := by
  have hg : g.Consistent := h.consistent
  have hadd {line : String} {text : ProductionText} (hparse : ProductionText.parse line = .ok text) :
      addText line = addParsed text := by
    rw [addText, hparse]
  refine ⟨?_, ?_, ?_⟩
  · intro line text hparse hnew
    obtain ⟨p, g₁, hadded⟩ := hg.exists_added (ProductionText.plain_parse hparse) hnew
    obtain ⟨hremove, -⟩ := hadded.consistent.remove hadded.mem
    refine ⟨p, g₁, g₁.detach p, ?_, hadded.sides, hadded.productionList_eq, hremove,
      hadded.sameContents hg⟩
    rw [hadd hparse, hadded.run]
  · intro line text q hparse hq hsides
    have hlisted := (hg.toTidy.get?_name_iff (ProductionText.plain_parse hparse)).mpr ⟨hq, hsides⟩
    rw [hadd hparse, addParsed, Outcome.run_get_bind, hlisted]
    rfl
  · intro p hp hrule
    have hform : p.RuleForm := (hg.formed p hp).resolve_left fun hstart => hrule hstart.1
    have hshown : (g.detach p).shown p = g.shown p := by
      have hlabels := h.reached.labels
      rw [Production.shown_eq hlabels, Production.shown_eq ((labels_detach g p).trans hlabels)]
    have hparse := hform.parse_shown h.reached.labels 1
    obtain ⟨q, g₂, hadded, hnames⟩ :=
      hg.exists_readded hp (ProductionText.plain_parse hparse) rfl
    refine ⟨g.detach p, q, g₂, (hg.remove hp).1, ?_, hshown, ?_, hadded.sides, hnames⟩
    · rw [hg.toTidy.mem_detach_iff hp]
      exact fun hkept => hkept.2 rfl
    · rw [hshown, hadd hparse, hadded.run]

/-! A symbol that repeats, one that a new production brings on both sides, and one that leaves with
its last production. -/

def Sample.repeating : String := "S -> A b A\nA -> c"

theorem added_and_removed_undone_sample : ∃ g p, ofText Sample.repeating = .ok g ∧
    p ∈ g.productionList ∧ p.sides = ("A", ["c"]) ∧
      (∃ new g₁ g₂, addText "B -> c B d B" g = .ok new g₁ ∧ remove new g₁ = .ok () g₂ ∧
        g.SameContents g₂) ∧
      addText "A->c" g = .ok p g ∧
      ∃ g₁ q g₂, remove p g = .ok () g₁ ∧ addText (g₁.shown p) g₁ = .ok q g₂ ∧
        g.SameNames g₂ := by
  obtain ⟨g, hg⟩ : ∃ g, ofText Sample.repeating = .ok g :=
    ⟨_, Outcome.eq_ok_of_toOption (Option.some_get (by decide +kernel)).symm⟩
  have hlisted : (ofText Sample.repeating).toOption.any (fun g =>
      g.productionList.map Production.sides =
        [("S", ["A", "b", "A"]), ("A", ["c"]), ("S'", ["S"])]) = true := by
    decide +kernel
  have hsides : g.productionList.map Production.sides =
      [("S", ["A", "b", "A"]), ("A", ["c"]), ("S'", ["S"])] := by
    simpa [hg, Except.toOption] using hlisted
  obtain ⟨p, hp, hpsides⟩ : ∃ p ∈ g.productionList, p.sides = ("A", ["c"]) := by
    apply List.mem_map.mp
    rw [hsides]
    simp
  have hnew : ∀ q ∈ g.productionList, q.sides ≠ ("B", ["c", "B", "d", "B"]) := by
    intro q hq hsame
    have hmem := List.mem_map_of_mem (f := Production.sides) hq
    rw [hsides, hsame] at hmem
    simp at hmem
  have hrule : p.left ≠ Symbol.start := by
    intro hstart
    have hname : p.left.name = "A" := congrArg Prod.fst hpsides
    rw [hstart] at hname
    simp [Symbol.start, Symbol.startName] at hname
  obtain ⟨hadd, hagain, hremove⟩ := added_and_removed_undone (.text hg)
  obtain ⟨new, g₁, g₂, hrun, -, -, hgone, hsame⟩ :=
    hadd "B -> c B d B" ⟨"B", ["c", "B", "d", "B"], 1⟩ (by decide +kernel) hnew
  obtain ⟨without, q, after, hdropped, -, -, hback, -, hnames⟩ := hremove p hp hrule
  exact ⟨g, p, hg, hp, hpsides, ⟨new, g₁, g₂, hrun, hgone, hsame⟩,
    hagain "A->c" ⟨"A", ["c"], 1⟩ p (by decide +kernel) hp hpsides,
    without, q, after, hdropped, hback, hnames⟩

end Grammar

end Lookahead
