import Lookahead.Grammar.Load
import Lookahead.Proofs.Grammar.Standard
import Lookahead.Proofs.Outcome

/-!
# Grammars read from texts are standard

A text names symbols by single characters. Interning such a name gives a symbol of its
kind, attaching a production registers proper symbols only, and every accepted edit ends
with a check. The start production comes last, when none is listed yet.
-/

namespace Lookahead

/-! ### Texts -/

/-- The names that a production of a text holds. -/
def ProductionText.Plain (p : ProductionText) : Prop :=
  Symbol.isNonterminalName p.left = true ∧ ∀ name ∈ p.right, IsSymbolName name

theorem isSymbolName_of_mem_symbols {text : String} {line : Int} {column : Nat} {chars : List Char}
    {names : List String} (h : ProductionText.symbols text line column chars = .ok names) :
    ∀ name ∈ names, IsSymbolName name := by
  induction chars generalizing column names with
  | nil =>
    obtain rfl := Except.ok.inj h
    simp
  | cons c rest ih =>
    rw [ProductionText.symbols] at h
    split at h
    · exact ih h
    · split at h
      · rename_i hc
        obtain ⟨more, hmore, rfl⟩ := Outcome.map_eq_ok.mp h
        intro name hname
        rcases List.mem_cons.mp hname with rfl | hname
        · exact .inr ⟨c, hc, rfl⟩
        · exact ih hmore name hname
      · cases h

theorem ProductionText.plain_parse {text : String} {line : Int} {p : ProductionText}
    (h : ProductionText.parse text line = .ok p) : p.Plain := by
  unfold ProductionText.parse at h
  dsimp only at h
  split at h
  · cases h
  · split at h
    · cases h
    · split at h
      · split at h
        · cases h
        · rename_i c _ hleft
          have hleft' : Symbol.isNonterminalName (String.singleton c) = true := by simpa using hleft
          split at h
          · obtain rfl := Except.ok.inj h
            exact ⟨hleft', by simp⟩
          · obtain ⟨names, hnames, rfl⟩ := Outcome.map_eq_ok.mp h
            exact ⟨hleft', isSymbolName_of_mem_symbols hnames⟩
      · cases h

theorem GrammarSource.plain_addLine {source next : GrammarSource} {line : Nat} {chars : List Char}
    (hs : ∀ p ∈ source.productions, p.Plain) (h : source.addLine line chars = .ok next) :
    ∀ p ∈ next.productions, p.Plain := by
  unfold GrammarSource.addLine at h
  split at h
  · obtain rfl := Except.ok.inj h
    exact hs
  · split at h
    · split at h
      · cases h
      · obtain ⟨name, _, rfl⟩ := Outcome.map_eq_ok.mp h
        exact hs
    · obtain ⟨p, hp, rfl⟩ := Outcome.map_eq_ok.mp h
      intro q hq
      rcases List.mem_append.mp hq with hq | hq
      · exact hs q hq
      · rw [List.mem_singleton.mp hq]
        exact ProductionText.plain_parse hp

theorem GrammarSource.plain_addLines {source next : GrammarSource} {line : Nat}
    {lines : List (List Char)} (hs : ∀ p ∈ source.productions, p.Plain)
    (h : source.addLines line lines = .ok next) : ∀ p ∈ next.productions, p.Plain := by
  induction lines generalizing source line with
  | nil =>
    obtain rfl := Except.ok.inj h
    exact hs
  | cons chars lines ih =>
    rw [GrammarSource.addLines] at h
    split at h
    · cases h
    · rename_i mid hmid
      exact ih (plain_addLine hs hmid) h

theorem GrammarSource.plain_parse {text : String} {source : GrammarSource}
    (h : GrammarSource.parse text = .ok source) : ∀ p ∈ source.productions, p.Plain := by
  unfold GrammarSource.parse at h
  split at h
  · cases h
  · rename_i found hfound
    split at h
    · cases h
    · obtain rfl := Except.ok.inj h
      exact plain_addLines (by simp) hfound

namespace Grammar

variable {g : Grammar}

/-! ### Interned symbols -/

theorem kindOfName_of_isNonterminalName {name : String}
    (h : Symbol.isNonterminalName name = true) : kindOfName name = .nonterminal := by
  rw [kindOfName, if_pos h]

/-- The symbols introduced for a production have the kinds that their names show. -/
def Interned (fresh : Assoc String Symbol) : Prop :=
  ∀ e ∈ fresh.entries, e.2.name = e.1 ∧ e.2.kind = kindOfName e.1 ∧ IsSymbolName e.1

theorem get?_registry (h : g.Made) {name : String} {s : Symbol}
    (hs : (g.registry (kindOfName name)).get? name = some s) :
    s.name = name ∧ s.kind = kindOfName name := by
  rw [kindOfName] at hs ⊢
  split at hs
  · rename_i hn
    rw [if_pos hn]
    exact ⟨(h.of_get?_nonterminals hs).1, (h.of_get?_nonterminals hs).2.1⟩
  · rename_i hn
    rw [if_neg hn]
    exact ⟨(h.of_get?_terminals hs).1, (h.of_get?_terminals hs).2.1⟩

/-- The name of a nonterminal stands for it. -/
theorem Made.intern_eq (h : g.Made) {name : String} {target : Symbol}
    (htarget : g.nonterminals.get? name = some target) (hne : target ≠ Symbol.start) :
    g.intern .nonterminal name {} = (target, {}) := by
  obtain ⟨hname, -, hproper⟩ := h.of_get?_nonterminals htarget
  have hn : name ≠ Symbol.startName := by
    rcases hproper with he | ⟨hsymbol, _⟩
    · exact absurd he hne
    · exact hname ▸ hsymbol.ne_startName
  simp [intern, hn, registry, htarget]

/-- Interning the name of a symbol gives a symbol of that name and of the kind that it shows. -/
theorem intern_spec (h : g.Made) {name : String} (hn : IsSymbolName name)
    {fresh : Assoc String Symbol} (hf : Interned fresh) :
    ((g.intern (kindOfName name) name fresh).1.name = name ∧
      (g.intern (kindOfName name) name fresh).1.kind = kindOfName name) ∧
      Interned (g.intern (kindOfName name) name fresh).2 := by
  rw [intern, if_neg hn.ne_startName]
  split
  · rename_i s _ hs
    exact ⟨get?_registry h hs, hf⟩
  · rename_i s _ hs
    have he := hf _ (Assoc.get?_eq_some_of_lookupIn hs)
    exact ⟨⟨he.1, he.2.1⟩, hf⟩
  · refine ⟨⟨rfl, rfl⟩, fun e he => ?_⟩
    rcases Assoc.mem_entries_put he with rfl | he
    · exact ⟨rfl, rfl, hn⟩
    · exact hf e he

theorem internAll_spec (h : g.Made) {names : List String} (hn : ∀ name ∈ names, IsSymbolName name)
    {fresh : Assoc String Symbol} (hf : Interned fresh) :
    ∀ s ∈ (g.internAll (names.map fun name => (kindOfName name, name)) fresh).1, s.Proper := by
  induction names generalizing fresh with
  | nil => simp [internAll]
  | cons name names ih =>
    obtain ⟨⟨hname, hkind⟩, hf'⟩ := intern_spec h (hn name (List.mem_cons_self ..)) hf
    simp only [List.map_cons, internAll, List.forall_mem_cons]
    refine ⟨.inr ?_, ih (fun name hname => hn name (List.mem_cons_of_mem _ hname)) hf'⟩
    rw [hname, hkind]
    exact ⟨hn name (List.mem_cons_self ..), rfl⟩

/-! ### Attaching productions -/

theorem Made.register (h : g.Made) {s : Symbol} (hs : s.Proper) : (g.register s).Made := by
  rw [Grammar.register]
  split
  · rename_i hk
    refine ⟨Assoc.nodup_keys_put h.nonterminals_nodup .., h.terminals_nodup, fun e he => ?_,
      h.terminal, h.productions_nodup, h.stamps_nodup, h.amended⟩
    rcases Assoc.mem_entries_put he with rfl | he
    · exact ⟨rfl, hk, hs⟩
    · exact h.nonterminal e he
  · rename_i hk
    refine ⟨h.nonterminals_nodup, Assoc.nodup_keys_put h.terminals_nodup .., h.nonterminal,
      fun e he => ?_, h.productions_nodup, h.stamps_nodup, h.amended⟩
    rcases Assoc.mem_entries_put he with rfl | he
    · exact ⟨rfl, hk, hs⟩
    · exact h.terminal e he
  · exact h

theorem Made.setUsage (h : g.Made) (s : Symbol) (u : Usage) : (g.setUsage s u).Made :=
  ⟨h.nonterminals_nodup, h.terminals_nodup, h.nonterminal, h.terminal, h.productions_nodup,
    h.stamps_nodup, h.amended⟩

theorem productions_acquire (g : Grammar) (s : Symbol) :
    (g.acquire s).productions = g.productions ∧ (g.acquire s).issued = g.issued := by
  simp only [acquire, addReferences, Grammar.setUsage]
  split
  · rw [Grammar.register]
    split <;> exact ⟨rfl, rfl⟩
  · exact ⟨rfl, rfl⟩

theorem productions_foldl_acquire (symbols : List Symbol) (g : Grammar) :
    (symbols.foldl acquire g).productions = g.productions ∧
      (symbols.foldl acquire g).issued = g.issued := by
  induction symbols generalizing g with
  | nil => exact ⟨rfl, rfl⟩
  | cons s symbols ih =>
    obtain ⟨hp, hi⟩ := ih (g.acquire s)
    exact ⟨hp.trans (productions_acquire g s).1, hi.trans (productions_acquire g s).2⟩

theorem Made.acquire (h : g.Made) {s : Symbol} (hs : s.Proper ∨ s = Symbol.epsilon) :
    (g.acquire s).Made := by
  rw [Grammar.acquire, addReferences]
  refine Made.setUsage ?_ ..
  split
  · rcases hs with hs | rfl
    · exact h.register hs
    · exact h
  · exact h

theorem Made.foldl_acquire {symbols : List Symbol} (h : g.Made)
    (hs : ∀ s ∈ symbols, s.Proper ∨ s = Symbol.epsilon) : (symbols.foldl Grammar.acquire g).Made := by
  induction symbols generalizing g with
  | nil => exact h
  | cons s symbols ih =>
    exact ih (h.acquire (hs s (List.mem_cons_self ..))) fun t ht => hs t (List.mem_cons_of_mem _ ht)

/-- The stamps of listed productions were given out before. -/
def Stamped (g : Grammar) : Prop := ∀ p ∈ g.productionList, p.stamp ≤ g.issued

theorem productionList_attach (p : Production) :
    (g.attach p).productionList = (g.productions.put p.name p).values := by
  rw [productionList, attach, (productions_foldl_acquire p.symbols g).1]

/-- A production of a new name comes last. -/
theorem productionList_attach_of_new {p : Production} (h : g.productions.get? p.name = none) :
    (g.attach p).productionList = g.productionList ++ [p] := by
  rw [productionList_attach, Assoc.put_of_not_mem p (Assoc.get?_eq_none_iff.mp h), Assoc.values,
    List.map_append]
  rfl

theorem mem_productionList_attach {p q : Production} (hq : q ∈ (g.attach p).productionList) :
    q = p ∨ q ∈ g.productionList := by
  rw [productionList_attach] at hq
  exact Assoc.mem_values_put hq

theorem self_mem_productionList_attach (p : Production) : p ∈ (g.attach p).productionList := by
  rw [productionList_attach]
  exact Assoc.mem_values_of_get? (Assoc.get?_put_self ..)

/-- Attaching a production of proper symbols with a new stamp. -/
theorem Made.attach (h : g.Made) {p : Production}
    (hs : ∀ s ∈ p.symbols, s.Proper ∨ s = Symbol.epsilon)
    (hnew : ∀ q ∈ g.productionList, q.stamp ≠ p.stamp) : (g.attach p).Made := by
  have hmade := h.foldl_acquire hs
  refine ⟨hmade.nonterminals_nodup, hmade.terminals_nodup, hmade.nonterminal, hmade.terminal,
    Assoc.nodup_keys_put hmade.productions_nodup .., ?_, hmade.amended⟩
  rw [productionList_attach]
  refine Assoc.nodup_map_values_put h.stamps_nodup fun hm => ?_
  obtain ⟨q, hq, he⟩ := List.mem_map.mp hm
  exact hnew q hq he

/-! ### Accepted edits -/

/-- An edit with undoing is accepted as without. -/
theorem orRestore_eq_ok {α : Type} {edit : Edit α} {a : α} {after : Grammar} :
    edit.orRestore g = .ok a after ↔ edit g = .ok a after := by
  unfold Edit.orRestore
  cases edit g with
  | ok b after' => rfl
  | error f after' => simp

theorem check_eq_ok {after : Grammar} {u : Unit} :
    check g = .ok u after ↔ g.Valid ∧ g = after := by
  unfold check
  cases hv : g.validate with
  | ok u' => simp [← validate_eq_ok_iff, hv]
  | error f => simp [← validate_eq_ok_iff, hv]

theorem add_eq_ok {p q : Production} {after : Grammar} :
    add p g = .ok q after ↔ p = q ∧ (g.attach p).Valid ∧ g.attach p = after := by
  rw [add, orRestore_eq_ok, Outcome.run_bind_eq_ok]
  simp only [Outcome.run_bind_eq_ok, Outcome.run_modify_eq_ok, check_eq_ok,
    Outcome.run_pure_eq_ok]
  constructor
  · rintro ⟨_, _, rfl, _, _, ⟨hv, rfl⟩, rfl, rfl⟩
    exact ⟨rfl, hv, rfl⟩
  · rintro ⟨rfl, hv, rfl⟩
    exact ⟨⟨⟩, _, rfl, ⟨⟩, _, ⟨hv, rfl⟩, rfl, rfl⟩

/-- What holds while productions are added: no start production is listed yet. -/
structure Growing (g : Grammar) : Prop extends g.Made where
  valid : g.Valid
  stamped : g.Stamped
  noStart : ∀ p ∈ g.productionList, p.left ≠ Symbol.start

theorem growing_empty : Growing {} :=
  ⟨⟨List.nodup_nil, List.nodup_nil, by simp, by simp, List.nodup_nil, List.nodup_nil, rfl⟩,
    by decide +kernel, by simp [Stamped, productionList, Assoc.values],
    by simp [productionList, Assoc.values]⟩

theorem Made.setIssued (h : g.Made) (n : Nat) : Made { g with issued := n } :=
  ⟨h.nonterminals_nodup, h.terminals_nodup, h.nonterminal, h.terminal, h.productions_nodup,
    h.stamps_nodup, h.amended⟩

theorem right_production {text : ProductionText} (h : text.right.isEmpty = false) :
    (g.production text).1.right = (g.internAll
      (text.right.map fun name => (kindOfName name, name))
      (g.intern .nonterminal text.left {}).2).1 := by
  simp [production, h]

/-- The production of a text is made of proper symbols and has a new stamp. -/
theorem production_spec (h : g.Made) {text : ProductionText} (ht : text.Plain) :
    (g.production text).1.left.name = text.left ∧
      (∀ s ∈ (g.production text).1.symbols, s.Proper ∨ s = Symbol.epsilon) ∧
      g.issued < (g.production text).1.stamp ∧
      (g.production text).2 = { g with issued := (g.production text).1.stamp } := by
  have hleft : IsSymbolName text.left := .inl ht.1
  have hkind := kindOfName_of_isNonterminalName ht.1
  have hnone : Interned {} := by simp [Interned]
  have hspec := intern_spec h hleft hnone
  rw [hkind] at hspec
  have hall := internAll_spec h ht.2 hspec.2
  refine ⟨hspec.1.1, ?_, ?_, rfl⟩
  · intro s hs
    simp only [production, Production.symbols, List.mem_cons] at hs
    rcases hs with rfl | hs
    · refine .inl (.inr ?_)
      rw [hspec.1.1, hspec.1.2, hkind]
      exact ⟨hleft, rfl⟩
    · split at hs
      · exact .inr (List.mem_singleton.mp hs)
      · exact .inl (hall s hs)
  · simp only [production]
    omega

theorem Growing.addParsed (h : g.Growing) {text : ProductionText} (ht : text.Plain)
    {p : Production} {after : Grammar} (hadd : addParsed text g = .ok p after) :
    after.Growing := by
  rw [Grammar.addParsed, Outcome.run_bind_eq_ok] at hadd
  obtain ⟨_, _, hget, hadd⟩ := hadd
  obtain ⟨rfl, rfl⟩ := Outcome.run_get_eq_ok.mp hget
  cases hlisted : g.productions.get? text.name with
  | some q =>
    rw [hlisted] at hadd
    obtain ⟨_, rfl⟩ := Outcome.run_pure_eq_ok.mp hadd
    exact h
  | none =>
    rw [hlisted] at hadd
    obtain ⟨hname, hsymbols, hstamp, hissued⟩ := production_spec h.toMade ht
    simp only [Outcome.run_bind_eq_ok, Outcome.run_set_eq_ok] at hadd
    obtain ⟨_, _, rfl, hadd⟩ := hadd
    obtain ⟨rfl, hv, rfl⟩ := add_eq_ok.mp hadd
    rw [hissued] at hv ⊢
    have hi : (Grammar.attach { g with issued := (g.production text).1.stamp }
        (g.production text).1).issued = (g.production text).1.stamp :=
      (productions_foldl_acquire ..).2
    refine ⟨(h.setIssued _).attach hsymbols fun q hq => ?_, hv, fun q hq => ?_, fun q hq => ?_⟩
    · have := h.stamped q hq
      omega
    · rw [hi]
      rcases mem_productionList_attach hq with rfl | hq
      · exact Nat.le_refl _
      · have := h.stamped q hq
        omega
    · rcases mem_productionList_attach hq with rfl | hq
      · intro he
        exact IsSymbolName.ne_startName (.inl ht.1) (by rw [← hname, he]; rfl)
      · exact h.noStart q hq

theorem Growing.addAll {texts : List ProductionText} (h : g.Growing)
    (ht : ∀ text ∈ texts, text.Plain) {u : Unit} {after : Grammar}
    (hadd : addAll texts g = .ok u after) : after.Growing := by
  induction texts generalizing g with
  | nil =>
    obtain ⟨_, rfl⟩ := Outcome.run_pure_eq_ok.mp hadd
    exact h
  | cons text texts ih =>
    rw [Grammar.addAll, Outcome.run_bind_eq_ok] at hadd
    obtain ⟨p, mid, hp, hadd⟩ := hadd
    exact ih (h.addParsed (ht text (List.mem_cons_self ..)) hp)
      (fun text htext => ht text (List.mem_cons_of_mem _ htext)) hadd

/-- Adding the start production makes a standard grammar. -/
theorem Growing.addStart (h : g.Growing) {name : String} {target : Symbol}
    (htarget : g.nonterminals.get? name = some target) (hne : target ≠ Symbol.start)
    {p : Production} {after : Grammar} (hadd : addStart name g = .ok p after) :
    after.Standard := by
  obtain ⟨hname, hkind, hproper⟩ := h.of_get?_nonterminals htarget
  have hintern := h.intern_eq htarget hne
  simp only [Grammar.addStart, Outcome.run_bind_eq_ok, Outcome.run_set_eq_ok] at hadd
  obtain ⟨_, _, hget, _, _, rfl, hadd⟩ := hadd
  obtain ⟨rfl, rfl⟩ := Outcome.run_get_eq_ok.mp hget
  simp only [hintern] at hadd
  obtain ⟨rfl, hv, rfl⟩ := add_eq_ok.mp hadd
  have hmade := ((h.setIssued (g.issued + Assoc.size (κ := String) (α := Symbol) {} + 1)).setUsage
    target { Grammar.usage g target with isStart := true })
  refine ⟨⟨Made.attach hmade (fun s hs => ?_) fun q hq => ?_, hv⟩, _,
    self_mem_productionList_attach _, rfl⟩
  · simp only [Production.symbols, List.mem_cons, List.not_mem_nil, or_false] at hs
    rcases hs with rfl | rfl
    · exact .inl (.inl rfl)
    · exact .inl hproper
  · have := h.stamped q hq
    dsimp only
    omega

theorem startProduction?_eq_none (h : g.Growing) : g.startProduction? = none :=
  List.find?_eq_none.mpr fun p hp => by simpa using h.noStart p hp

/-- Without a start production one is added. -/
theorem Growing.exists_of_setStart (h : g.Growing) {name : String} {p : Production}
    {after : Grammar} (hset : setStart name g = .ok p after) :
    ∃ target, g.nonterminals.get? name = some target ∧ target ≠ Symbol.start ∧
      Grammar.addStart name g = .ok p after := by
  rw [Grammar.setStart, Outcome.run_get_bind] at hset
  cases htarget : g.nonterminals.get? name with
  | none =>
    rw [htarget] at hset
    exact (Outcome.run_throw_eq_ok.mp hset).elim
  | some target =>
    rw [htarget] at hset
    obtain ⟨hne, hset⟩ := Outcome.run_guard_eq_ok.mp hset
    rw [startProduction?_eq_none h] at hset
    exact ⟨target, rfl, hne, orRestore_eq_ok.mp hset⟩

theorem Growing.setStart (h : g.Growing) {name : String} {p : Production} {after : Grammar}
    (hset : setStart name g = .ok p after) : after.Standard := by
  obtain ⟨target, htarget, hne, hadd⟩ := h.exists_of_setStart hset
  exact h.addStart htarget hne hadd

theorem build_eq_ok {edit : Edit Unit} : build edit = .ok g ↔ edit {} = .ok () g := by
  rw [build]
  cases edit {} <;> simp

/-- The productions of a text are added in order, then its start symbol is set. -/
theorem ofText_eq_ok {text : String} : ofText text = .ok g ↔
    ∃ source mid p, GrammarSource.parse text = .ok source ∧
      addAll source.productions {} = .ok () mid ∧
      mid.nonterminals.contains
        (source.start.getD (source.productions.head?.elim "" ProductionText.left)) = true ∧
      setStart (source.start.getD (source.productions.head?.elim "" ProductionText.left)) mid =
        .ok p g := by
  rw [ofText]
  cases hsource : GrammarSource.parse text with
  | error f => simp
  | ok source =>
    simp only [build_eq_ok, ofSource, Outcome.run_bind_eq_ok, Outcome.run_get_bind,
      Outcome.run_guard_eq_ok, Outcome.run_pure_eq_ok]
    constructor
    · rintro ⟨_, mid, hall, hguard, p, _, hset, -, rfl⟩
      exact ⟨source, mid, p, rfl, hall, by simpa using hguard, hset⟩
    · rintro ⟨_, mid, p, hsame, hall, hguard, hset⟩
      cases hsame
      exact ⟨⟨⟩, mid, hall, by simpa using hguard, p, g, hset, trivial, rfl⟩

/-- Every grammar of a text is standard. -/
theorem standard_ofText {text : String} (h : ofText text = .ok g) : g.Standard := by
  obtain ⟨source, mid, p, hsource, hall, -, hset⟩ := ofText_eq_ok.mp h
  exact (growing_empty.addAll (GrammarSource.plain_parse hsource) hall).setStart hset

end Grammar

end Lookahead
