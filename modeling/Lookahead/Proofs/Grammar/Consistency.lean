import Lookahead.Proofs.Grammar.Counting
import Lookahead.Proofs.Grammar.Sorting

/-!
# Consistent grammars

A grammar is tidy if its tables and counts are those of the symbols of its productions,
which have the form of a start production or of a rule. It is consistent if moreover the
start mark is on the symbol that the start production names. A consistent grammar is
valid, so no check refuses it. Attaching a new production and detaching a listed one
keep a grammar tidy.
-/

namespace Lookahead

open Grammar (kindOfName)
open List (Perm Sublist)

/-- A symbol other than the markers, of the kind that its name shows. -/
def Symbol.Plain (s : Symbol) : Prop := IsSymbolName s.name ∧ s.kind = kindOfName s.name

theorem Symbol.Plain.proper {s : Symbol} (h : s.Plain) : s.Proper := .inr h

theorem Symbol.Plain.ne_start {s : Symbol} (h : s.Plain) : s ≠ Symbol.start := by
  rintro rfl
  exact h.1.ne_startName rfl

theorem Symbol.Proper.plain {s : Symbol} (h : s.Proper) (hne : s ≠ Symbol.start) : s.Plain :=
  h.resolve_left hne

theorem SymbolKind.tabled_kindOfName (name : String) : (kindOfName name).Tabled := by
  rw [kindOfName]
  split
  · exact .inr rfl
  · exact .inl rfl

namespace Production

/-- Names a nonterminal as the start symbol of the user. -/
def StartForm (p : Production) : Prop :=
  p.left = Symbol.start ∧ ∃ s, p.right = [s] ∧ s.Plain ∧ s.kind = .nonterminal

/-- Rewrites a nonterminal into the empty word or into a row of symbols. -/
def RuleForm (p : Production) : Prop :=
  (p.left.Plain ∧ p.left.kind = .nonterminal) ∧
    (p.right = [Symbol.epsilon] ∨ p.right ≠ [] ∧ ∀ s ∈ p.right, s.Plain)

def Formed (p : Production) : Prop := p.StartForm ∨ p.RuleForm

variable {p : Production} {s : Symbol}

theorem Formed.startForm (h : p.Formed) (hleft : p.left = Symbol.start) : p.StartForm :=
  h.resolve_right fun hr => hr.1.1.ne_start hleft

theorem Formed.left_proper (h : p.Formed) : p.left.Proper ∧ p.left.kind = .nonterminal := by
  rcases h with ⟨hleft, _⟩ | ⟨⟨hleft, hkind⟩, _⟩
  · rw [hleft]
    exact ⟨.inl rfl, rfl⟩
  · exact ⟨hleft.proper, hkind⟩

theorem Formed.right_ne_nil (h : p.Formed) : p.right ≠ [] := by
  rcases h with ⟨_, s, hright, _⟩ | ⟨_, hright | ⟨hright, _⟩⟩
  · simp [hright]
  · simp [hright]
  · exact hright

theorem Formed.of_mem_right (h : p.Formed) (hs : s ∈ p.right) :
    s = Symbol.epsilon ∧ p.right.length = 1 ∨ s.Plain := by
  rcases h with ⟨_, t, hright, ht, _⟩ | ⟨_, hright | ⟨_, hright⟩⟩
  · rw [hright, List.mem_singleton] at hs
    exact .inr (hs ▸ ht)
  · rw [hright, List.mem_singleton] at hs
    exact .inl ⟨hs, by rw [hright]; rfl⟩
  · exact .inr (hright s hs)

/-- A symbol of a production is the mark of the empty word or belongs in a table. -/
theorem Formed.of_mem_symbols (h : p.Formed) (hs : s ∈ p.symbols) :
    s.Proper ∨ s = Symbol.epsilon := by
  rcases List.mem_cons.mp hs with rfl | hs
  · exact .inl h.left_proper.1
  · rcases h.of_mem_right hs with ⟨he, _⟩ | hp
    · exact .inr he
    · exact .inl hp.proper

/-- The name of a production tells whether it is a start production. -/
theorem Formed.left_eq_start_of_name_eq {q : Production} (hp : p.Formed)
    (hleft : q.left = Symbol.start) (hname : p.name = q.name) : p.left = Symbol.start := by
  refine hp.left_proper.1.resolve_right fun hplain => ?_
  -- the name of a rule has its arrow behind one character, where a start production has the quote
  obtain ⟨c, _, hc⟩ := hplain.1.exists_char
  have hchars := congrArg (fun name => (String.toList name)[1]?) hname
  simp [name, productionName, hc, hleft, Symbol.start, Symbol.startName] at hchars

end Production

theorem Symbol.Proper.tabled {s : Symbol} (h : s.Proper) : s.kind.Tabled := by
  rcases h with rfl | ⟨_, hkind⟩
  · exact .inr rfl
  · exact hkind ▸ SymbolKind.tabled_kindOfName s.name

namespace Grammar

variable {g : Grammar} {p : Production} {s : Symbol}

/-- Every occurrence of a symbol in a production, left sides included. -/
def occurrences (g : Grammar) : List Symbol := g.productionList.flatMap Production.symbols

structure Tidy (g : Grammar) : Prop extends g.Made where
  stamped : g.Stamped
  named : ∀ e ∈ g.productions.entries, e.1 = e.2.name
  formed : ∀ p ∈ g.productionList, p.Formed
  counted : g.Counted g.occurrences
  oneStart : ∀ p ∈ g.productionList, ∀ q ∈ g.productionList,
    p.left = Symbol.start → q.left = Symbol.start → p = q

structure Consistent (g : Grammar) : Prop extends g.Tidy where
  starts : ∀ s, g.isStart s = true ↔ ∃ p ∈ g.productionList, p.left = Symbol.start ∧ p.right = [s]

theorem consistent_empty : Consistent {} where
  toMade := growing_empty.toMade
  stamped := growing_empty.stamped
  named := by simp
  formed := by simp [productionList, Assoc.values]
  counted := ⟨fun _ => rfl, fun kind name s => by
    cases kind <;> simp [registry, Assoc.get?_empty, occurrences, productionList, Assoc.values]⟩
  oneStart := by simp [productionList, Assoc.values]
  starts := fun s => by simp [isStart, usage, Assoc.get?_empty, productionList, Assoc.values]

namespace Tidy

variable (h : g.Tidy)
include h

theorem get?_name (hp : p ∈ g.productionList) : g.productions.get? p.name = some p := by
  obtain ⟨e, he, rfl⟩ := List.mem_map.mp hp
  rw [← h.named e he]
  exact (Assoc.get?_eq_some_iff h.productions_nodup).mpr he

theorem mem_of_get? {name : String} (hp : g.productions.get? name = some p) :
    p ∈ g.productionList ∧ p.name = name :=
  ⟨Assoc.mem_values_of_get? hp, (h.named _ (Assoc.get?_eq_some_of_lookupIn hp)).symm⟩

theorem of_mem_occurrences (hs : s ∈ g.occurrences) : s.Proper ∨ s = Symbol.epsilon := by
  obtain ⟨p, hp, hs⟩ := List.mem_flatMap.mp hs
  exact (h.formed p hp).of_mem_symbols hs

omit h in
theorem mem_occurrences (hp : p ∈ g.productionList) (hs : s ∈ p.symbols) : s ∈ g.occurrences :=
  List.mem_flatMap.mpr ⟨p, hp, hs⟩

theorem mem_nonterminalList :
    s ∈ g.nonterminalList ↔ s.kind = .nonterminal ∧ s ∈ g.occurrences := by
  rw [h.mem_nonterminalList_iff]
  change (g.registry .nonterminal).get? s.name = some s ↔ _
  simp [h.counted.registered, SymbolKind.Tabled]

theorem mem_terminalList : s ∈ g.terminalList ↔ s.kind = .terminal ∧ s ∈ g.occurrences := by
  rw [h.mem_terminalList_iff]
  change (g.registry .terminal).get? s.name = some s ↔ _
  simp [h.counted.registered, SymbolKind.Tabled]

theorem valid : g.Valid := by
  refine valid_iff.mpr ⟨fun e he => ?_, fun s hs => ⟨h.counted.references s, ?_⟩⟩
  · have hp : e.2 ∈ g.productionList := List.mem_map_of_mem he
    have hformed := h.formed _ hp
    refine ⟨h.named e he, hformed.right_ne_nil, ?_, fun s hs => ?_⟩
    · rw [← h.mem_nonterminalList_iff, h.mem_nonterminalList]
      exact ⟨hformed.left_proper.2, mem_occurrences hp (List.mem_cons_self ..)⟩
    · rw [RightSymbol, ← h.mem_nonterminalList_iff, ← h.mem_terminalList_iff,
        h.mem_nonterminalList, h.mem_terminalList]
      have hused : s ∈ g.occurrences := mem_occurrences hp (List.mem_cons_of_mem _ hs)
      refine (hformed.of_mem_right hs).imp_right fun hplain => ?_
      rcases hplain.proper.tabled with hk | hk
      · exact .inr ⟨hk, hk, hused⟩
      · exact .inl ⟨hk, hk, hused⟩
  · refine hs.imp_right fun hs => ?_
    rw [uses, ← Nat.pos_iff_ne_zero, List.count_pos_iff]
    exact hs.elim (fun hs => (h.mem_nonterminalList.mp hs).2) fun hs => (h.mem_terminalList.mp hs).2

theorem lawful : g.Lawful := ⟨h.toMade, h.valid⟩

end Tidy

/-! ### Attaching and detaching -/

theorem Made.unregister (h : g.Made) (s : Symbol) : (g.unregister s).Made := by
  rw [Grammar.unregister]
  split
  · exact ⟨Assoc.nodup_keys_erase h.nonterminals_nodup _, h.terminals_nodup,
      fun e he => h.nonterminal e (Assoc.mem_entries_of_erase he), h.terminal, h.productions_nodup,
      h.stamps_nodup, h.amended⟩
  · exact ⟨h.nonterminals_nodup, Assoc.nodup_keys_erase h.terminals_nodup _, h.nonterminal,
      fun e he => h.terminal e (Assoc.mem_entries_of_erase he), h.productions_nodup,
      h.stamps_nodup, h.amended⟩
  · exact h

theorem Made.release (h : g.Made) (s : Symbol) : (g.release s).Made := by
  have hcounted := h.setUsage s { g.usage s with references := g.references s + -1 }
  rw [Grammar.release]
  split
  · exact hcounted.unregister s
  · exact hcounted

theorem Made.foldl_release (h : g.Made) (symbols : List Symbol) :
    (symbols.foldl Grammar.release g).Made := by
  induction symbols generalizing g with
  | nil => exact h
  | cons s symbols ih => exact ih (h.release s)

theorem productions_release (g : Grammar) (s : Symbol) :
    (g.release s).productions = g.productions ∧ (g.release s).issued = g.issued := by
  rw [release]
  split
  · rw [unregister]
    split <;> exact ⟨rfl, rfl⟩
  · exact ⟨rfl, rfl⟩

theorem productions_foldl_release (symbols : List Symbol) (g : Grammar) :
    (symbols.foldl release g).productions = g.productions ∧
      (symbols.foldl release g).issued = g.issued := by
  induction symbols generalizing g with
  | nil => exact ⟨rfl, rfl⟩
  | cons s symbols ih =>
    obtain ⟨hp, hi⟩ := ih (g.release s)
    exact ⟨hp.trans (productions_release g s).1, hi.trans (productions_release g s).2⟩

/-- A grammar that differs in start marks only. -/
structure Remarks (g g' : Grammar) : Prop where
  eq : ∃ usages, g' = { g with usages }
  references : ∀ s, g'.references s = g.references s

theorem Remarks.refl (g : Grammar) : g.Remarks g := ⟨⟨g.usages, rfl⟩, fun _ => rfl⟩

theorem Remarks.trans {g' g'' : Grammar} (h : g.Remarks g') (h' : g'.Remarks g'') :
    g.Remarks g'' := by
  obtain ⟨⟨_, rfl⟩, hr⟩ := h
  obtain ⟨⟨usages, rfl⟩, hr'⟩ := h'
  exact ⟨⟨usages, rfl⟩, fun s => (hr' s).trans (hr s)⟩

theorem remarks_markStart (g : Grammar) (s : Symbol) (b : Bool) : g.Remarks (g.markStart s b) := by
  refine ⟨⟨_, rfl⟩, fun t => ?_⟩
  rw [markStart, references]
  by_cases h : s = t
  · subst h
    simp [references]
  · rw [usage_setUsage_of_ne g _ h]
    rfl

theorem isStart_markStart (g : Grammar) (s t : Symbol) (b : Bool) :
    (g.markStart s b).isStart t = if s = t then b else g.isStart t := by
  rw [markStart, isStart]
  by_cases h : s = t
  · subst h
    simp
  · rw [usage_setUsage_of_ne g _ h, if_neg h]
    rfl

theorem foldl_markStart_spec (symbols : List Symbol) (g : Grammar) :
    g.Remarks (symbols.foldl (fun g s => g.markStart s false) g) ∧
      ∀ t, (symbols.foldl (fun g s => g.markStart s false) g).isStart t =
        if t ∈ symbols then false else g.isStart t := by
  induction symbols generalizing g with
  | nil => exact ⟨.refl g, fun t => by simp⟩
  | cons s symbols ih =>
    obtain ⟨hr, hs⟩ := ih (g.markStart s false)
    refine ⟨(remarks_markStart g s false).trans hr, fun t => ?_⟩
    rw [List.foldl_cons, hs t, isStart_markStart]
    by_cases hst : s = t
    · simp [hst]
    · have : ¬t = s := fun h => hst h.symm
      simp [hst, this]

theorem Remarks.made {g' : Grammar} (hr : g.Remarks g') (h : g.Made) : g'.Made := by
  obtain ⟨⟨_, rfl⟩, _⟩ := hr
  exact ⟨h.nonterminals_nodup, h.terminals_nodup, h.nonterminal, h.terminal, h.productions_nodup,
    h.stamps_nodup, h.amended⟩

theorem Remarks.counted {g' : Grammar} {uses : List Symbol} (hr : g.Remarks g')
    (h : g.Counted uses) : g'.Counted uses := by
  refine h.congr hr.references fun kind _ => ?_
  obtain ⟨⟨_, rfl⟩, _⟩ := hr
  cases kind <;> rfl

theorem Remarks.tidy {g' : Grammar} (hr : g.Remarks g') (h : g.Tidy) : g'.Tidy := by
  have hmade := hr.made h.toMade
  have hcounted := hr.counted h.counted
  obtain ⟨⟨_, rfl⟩, _⟩ := hr
  exact ⟨hmade, h.stamped, h.named, h.formed, hcounted, h.oneStart⟩

theorem Tidy.setIssued (h : g.Tidy) {n : Nat} (hn : g.issued ≤ n) :
    Tidy { g with issued := n } where
  toMade := h.toMade.setIssued n
  stamped := fun p hp => Nat.le_trans (h.stamped p hp) hn
  named := h.named
  formed := h.formed
  counted := h.counted.congr (fun _ => rfl) fun kind _ => by cases kind <;> rfl
  oneStart := h.oneStart

/-- What a production must be to be attached. -/
structure Attachable (g : Grammar) (p : Production) : Prop where
  formed : p.Formed
  named : g.productions.get? p.name = none
  stamped : p.stamp ≤ g.issued
  new : ∀ q ∈ g.productionList, q.stamp ≠ p.stamp
  unambiguous : Unambiguous (p.symbols ++ g.occurrences)
  oneStart : p.left = Symbol.start → ∀ q ∈ g.productionList, q.left ≠ Symbol.start

theorem Attachable.productionList_attach (h : g.Attachable p) :
    (g.attach p).productionList = g.productionList ++ [p] :=
  productionList_attach_of_new h.named

theorem Tidy.attach (h : g.Tidy) (hp : g.Attachable p) : (g.attach p).Tidy := by
  have hlist := hp.productionList_attach
  refine ⟨h.toMade.attach (fun s hs => hp.formed.of_mem_symbols hs) hp.new, fun q hq => ?_,
    fun e he => ?_, fun q hq => ?_, ?_, fun q hq r hr hleft hleft' => ?_⟩
  · change q.stamp ≤ (p.symbols.foldl acquire g).issued
    rw [(productions_foldl_acquire p.symbols g).2]
    rcases mem_productionList_attach hq with rfl | hq
    · exact hp.stamped
    · exact h.stamped q hq
  · change e ∈ ((p.symbols.foldl acquire g).productions.put p.name p).entries at he
    rw [(productions_foldl_acquire p.symbols g).1] at he
    rcases Assoc.mem_entries_put he with rfl | he
    · rfl
    · exact h.named e he
  · rcases mem_productionList_attach hq with rfl | hq
    · exact hp.formed
    · exact h.formed q hq
  · have hperm : Perm (p.symbols ++ g.occurrences) (g.attach p).occurrences := by
      rw [occurrences, occurrences, hlist, List.flatMap_append, List.flatMap_singleton]
      exact List.perm_append_comm
    have hcounted := (h.counted.foldl_acquire hp.unambiguous).perm hperm
    refine hcounted.congr (fun _ => rfl) fun kind _ => ?_
    cases kind <;> rfl
  · rcases mem_productionList_attach hq with rfl | hq'
    · rcases mem_productionList_attach hr with rfl | hr'
      · rfl
      · exact absurd hleft' (hp.oneStart hleft r hr')
    · rcases mem_productionList_attach hr with rfl | hr'
      · exact absurd hleft (hp.oneStart hleft' q hq')
      · exact h.oneStart q hq' r hr' hleft hleft'

/-- Detaching erases an entry, takes back start marks and releases symbols. -/
theorem exists_detach_eq (g : Grammar) (p : Production) :
    ∃ g', Remarks { g with productions := g.productions.erase p.name } g' ∧
      (∀ s, g'.isStart s = if p.left = Symbol.start ∧ s ∈ p.right then false else g.isStart s) ∧
      g.detach p = p.symbols.foldl release g' := by
  by_cases hleft : p.left = Symbol.start
  · obtain ⟨hr, hs⟩ :=
      foldl_markStart_spec p.right { g with productions := g.productions.erase p.name }
    exact ⟨_, hr, fun s => by rw [hs s]; simp [hleft]; rfl, by rw [detach, if_pos hleft]⟩
  · exact ⟨_, .refl _, fun s => by simp [hleft]; rfl, by rw [detach, if_neg hleft]⟩

theorem productions_detach (g : Grammar) (p : Production) :
    (g.detach p).productions = g.productions.erase p.name ∧ (g.detach p).issued = g.issued := by
  obtain ⟨g', ⟨⟨_, rfl⟩, _⟩, _, heq⟩ := exists_detach_eq g p
  rw [heq]
  exact productions_foldl_release p.symbols _

theorem isStart_detach (g : Grammar) (p : Production) (s : Symbol) :
    (g.detach p).isStart s =
      if p.left = Symbol.start ∧ s ∈ p.right then false else g.isStart s := by
  obtain ⟨g', _, hs, heq⟩ := exists_detach_eq g p
  rw [heq, isStart_foldl_release, hs s]

theorem Tidy.perm_detach (h : g.Tidy) (hp : p ∈ g.productionList) :
    Perm g.productionList (p :: (g.detach p).productionList) := by
  rw [productionList, productionList, (productions_detach g p).1]
  exact Assoc.perm_values_erase h.productions_nodup (h.get?_name hp)

/-- Detaching takes one production off the list and leaves the others in their order. -/
theorem Tidy.productionList_detach (h : g.Tidy) (hp : p ∈ g.productionList) :
    (g.detach p).productionList = g.productionList.filter fun q => q ≠ p := by
  rw [productionList, (productions_detach g p).1, productionList, Assoc.values, Assoc.values,
    Assoc.erase, List.filter_map]
  refine congrArg (List.map Prod.snd) (List.filter_congr fun e he => ?_)
  have hsame : e.1 = p.name ↔ e.2 = p := by
    constructor
    · intro hname
      have hget := (Assoc.get?_eq_some_iff h.productions_nodup).mpr (show (p.name, e.2) ∈ _ from
        hname ▸ he)
      rw [h.get?_name hp] at hget
      exact (Option.some.inj hget).symm
    · intro heq
      rw [h.named e he, heq]
  simp [hsame]

theorem Tidy.mem_detach_iff (h : g.Tidy) (hp : p ∈ g.productionList) {q : Production} :
    q ∈ (g.detach p).productionList ↔ q ∈ g.productionList ∧ q ≠ p := by
  rw [h.productionList_detach hp, List.mem_filter, decide_eq_true_iff]

theorem Tidy.detach (h : g.Tidy) (hp : p ∈ g.productionList) : (g.detach p).Tidy := by
  obtain ⟨g', hr, _, heq⟩ := exists_detach_eq g p
  obtain ⟨hproductions, hissued⟩ := productions_detach g p
  have hmem {q : Production} (hq : q ∈ (g.detach p).productionList) : q ∈ g.productionList :=
    ((h.mem_detach_iff hp).mp hq).1
  have herased : Made { g with productions := g.productions.erase p.name } :=
    ⟨h.nonterminals_nodup, h.terminals_nodup, h.nonterminal, h.terminal,
      Assoc.nodup_keys_erase h.productions_nodup _,
      h.stamps_nodup.sublist ((List.filter_sublist.map Prod.snd).map Production.stamp), h.amended⟩
  refine ⟨?_, fun q hq => ?_, fun e he => ?_, fun q hq => h.formed q (hmem hq), ?_,
    fun q hq r hr => h.oneStart q (hmem hq) r (hmem hr)⟩
  · rw [heq]
    exact (hr.made herased).foldl_release _
  · rw [hissued]
    exact h.stamped q (hmem hq)
  · rw [hproductions] at he
    exact h.named e (Assoc.mem_entries_of_erase he)
  · have hcounted : g'.Counted g.occurrences :=
      hr.counted (h.counted.congr (fun _ => rfl) fun kind _ => by cases kind <;> rfl)
    have hperm : Perm g.occurrences (p.symbols ++ (g.detach p).occurrences) :=
      (h.perm_detach hp).flatMap_right Production.symbols
    rw [heq] at hperm ⊢
    exact hcounted.foldl_release hperm

/-! ### Sorting and findings -/

theorem get?_registry_sort (h : g.Made) (kind : SymbolKind) (name : String) :
    (g.sort.registry kind).get? name = (g.registry kind).get? name := by
  cases kind with
  | terminal => exact get?_terminals_sort h name
  | nonterminal => exact get?_nonterminals_sort h name
  | epsilon => rfl
  | endOfInput => rfl

/-- Sorting a consistent grammar changes the numbers of its productions only. -/
theorem Tidy.perm_content_sort (h : g.Tidy) :
    Perm (g.sort.productionList.map fun p => (p.stamp, p.left, p.right))
      (g.productionList.map fun p => (p.stamp, p.left, p.right)) :=
  perm_map_sort h.toMade h.valid fun _ _ => rfl

theorem Tidy.exists_of_mem_sort (h : g.Tidy) (hp : p ∈ g.sort.productionList) :
    ∃ q ∈ g.productionList, q.stamp = p.stamp ∧ q.left = p.left ∧ q.right = p.right := by
  obtain ⟨q, hq, he⟩ := List.mem_map.mp (h.perm_content_sort.mem_iff.mp (List.mem_map_of_mem hp))
  simp only [Prod.mk.injEq] at he
  exact ⟨q, hq, he⟩

theorem Tidy.exists_mem_sort (h : g.Tidy) (hp : p ∈ g.productionList) :
    ∃ q ∈ g.sort.productionList, q.stamp = p.stamp ∧ q.left = p.left ∧ q.right = p.right := by
  obtain ⟨q, hq, he⟩ := List.mem_map.mp (h.perm_content_sort.mem_iff.mpr (List.mem_map_of_mem hp))
  simp only [Prod.mk.injEq] at he
  exact ⟨q, hq, he⟩

theorem Tidy.sort (h : g.Tidy) : g.sort.Tidy := by
  have hmade := Made.sort h.toMade h.valid
  refine ⟨hmade, fun p hp => ?_, fun e he => ?_, fun p hp => ?_, ?_,
    fun p hp q hq hleft hleft' => ?_⟩
  · obtain ⟨q, hq, hstamp, -⟩ := h.exists_of_mem_sort hp
    exact hstamp ▸ h.stamped q hq
  · rw [entries_sort h.toMade h.valid] at he
    obtain ⟨p, -, rfl⟩ := List.mem_map.mp he
    rfl
  · obtain ⟨q, hq, -, hleft, hright⟩ := h.exists_of_mem_sort hp
    have hformed := h.formed q hq
    rwa [Production.Formed, Production.StartForm, Production.RuleForm, hleft, hright] at hformed
  · have hcounted : g.sort.Counted g.occurrences :=
      h.counted.congr (fun _ => rfl) (get?_registry_sort h.toMade)
    exact hcounted.perm (perm_symbols_sort h.toMade h.valid).symm
  · obtain ⟨p', hp', hstamp, hl, -⟩ := h.exists_of_mem_sort hp
    obtain ⟨q', hq', hstamp', hl', -⟩ := h.exists_of_mem_sort hq
    have heq := h.oneStart p' hp' q' hq' (hl.trans hleft) (hl'.trans hleft')
    refine List.inj_on_of_nodup_map hmade.stamps_nodup hp hq ?_
    rw [← hstamp, ← hstamp', heq]

theorem Consistent.sort (h : g.Consistent) : g.sort.Consistent := by
  refine ⟨h.toTidy.sort, fun s => (h.starts s).trans ⟨?_, ?_⟩⟩
  · rintro ⟨p, hp, hleft, hright⟩
    obtain ⟨q, hq, -, hl, hr⟩ := h.toTidy.exists_mem_sort hp
    exact ⟨q, hq, hl.trans hleft, hr.trans hright⟩
  · rintro ⟨p, hp, hleft, hright⟩
    obtain ⟨q, hq, -, hl, hr⟩ := h.toTidy.exists_of_mem_sort hp
    exact ⟨q, hq, hl.trans hleft, hr.trans hright⟩

theorem Varies.consistent {g' : Grammar} (hv : g.Varies g') (h : g.Consistent) :
    g'.Consistent := by
  obtain ⟨_, _, rfl⟩ := hv
  have hcounted := h.counted
  exact ⟨⟨⟨h.nonterminals_nodup, h.terminals_nodup, h.nonterminal, h.terminal,
    h.productions_nodup, h.stamps_nodup, h.amended⟩, h.stamped, h.named, h.formed,
    hcounted.congr (fun _ => rfl) fun kind _ => by cases kind <;> rfl, h.oneStart⟩, h.starts⟩

end Grammar

end Lookahead
