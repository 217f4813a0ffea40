import Lookahead.Grammar.Order
import Lookahead.Proofs.Grammar.Loading
import Mathlib.Data.List.Perm.Basic

/-!
# Sorting keeps grammars standard

Sorting numbers the productions and changes the order of the tables; names, symbols and
uses stay.
-/

namespace Lookahead

open List (Perm)

/-- A table with distinct keys finds the same in any order of its entries. -/
theorem Assoc.get?_eq_of_perm {κ α : Type} [DecidableEq κ] {m m' : Assoc κ α}
    (h : Perm m.entries m'.entries) (hm : m.keys.Nodup) (k : κ) : m'.get? k = m.get? k := by
  have hm' : m'.keys.Nodup := (h.map Prod.fst).nodup_iff.mp hm
  refine Option.ext fun a => ?_
  rw [Assoc.get?_eq_some_iff hm', Assoc.get?_eq_some_iff hm, h.mem_iff]

namespace Grammar

variable {g : Grammar}

/-- Numbering changes the numbers only. -/
theorem map_numberFrom {β : Type} {f : Production → β}
    (hf : ∀ (p : Production) (number : Int), f { p with number } = f p) (left : Option String)
    (next : Nat) (ps : List Production) : (numberFrom left next ps).map f = ps.map f := by
  induction ps generalizing left next with
  | nil => rfl
  | cons p ps ih =>
    simp only [numberFrom, List.map_cons, ih]
    rw [hf]

theorem exists_of_mem_numberFrom {left : Option String} {next : Nat} {ps : List Production}
    {q : Production} (hq : q ∈ numberFrom left next ps) :
    ∃ p ∈ ps, ∃ number : Int, q = { p with number } := by
  induction ps generalizing left next with
  | nil => cases hq
  | cons p ps ih =>
    simp only [numberFrom, List.mem_cons] at hq
    rcases hq with rfl | hq
    · exact ⟨p, List.mem_cons_self .., _, rfl⟩
    · obtain ⟨p', hp', hq'⟩ := ih hq
      exact ⟨p', List.mem_cons_of_mem _ hp', hq'⟩

/-- The productions in the order of a sorted grammar. -/
def ordered (g : Grammar) : List Production :=
  g.productionList.mergeSort fun p q => (ruleKey p).le (ruleKey q)

theorem perm_ordered (g : Grammar) : Perm g.ordered g.productionList := List.mergeSort_perm ..

theorem keys_productions (hv : g.Valid) :
    g.productions.keys = g.productionList.map Production.name := by
  rw [productionList, Assoc.values, Assoc.keys, List.map_map]
  exact List.map_congr_left fun e he => ((valid_iff.mp hv).1 e he).1

section Sorted

variable (h : g.Made) (hv : g.Valid)
include h hv

theorem entries_sort :
    g.sort.productions.entries = (numberFrom none 0 g.ordered).map fun p => (p.name, p) := by
  have hnodup : (((numberFrom none 0 g.ordered).map fun p => (p.name, p)).map Prod.fst).Nodup := by
    rw [List.map_map]
    have hnames := map_numberFrom (f := Production.name) (fun _ _ => rfl) none 0 g.ordered
    have hperm := (perm_ordered g).map Production.name
    rw [← keys_productions hv] at hperm
    simpa [Function.comp_def, hnames] using hperm.nodup_iff.mpr h.productions_nodup
  exact congrArg Assoc.entries (Assoc.ofList_eq hnodup)

theorem productionList_sort :
    g.sort.productionList = numberFrom none 0 g.ordered := by
  rw [productionList, Assoc.values, entries_sort h hv, List.map_map]
  exact List.map_id _

theorem perm_map_sort {β : Type} {f : Production → β}
    (hf : ∀ (p : Production) (number : Int), f { p with number } = f p) :
    Perm (g.sort.productionList.map f) (g.productionList.map f) := by
  rw [productionList_sort h hv, map_numberFrom hf]
  exact (perm_ordered g).map f

theorem perm_symbols_sort : Perm (g.sort.productionList.flatMap Production.symbols)
    (g.productionList.flatMap Production.symbols) := by
  simp only [List.flatMap_def]
  exact (perm_map_sort h hv fun _ _ => rfl).flatten

theorem uses_sort (s : Symbol) : g.sort.uses s = g.uses s :=
  (perm_symbols_sort h hv).count_eq s

omit hv in
theorem get?_nonterminals_sort (name : String) :
    g.sort.nonterminals.get? name = g.nonterminals.get? name :=
  Assoc.get?_eq_of_perm (List.mergeSort_perm ..).symm h.nonterminals_nodup name

omit hv in
theorem get?_terminals_sort (name : String) :
    g.sort.terminals.get? name = g.terminals.get? name :=
  Assoc.get?_eq_of_perm (List.mergeSort_perm ..).symm h.terminals_nodup name

omit hv in
theorem amended_sort : g.sort.amended = {} := by
  rw [sort, h.amended]
  rfl

theorem Made.sort : g.sort.Made := by
  have hn : Perm g.sort.nonterminals.entries g.nonterminals.entries := List.mergeSort_perm ..
  have ht : Perm g.sort.terminals.entries g.terminals.entries := List.mergeSort_perm ..
  refine ⟨(hn.map Prod.fst).nodup_iff.mpr h.nonterminals_nodup,
    (ht.map Prod.fst).nodup_iff.mpr h.terminals_nodup, fun e he => ?_, fun e he => ?_, ?_, ?_,
    amended_sort h⟩
  · exact h.nonterminal e (hn.mem_iff.mp he)
  · exact h.terminal e (ht.mem_iff.mp he)
  · have hkeys : g.sort.productions.keys = g.sort.productionList.map Production.name := by
      rw [productionList_sort h hv, Assoc.keys, entries_sort h hv, List.map_map]
      rfl
    rw [hkeys, (perm_map_sort h hv fun _ _ => rfl).nodup_iff, ← keys_productions hv]
    exact h.productions_nodup
  · exact (perm_map_sort h hv fun _ _ => rfl).nodup_iff.mpr h.stamps_nodup

end Sorted

/-- Sorting keeps a grammar standard. -/
theorem Standard.sort (h : g.Standard) : g.sort.Standard := by
  obtain ⟨hproductions, hsymbols⟩ := valid_iff.mp h.valid
  have hmade := Made.sort h.toMade h.valid
  refine ⟨⟨hmade, valid_iff.mpr ⟨fun e he => ?_, fun s hs => ?_⟩⟩, ?_⟩
  · rw [entries_sort h.toMade h.valid] at he
    obtain ⟨q, hq, rfl⟩ := List.mem_map.mp he
    obtain ⟨p, hp, number, rfl⟩ := exists_of_mem_numberFrom hq
    obtain ⟨name, hname⟩ := Assoc.exists_get?_of_mem_values h.productions_nodup
      ((perm_ordered g).mem_iff.mp hp)
    obtain ⟨_, hright, hleft, hall⟩ := hproductions _ (Assoc.get?_eq_some_of_lookupIn hname)
    refine ⟨rfl, hright, ?_, fun s hs => ?_⟩
    · rw [get?_nonterminals_sort h.toMade]
      exact hleft
    · rw [RightSymbol, get?_nonterminals_sort h.toMade, get?_terminals_sort h.toMade]
      exact hall s hs
  · have hs' : s = Symbol.epsilon ∨ s ∈ g.nonterminalList ∨ s ∈ g.terminalList := by
      rwa [hmade.mem_nonterminalList_iff, hmade.mem_terminalList_iff,
        get?_nonterminals_sort h.toMade, get?_terminals_sort h.toMade,
        ← h.mem_nonterminalList_iff, ← h.mem_terminalList_iff] at hs
    rw [uses_sort h.toMade h.valid]
    exact hsymbols s hs'
  · obtain ⟨p, hp, hleft⟩ := h.start
    have hmem : Symbol.start ∈ g.sort.productionList.map Production.left :=
      (perm_map_sort h.toMade h.valid fun _ _ => rfl).mem_iff.mpr (hleft ▸ List.mem_map_of_mem hp)
    obtain ⟨q, hq, he⟩ := List.mem_map.mp hmem
    exact ⟨q, hq, he⟩

/-- A grammar read from a text, as it is or sorted. -/
def FromText (g : Grammar) : Prop := ∃ text h, ofText text = .ok h ∧ (g = h ∨ g = h.sort)

theorem FromText.standard (h : g.FromText) : g.Standard := by
  obtain ⟨text, g', hread, rfl | rfl⟩ := h
  · exact standard_ofText hread
  · exact (standard_ofText hread).sort

end Grammar

end Lookahead
