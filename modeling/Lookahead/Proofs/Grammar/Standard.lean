import Lookahead.Grammar.Edit
import Lookahead.Grammar.Source
import Mathlib.Data.List.Nodup

/-!
# Standard grammars

What holds of every grammar that was read from a text, whatever the analyses have found
since: symbols are registered under their names and have the names of a text, productions
have different stamps, none was overwritten, and one belongs to the start marker. What needs
neither the names nor the start is said of all valid grammars, also of those whose productions
were overwritten in place.
-/

namespace Lookahead

open Grammar (kindOfName)

/-- The name of a symbol in a text: a capital letter or another allowed character. -/
def IsSymbolName (name : String) : Prop :=
  Symbol.isNonterminalName name = true ∨
    ∃ c, ProductionText.isAllowed c = true ∧ name = String.singleton c

theorem IsSymbolName.exists_char {name : String} (h : IsSymbolName name) :
    ∃ c, ProductionText.isAllowed c = true ∧ name = String.singleton c := by
  rcases h with h | h
  · rw [Symbol.isNonterminalName] at h
    split at h
    · rename_i c hc
      simp only [Bool.and_eq_true, decide_eq_true_eq, Char.le_def, UInt32.le_iff_toNat_le] at h
      change 65 ≤ c.toNat ∧ c.toNat ≤ 90 at h
      have hne {d : Char} (hd : 90 < d.toNat ∨ d.toNat < 65) : c ≠ d := by
        rintro rfl
        omega
      refine ⟨c, ?_, by rw [← String.toList_inj, hc, String.toList_singleton]⟩
      have hdollar : c ≠ '$' := hne (by decide)
      have hbar : c ≠ '|' := hne (by decide)
      simp [ProductionText.isAllowed, hdollar, hbar]
      omega
    · cases h
  · exact h

theorem IsSymbolName.ne_startName {name : String} (h : IsSymbolName name) :
    name ≠ Symbol.startName := by
  rintro rfl
  rcases h with h | ⟨c, _, h⟩
  · cases h
  · have hlist := congrArg String.toList h
    simp [Symbol.startName] at hlist

/-- The start marker, or a symbol of the kind that its name shows. -/
def Symbol.Proper (s : Symbol) : Prop :=
  s = Symbol.start ∨ IsSymbolName s.name ∧ s.kind = kindOfName s.name

namespace Grammar

variable {g : Grammar}

/-! ### Valid grammars in terms of their entries -/

theorem ite_nil_eq_nil_iff {c : Prop} [Decidable c] {b : Breach} :
    (if c then [] else [b]) = [] ↔ c := by
  by_cases h : c <;> simp [h]

/-- A symbol on the right side of a production is registered, or is the empty word alone. -/
def RightSymbol (g : Grammar) (p : Production) (s : Symbol) : Prop :=
  s = Symbol.epsilon ∧ p.right.length = 1 ∨
    s.kind = .nonterminal ∧ g.nonterminals.get? s.name = some s ∨
    s.kind = .terminal ∧ g.terminals.get? s.name = some s

theorem leftBreaches_eq_nil {p : Production} :
    g.leftBreaches p = [] ↔ g.nonterminals.get? p.left.name = some p.left := by
  rw [leftBreaches]
  split
  · rename_i h
    rw [ite_nil_eq_nil_iff, h]
    rfl
  · rw [ite_nil_eq_nil_iff]

theorem rightBreaches_eq_nil {p : Production} {s : Symbol} :
    g.rightBreaches p s = [] ↔ g.RightSymbol p s := by
  rw [rightBreaches, RightSymbol]
  cases hs : s.kind <;> simp only [ite_nil_eq_nil_iff]
  · have hne : s ≠ Symbol.epsilon := by
      rintro rfl
      cases hs
    simp [hne]
  · have hne : s ≠ Symbol.epsilon := by
      rintro rfl
      cases hs
    simp [hne]
  · simp
  · have hne : s ≠ Symbol.epsilon := by
      rintro rfl
      cases hs
    simp [hne]

theorem symbolBreaches_eq_nil {s : Symbol} :
    g.symbolBreaches s = [] ↔ g.references s = g.uses s ∧ (s = Symbol.epsilon ∨ g.uses s ≠ 0) := by
  rw [symbolBreaches, List.append_eq_nil_iff, ite_nil_eq_nil_iff]
  refine and_congr_right fun _ => ?_
  by_cases hs : s = Symbol.epsilon
  · simp [hs]
  · by_cases hu : g.uses s = 0 <;> simp [hs, hu]

theorem valid_iff : g.Valid ↔
    (∀ e ∈ g.productions.entries, e.1 = e.2.name ∧ e.2.right ≠ [] ∧
      g.nonterminals.get? e.2.left.name = some e.2.left ∧
      ∀ s ∈ e.2.right, g.RightSymbol e.2 s) ∧
    ∀ s, s = Symbol.epsilon ∨ s ∈ g.nonterminalList ∨ s ∈ g.terminalList →
      g.references s = g.uses s ∧ (s = Symbol.epsilon ∨ g.uses s ≠ 0) := by
  rw [Valid, breaches, List.append_eq_nil_iff, List.flatMap_eq_nil_iff, List.flatMap_eq_nil_iff]
  refine and_congr (forall₂_congr fun e _ => ?_) ?_
  · simp only [productionBreaches, List.append_eq_nil_iff, ite_nil_eq_nil_iff,
      leftBreaches_eq_nil, List.flatMap_eq_nil_iff, rightBreaches_eq_nil, and_assoc]
    refine and_congr_right fun _ => and_congr ?_ Iff.rfl
    cases e.2.right <;> simp
  · simp only [symbolBreaches_eq_nil, List.mem_cons, List.mem_append]

/-! ### Standard grammars -/

/-- What adding productions of a text keeps. -/
structure Made (g : Grammar) : Prop where
  nonterminals_nodup : g.nonterminals.keys.Nodup
  terminals_nodup : g.terminals.keys.Nodup
  nonterminal : ∀ e ∈ g.nonterminals.entries,
    e.2.name = e.1 ∧ e.2.kind = .nonterminal ∧ e.2.Proper
  terminal : ∀ e ∈ g.terminals.entries, e.2.name = e.1 ∧ e.2.kind = .terminal ∧ e.2.Proper
  productions_nodup : g.productions.keys.Nodup
  stamps_nodup : (g.productionList.map Production.stamp).Nodup
  amended : g.amended = {}

/-- A valid grammar, whether or not it has a start production. -/
structure Lawful (g : Grammar) : Prop extends g.Made where
  valid : g.Valid

/-- A valid grammar with a start production. -/
structure Standard (g : Grammar) : Prop extends g.Lawful where
  start : ∃ p ∈ g.productionList, p.left = Symbol.start

instance (g : Grammar) : Coe g.Standard g.Lawful := ⟨Standard.toLawful⟩

/-- A valid grammar with symbols of any names. Its productions may have been overwritten, but
whoever holds one sees its present form. -/
structure WellFormed (g : Grammar) : Prop where
  valid : g.Valid
  nonterminal : ∀ s ∈ g.nonterminalList, s.kind = .nonterminal
  terminal : ∀ s ∈ g.terminalList, s.kind = .terminal
  stamps_nodup : (g.productionList.map Production.stamp).Nodup
  current_eq : ∀ p ∈ g.productionList, g.current p = p

namespace Made

variable (h : g.Made)
include h

theorem of_get?_nonterminals {name : String} {s : Symbol} (hs : g.nonterminals.get? name = some s) :
    s.name = name ∧ s.kind = .nonterminal ∧ s.Proper :=
  h.nonterminal (name, s) (Assoc.get?_eq_some_of_lookupIn hs)

theorem of_get?_terminals {name : String} {s : Symbol} (hs : g.terminals.get? name = some s) :
    s.name = name ∧ s.kind = .terminal ∧ s.Proper :=
  h.terminal (name, s) (Assoc.get?_eq_some_of_lookupIn hs)

theorem mem_nonterminalList_iff {s : Symbol} :
    s ∈ g.nonterminalList ↔ g.nonterminals.get? s.name = some s := by
  constructor
  · intro hs
    obtain ⟨name, hname⟩ := Assoc.exists_get?_of_mem_values h.nonterminals_nodup hs
    rwa [(h.of_get?_nonterminals hname).1]
  · exact Assoc.mem_values_of_get?

theorem mem_terminalList_iff {s : Symbol} :
    s ∈ g.terminalList ↔ g.terminals.get? s.name = some s := by
  constructor
  · intro hs
    obtain ⟨name, hname⟩ := Assoc.exists_get?_of_mem_values h.terminals_nodup hs
    rwa [(h.of_get?_terminals hname).1]
  · exact Assoc.mem_values_of_get?

theorem kind_of_mem_nonterminalList {s : Symbol} (hs : s ∈ g.nonterminalList) :
    s.kind = .nonterminal :=
  (h.of_get?_nonterminals (h.mem_nonterminalList_iff.mp hs)).2.1

theorem kind_of_mem_terminalList {s : Symbol} (hs : s ∈ g.terminalList) : s.kind = .terminal :=
  (h.of_get?_terminals (h.mem_terminalList_iff.mp hs)).2.1

theorem current_eq (p : Production) : g.current p = p := by
  rw [current, h.amended]
  rfl

theorem nodup_productionList : g.productionList.Nodup := .of_map _ h.stamps_nodup

end Made

/-! ### Findings -/

variable {g' : Grammar} {s : Symbol} {p : Production}

/-- A grammar that differs in what the analyses have found only. -/
def Varies (g g' : Grammar) : Prop := ∃ found emptying, g' = { g with found, emptying }

theorem Varies.refl (g : Grammar) : g.Varies g := ⟨g.found, g.emptying, rfl⟩

theorem Varies.trans {g'' : Grammar} (h : g.Varies g') (h' : g'.Varies g'') : g.Varies g'' := by
  obtain ⟨_, _, rfl⟩ := h
  obtain ⟨found, emptying, rfl⟩ := h'
  exact ⟨found, emptying, rfl⟩

theorem Varies.symm (h : g.Varies g') : g'.Varies g := by
  obtain ⟨_, _, rfl⟩ := h
  exact ⟨g.found, g.emptying, rfl⟩

theorem Varies.standard (h : g.Varies g') (hg : g.Standard) : g'.Standard := by
  obtain ⟨_, _, rfl⟩ := h
  exact ⟨⟨⟨hg.nonterminals_nodup, hg.terminals_nodup, hg.nonterminal, hg.terminal,
    hg.productions_nodup, hg.stamps_nodup, hg.amended⟩, hg.valid⟩, hg.start⟩

theorem Varies.wellFormed (h : g.Varies g') (hg : g.WellFormed) : g'.WellFormed := by
  obtain ⟨_, _, rfl⟩ := h
  exact ⟨hg.valid, hg.nonterminal, hg.terminal, hg.stamps_nodup, hg.current_eq⟩

theorem Varies.productionList (h : g.Varies g') : g'.productionList = g.productionList := by
  obtain ⟨_, _, rfl⟩ := h
  rfl

theorem Varies.nonterminalList (h : g.Varies g') : g'.nonterminalList = g.nonterminalList := by
  obtain ⟨_, _, rfl⟩ := h
  rfl

theorem Varies.terminalList (h : g.Varies g') : g'.terminalList = g.terminalList := by
  obtain ⟨_, _, rfl⟩ := h
  rfl

theorem Varies.foldl {α : Type} {f : Grammar → α → Grammar}
    (hf : ∀ (g : Grammar) (a : α), g.Varies (f g a)) (xs : List α) (g : Grammar) : g.Varies (xs.foldl f g) := by
  induction xs generalizing g with
  | nil => exact .refl g
  | cons a xs ih => exact (hf g a).trans (ih (f g a))

theorem varies_setFindings (g : Grammar) (s : Symbol) (f : Findings) :
    g.Varies (g.setFindings s f) := ⟨_, g.emptying, rfl⟩

theorem varies_setEmptiable (g : Grammar) (p : Production) (b : Bool) :
    g.Varies (g.setEmptiable p b) := ⟨g.found, _, rfl⟩

theorem varies_resetAnalysis (g : Grammar) : g.Varies g.resetAnalysis :=
  (Varies.foldl (fun g s => varies_setFindings g s _) _ g).trans
    (Varies.foldl (fun g p => varies_setEmptiable g p _) _ _)

/-! ### Symbols of productions -/

/-- A symbol of the grammar other than the markers. -/
def Registered (g : Grammar) (s : Symbol) : Prop := s ∈ g.nonterminalList ∨ s ∈ g.terminalList

namespace WellFormed

variable (h : g.WellFormed)
include h

theorem right_ne_nil (hp : p ∈ g.productionList) : p.right ≠ [] := by
  obtain ⟨e, he, rfl⟩ := List.mem_map.mp hp
  exact ((valid_iff.mp h.valid).1 e he).2.1

theorem left_mem (hp : p ∈ g.productionList) : p.left ∈ g.nonterminalList := by
  obtain ⟨e, he, rfl⟩ := List.mem_map.mp hp
  exact Assoc.mem_values_of_get? ((valid_iff.mp h.valid).1 e he).2.2.1

theorem isNonterminal_left (hp : p ∈ g.productionList) : p.left.isNonterminal = true := by
  simp [Symbol.isNonterminal, h.nonterminal _ (h.left_mem hp)]

theorem rightSymbol (hp : p ∈ g.productionList) (hs : s ∈ p.right) : g.RightSymbol p s := by
  obtain ⟨e, he, rfl⟩ := List.mem_map.mp hp
  exact ((valid_iff.mp h.valid).1 e he).2.2.2 s hs

/-- A right side is the mark of the empty word, or it has registered symbols only. -/
theorem right_cases (hp : p ∈ g.productionList) :
    p.right = [Symbol.epsilon] ∨ ∀ s ∈ p.right, g.Registered s := by
  by_cases he : ∃ s ∈ p.right, s = Symbol.epsilon
  · obtain ⟨_, hs, rfl⟩ := he
    rcases h.rightSymbol hp hs with ⟨_, hlen⟩ | ⟨hk, _⟩ | ⟨hk, _⟩
    · obtain ⟨t, ht⟩ := List.length_eq_one_iff.mp hlen
      rw [ht] at hs ⊢
      rw [List.mem_singleton.mp hs]
      exact .inl rfl
    · cases hk
    · cases hk
  · refine .inr fun s hs => ?_
    rcases h.rightSymbol hp hs with ⟨he', _⟩ | ⟨_, hget⟩ | ⟨_, hget⟩
    · exact absurd ⟨s, hs, he'⟩ he
    · exact .inl (Assoc.mem_values_of_get? hget)
    · exact .inr (Assoc.mem_values_of_get? hget)

theorem not_isEpsilon (hs : g.Registered s) : s.isEpsilon = false := by
  rcases hs with hs | hs
  · simp [Symbol.isEpsilon, h.nonterminal s hs]
  · simp [Symbol.isEpsilon, h.terminal s hs]

theorem isEpsilon_iff (hp : p ∈ g.productionList) :
    p.isEpsilon = true ↔ p.right = [Symbol.epsilon] := by
  rcases h.right_cases hp with hr | hr
  · simp [Production.isEpsilon, hr, Symbol.isEpsilon, Symbol.epsilon]
  · constructor
    · intro he
      rw [Production.isEpsilon] at he
      split at he
      · rename_i s hs
        have hne := h.not_isEpsilon (hr s (by simp [hs]))
        simp [hne] at he
      · cases he
    · intro he
      have hne := h.not_isEpsilon (hr Symbol.epsilon (by simp [he]))
      simp [Symbol.isEpsilon, Symbol.epsilon] at hne

theorem eq_of_stamp_eq {q : Production} (hp : p ∈ g.productionList) (hq : q ∈ g.productionList)
    (he : p.stamp = q.stamp) : p = q :=
  List.inj_on_of_nodup_map h.stamps_nodup hp hq he

/-- A production that is overwritten keeps its stamp, under which its holders find the new form. -/
theorem amend {key : String} {left : Option Symbol} {right : Option (List Symbol)}
    {number : Option Int} (hv : (g.amend key left right number).Valid) :
    (g.amend key left right number).WellFormed := by
  rw [Grammar.amend] at hv ⊢
  split at hv
  · exact h
  · rename_i p hp
    let p' : Production :=
      ⟨p.stamp, left.getD p.left, right.getD p.right, number.getD p.number⟩
    have hstamps : (g.productions.put key p').values.map Production.stamp =
        g.productionList.map Production.stamp := Assoc.map_values_put hp rfl
    have hnodup : ((g.productions.put key p').values.map Production.stamp).Nodup :=
      hstamps ▸ h.stamps_nodup
    have hself : p' ∈ (g.productions.put key p').values :=
      Assoc.mem_values_of_get? (Assoc.get?_put_self ..)
    refine ⟨hv, h.nonterminal, h.terminal, hnodup, fun q hq => ?_⟩
    change ((g.amended.put p.stamp p').get? q.stamp).getD q = q
    by_cases hstamp : q.stamp = p.stamp
    · rw [hstamp, Assoc.get?_put_self, Option.getD_some]
      exact List.inj_on_of_nodup_map hnodup hself hq hstamp.symm
    · rw [Assoc.get?_put_of_ne _ _ (Ne.symm hstamp)]
      rcases Assoc.mem_values_put hq with rfl | hq
      · exact absurd rfl hstamp
      · exact h.current_eq q hq

end WellFormed

theorem Lawful.wellFormed (h : g.Lawful) : g.WellFormed where
  valid := h.valid
  nonterminal := fun _ => h.kind_of_mem_nonterminalList
  terminal := fun _ => h.kind_of_mem_terminalList
  stamps_nodup := h.stamps_nodup
  current_eq := fun p _ => h.current_eq p

namespace Lawful

variable (h : g.Lawful)
include h

theorem right_ne_nil (hp : p ∈ g.productionList) : p.right ≠ [] := h.wellFormed.right_ne_nil hp

theorem left_mem (hp : p ∈ g.productionList) : p.left ∈ g.nonterminalList :=
  h.wellFormed.left_mem hp

theorem isNonterminal_left (hp : p ∈ g.productionList) : p.left.isNonterminal = true :=
  h.wellFormed.isNonterminal_left hp

theorem right_cases (hp : p ∈ g.productionList) :
    p.right = [Symbol.epsilon] ∨ ∀ s ∈ p.right, g.Registered s := h.wellFormed.right_cases hp

theorem epsilon_or_registered (hp : p ∈ g.productionList) (hs : s ∈ p.right) :
    s = Symbol.epsilon ∨ g.Registered s := by
  rcases h.right_cases hp with hr | hr
  · exact .inl (List.mem_singleton.mp (hr ▸ hs))
  · exact .inr (hr s hs)

theorem not_isEpsilon (hs : g.Registered s) : s.isEpsilon = false := h.wellFormed.not_isEpsilon hs

theorem isEpsilon_iff (hp : p ∈ g.productionList) :
    p.isEpsilon = true ↔ p.right = [Symbol.epsilon] := h.wellFormed.isEpsilon_iff hp

theorem proper_of_registered (hs : g.Registered s) : s.Proper := by
  rcases hs with hs | hs
  · exact (h.of_get?_nonterminals (h.mem_nonterminalList_iff.mp hs)).2.2
  · exact (h.of_get?_terminals (h.mem_terminalList_iff.mp hs)).2.2

/-- A name belongs to one symbol. -/
theorem eq_of_name_eq {t : Symbol} (hs : g.Registered s) (ht : g.Registered t)
    (he : s.name = t.name) : s = t := by
  have hkind : s.kind = t.kind := by
    rcases h.proper_of_registered hs with rfl | ⟨hname, hk⟩
    · rcases h.proper_of_registered ht with rfl | ⟨hname, _⟩
      · rfl
      · exact absurd he.symm hname.ne_startName
    · rcases h.proper_of_registered ht with rfl | ⟨_, hk'⟩
      · exact absurd he hname.ne_startName
      · rw [hk, hk', he]
  rcases hs with hs | hs <;> rcases ht with ht | ht
  · have hget := h.mem_nonterminalList_iff.mp hs
    rw [he, h.mem_nonterminalList_iff.mp ht] at hget
    exact (Option.some.inj hget).symm
  · rw [h.kind_of_mem_nonterminalList hs, h.kind_of_mem_terminalList ht] at hkind
    cases hkind
  · rw [h.kind_of_mem_terminalList hs, h.kind_of_mem_nonterminalList ht] at hkind
    cases hkind
  · have hget := h.mem_terminalList_iff.mp hs
    rw [he, h.mem_terminalList_iff.mp ht] at hget
    exact (Option.some.inj hget).symm

/-- A registered symbol is found under its name. -/
theorem symbol?_name (hs : g.Registered s) : g.symbol? s.name = some s := by
  rw [symbol?]
  split
  · rename_i t ht
    obtain ⟨hname, -⟩ := h.of_get?_nonterminals ht
    have ht' : t ∈ g.nonterminalList := h.mem_nonterminalList_iff.mpr (hname.symm ▸ ht)
    rw [h.eq_of_name_eq (.inl ht') hs hname]
  · rename_i t _ ht
    obtain ⟨hname, -⟩ := h.of_get?_terminals ht
    have ht' : t ∈ g.terminalList := h.mem_terminalList_iff.mpr (hname.symm ▸ ht)
    rw [h.eq_of_name_eq (.inr ht') hs hname]
  · rename_i hn ht
    rcases hs with hs | hs
    · rw [h.mem_nonterminalList_iff.mp hs] at hn
      cases hn
    · rw [h.mem_terminalList_iff.mp hs] at ht
      cases ht

/-- What is found under a name is a registered symbol of this name, or a marker. -/
theorem registered_of_symbol? {name : String} (hs : g.symbol? name = some s)
    (hk : (s.isTerminal || s.isNonterminal) = true) : g.Registered s ∧ s.name = name := by
  rw [symbol?] at hs
  split at hs
  · rename_i t ht
    obtain rfl := Option.some.inj hs
    obtain ⟨hname, -⟩ := h.of_get?_nonterminals ht
    exact ⟨.inl (h.mem_nonterminalList_iff.mpr (hname.symm ▸ ht)), hname⟩
  · rename_i t _ ht
    obtain rfl := Option.some.inj hs
    obtain ⟨hname, -⟩ := h.of_get?_terminals ht
    exact ⟨.inr (h.mem_terminalList_iff.mpr (hname.symm ▸ ht)), hname⟩
  · split at hs
    · obtain rfl := Option.some.inj hs
      cases hk
    · split at hs
      · obtain rfl := Option.some.inj hs
        cases hk
      · cases hs

end Lawful

theorem Standard.start_mem (h : g.Standard) : Symbol.start ∈ g.nonterminalList := by
  obtain ⟨p, hp, hleft⟩ := h.start
  exact hleft ▸ h.left_mem hp

end Grammar

end Lookahead
