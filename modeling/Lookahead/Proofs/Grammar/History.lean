import Lookahead.Grammar.History
import Lookahead.Proofs.Grammar.Consistency

/-!
# Grammars stay consistent

Interning gives one symbol for one name, so the symbols of a new production are clear
among those in use, and attaching it passes the check. Every change from outside is
accepted with a consistent grammar or refused with the grammar as it was; a refusal
blames the text or the step of the user and never the state of the grammar.
-/

namespace Lookahead.Grammar

open List (Perm)

variable {g g' : Grammar} {p : Production} {s : Symbol}

/-! ### What names stand for -/

/-- The symbol is what its name stands for: registered, else introduced for the production. -/
structure Stands (g : Grammar) (fresh : Assoc String Symbol) (s : Symbol) : Prop where
  plain : s.Plain
  found : ((g.registry s.kind).get? s.name).or (fresh.get? s.name) = some s

/-- More symbols were introduced. -/
def Grows (fresh fresh' : Assoc String Symbol) : Prop :=
  ∀ name s, fresh.get? name = some s → fresh'.get? name = some s

theorem Stands.grow {fresh fresh' : Assoc String Symbol} (h : g.Stands fresh s)
    (hg : Grows fresh fresh') : g.Stands fresh' s := by
  refine ⟨h.plain, ?_⟩
  rcases Option.or_eq_some_iff.mp h.found with hs | ⟨hnone, hs⟩
  · exact Option.or_eq_some_iff.mpr (.inl hs)
  · exact Option.or_eq_some_iff.mpr (.inr ⟨hnone, hg _ _ hs⟩)

/-- Symbols that are what their names stand for are told apart by their names. -/
theorem unambiguous_of_stands (g : Grammar) (fresh : Assoc String Symbol) {symbols : List Symbol}
    (h : ∀ s ∈ symbols, s = Symbol.epsilon ∨ s = Symbol.start ∨ g.Stands fresh s) :
    Unambiguous symbols := by
  have hkind {s : Symbol} (hs : s = Symbol.start ∨ g.Stands fresh s) :
      s.kind ≠ Symbol.epsilon.kind := by
    have hproper : s.Proper := hs.imp_right fun hs => hs.plain
    rcases hproper.tabled with hk | hk <;> simp [hk, Symbol.epsilon]
  intro s hs t ht hk hn
  rcases h s hs with rfl | hs <;> rcases h t ht with rfl | ht
  · rfl
  · exact absurd hk.symm (hkind ht)
  · exact absurd hk (hkind hs)
  · rcases hs with rfl | hs <;> rcases ht with rfl | ht
    · rfl
    · exact absurd hn.symm ht.plain.1.ne_startName
    · exact absurd hn hs.plain.1.ne_startName
    · have hfound := hs.found
      rw [hk, hn, ht.found] at hfound
      exact (Option.some.inj hfound).symm

theorem intern_stands (h : g.Made) {name : String} (hn : IsSymbolName name)
    {fresh : Assoc String Symbol} (hf : Interned fresh) :
    g.Stands (g.intern (kindOfName name) name fresh).2
        (g.intern (kindOfName name) name fresh).1 ∧
      Grows fresh (g.intern (kindOfName name) name fresh).2 := by
  obtain ⟨⟨hname, hkind⟩, -⟩ := intern_spec h hn hf
  have hplain : Symbol.Plain (g.intern (kindOfName name) name fresh).1 := by
    rw [Symbol.Plain, hname, hkind]
    exact ⟨hn, rfl⟩
  suffices hspec : ((g.registry (kindOfName name)).get? name).or
      ((g.intern (kindOfName name) name fresh).2.get? name) =
        some (g.intern (kindOfName name) name fresh).1 ∧
      Grows fresh (g.intern (kindOfName name) name fresh).2 by
    exact ⟨⟨hplain, by rw [hname, hkind]; exact hspec.1⟩, hspec.2⟩
  rw [intern, if_neg hn.ne_startName]
  split
  · rename_i s _ hs
    exact ⟨by rw [hs]; rfl, fun _ _ => id⟩
  · rename_i s hnone hs
    exact ⟨by rw [hnone]; exact hs, fun _ _ => id⟩
  · rename_i hnone hnew
    refine ⟨by rw [hnone]; exact Assoc.get?_put_self .., fun other s hs => ?_⟩
    have hne : name ≠ other := by
      rintro rfl
      rw [hnew] at hs
      cases hs
    rwa [Assoc.get?_put_of_ne _ _ hne]

theorem internAll_stands (h : g.Made) {names : List String}
    (hn : ∀ name ∈ names, IsSymbolName name) {fresh : Assoc String Symbol} (hf : Interned fresh) :
    let found := g.internAll (names.map fun name => (kindOfName name, name)) fresh
    found.1.map Symbol.name = names ∧ (∀ s ∈ found.1, g.Stands found.2 s) ∧
      Grows fresh found.2 := by
  induction names generalizing fresh with
  | nil => exact ⟨rfl, by simp [internAll], fun _ _ => id⟩
  | cons name names ih =>
    have hname := hn name (List.mem_cons_self ..)
    obtain ⟨⟨hhead, -⟩, hf'⟩ := intern_spec h hname hf
    obtain ⟨hstands, hgrows⟩ := intern_stands h hname hf
    obtain ⟨hmore, hall, hgrows'⟩ := ih (fun name hm => hn name (List.mem_cons_of_mem _ hm)) hf'
    refine ⟨?_, fun s hs => ?_, fun other s hs => hgrows' _ _ (hgrows _ _ hs)⟩
    · exact congrArg₂ List.cons hhead hmore
    · rcases List.mem_cons.mp hs with rfl | hs
      · exact hstands.grow hgrows'
      · exact hall s hs

/-- The production of a text is a rule of its name whose symbols are what their names stand for. -/
theorem production_stands (h : g.Made) {text : ProductionText} (ht : text.Plain) :
    (g.production text).1.RuleForm ∧ (g.production text).1.name = text.name ∧
      ∃ fresh, ∀ s ∈ (g.production text).1.symbols, s = Symbol.epsilon ∨ g.Stands fresh s := by
  have hleft : IsSymbolName text.left := .inl ht.1
  have hkind := kindOfName_of_isNonterminalName ht.1
  have hnone : Interned {} := by simp [Interned]
  have hspec := intern_spec h hleft hnone
  have hstands := intern_stands h hleft hnone
  rw [hkind] at hspec hstands
  obtain ⟨hnames, hall, hgrows⟩ := internAll_stands h ht.2 hspec.2
  have hplain := hstands.1.plain
  cases hempty : text.right.isEmpty with
  | true =>
    refine ⟨⟨⟨hplain, hspec.1.2⟩, .inl ?_⟩, ?_, (g.intern .nonterminal text.left {}).2,
      fun s hs => ?_⟩
    · simp [production, hempty]
    · simp [production, hempty, Production.name, ProductionText.name, hspec.1.1]
    · simp only [production, hempty, Production.symbols, if_true, List.mem_cons,
        List.not_mem_nil, or_false] at hs
      rcases hs with rfl | rfl
      · exact .inr hstands.1
      · exact .inl rfl
  | false =>
    have hright := right_production (g := g) hempty
    refine ⟨⟨⟨hplain, hspec.1.2⟩, .inr ⟨?_, fun s hs => ?_⟩⟩, ?_,
      (g.internAll (text.right.map fun name => (kindOfName name, name))
        (g.intern .nonterminal text.left {}).2).2, fun s hs => ?_⟩
    · intro he
      rw [← hright, he] at hnames
      rw [← hnames] at hempty
      cases hempty
    · rw [hright] at hs
      exact (hall s hs).plain
    · rw [Production.name, hright, hnames, ProductionText.name, hempty]
      exact congrArg (productionName · _) hspec.1.1
    · rcases List.mem_cons.mp hs with rfl | hs
      · exact .inr (hstands.1.grow hgrows)
      · rw [hright] at hs
        exact .inr (hall s hs)

theorem Tidy.stands (h : g.Tidy) (hs : s ∈ g.occurrences) (fresh : Assoc String Symbol) :
    s = Symbol.epsilon ∨ s = Symbol.start ∨ g.Stands fresh s := by
  rcases h.of_mem_occurrences hs with (rfl | hplain) | rfl
  · exact .inr (.inl rfl)
  · refine .inr (.inr ⟨hplain, ?_⟩)
    have htabled := Symbol.Proper.tabled (.inr hplain)
    rw [(h.counted.registered s.kind s.name s).mpr ⟨htabled, rfl, rfl, hs⟩]
    rfl
  · exact .inl rfl

/-! ### Adding and removing -/

/-- A change that leaves a tidy grammar passes the check. -/
theorem add_eq_ok_of_tidy (h : (g.attach p).Tidy) : add p g = .ok p (g.attach p) :=
  add_eq_ok.mpr ⟨rfl, h.valid, rfl⟩

theorem Consistent.addParsed (h : g.Consistent) {text : ProductionText} (ht : text.Plain) :
    ∃ p g', addParsed text g = .ok p g' ∧ g'.Consistent := by
  cases hlisted : g.productions.get? text.name with
  | some p =>
    refine ⟨p, g, ?_, h⟩
    rw [Grammar.addParsed, Outcome.run_get_bind, hlisted]
    rfl
  | none =>
    obtain ⟨-, -, hstamp, hissued⟩ := production_spec h.toMade ht
    obtain ⟨hform, hname, fresh, hstands⟩ := production_stands h.toMade ht
    have htidy : Tidy { g with issued := (g.production text).1.stamp } :=
      h.toTidy.setIssued (Nat.le_of_lt hstamp)
    have hattachable : Attachable { g with issued := (g.production text).1.stamp }
        (g.production text).1 := by
      refine ⟨.inr hform, hname ▸ hlisted, Nat.le_refl _, fun q hq => ?_,
        unambiguous_of_stands g fresh fun s hs => ?_,
        fun hleft => absurd hleft hform.1.1.ne_start⟩
      · have := h.stamped q hq
        omega
      · rcases List.mem_append.mp hs with hs | hs
        · exact (hstands s hs).imp_right .inr
        · exact h.toTidy.stands hs fresh
    refine ⟨(g.production text).1, _, ?_, htidy.attach hattachable, fun s => ?_⟩
    · rw [Grammar.addParsed, Outcome.run_get_bind, hlisted]
      simp only [Outcome.run_bind_eq_ok, Outcome.run_set_eq_ok]
      exact ⟨⟨⟩, _, hissued, add_eq_ok_of_tidy (htidy.attach hattachable)⟩
    · have hstart : (Grammar.attach { g with issued := (g.production text).1.stamp }
          (g.production text).1).isStart s = g.isStart s := isStart_foldl_acquire _ _ s
      rw [hstart, h.starts s, hattachable.productionList_attach]
      have hne : (g.production text).1.left ≠ Symbol.start := hform.1.1.ne_start
      simp [hne]
      rfl

theorem Consistent.remove (h : g.Consistent) (hp : p ∈ g.productionList) :
    remove p g = .ok () (g.detach p) ∧ (g.detach p).Consistent := by
  have htidy := h.toTidy.detach hp
  refine ⟨?_, htidy, fun s => ?_⟩
  · have hlists : g.lists p = true := by
      rw [lists, h.toTidy.get?_name hp]
      simp
    rw [Grammar.remove, Outcome.run_get_bind, Outcome.run_guard_eq_ok, orRestore_eq_ok,
      Outcome.run_bind_eq_ok]
    refine ⟨by simp [hlists], ⟨⟩, _, Outcome.run_modify_eq_ok.mpr rfl, ?_⟩
    exact check_eq_ok.mpr ⟨htidy.valid, rfl⟩
  · rw [isStart_detach]
    split
    · rename_i hs
      refine ⟨nofun, ?_⟩
      rintro ⟨q, hq, hleft, -⟩
      obtain ⟨hq, hne⟩ := (h.toTidy.mem_detach_iff hp).mp hq
      exact absurd (h.oneStart q hq p hp hleft hs.1) hne
    · rename_i hs
      rw [h.starts s]
      refine ⟨?_, fun ⟨q, hq, hform⟩ => ⟨q, ((h.toTidy.mem_detach_iff hp).mp hq).1, hform⟩⟩
      rintro ⟨q, hq, hleft, hright⟩
      refine ⟨q, (h.toTidy.mem_detach_iff hp).mpr ⟨hq, ?_⟩, hleft, hright⟩
      rintro rfl
      exact hs ⟨hleft, by simp [hright]⟩

/-! ### The start symbol -/

theorem Consistent.of_startProduction? (h : g.Consistent) (hp : g.startProduction? = some p) :
    p ∈ g.productionList ∧ p.StartForm := by
  have hmem := List.mem_of_find?_eq_some hp
  have hleft := List.find?_some hp
  exact ⟨hmem, (h.formed p hmem).startForm (by simpa using hleft)⟩

theorem left_ne_start_of_startProduction?_eq_none (h : g.startProduction? = none) :
    ∀ p ∈ g.productionList, p.left ≠ Symbol.start := by
  simpa [startProduction?] using h

theorem Consistent.addStart (h : g.Consistent) {name : String} {target : Symbol}
    (htarget : g.nonterminals.get? name = some target) (hne : target ≠ Symbol.start)
    (hnone : ∀ p ∈ g.productionList, p.left ≠ Symbol.start) :
    ∃ p g', addStart name g = .ok p g' ∧ g'.Consistent := by
  obtain ⟨hname, hkind, hproper⟩ := h.of_get?_nonterminals htarget
  have hplain := hproper.plain hne
  have hintern := h.intern_eq htarget hne
  let p : Production := ⟨g.issued + 1, Symbol.start, [target], -1⟩
  let marked : Grammar := markStart { g with issued := g.issued + 1 } target true
  have hform : p.StartForm := ⟨rfl, target, rfl, hplain, hkind⟩
  have htidy : marked.Tidy :=
    (remarks_markStart _ target true).tidy (h.toTidy.setIssued (Nat.le_succ _))
  have htargetUsed : target ∈ g.occurrences :=
    (h.toTidy.mem_nonterminalList.mp (h.mem_nonterminalList_iff.mpr (hname ▸ htarget))).2
  have hattachable : marked.Attachable p := by
    refine ⟨.inl hform, ?_, Nat.le_refl _, fun q hq => ?_,
      unambiguous_of_stands g {} fun s hs => ?_, fun _ => hnone⟩
    · rw [Assoc.get?_eq_none_iff]
      intro hk
      obtain ⟨q, hq⟩ := Assoc.exists_get?_of_mem_keys hk
      obtain ⟨hmem, hqname⟩ := h.toTidy.mem_of_get? hq
      exact hnone q hmem ((h.formed q hmem).left_eq_start_of_name_eq rfl hqname)
    · have hstamp := h.stamped q hq
      change q.stamp ≠ g.issued + 1
      omega
    · rcases List.mem_append.mp hs with hs | hs
      · simp only [Production.symbols, p, List.mem_cons, List.not_mem_nil, or_false] at hs
        rcases hs with rfl | rfl
        · exact .inr (.inl rfl)
        · exact h.toTidy.stands htargetUsed {}
      · exact h.toTidy.stands hs {}
  have hdone := htidy.attach hattachable
  refine ⟨p, marked.attach p, ?_, hdone, fun s => ?_⟩
  · rw [Grammar.addStart, Outcome.run_get_bind, hintern]
    simp only [Outcome.run_bind_eq_ok, Outcome.run_set_eq_ok]
    exact ⟨⟨⟩, marked, rfl, add_eq_ok_of_tidy hdone⟩
  · have hstart : (marked.attach p).isStart s = if target = s then true else g.isStart s := by
      rw [← isStart_markStart]
      exact isStart_foldl_acquire _ _ s
    have hold : g.isStart s = false := by
      rw [← Bool.not_eq_true, h.starts s]
      rintro ⟨q, hq, hleft, -⟩
      exact hnone q hq hleft
    rw [hstart, hold, hattachable.productionList_attach]
    by_cases hs : target = s
    · simp only [if_pos hs, true_iff]
      exact ⟨p, List.mem_append_right _ (List.mem_singleton_self p), rfl,
        congrArg (fun s => [s]) hs⟩
    · rw [if_neg hs]
      refine ⟨fun hfalse => absurd hfalse Bool.false_ne_true, ?_⟩
      rintro ⟨q, hq, hleft, hright⟩
      rcases List.mem_append.mp hq with hq | hq
      · exact absurd hleft (hnone q hq)
      · rw [List.mem_singleton.mp hq] at hright
        exact absurd (List.singleton_inj.mp hright) hs

/-- The nonterminal that is to become the start symbol is used elsewhere, and so it stays. -/
theorem Consistent.get?_detach_start (h : g.Consistent) (hp : p ∈ g.productionList)
    (hform : p.StartForm) {name : String} {target : Symbol}
    (htarget : g.nonterminals.get? name = some target) (hne : target ≠ Symbol.start)
    (hother : target ∉ p.right) : (g.detach p).nonterminals.get? name = some target := by
  obtain ⟨hname, hkind, -⟩ := h.of_get?_nonterminals htarget
  have hdetached := h.toTidy.detach hp
  have hused : target ∈ g.occurrences :=
    (h.toTidy.mem_nonterminalList.mp (h.mem_nonterminalList_iff.mpr (hname ▸ htarget))).2
  obtain ⟨q, hq, hmem⟩ := List.mem_flatMap.mp hused
  have hqp : q ≠ p := by
    rintro rfl
    rcases List.mem_cons.mp hmem with he | hr
    · exact hne (he.trans hform.1)
    · exact hother hr
  rw [← hname, ← hdetached.mem_nonterminalList_iff, hdetached.mem_nonterminalList]
  exact ⟨hkind, Tidy.mem_occurrences ((h.toTidy.mem_detach_iff hp).mpr ⟨hq, hqp⟩) hmem⟩

theorem Consistent.setStart (h : g.Consistent) (name : String) :
    (∃ p g', setStart name g = .ok p g' ∧ g'.Consistent) ∨
      setStart name g = .error (.mistake (.notANonterminal name)) g := by
  rw [Grammar.setStart, Outcome.run_get_bind]
  cases htarget : g.nonterminals.get? name with
  | none => exact .inr rfl
  | some target =>
    by_cases hne : target = Symbol.start
    · exact .inr (by simp only [if_pos hne]; rfl)
    refine .inl ?_
    simp only [if_neg hne]
    cases hold : g.startProduction? with
    | none =>
      obtain ⟨p, g', hadd, hg'⟩ :=
        h.addStart htarget hne (left_ne_start_of_startProduction?_eq_none hold)
      exact ⟨p, g', orRestore_eq_ok.mpr hadd, hg'⟩
    | some old =>
      obtain ⟨hmem, hform⟩ := h.of_startProduction? hold
      obtain ⟨hleft, s, hright, -⟩ := hform
      simp only [hright]
      by_cases hs : s = target
      · exact ⟨old, g, by rw [if_pos hs]; rfl, h⟩
      obtain ⟨hremove, hremoved⟩ := h.remove hmem
      have hstays := h.get?_detach_start hmem (h.of_startProduction? hold).2 htarget hne
        (by simpa [hright] using Ne.symm hs)
      obtain ⟨p, g', hadd, hg'⟩ := hremoved.addStart hstays hne fun q hq hq' =>
        ((h.toTidy.mem_detach_iff hmem).mp hq).2
          (h.oneStart q ((h.toTidy.mem_detach_iff hmem).mp hq).1 old hmem hq' hleft)
      refine ⟨p, g', ?_, hg'⟩
      rw [if_neg hs]
      exact orRestore_eq_ok.mpr (Outcome.run_bind_eq_ok.mpr ⟨_, _, hremove, hadd⟩)

/-! ### Reducing -/

/-- Listed productions can be removed one after the other; the others keep their order. -/
theorem Consistent.removeAll {removed : List Production} (h : g.Consistent)
    (hmem : ∀ p ∈ removed, p ∈ g.productionList) (hnodup : removed.Nodup) :
    ∃ g', removeAll removed g = .ok () g' ∧ g'.Consistent ∧
      g'.productionList = g.productionList.filter fun p => p ∉ removed := by
  induction removed generalizing g with
  | nil => exact ⟨g, rfl, h, by simp⟩
  | cons p removed ih =>
    obtain ⟨hp, hrest⟩ := List.nodup_cons.mp hnodup
    have hlisted := hmem p (List.mem_cons_self ..)
    obtain ⟨hremove, hdetached⟩ := h.remove hlisted
    obtain ⟨g', hrun, hg', hlist⟩ := ih hdetached (fun q hq =>
      (h.toTidy.mem_detach_iff hlisted).mpr
        ⟨hmem q (List.mem_cons_of_mem _ hq), fun he => hp (he ▸ hq)⟩) hrest
    refine ⟨g', Outcome.run_bind_eq_ok.mpr ⟨_, _, hremove, hrun⟩, hg', ?_⟩
    rw [hlist, h.toTidy.productionList_detach hlisted, List.filter_filter]
    refine List.filter_congr fun q _ => ?_
    simp [Bool.and_comm]

theorem reduce_eq_ok {removed : List Production} : reduce g = .ok removed g' ↔
    g.startProduction?.isSome = true ∧ Symbol.startName ∈ g.productiveNames ∧
      g.useless = removed ∧ removeAll removed g = .ok () g' := by
  rw [Grammar.reduce, Outcome.run_get_bind, Outcome.run_guard_eq_ok, Outcome.run_guard_eq_ok]
  simp only [Outcome.run_bind_eq_ok, orRestore_eq_ok, Outcome.run_pure_eq_ok]
  constructor
  · rintro ⟨hstart, hproductive, _, _, hrun, rfl, rfl⟩
    exact ⟨Option.isSome_iff_ne_none.mpr (by simpa using hstart), by simpa using hproductive, rfl,
      hrun⟩
  · rintro ⟨hstart, hproductive, rfl, hrun⟩
    exact ⟨by simpa using Option.isSome_iff_ne_none.mp hstart, by simpa using hproductive, ⟨⟩, _,
      hrun, rfl, rfl⟩

theorem reduce_eq_error_of_isNone (hstart : g.startProduction?.isNone = true) :
    reduce g = .error (.mistake .noStart) g := by
  rw [Grammar.reduce, Outcome.run_get_bind, if_pos hstart]
  rfl

theorem reduce_eq_error_of_not_mem (hstart : g.startProduction?.isSome = true)
    (hproductive : Symbol.startName ∉ g.productiveNames) :
    reduce g = .error (.mistake .nothingProductive) g := by
  have hsome : ¬g.startProduction?.isNone = true := by
    simpa using Option.isSome_iff_ne_none.mp hstart
  rw [Grammar.reduce, Outcome.run_get_bind, if_neg hsome, if_pos (by simpa using hproductive)]
  rfl

/-- Reducing removes the useless productions and nothing else. -/
theorem Consistent.reduce_eq_ok (h : g.Consistent) (hstart : g.startProduction?.isSome = true)
    (hproductive : Symbol.startName ∈ g.productiveNames) :
    ∃ g', reduce g = .ok g.useless g' ∧ g'.Consistent ∧
      g'.productionList = g.productionList.filter fun p => p ∉ g.useless := by
  have hsub : g.useless.Sublist g.productionList := List.filter_sublist
  obtain ⟨g', hrun, hg', hlist⟩ := h.removeAll (fun p hp => hsub.mem hp)
    (h.nodup_productionList.sublist hsub)
  exact ⟨g', Grammar.reduce_eq_ok.mpr ⟨hstart, hproductive, rfl, hrun⟩, hg', hlist⟩

theorem Consistent.reduce (h : g.Consistent) :
    (∃ removed g', reduce g = .ok removed g' ∧ g'.Consistent) ∨
      ∃ m, reduce g = .error (.mistake m) g := by
  by_cases hstart : g.startProduction?.isSome = true
  · by_cases hproductive : Symbol.startName ∈ g.productiveNames
    · obtain ⟨g', hrun, hg', -⟩ := h.reduce_eq_ok hstart hproductive
      exact .inl ⟨_, g', hrun, hg'⟩
    · exact .inr ⟨_, reduce_eq_error_of_not_mem hstart hproductive⟩
  · exact .inr ⟨_, reduce_eq_error_of_isNone (by simpa using hstart)⟩

/-! ### Histories -/

/-- The text or the step of a user is to blame. -/
def Excusable (f : Fault) : Prop := (∃ t, f = .text t) ∨ ∃ m, f = .mistake m

theorem Consistent.addText (h : g.Consistent) (text : String) :
    (∃ p g', addText text g = .ok p g' ∧ g'.Consistent) ∨
      ∃ t, addText text g = .error (.text t) g := by
  rw [Grammar.addText]
  cases htext : ProductionText.parse text with
  | ok p => exact .inl (h.addParsed (ProductionText.plain_parse htext))
  | error t => exact .inr ⟨t, rfl⟩

/-- Every change is accepted, or refused with the grammar as it was. -/
theorem Consistent.perform (h : g.Consistent) {c : Change} (hc : c.Allowed g) :
    (∃ g', c.perform g = .ok () g' ∧ g'.Consistent) ∨
      ∃ f, Excusable f ∧ c.perform g = .error f g := by
  cases c with
  | add text =>
    rcases h.addText text with ⟨p, g', hrun, hg'⟩ | ⟨t, hrun⟩
    · exact .inl ⟨g', Outcome.run_bind_eq_ok.mpr ⟨p, g', hrun, rfl⟩, hg'⟩
    · exact .inr ⟨_, .inl ⟨t, rfl⟩, Outcome.run_bind_eq_error.mpr (.inl hrun)⟩
  | remove p =>
    obtain ⟨hrun, hg'⟩ := h.remove hc
    exact .inl ⟨_, hrun, hg'⟩
  | setStart name =>
    rcases h.setStart name with ⟨p, g', hrun, hg'⟩ | hrun
    · exact .inl ⟨g', Outcome.run_bind_eq_ok.mpr ⟨p, g', hrun, rfl⟩, hg'⟩
    · exact .inr ⟨_, .inr ⟨_, rfl⟩, Outcome.run_bind_eq_error.mpr (.inl hrun)⟩
  | reduce =>
    rcases h.reduce with ⟨removed, g', hrun, hg'⟩ | ⟨m, hrun⟩
    · exact .inl ⟨g', Outcome.run_bind_eq_ok.mpr ⟨removed, g', hrun, rfl⟩, hg'⟩
    · exact .inr ⟨_, .inr ⟨m, rfl⟩, Outcome.run_bind_eq_error.mpr (.inl hrun)⟩
  | sort => exact .inl ⟨g.sort, rfl, h.sort⟩
  | resetAnalysis =>
    exact .inl ⟨g.resetAnalysis, rfl, (varies_resetAnalysis g).consistent h⟩

theorem Consistent.left (h : g.Consistent) {c : Change} (hc : c.Allowed g) :
    (c.left g).Consistent := by
  rcases h.perform hc with ⟨g', hrun, hg'⟩ | ⟨f, -, hrun⟩
  · rwa [Change.left, hrun]
  · rwa [Change.left, hrun]

theorem Reached.consistent (h : Reached g) : g.Consistent := by
  induction h with
  | empty => exact consistent_empty
  | step c _ hc ih => exact ih.left hc

/-- What the tables, counts and marks of a grammar say about its productions. -/
structure WellKept (g : Grammar) : Prop where
  validate : g.validate = .ok ()
  registered : ∀ s, g.isRegistered s = true ↔
    (s.kind = .terminal ∨ s.kind = .nonterminal) ∧ ∃ p ∈ g.productionList, s ∈ p.symbols
  references : ∀ s, g.references s = g.uses s
  oneStart : (g.productionList.countP fun p => p.left = Symbol.start) ≤ 1
  startTarget : ∀ p ∈ g.productionList, p.left = Symbol.start →
    ∃ s ∈ g.nonterminalList, s ≠ Symbol.start ∧ p.right = [s]
  isStart : ∀ s, g.isStart s = true ↔
    ∃ p ∈ g.productionList, p.left = Symbol.start ∧ p.right = [s]

theorem Consistent.countP_start (h : g.Consistent) :
    (g.productionList.countP fun p => p.left = Symbol.start) ≤ 1 := by
  rw [List.countP_eq_length_filter]
  have hnodup := h.nodup_productionList.filter fun p => decide (p.left = Symbol.start)
  cases hf : g.productionList.filter fun p => decide (p.left = Symbol.start) with
  | nil => exact Nat.zero_le 1
  | cons p rest =>
    -- a second start production would be the first one again
    have hmem {q : Production} (hq : q ∈ p :: rest) :
        q ∈ g.productionList ∧ q.left = Symbol.start := by
      rw [← hf, List.mem_filter] at hq
      exact ⟨hq.1, of_decide_eq_true hq.2⟩
    have hrest : rest = [] := List.eq_nil_iff_forall_not_mem.mpr fun q hq => by
      obtain ⟨hp, hleft⟩ := hmem (List.mem_cons_self ..)
      obtain ⟨hq', hleft'⟩ := hmem (List.mem_cons_of_mem _ hq)
      rw [hf] at hnodup
      exact (List.nodup_cons.mp hnodup).1 (h.oneStart p hp q hq' hleft hleft' ▸ hq)
    simp [hrest]

theorem Consistent.wellKept (h : g.Consistent) : g.WellKept where
  validate := validate_eq_ok_iff.mpr h.toTidy.valid
  registered s := by
    rw [isRegistered, decide_eq_true_eq, h.counted.registered]
    simp [SymbolKind.Tabled, occurrences]
  references s := h.counted.references s
  oneStart := h.countP_start
  startTarget p hp hleft := by
    obtain ⟨-, s, hright, hplain, hkind⟩ := (h.formed p hp).startForm hleft
    refine ⟨s, h.toTidy.mem_nonterminalList.mpr ⟨hkind, ?_⟩, hplain.ne_start, hright⟩
    exact Tidy.mem_occurrences hp (List.mem_cons_of_mem _ (by simp [hright]))
  isStart := h.starts

/-- Whatever was done to a grammar, accepted or refused, its tables, counts and marks are those
of its productions, and the next call does not find them broken. -/
theorem wellKept_of_reached (h : Reached g) : g.WellKept ∧
    ∀ c : Change, c.Allowed g → c.perform g = .ok () (c.left g) ∨
      ∃ f, Excusable f ∧ c.perform g = .error f g := by
  refine ⟨h.consistent.wellKept, fun c hc => ?_⟩
  rcases h.consistent.perform hc with ⟨g', hrun, -⟩ | hrefused
  · exact .inl (by rw [Change.left, hrun])
  · exact .inr hrefused

/-- Two productions, one refused text, two start symbols in turn, and one production removed. -/
theorem wellKept_of_reached_sample : ∃ g, Reached g ∧
    g.productionList.map Production.name = ["S->A b", "S'->S"] ∧ g.WellKept ∧
      ∀ text, (Change.add text).perform g = .ok () ((Change.add text).left g) ∨
        ∃ f, Excusable f ∧ (Change.add text).perform g = .error f g := by
  let empty : Production := ⟨5, ⟨.nonterminal, "A", 2⟩, [Symbol.epsilon], -1⟩
  let changes : List Change := [.add "S -> A b", .add "A ->", .add "A -> |", .setStart "A",
    .setStart "S"]
  have hchanges : Reached (changes.foldl (fun g c => c.left g) {}) :=
    (((((Reached.empty.step (.add "S -> A b") trivial).step (.add "A ->") trivial).step
      (.add "A -> |") trivial).step (.setStart "A") trivial).step (.setStart "S") trivial)
  have hempty : (Change.remove empty).Allowed (changes.foldl (fun g c => c.left g) {}) := by
    decide +kernel
  obtain ⟨hkept, hnext⟩ := wellKept_of_reached (hchanges.step (.remove empty) hempty)
  exact ⟨_, hchanges.step (.remove empty) hempty, by decide +kernel, hkept,
    fun text => hnext (.add text) trivial⟩

end Lookahead.Grammar
