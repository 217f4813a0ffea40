import Lookahead.Proofs.Grammar.History
import Lookahead.Proofs.Likeness
import Mathlib.Data.Prod.Lex
import Mathlib.Data.String.Basic

/-!
# Sorted grammars

The name of a production determines its sides, and the sides determine the place in the
order. So grammars that list productions of the same names are alike once they are sorted,
whatever was done to them before, and the productions of each left side count from 0.
-/

namespace Lookahead

open List (Perm)

/-! ### Names -/

theorem names_eq_of_intercalate_eq {xs ys : List String} (hx : ∀ s ∈ xs, ' ' ∉ s.toList)
    (hy : ∀ s ∈ ys, ' ' ∉ s.toList) (hx' : xs ≠ []) (hy' : ys ≠ [])
    (h : String.intercalate " " xs = String.intercalate " " ys) : xs = ys := by
  have hsplit {zs : List String} (hz : ∀ s ∈ zs, ' ' ∉ s.toList) (hz' : zs ≠ []) :
      (String.intercalate " " zs).toList.splitOn ' ' = zs.map String.toList := by
    rw [String.toList_intercalate]
    refine List.splitOn_intercalate ' ' (fun l hl => ?_) (by simpa using hz')
    obtain ⟨s, hs, rfl⟩ := List.mem_map.mp hl
    exact hz s hs
  have hlists := congrArg (fun name => (String.toList name).splitOn ' ') h
  simp only [hsplit hx hx', hsplit hy hy'] at hlists
  exact List.map_injective_iff.mpr (fun _ _ => String.toList_injective) hlists

theorem map_singleton_join {xs : List String} (hx : ∀ s ∈ xs, ∃ c, s = String.singleton c) :
    (String.join xs).toList.map String.singleton = xs := by
  induction xs with
  | nil => rfl
  | cons s xs ih =>
    obtain ⟨c, rfl⟩ := hx s (List.mem_cons_self ..)
    have hrest := ih fun s hs => hx s (List.mem_cons_of_mem _ hs)
    rw [String.toList_join] at hrest ⊢
    simp [hrest]

/-- The name of a symbol shows its kind. -/
theorem Symbol.bare_eq_of_name_eq {s t : Symbol} (hs : s.Proper ∨ s = Symbol.epsilon)
    (ht : t.Proper ∨ t = Symbol.epsilon) (h : s.name = t.name) : s.bare = t.bare := by
  have hepsilon : ¬ IsSymbolName Symbol.epsilon.name := by
    intro hname
    obtain ⟨c, hc, he⟩ := hname.exists_char
    have hchars := congrArg String.toList he
    simp only [Symbol.epsilon, String.toList_singleton] at hchars
    obtain rfl : 'ε' = c := by simpa using hchars
    exact absurd hc (by decide)
  refine Symbol.bare_eq_iff.mpr ⟨?_, h⟩
  rcases hs with (rfl | ⟨hname, hkind⟩) | rfl
  · rcases ht with (rfl | ⟨hname', hkind'⟩) | rfl
    · rfl
    · exact absurd h.symm hname'.ne_startName
    · exact absurd h (by decide)
  · rcases ht with (rfl | ⟨hname', hkind'⟩) | rfl
    · exact absurd h hname.ne_startName
    · rw [hkind, hkind', h]
    · exact absurd (h ▸ hname) hepsilon
  · rcases ht with (rfl | ⟨hname', hkind'⟩) | rfl
    · exact absurd h (by decide)
    · exact absurd (h ▸ hname') hepsilon
    · rfl

namespace Production

variable {p q : Production} {s : Symbol}

/-- The names on the two sides. -/
def names (p : Production) : String × List String := (p.left.name, p.right.map Symbol.name)

theorem Formed.exists_char (h : p.Formed) (hs : s ∈ p.right) :
    ∃ c, c ≠ ' ' ∧ s.name = String.singleton c := by
  rcases h.of_mem_right hs with ⟨rfl, _⟩ | hplain
  · exact ⟨'ε', by decide, rfl⟩
  · obtain ⟨c, hc, hname⟩ := hplain.1.exists_char
    refine ⟨c, ?_, hname⟩
    rintro rfl
    exact absurd hc (by decide)

theorem Formed.left_name_eq (hp : p.Formed) (hq : q.Formed) (h : p.name = q.name) :
    p.left.name = q.left.name := by
  by_cases hstart : q.left = Symbol.start
  · rw [hp.left_eq_start_of_name_eq hstart h, hstart]
  have hstart' : p.left ≠ Symbol.start :=
    fun hleft => hstart (hq.left_eq_start_of_name_eq hleft h.symm)
  obtain ⟨c, _, hc⟩ := (hp.left_proper.1.plain hstart').1.exists_char
  obtain ⟨d, _, hd⟩ := (hq.left_proper.1.plain hstart).1.exists_char
  have hchars := congrArg (fun name => (String.toList name).head?) h
  simp only [name, productionName, hc, hd] at hchars
  obtain rfl : c = d := by simpa using hchars
  rw [hc, hd]

/-- The name of a production determines the names on its sides. -/
theorem Formed.names_eq (hp : p.Formed) (hq : q.Formed) (h : p.name = q.name) :
    p.names = q.names := by
  have hleft := hp.left_name_eq hq h
  rw [name, name, hleft, productionName, productionName, String.append_right_inj] at h
  have hspace {r : Production} (hr : r.Formed) : ∀ x ∈ r.right.map Symbol.name, ' ' ∉ x.toList := by
    intro x hx
    obtain ⟨s, hs, rfl⟩ := List.mem_map.mp hx
    obtain ⟨c, hc, hname⟩ := hr.exists_char hs
    simpa [hname] using hc.symm
  refine Prod.ext hleft (names_eq_of_intercalate_eq (hspace hp) (hspace hq) ?_ ?_ h)
  · simpa [names] using hp.right_ne_nil
  · simpa [names] using hq.right_ne_nil

theorem Formed.bare_symbols_eq (hp : p.Formed) (hq : q.Formed) (h : p.names = q.names) :
    p.symbols.map Symbol.bare = q.symbols.map Symbol.bare := by
  have hnames : p.symbols.map Symbol.name = q.symbols.map Symbol.name :=
    congrArg (fun names : String × List String => names.1 :: names.2) h
  exact map_eq_of_map_eq hnames fun s hs t ht =>
    Symbol.bare_eq_of_name_eq (hp.of_mem_symbols hs) (hq.of_mem_symbols ht)

theorem Formed.bare_eq (hp : p.Formed) (hq : q.Formed) (h : p.names = q.names)
    (hnumber : p.number = q.number) : p.bare = q.bare := by
  obtain ⟨hleft, hright⟩ := List.cons.inj (hp.bare_symbols_eq hq h)
  rw [bare, bare, hleft, hright, hnumber]

end Production

/-! ### The order -/

/-- Sorted lists of the same elements are the same. -/
theorem mergeSort_eq_of_perm {α : Type} {le : α → α → Bool} {xs ys : List α}
    (trans : ∀ a b c, le a b = true → le b c = true → le a c = true)
    (total : ∀ a b, (le a b || le b a) = true)
    (antisymm : ∀ a ∈ xs, ∀ b ∈ xs, le a b = true → le b a = true → a = b) (h : Perm xs ys) :
    xs.mergeSort le = ys.mergeSort le := by
  refine Perm.eq_of_pairwise (fun a b ha hb => antisymm a (List.mem_mergeSort.mp ha) b ?_)
    (List.pairwise_mergeSort trans total xs) (List.pairwise_mergeSort trans total ys)
    ((List.mergeSort_perm xs le).trans (h.trans (List.mergeSort_perm ys le).symm))
  exact h.mem_iff.mpr (List.mem_mergeSort.mp hb)

namespace Grammar

theorem nameLe_iff {a b : String} : nameLe a b = true ↔ a ≤ b := by
  rw [nameLe, Bool.not_eq_true', decide_eq_false_iff_not]
  exact not_lt

theorem nonterminalLe_iff {a b : String} :
    nonterminalLe a b = true ↔ a = Symbol.startName ∨ b ≠ Symbol.startName ∧ a ≤ b := by
  simp [nonterminalLe, nameLe_iff]

theorem nonterminalLe_trans {a b c : String} (hab : nonterminalLe a b = true)
    (hbc : nonterminalLe b c = true) : nonterminalLe a c = true := by
  rw [nonterminalLe_iff] at hab hbc ⊢
  rcases hab with ha | ⟨hb, hab⟩
  · exact .inl ha
  · obtain ⟨hc, hbc⟩ := hbc.resolve_left hb
    exact .inr ⟨hc, hab.trans hbc⟩

theorem nonterminalLe_total (a b : String) : (nonterminalLe a b || nonterminalLe b a) = true := by
  rw [Bool.or_eq_true, nonterminalLe_iff, nonterminalLe_iff]
  by_cases ha : a = Symbol.startName
  · exact .inl (.inl ha)
  by_cases hb : b = Symbol.startName
  · exact .inr (.inl hb)
  exact (le_total a b).imp (fun h => .inr ⟨hb, h⟩) fun h => .inr ⟨ha, h⟩

theorem nonterminalLe_antisymm {a b : String} (hab : nonterminalLe a b = true)
    (hba : nonterminalLe b a = true) : a = b := by
  rw [nonterminalLe_iff] at hab hba
  rcases hab with ha | ⟨hb, hab⟩
  · exact ha.trans (hba.resolve_right fun h => h.1 ha).symm
  · exact hab.antisymm (hba.resolve_left hb).2

namespace RuleKey

variable {a b c : RuleKey}

/-- The key in the lexicographic order of its parts. -/
def place (k : RuleKey) : Nat ×ₗ String ×ₗ String := toLex (k.group, toLex (k.left, k.right))

theorem le_iff : a.le b = true ↔ a.place ≤ b.place := by
  simp only [le, place, Prod.Lex.le_iff, Bool.or_eq_true, Bool.and_eq_true, Bool.not_eq_true',
    decide_eq_true_eq, decide_eq_false_iff_not]
  rfl

theorem place_injective (h : a.place = b.place) : a = b := by
  obtain ⟨group, left, right⟩ := a
  obtain ⟨group', left', right'⟩ := b
  simpa [place] using h

theorem le_trans (hab : a.le b = true) (hbc : b.le c = true) : a.le c = true :=
  le_iff.mpr ((le_iff.mp hab).trans (le_iff.mp hbc))

theorem le_total (a b : RuleKey) : (a.le b || b.le a) = true := by
  rw [Bool.or_eq_true, le_iff, le_iff]
  exact (lt_or_ge a.place b.place).imp le_of_lt id

theorem le_antisymm (hab : a.le b = true) (hba : b.le a = true) : a = b :=
  place_injective ((le_iff.mp hab).antisymm (le_iff.mp hba))

/-- Between keys of one left side there is no other left side. -/
theorem left_eq_of_le (hab : a.le b = true) (hbc : b.le c = true) (hgroup : a.group = c.group)
    (hleft : a.left = c.left) : b.left = a.left := by
  have hsides {k l : RuleKey} (h : k.le l = true) :
      toLex (k.group, k.left) ≤ toLex (l.group, l.left) := by
    rw [le_iff, place, place, Prod.Lex.toLex_le_toLex, Prod.Lex.toLex_le_toLex] at h
    rw [Prod.Lex.toLex_le_toLex]
    exact h.imp_right (And.imp_right fun h => h.elim le_of_lt fun h => h.1.le)
  have hcb : toLex (c.group, c.left) ≤ toLex (b.group, b.left) := by
    rw [← hgroup, ← hleft]
    exact hsides hab
  have he := (hsides hbc).antisymm hcb
  rw [hleft]
  exact congrArg (fun k => (ofLex k).2) he

end RuleKey

/-- The place of a production with these names on its sides. -/
def keyOfNames (names : String × List String) : RuleKey :=
  ⟨if names.1 = Symbol.startName then 0 else 1, names.1, String.join names.2⟩

variable {g g' : Grammar} {p q : Production}

theorem ruleKey_eq (hp : p.Formed) : ruleKey p = keyOfNames p.names := by
  have hstart : p.left = Symbol.start ↔ p.left.name = Symbol.startName :=
    ⟨fun h => by rw [h]; rfl, fun h =>
      hp.left_proper.1.resolve_right fun hplain => hplain.1.ne_startName h⟩
  rw [ruleKey, keyOfNames, if_congr hstart rfl rfl]
  rfl

/-- Names of symbols are single characters, so nothing is lost when they are joined. -/
theorem names_eq_of_key_eq (hp : p.Formed) (hq : q.Formed)
    (h : keyOfNames p.names = keyOfNames q.names) : p.names = q.names := by
  have hchar {r : Production} (hr : r.Formed) :
      ∀ x ∈ r.right.map Symbol.name, ∃ c, x = String.singleton c := by
    intro x hx
    obtain ⟨s, hs, rfl⟩ := List.mem_map.mp hx
    obtain ⟨c, -, hname⟩ := hr.exists_char hs
    exact ⟨c, hname⟩
  have hjoin : String.join (p.right.map Symbol.name) = String.join (q.right.map Symbol.name) :=
    congrArg RuleKey.right h
  refine Prod.ext (congrArg RuleKey.left h) ?_
  change p.right.map Symbol.name = q.right.map Symbol.name
  rw [← map_singleton_join (hchar hp), hjoin, map_singleton_join (hchar hq)]

/-! ### Numbers -/

/-- The numbers depend on the names only. -/
theorem numberFrom_names {left : Option String} {next : Nat} {ps qs : List Production}
    (h : ps.map Production.names = qs.map Production.names) :
    (numberFrom left next ps).map (fun p => (p.names, p.number)) =
      (numberFrom left next qs).map (fun p => (p.names, p.number)) := by
  induction ps generalizing left next qs with
  | nil => rw [List.map_eq_nil_iff.mp h.symm]
  | cons p ps ih =>
    obtain ⟨q, qs, rfl, hpq, hrest⟩ := List.map_eq_cons_iff.mp h.symm
    have hleft : q.left.name = p.left.name := congrArg Prod.fst hpq
    simp only [numberFrom, List.map_cons, hleft, ih hrest.symm]
    exact congrArg (fun names => (names, _) :: _) hpq.symm

/-- In an ordered list the numbers of each left side count up; those of the left side that came
last go on. -/
theorem numbers_numberFrom {last : Production} {next : Nat} {ps : List Production}
    (h : (last :: ps).Pairwise fun p q => (keyOfNames p.names).le (keyOfNames q.names) = true)
    (name : String) :
    ((numberFrom (some last.left.name) next ps).filter fun p => p.left.name = name).map
        Production.number =
      (List.range' (if last.left.name = name then next else 0)
        (ps.countP fun p => p.left.name = name)).map Int.ofNat := by
  induction ps generalizing last next with
  | nil => rfl
  | cons p ps ih =>
    obtain ⟨hlast, hps⟩ := List.pairwise_cons.mp h
    rw [numberFrom]
    by_cases hp : p.left.name = name
    · subst hp
      rw [List.filter_cons_of_pos (by simp), List.map_cons, ih hps, if_pos rfl,
        List.countP_cons_of_pos (by simp), List.range'_succ, List.map_cons]
      simp only [Option.some.injEq]
      rfl
    · rw [List.filter_cons_of_neg (by simpa using hp), ih hps, if_neg hp,
        List.countP_cons_of_neg (by simpa using hp)]
      by_cases hleft : last.left.name = name
      · -- productions of this left side further on would stand apart from the last one
        have hnone : (ps.countP fun p => p.left.name = name) = 0 := by
          refine List.countP_eq_zero.mpr fun q hq hname => hp ?_
          have hname : q.left.name = name := by simpa using hname
          have hsame : last.left.name = q.left.name := hleft.trans hname.symm
          have hgroup : (keyOfNames last.names).group = (keyOfNames q.names).group :=
            congrArg (fun name => if name = Symbol.startName then 0 else 1) hsame
          exact (RuleKey.left_eq_of_le (hlast p (List.mem_cons_self ..))
            ((List.pairwise_cons.mp hps).1 q hq) hgroup hsame).trans hleft
        rw [hnone]
        rfl
      · rw [if_neg hleft]

/-! ### Sorted grammars are alike -/

/-- The names of the listed productions are the same. -/
def SameProductions (g g' : Grammar) : Prop :=
  ∀ name, name ∈ g.productionList.map Production.name ↔ name ∈ g'.productionList.map Production.name

theorem SameProductions.symm (hsame : g.SameProductions g') : g'.SameProductions g :=
  fun name => (hsame name).symm

theorem Tidy.pairwise_ordered (h : g.Tidy) : g.ordered.Pairwise
    fun p q => (keyOfNames p.names).le (keyOfNames q.names) = true := by
  have htrans (p q r : Production) (hpq : (ruleKey p).le (ruleKey q) = true)
      (hqr : (ruleKey q).le (ruleKey r) = true) : (ruleKey p).le (ruleKey r) = true :=
    RuleKey.le_trans hpq hqr
  have hsorted : g.ordered.Pairwise fun p q => (ruleKey p).le (ruleKey q) = true :=
    List.pairwise_mergeSort htrans (fun p q => RuleKey.le_total (ruleKey p) (ruleKey q)) _
  refine hsorted.imp_of_mem fun {p q} hp hq hle => ?_
  rwa [← ruleKey_eq (h.formed p (List.mem_mergeSort.mp hp)),
    ← ruleKey_eq (h.formed q (List.mem_mergeSort.mp hq))]

/-- The numbers that sorting gives count up from 0 on every left side. -/
theorem Tidy.numbers_sort (h : g.Tidy) (name : String) :
    (g.sort.productionList.filter fun p => p.left.name = name).map Production.number =
      (List.range (g.sort.productionList.countP fun p => p.left.name = name)).map Int.ofNat := by
  have hsorted := h.pairwise_ordered
  have hcount : ((numberFrom none 0 g.ordered).countP fun p => p.left.name = name) =
      g.ordered.countP fun p => p.left.name = name := by
    have hlefts := map_numberFrom (f := fun p => p.left.name) (fun _ _ => rfl) none 0 g.ordered
    simpa [List.countP_map, Function.comp_def] using congrArg (List.countP (· = name)) hlefts
  rw [productionList_sort h.toMade h.valid, hcount]
  cases hordered : g.ordered with
  | nil => rfl
  | cons p ps =>
    rw [hordered] at hsorted
    have hfirst : numberFrom none 0 (p :: ps) = numberFrom (some p.left.name) 0 (p :: ps) := by
      simp [numberFrom]
    have hagain : (p :: p :: ps).Pairwise
        fun p q => (keyOfNames p.names).le (keyOfNames q.names) = true := by
      refine List.pairwise_cons.mpr ⟨fun q hq => ?_, hsorted⟩
      rcases List.mem_cons.mp hq with rfl | hq
      · exact RuleKey.le_iff.mpr le_rfl
      · exact (List.pairwise_cons.mp hsorted).1 q hq
    rw [hfirst, numbers_numberFrom hagain, ite_self, List.range_eq_range']

section Tidy

variable (h : g.Tidy) (h' : g'.Tidy) (hsame : g.SameProductions g')
include h h' hsame

theorem exists_names_eq (hp : p ∈ g.productionList) :
    ∃ q ∈ g'.productionList, q.names = p.names := by
  obtain ⟨q, hq, hname⟩ := List.mem_map.mp ((hsame p.name).mp (List.mem_map_of_mem hp))
  exact ⟨q, hq, (h'.formed q hq).names_eq (h.formed p hp) hname⟩

theorem exists_start (hstart : ∃ p ∈ g.productionList, p.left = Symbol.start) :
    ∃ q ∈ g'.productionList, q.left = Symbol.start := by
  obtain ⟨p, hp, hleft⟩ := hstart
  obtain ⟨q, hq, hnames⟩ := exists_names_eq h h' hsame hp
  have hname : q.name = p.name :=
    congrArg (fun names : String × List String => productionName names.1 names.2) hnames
  exact ⟨q, hq, (h'.formed q hq).left_eq_start_of_name_eq hleft hname⟩

theorem perm_names :
    Perm (g.productionList.map Production.names) (g'.productionList.map Production.names) := by
  have hnodup {k : Grammar} (hk : k.Tidy) : (k.productionList.map Production.names).Nodup := by
    refine List.Nodup.of_map (fun names => productionName names.1 names.2) ?_
    rw [List.map_map]
    exact keys_productions hk.valid ▸ hk.productions_nodup
  refine (List.perm_ext_iff_of_nodup (hnodup h) (hnodup h')).mpr fun names => ?_
  simp only [List.mem_map]
  constructor
  · rintro ⟨p, hp, rfl⟩
    exact exists_names_eq h h' hsame hp
  · rintro ⟨p, hp, rfl⟩
    exact exists_names_eq h' h hsame.symm hp

theorem names_ordered_eq : g.ordered.map Production.names = g'.ordered.map Production.names := by
  have hsort {k : Grammar} (hk : k.Tidy) : k.ordered.map Production.names =
      (k.productionList.map Production.names).mergeSort
        fun a b => (keyOfNames a).le (keyOfNames b) :=
    List.map_mergeSort fun p hp q hq => by
      rw [ruleKey_eq (hk.formed p hp), ruleKey_eq (hk.formed q hq)]
  rw [hsort h, hsort h']
  refine mergeSort_eq_of_perm (fun _ _ _ => RuleKey.le_trans)
    (fun a b => RuleKey.le_total (keyOfNames a) (keyOfNames b)) (fun a ha b hb hab hba => ?_)
    (perm_names h h' hsame)
  obtain ⟨p, hp, rfl⟩ := List.mem_map.mp ha
  obtain ⟨q, hq, rfl⟩ := List.mem_map.mp hb
  exact names_eq_of_key_eq (h.formed p hp) (h.formed q hq) (RuleKey.le_antisymm hab hba)

theorem bare_productionList_sort :
    g.sort.productionList.map Production.bare = g'.sort.productionList.map Production.bare := by
  have hnumbered : g.sort.productionList.map (fun p => (p.names, p.number)) =
      g'.sort.productionList.map fun p => (p.names, p.number) := by
    rw [productionList_sort h.toMade h.valid, productionList_sort h'.toMade h'.valid]
    exact numberFrom_names (names_ordered_eq h h' hsame)
  refine map_eq_of_map_eq hnumbered fun p hp q hq he => ?_
  obtain ⟨hnames, hnumber⟩ := Prod.mk.inj he
  exact (h.sort.formed p hp).bare_eq (h'.sort.formed q hq) hnames hnumber

theorem bare_occurrences_sort :
    g.sort.occurrences.map Symbol.bare = g'.sort.occurrences.map Symbol.bare := by
  rw [occurrences, occurrences, List.map_flatMap, List.map_flatMap]
  refine flatMap_eq_of_map_eq (bare_productionList_sort h h' hsame) fun p _ q _ he => ?_
  exact congrArg (fun r : Production => r.left :: r.right) he

theorem exists_bare_eq {s : Symbol} (hs : s ∈ g.occurrences) :
    ∃ s' ∈ g'.occurrences, s'.bare = s.bare := by
  obtain ⟨p, hp, hs⟩ := List.mem_flatMap.mp hs
  obtain ⟨q, hq, hnames⟩ := exists_names_eq h h' hsame hp
  obtain ⟨s', hs', he⟩ :=
    exists_of_map_eq ((h.formed p hp).bare_symbols_eq (h'.formed q hq) hnames.symm) hs
  exact ⟨s', Tidy.mem_occurrences hq hs', he⟩

end Tidy

theorem Tidy.mem_keys_registry (h : g.Tidy) {kind : SymbolKind} (hk : kind.Tabled) {name : String} :
    name ∈ (g.registry kind).keys ↔ ∃ s ∈ g.occurrences, s.kind = kind ∧ s.name = name := by
  rw [← Assoc.isSome_get?_iff, Option.isSome_iff_exists]
  refine exists_congr fun s => ?_
  rw [h.counted.registered]
  exact ⟨fun ⟨_, hkind, hname, hs⟩ => ⟨hs, hkind, hname⟩, fun ⟨hs, hkind, hname⟩ =>
    ⟨hk, hkind, hname, hs⟩⟩

theorem Made.nodup_keys_registry (h : g.Made) (kind : SymbolKind) :
    (g.registry kind).keys.Nodup := by
  cases kind with
  | terminal => exact h.terminals_nodup
  | nonterminal => exact h.nonterminals_nodup
  | epsilon => exact .nil
  | endOfInput => exact .nil

/-- Symbols of one kind that are registered under the same names are the same up to stamps. -/
theorem bare_values_registry (h : g.Made) (h' : g'.Made) (kind : SymbolKind)
    (hkeys : (g.registry kind).keys = (g'.registry kind).keys) :
    (g.registry kind).values.map Symbol.bare = (g'.registry kind).values.map Symbol.bare := by
  have hbare {k : Grammar} (hk : k.Made) : (k.registry kind).values.map Symbol.bare =
      (k.registry kind).keys.map fun name => ⟨kind, name, 0⟩ := by
    rw [Assoc.values, Assoc.keys, List.map_map, List.map_map]
    refine List.map_congr_left fun e he => ?_
    have hentry : e.2.name = e.1 ∧ e.2.kind = kind := by
      cases kind with
      | terminal => exact (hk.terminal e he).imp_right And.left
      | nonterminal => exact (hk.nonterminal e he).imp_right And.left
      | epsilon => cases he
      | endOfInput => cases he
    simp [Symbol.bare, hentry.1, hentry.2]
  rw [hbare h, hbare h', hkeys]

section Tidy

variable (h : g.Tidy) (h' : g'.Tidy) (hsame : g.SameProductions g')
include h h' hsame

theorem perm_keys_registry (kind : SymbolKind) (hk : kind.Tabled) :
    Perm (g.registry kind).keys (g'.registry kind).keys := by
  refine (List.perm_ext_iff_of_nodup (h.nodup_keys_registry kind)
    (h'.nodup_keys_registry kind)).mpr fun name => ?_
  rw [h.mem_keys_registry hk, h'.mem_keys_registry hk]
  constructor
  · rintro ⟨s, hs, rfl, rfl⟩
    obtain ⟨t, ht, he⟩ := exists_bare_eq h h' hsame hs
    exact ⟨t, ht, Symbol.bare_eq_iff.mp he⟩
  · rintro ⟨s, hs, rfl, rfl⟩
    obtain ⟨t, ht, he⟩ := exists_bare_eq h' h hsame.symm hs
    exact ⟨t, ht, Symbol.bare_eq_iff.mp he⟩

theorem bare_nonterminalList_sort :
    g.sort.nonterminalList.map Symbol.bare = g'.sort.nonterminalList.map Symbol.bare := by
  have hkeys : g.sort.nonterminals.keys = g'.sort.nonterminals.keys := by
    have hsort (k : Grammar) :
        k.sort.nonterminals.keys = k.nonterminals.keys.mergeSort nonterminalLe :=
      List.map_mergeSort fun _ _ _ _ => rfl
    rw [hsort, hsort]
    exact mergeSort_eq_of_perm (fun _ _ _ => nonterminalLe_trans) nonterminalLe_total
      (fun _ _ _ _ => nonterminalLe_antisymm)
      (perm_keys_registry h h' hsame .nonterminal (.inr rfl))
  exact bare_values_registry h.sort.toMade h'.sort.toMade .nonterminal hkeys

theorem bare_terminalList_sort :
    g.sort.terminalList.map Symbol.bare = g'.sort.terminalList.map Symbol.bare := by
  have hkeys : g.sort.terminals.keys = g'.sort.terminals.keys := by
    have hsort (k : Grammar) : k.sort.terminals.keys = k.terminals.keys.mergeSort nameLe :=
      List.map_mergeSort fun _ _ _ _ => rfl
    rw [hsort, hsort]
    refine mergeSort_eq_of_perm (fun a b c hab hbc => ?_) (fun a b => ?_)
      (fun a _ b _ hab hba => ?_) (perm_keys_registry h h' hsame .terminal (.inl rfl))
    · exact nameLe_iff.mpr ((nameLe_iff.mp hab).trans (nameLe_iff.mp hbc))
    · rw [Bool.or_eq_true, nameLe_iff, nameLe_iff]
      exact le_total a b
    · exact (nameLe_iff.mp hab).antisymm (nameLe_iff.mp hba)
  exact bare_values_registry h.sort.toMade h'.sort.toMade .terminal hkeys

end Tidy

/-- A symbol of a grammar is told apart by kind and name from those in its productions. -/
theorem Tidy.eq_of_bare_eq (h : g.Tidy) {s t : Symbol} (hs : s ∈ g.allSymbols)
    (ht : t ∈ g.occurrences) (he : t.bare = s.bare) : t = s := by
  obtain ⟨hkind, hname⟩ := Symbol.bare_eq_iff.mp he
  have hmarker : ¬ s.kind.Tabled → t = Symbol.epsilon := fun hno =>
    (h.of_mem_occurrences ht).resolve_left fun hproper => hno (hkind ▸ hproper.tabled)
  have hregistered (hk : s.kind.Tabled) (hs : s ∈ g.occurrences) : t = s := by
    have hget := (h.counted.registered s.kind s.name s).mpr ⟨hk, rfl, rfl, hs⟩
    rw [(h.counted.registered s.kind s.name t).mpr ⟨hk, hkind, hname, ht⟩] at hget
    exact Option.some.inj hget
  simp only [allSymbols, List.mem_cons, List.mem_append] at hs
  rcases hs with rfl | rfl | hs | hs
  · exact hmarker (by decide)
  · rw [hmarker (by decide)] at hkind
    cases hkind
  · obtain ⟨hk, hs⟩ := h.mem_nonterminalList.mp hs
    exact hregistered (.inr hk) hs
  · obtain ⟨hk, hs⟩ := h.mem_terminalList.mp hs
    exact hregistered (.inl hk) hs

theorem Tidy.references_eq (h : g.Tidy) {s : Symbol} (hs : s ∈ g.allSymbols) :
    g.references s = (g.occurrences.map Symbol.bare).count s.bare := by
  rw [h.counted.references, List.count, List.count, List.countP_map]
  refine congrArg _ (List.countP_congr fun t ht => ?_)
  simp only [beq_iff_eq, Function.comp_apply]
  exact ⟨fun he => by rw [he], h.eq_of_bare_eq hs ht⟩

theorem alike_sort (h : g.Tidy) (h' : g'.Tidy) (hsame : g.SameProductions g') :
    g.sort.Alike g'.sort := by
  have hproductions := bare_productionList_sort h h' hsame
  have hnonterminals := bare_nonterminalList_sort h h' hsame
  have hterminals := bare_terminalList_sort h h' hsame
  refine ⟨hproductions, hnonterminals, hterminals, ?_⟩
  have hall : g.sort.allSymbols.map Symbol.bare = g'.sort.allSymbols.map Symbol.bare := by
    simp only [allSymbols, List.map_cons, List.map_append, hnonterminals, hterminals]
  refine map_eq_of_map_eq hall fun s hs t ht he => ?_
  rw [h.sort.references_eq hs, h'.sort.references_eq ht, bare_occurrences_sort h h' hsame, he]

end Grammar

end Lookahead
