import Lookahead.Proofs.Follow
import Lookahead.Table

/-!
# What a lookahead table lists

A table is filled production by production, so every cell lists its productions in the order
of the grammar and each of them once. With right findings a production is listed under the
terminals with which its body can begin and, if its body can vanish, under what can follow
its left side.
-/

namespace Lookahead

open Outcome (bind_eq_ok)

namespace LookaheadTable

variable {t : LookaheadTable} {listed : String → String → List Production}

/-! ### Filling -/

/-- Every cell of the rows and columns is there, with its productions. -/
def Lists (t : LookaheadTable) (listed : String → String → List Production) : Prop :=
  ∀ row ∈ t.rows, ∃ cells, t.cells.get? row = some cells ∧
    ∀ column ∈ t.columns, cells.get? column = some (listed row column)

theorem Lists.cell?_eq (h : t.Lists listed) {row column : String} (hr : row ∈ t.rows)
    (hc : column ∈ t.columns) : t.cell? row column = some (listed row column) := by
  obtain ⟨cells, hcells, hcell⟩ := h row hr
  simp [cell?, hcells, hcell column hc]

theorem Lists.congr {listed' : String → String → List Production} (h : t.Lists listed)
    (he : ∀ row column, listed row column = listed' row column) : t.Lists listed' := by
  intro row hr
  obtain ⟨cells, hcells, hcell⟩ := h row hr
  exact ⟨cells, hcells, fun column hc => by rw [hcell column hc, he]⟩

theorem lists_blank (rows columns : List String) : (blank rows columns).Lists fun _ _ => [] := by
  intro row hr
  refine ⟨.ofList (columns.map fun c => (c, [])), ?_, fun column hc => ?_⟩
  · refine Assoc.get?_foldl_put (fun e he _ => ?_) (.inr ⟨_, List.mem_map_of_mem hr, rfl⟩)
    obtain ⟨_, _, rfl⟩ := List.mem_map.mp he
    rfl
  · refine Assoc.get?_foldl_put (fun e he _ => ?_) (.inr ⟨_, List.mem_map_of_mem hc, rfl⟩)
    obtain ⟨_, _, rfl⟩ := List.mem_map.mp he
    rfl

/-- A grammar is LL(1) if no cell lists two productions. -/
theorem isLL1_iff : t.isLL1 = true ↔
    ∀ row ∈ t.rows, ∀ column ∈ t.columns, (t.content row column).length ≤ 1 := by
  rw [isLL1, List.isEmpty_iff, conflicts, entriesFrom, List.flatMap_eq_nil_iff]
  refine forall₂_congr fun row _ => ?_
  rw [List.filterMap_eq_nil_iff]
  refine forall₂_congr fun column _ => ?_
  by_cases hmany : 2 ≤ (t.content row column).length
  · simp [hmany]
    omega
  · simp [hmany]
    omega

/-- A table of the same rows and columns. -/
def SameAxes (t t' : LookaheadTable) : Prop := t'.rows = t.rows ∧ t'.columns = t.columns

theorem Lists.list (h : t.Lists listed) {row column : String} {p : Production}
    (hr : row ∈ t.rows) (hc : column ∈ t.columns) :
    ∃ t', t.list row column p = .ok t' ∧ t.SameAxes t' ∧ t'.Lists fun r c =>
      if r = row ∧ c = column then listed r c ++ [p] else listed r c := by
  obtain ⟨cells, hcells, hcell⟩ := h row hr
  let cells' := cells.put column ((cells.get? column).getD [] ++ [p])
  refine ⟨{ t with cells := t.cells.put row cells' }, ?_, ⟨rfl, rfl⟩, fun r hr' => ?_⟩
  · simp only [LookaheadTable.list, hcells, cells']
  by_cases he : r = row
  · subst he
    refine ⟨_, Assoc.get?_put_self .., fun c hc' => ?_⟩
    by_cases he : c = column
    · subst he
      simp only [cells', Assoc.get?_put_self, hcell c hc, Option.getD_some, and_self, if_true]
    · simp only [cells', Assoc.get?_put_of_ne _ _ (Ne.symm he), hcell c hc', he, and_false, if_false]
  · obtain ⟨other, hother, hcell'⟩ := h r hr'
    refine ⟨other, by rw [Assoc.get?_put_of_ne _ _ (Ne.symm he), hother], fun c hc' => ?_⟩
    simp only [hcell' c hc', he, false_and, if_false]

theorem Lists.listAll {p : Production} {columns : List String} (h : t.Lists listed)
    (hr : p.left.name ∈ t.rows) (hc : ∀ c ∈ columns, c ∈ t.columns) (hn : columns.Nodup) :
    ∃ t', listAll p columns t = .ok t' ∧ t.SameAxes t' ∧ t'.Lists fun r c =>
      if r = p.left.name ∧ c ∈ columns then listed r c ++ [p] else listed r c := by
  induction columns generalizing t listed with
  | nil => exact ⟨t, rfl, ⟨rfl, rfl⟩, h.congr fun _ _ => by simp⟩
  | cons column columns ih =>
    obtain ⟨hfresh, hn⟩ := List.nodup_cons.mp hn
    obtain ⟨t', ht', haxes, hlists⟩ := h.list (p := p) hr (hc column (List.mem_cons_self ..))
    obtain ⟨t'', ht'', haxes', hlists'⟩ := ih hlists (haxes.1.symm ▸ hr)
      (fun c hmem => haxes.2.symm ▸ hc c (List.mem_cons_of_mem _ hmem)) hn
    refine ⟨t'', ?_, ⟨haxes'.1.trans haxes.1, haxes'.2.trans haxes.2⟩, hlists'.congr fun r c => ?_⟩
    · rw [LookaheadTable.listAll, bind_eq_ok]
      exact ⟨t', ht', ht''⟩
    · by_cases hrow : r = p.left.name
      · by_cases he : c = column
        · subst he
          simp [hrow, hfresh]
        · simp [hrow, he]
      · simp [hrow]

theorem Lists.addProductions {g : Grammar} {ps : List Production} (h : t.Lists listed)
    (hr : ∀ p ∈ ps, p.left.name ∈ t.rows) (hn : t.columns.Nodup) :
    ∃ t', addProductions g ps t = .ok t' ∧ t.SameAxes t' ∧ t'.Lists fun r c =>
      listed r c ++ ps.filter fun p => p.left.name = r ∧ c ∈ t.columns ∧ c ∈ g.lookahead p := by
  induction ps generalizing t listed with
  | nil => exact ⟨t, rfl, ⟨rfl, rfl⟩, h.congr fun _ _ => by simp⟩
  | cons p ps ih =>
    let columns := t.columns.filter fun c => c ∈ g.lookahead p
    obtain ⟨t', ht', haxes, hlists⟩ := h.listAll (hr p (List.mem_cons_self ..))
      (fun c hc => (List.mem_filter.mp hc).1) (hn.filter _)
    obtain ⟨t'', ht'', haxes', hlists'⟩ := ih hlists
      (fun q hq => haxes.1.symm ▸ hr q (List.mem_cons_of_mem _ hq)) (haxes.2.symm ▸ hn)
    refine ⟨t'', ?_, ⟨haxes'.1.trans haxes.1, haxes'.2.trans haxes.2⟩, hlists'.congr fun r c => ?_⟩
    · rw [LookaheadTable.addProductions]
      simp only [bind_eq_ok]
      exact ⟨t', ht', ht''⟩
    · have hmem : c ∈ columns ↔ c ∈ t.columns ∧ c ∈ g.lookahead p := by
        simp [columns, List.mem_filter]
      rw [haxes.2, List.filter_cons]
      by_cases hcell : r = p.left.name ∧ c ∈ columns
      · have hpick : p.left.name = r ∧ c ∈ t.columns ∧ c ∈ g.lookahead p :=
          ⟨hcell.1.symm, hmem.mp hcell.2⟩
        rw [if_pos hcell, if_pos (by simpa using hpick), List.append_assoc]
        rfl
      · have hpick : ¬(p.left.name = r ∧ c ∈ t.columns ∧ c ∈ g.lookahead p) :=
          fun hp => hcell ⟨hp.1.symm, hmem.mpr hp.2⟩
        rw [if_neg hcell, if_neg (by simpa using hpick)]

variable {g : Grammar}

theorem nodup_columns (h : g.Standard) : (g.followSymbols.map Symbol.name).Nodup := by
  rw [Grammar.followSymbols, List.map_append, List.nodup_append]
  refine ⟨(Graph.nodup_names h.toLawful).1, by simp, ?_⟩
  rintro _ ha _ hb rfl
  obtain ⟨s, hs, he⟩ := List.mem_map.mp ha
  obtain rfl := List.mem_singleton.mp hb
  exact (h.proper_of_registered (.inr hs)).name_ne.2 he

/-- The table of a standard grammar is filled. -/
theorem ofGrammar_spec (h : g.Standard) : ∃ t, ofGrammar g = .ok t ∧
    t.rows = g.nonterminalList.map Symbol.name ∧ t.columns = g.followSymbols.map Symbol.name ∧
      t.Lists fun row column => g.productionList.filter fun p =>
        p.left.name = row ∧ column ∈ t.columns ∧ column ∈ g.lookahead p := by
  obtain ⟨t, ht, haxes, hlists⟩ := (lists_blank (g.nonterminalList.map Symbol.name)
    (g.followSymbols.map Symbol.name)).addProductions (g := g)
    (fun p hp => List.mem_map_of_mem (h.left_mem hp)) (nodup_columns h)
  refine ⟨t, ht, haxes.1, haxes.2, hlists.congr fun _ _ => ?_⟩
  rw [haxes.2]
  rfl

/-- The table depends on the productions and where they are listed only. -/
theorem addProductions_congr {g' : Grammar} {ps : List Production}
    (h : ∀ p ∈ ps, g'.lookahead p = g.lookahead p) (t : LookaheadTable) :
    addProductions g' ps t = addProductions g ps t := by
  induction ps generalizing t with
  | nil => rfl
  | cons p ps ih =>
    rw [LookaheadTable.addProductions, LookaheadTable.addProductions, h p (List.mem_cons_self ..)]
    refine bind_congr fun t => ?_
    exact ih (fun q hq => h q (List.mem_cons_of_mem _ hq)) t

end LookaheadTable

/-! ### Lookahead by derivations -/

namespace Grammar

variable {g : Grammar} {x : String}

/-- Marks and sets are those of the derivations. -/
structure Solved (g : Grammar) : Prop where
  marked : Nullability.Marked g
  first : ∀ s, g.Registered s → ∀ x, x ∈ g.first s ↔ g.FirstOf s x
  follow : ∀ s ∈ g.nonterminalList, ∀ x, x ∈ g.follow s ↔ g.FollowOf s x

/-- A body begins with the terminal of a name in the sense of its symbols. -/
theorem opens_firstOf_iff {u : List Symbol} :
    Opens (fun s => Vanishes g.productionList [s]) (fun s => g.FirstOf s x) u ↔
      ∃ t ∈ g.terminalList, t.name = x ∧ Begins g.productionList t u := by
  constructor
  · intro h
    induction u with
    | nil => exact h.elim
    | cons s u ih =>
      rcases h with ⟨t, ht, hname, hs⟩ | ⟨hs, h⟩
      · exact ⟨t, ht, hname, begins_of_opens (.inl hs)⟩
      · obtain ⟨t, ht, hname, hu⟩ := ih h
        exact ⟨t, ht, hname, begins_of_opens (.inr ⟨hs, begins_iff_opens.mp hu⟩)⟩
  · rintro ⟨t, ht, rfl, h⟩
    exact (begins_iff_opens.mp h).mono fun s hs => ⟨t, ht, rfl, hs⟩

section Standard

variable (h : g.Standard)
include h

/-- A terminal derives nothing but itself. -/
theorem firstOf_terminal {t : Symbol} (ht : t ∈ g.terminalList) : g.FirstOf t x ↔ x = t.name := by
  constructor
  · rintro ⟨t', ht', rfl, v, hv⟩
    rcases Relation.ReflTransGen.cases_head hv with he | ⟨_, hstep, _⟩
    · obtain ⟨rfl, -⟩ := List.cons.inj he
      rfl
    · obtain ⟨p, hp, hleft⟩ := hstep.left_mem
      rw [List.mem_singleton] at hleft
      have hn := h.kind_of_mem_nonterminalList (h.left_mem hp)
      rw [hleft, h.kind_of_mem_terminalList ht] at hn
      cases hn
  · rintro rfl
    exact ⟨t, ht, rfl, [], .refl _⟩

variable (hs : g.Solved)
include hs

theorem firstOfSequence_spec {u : List Symbol} (hu : ∀ s ∈ u, g.Registered s) :
    ((g.firstOfSequence u).2 = true ↔ Vanishes g.productionList u) ∧
      (x ∈ (g.firstOfSequence u).1 ↔
        Opens (fun s => Vanishes g.productionList [s]) (fun s => g.FirstOf s x) u) := by
  induction u with
  | nil => exact ⟨iff_of_true rfl vanishes_nil, iff_of_false (NameSet.not_mem_empty x) id⟩
  | cons s u ih =>
    have hreg := hu s (List.mem_cons_self ..)
    obtain ⟨hvanish, hopen⟩ := ih fun t ht => hu t (List.mem_cons_of_mem _ ht)
    have hcons : Vanishes g.productionList (s :: u) ↔
        Vanishes g.productionList [s] ∧ Vanishes g.productionList u := by
      rw [vanishes_iff, List.forall_mem_cons, ← vanishes_iff]
    rw [firstOfSequence, h.not_isEpsilon hreg, if_neg Bool.false_ne_true]
    by_cases hterminal : s.isTerminal = true
    · have ht : s ∈ g.terminalList := by
        refine hreg.resolve_left fun hn => ?_
        simp [Symbol.isTerminal, h.kind_of_mem_nonterminalList hn] at hterminal
      have hno := h.not_vanishes_terminal ht
      rw [if_pos hterminal]
      refine ⟨iff_of_false Bool.false_ne_true fun hv => hno (hcons.mp hv).1, ?_⟩
      rw [NameSet.mem_ofList, List.mem_singleton, Opens, firstOf_terminal h ht]
      simp [hno]
    · rw [if_neg hterminal]
      have hnull := hs.marked.nullable s hreg
      cases hn : g.nullable s with
      | false =>
        have hno : ¬Vanishes g.productionList [s] := by simpa [hn] using hnull
        simp only [Bool.not_false, if_true]
        refine ⟨iff_of_false Bool.false_ne_true fun hv => hno (hcons.mp hv).1, ?_⟩
        rw [hs.first s hreg, Opens]
        simp [hno]
      | true =>
        have hyes : Vanishes g.productionList [s] := hnull.mp hn
        simp only [Bool.not_true, Bool.false_eq_true, if_false]
        refine ⟨by rw [hvanish, hcons]; simp [hyes], ?_⟩
        rw [NameSet.mem_union, hs.first s hreg, hopen, Opens]
        simp [hyes]

/-- The symbols under which a production is listed. -/
theorem mem_lookahead_iff {p : Production} (hp : p ∈ g.productionList) :
    x ∈ g.lookahead p ↔ (∃ t ∈ g.terminalList, t.name = x ∧ Begins g.productionList t p.body) ∨
      Vanishes g.productionList p.body ∧ g.FollowOf p.left x := by
  have hspec : ((g.firstOfSequence p.right).2 = true ↔ Vanishes g.productionList p.body) ∧
      (x ∈ (g.firstOfSequence p.right).1 ↔
        Opens (fun s => Vanishes g.productionList [s]) (fun s => g.FirstOf s x) p.body) := by
    rcases h.body_cases hp with ⟨hright, hbody⟩ | ⟨hbody, hregistered⟩
    · have hmark : g.firstOfSequence p.right = ({}, true) := by
        rw [hright]
        rfl
      rw [hmark, hbody]
      exact ⟨iff_of_true rfl vanishes_nil, iff_of_false (NameSet.not_mem_empty x) id⟩
    · rw [hbody]
      exact firstOfSequence_spec h hs hregistered
  rw [← opens_firstOf_iff, ← hspec.1, ← hspec.2, lookahead, ← hs.follow _ (h.left_mem hp)]
  cases hv : (g.firstOfSequence p.right).2 <;> simp [hv]

/-- Right findings give the same table, wherever they come from. -/
theorem ofGrammar_eq_of_solved {g' : Grammar} (hv : g.Varies g') (hs' : g'.Solved) :
    LookaheadTable.ofGrammar g' = LookaheadTable.ofGrammar g := by
  have hlookahead : ∀ p ∈ g.productionList, g'.lookahead p = g.lookahead p := by
    intro p hp
    refine NameSet.ext_mem fun x => ?_
    rw [mem_lookahead_iff (hv.standard h) hs' (hv.productionList.symm ▸ hp),
      mem_lookahead_iff h hs hp]
    obtain ⟨_, _, rfl⟩ := hv
    rfl
  rw [LookaheadTable.ofGrammar, LookaheadTable.ofGrammar, hv.productionList,
    LookaheadTable.addProductions_congr hlookahead]
  obtain ⟨_, _, rfl⟩ := hv
  rfl

end Standard

end Grammar

end Lookahead
