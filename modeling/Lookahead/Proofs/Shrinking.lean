import Lookahead.Proofs.Grammar.Consistency
import Lookahead.Proofs.Table

/-!
# Fewer productions

What is derived through some of the productions of a grammar is derived in the grammar. So with
fewer productions no more symbols vanish, begin a form or follow a nonterminal, whatever the
graphs of the steps look like, and a cell of the table lists no production that it did not list
before. A table without conflicts stays without.
-/

namespace Lookahead

/-- A condition that is harder to meet picks less from a part of a list. -/
theorem filter_sublist_filter {α : Type} {l part : List α} {p q : α → Bool} (h : part.Sublist l)
    (hpq : ∀ a ∈ part, p a = true → q a = true) : (part.filter p).Sublist (l.filter q) := by
  have hboth : (part.filter q).filter p = part.filter p := by
    rw [List.filter_filter]
    refine List.filter_congr fun a ha => ?_
    cases hp : p a with
    | false => rfl
    | true => rw [hpq a ha hp]; rfl
  rw [← hboth]
  exact List.filter_sublist.trans (h.filter q)

namespace Grammar

variable {g g' part part' : Grammar} {s : Symbol} {p : Production} {x : String}

/-- A grammar with some of the productions of another, in their order, and with no other symbols. -/
structure Within (part g : Grammar) : Prop where
  productions : part.productionList.Sublist g.productionList
  nonterminals : part.nonterminalList ⊆ g.nonterminalList
  terminals : part.terminalList ⊆ g.terminalList

/-- The symbols of consistent grammars are those of their productions. -/
theorem Tidy.within (h : g.Tidy) (hpart : part.Tidy)
    (hsub : part.productionList.Sublist g.productionList) : part.Within g := by
  have huses : part.occurrences ⊆ g.occurrences := by
    intro s hs
    obtain ⟨p, hp, hs⟩ := List.mem_flatMap.mp hs
    exact List.mem_flatMap.mpr ⟨p, hsub.subset hp, hs⟩
  refine ⟨hsub, fun s hs => ?_, fun s hs => ?_⟩
  · obtain ⟨hkind, hused⟩ := hpart.mem_nonterminalList.mp hs
    exact h.mem_nonterminalList.mpr ⟨hkind, huses hused⟩
  · obtain ⟨hkind, hused⟩ := hpart.mem_terminalList.mp hs
    exact h.mem_terminalList.mpr ⟨hkind, huses hused⟩

namespace Within

variable (h : part.Within g)
include h

theorem varies (hv : g.Varies g') (hv' : part.Varies part') : part'.Within g' := by
  refine ⟨?_, ?_, ?_⟩
  · rw [hv.productionList, hv'.productionList]
    exact h.productions
  · rw [hv.nonterminalList, hv'.nonterminalList]
    exact h.nonterminals
  · rw [hv.terminalList, hv'.terminalList]
    exact h.terminals

/-! ### Derivations -/

theorem derives {u v : List Symbol} (hd : Derives part.productionList u v) :
    Derives g.productionList u v := hd.mono h.productions.subset

theorem begins {t : Symbol} {u : List Symbol} (hb : Begins part.productionList t u) :
    Begins g.productionList t u := by
  obtain ⟨v, hv⟩ := hb
  exact ⟨v, h.derives hv⟩

theorem firstOf (hf : part.FirstOf s x) : g.FirstOf s x := by
  obtain ⟨t, ht, hname, hb⟩ := hf
  exact ⟨t, h.terminals ht, hname, h.begins hb⟩

theorem followOf (hf : part.FollowOf s x) : g.FollowOf s x := by
  rcases hf with ⟨t, ht, hname, root, hroot, u, v, hd⟩ | ⟨hname, u, hd⟩
  · exact .inl ⟨t, h.terminals ht, hname, root, h.nonterminals hroot, u, v, h.derives hd⟩
  · exact .inr ⟨hname, u, h.derives hd⟩

theorem registered (hs : part.Registered s) : g.Registered s :=
  hs.imp (fun hs => h.nonterminals hs) fun hs => h.terminals hs

/-! ### Findings -/

section Solved

variable (hsolved : g.Solved) (hsolved' : part.Solved)
include hsolved hsolved'

theorem nullable (hs : part.Registered s) (hn : part.nullable s = true) : g.nullable s = true :=
  (hsolved.marked.nullable s (h.registered hs)).mpr
    (h.derives ((hsolved'.marked.nullable s hs).mp hn))

theorem first (hs : part.Registered s) (hx : x ∈ part.first s) : x ∈ g.first s :=
  (hsolved.first s (h.registered hs) x).mpr (h.firstOf ((hsolved'.first s hs x).mp hx))

theorem follow (hs : s ∈ part.nonterminalList) (hx : x ∈ part.follow s) : x ∈ g.follow s :=
  (hsolved.follow s (h.nonterminals hs) x).mpr (h.followOf ((hsolved'.follow s hs x).mp hx))

/-! ### Tables -/

variable (hg : g.Standard) (hpart : part.Standard)
include hg hpart

theorem lookahead (hp : p ∈ part.productionList) (hx : x ∈ part.lookahead p) :
    x ∈ g.lookahead p := by
  rw [mem_lookahead_iff hg hsolved (h.productions.subset hp)]
  rcases (mem_lookahead_iff hpart hsolved' hp).mp hx with ⟨t, ht, hname, hb⟩ | ⟨hv, hf⟩
  · exact .inl ⟨t, h.terminals ht, hname, h.begins hb⟩
  · exact .inr ⟨h.derives hv, h.followOf hf⟩

/-- The cells that both tables have list no more in the table of the part. -/
theorem cells {t t' : LookaheadTable} (ht : LookaheadTable.ofGrammar g = .ok t)
    (ht' : LookaheadTable.ofGrammar part = .ok t') :
    t'.rows ⊆ t.rows ∧ t'.columns ⊆ t.columns ∧
      ∀ row ∈ t'.rows, ∀ column ∈ t'.columns, ∃ listed listed',
        t.cell? row column = some listed ∧ t'.cell? row column = some listed' ∧
          listed'.Sublist listed := by
  obtain ⟨_, hrun, hrows, hcolumns, hlists⟩ := LookaheadTable.ofGrammar_spec hg
  obtain rfl := Except.ok.inj (ht.symm.trans hrun)
  obtain ⟨_, hrun', hrows', hcolumns', hlists'⟩ := LookaheadTable.ofGrammar_spec hpart
  obtain rfl := Except.ok.inj (ht'.symm.trans hrun')
  have hr : t'.rows ⊆ t.rows := by
    rw [hrows, hrows']
    exact List.map_subset _ h.nonterminals
  have hc : t'.columns ⊆ t.columns := by
    rw [hcolumns, hcolumns', followSymbols, followSymbols, List.map_append, List.map_append]
    intro column hcolumn
    rcases List.mem_append.mp hcolumn with hmem | hmem
    · exact List.mem_append_left _ (List.map_subset _ h.terminals hmem)
    · exact List.mem_append_right _ hmem
  refine ⟨hr, hc, fun row hrow column hcolumn => ?_⟩
  refine ⟨_, _, hlists.cell?_eq (hr hrow) (hc hcolumn), hlists'.cell?_eq hrow hcolumn, ?_⟩
  apply filter_sublist_filter h.productions
  intro p hp hpick
  obtain ⟨hleft, hmem, hx⟩ := of_decide_eq_true hpick
  exact decide_eq_true ⟨hleft, hc hmem, h.lookahead hsolved hsolved' hg hpart hp hx⟩

theorem isLL1 {t t' : LookaheadTable} (ht : LookaheadTable.ofGrammar g = .ok t)
    (ht' : LookaheadTable.ofGrammar part = .ok t') (hll : t.isLL1 = true) : t'.isLL1 = true := by
  obtain ⟨hrows, hcolumns, hcells⟩ := h.cells hsolved hsolved' hg hpart ht ht'
  rw [LookaheadTable.isLL1_iff] at hll ⊢
  intro row hrow column hcolumn
  obtain ⟨listed, listed', hcell, hcell', hsub⟩ := hcells row hrow column hcolumn
  have hle := hll row (hrows hrow) column (hcolumns hcolumn)
  rw [LookaheadTable.content, hcell, Option.getD_some] at hle
  rw [LookaheadTable.content, hcell', Option.getD_some]
  exact hsub.length_le.trans hle

end Solved

end Within

end Grammar

end Lookahead
