import Lookahead.Proofs.Grammar.Reducing
import Lookahead.Proofs.Shrinking
import Lookahead.Proofs.Tutor.Histories
import Lookahead.Proofs.Tutor.SolveAll

/-!
# Removing productions creates no conflicts

Solving all steps finds what is derived, and what is derived through fewer productions is less.
So whatever removing a production does to the graphs of the steps, to their groups and to the
symbols of the grammar, no set grows and no cell of the table lists more than before.
-/

namespace Lookahead

open Grammar (Change)

namespace Grammar

variable {g g' : Grammar} {p : Production} {removed : List Production}

theorem FromText.consistent (h : g.FromText) : g.Consistent := by
  obtain ⟨text, g', hread, rfl | rfl⟩ := h
  · exact consistent_ofText hread
  · exact (consistent_ofText hread).sort

/-- Without a production other than the start production a standard grammar is standard. -/
theorem Consistent.standard_detach (h : g.Consistent) (hg : g.Standard) (hp : p ∈ g.productionList)
    (hstart : g.startProduction? ≠ some p) : (g.detach p).Standard := by
  have hlawful := (h.remove hp).2.toTidy.lawful
  obtain ⟨q, hq, hleft⟩ := hg.start
  refine ⟨hlawful, q, (h.toTidy.mem_detach_iff hp).mpr ⟨hq, ?_⟩, hleft⟩
  rintro rfl
  -- the first production of the start marker is the only one
  cases hfirst : g.startProduction? with
  | none => exact left_ne_start_of_startProduction?_eq_none hfirst q hq hleft
  | some r =>
    obtain ⟨hr, hform⟩ := h.of_startProduction? hfirst
    exact hstart (hfirst.trans (congrArg some (h.oneStart r hr q hq hform.1 hleft)))

theorem Consistent.within_detach (h : g.Consistent) (hp : p ∈ g.productionList) :
    (g.detach p).Within g := by
  apply h.toTidy.within (h.remove hp).2.toTidy
  rw [h.toTidy.productionList_detach hp]
  exact List.filter_sublist

/-- What reducing leaves, accepted or refused, is a standard part of the grammar. -/
theorem Consistent.within_reduce (h : g.Consistent) (hg : g.Standard) :
    (Change.reduce.left g).Standard ∧ (Change.reduce.left g).Within g := by
  rcases h.reduce with ⟨removed, g', hrun, hg'⟩ | ⟨m, hrun⟩
  · have hperform : Change.reduce.perform g = .ok () g' :=
      Outcome.run_bind_eq_ok.mpr ⟨removed, g', hrun, rfl⟩
    have hleft : Change.reduce.left g = g' := by rw [Change.left, hperform]
    obtain ⟨hstart, -⟩ := Grammar.reduce_eq_ok.mp hrun
    have hreduced := (h.reduced hrun).1
    rw [hleft]
    refine ⟨hg'.toTidy.lawful.standard (hreduced.startKept ▸ hstart), ?_⟩
    apply h.toTidy.within hg'.toTidy
    rw [hreduced.kept]
    exact List.filter_sublist
  · have hperform : Change.reduce.perform g = .error (.mistake m) g :=
      Outcome.run_bind_eq_error.mpr (.inl hrun)
    have hleft : Change.reduce.left g = g := by rw [Change.left, hperform]
    rw [hleft]
    exact ⟨hg, h.toTidy.within h.toTidy (.refl _)⟩

end Grammar

namespace Tutor

variable {g part : Grammar}

/-- Solving all steps is accepted for both grammars, and in the first one it finds no more: its
nonterminals and columns are in the second, fewer symbols are nullable, the sets are contained
in those of the second and so are the cells, and there is no conflict if there was none. -/
def FindsNoMore (part g : Grammar) : Prop :=
  ∃ t table t' t₂ table₂ t₂',
    ofGrammar g = .ok t ∧ solveAll t = .ok table t' ∧
    ofGrammar part = .ok t₂ ∧ solveAll t₂ = .ok table₂ t₂' ∧
    (∀ s ∈ part.nonterminalList, s ∈ g.nonterminalList ∧
      (t₂'.grammar.nullable s = true → t'.grammar.nullable s = true) ∧
      (∀ x, x ∈ t₂'.grammar.first s → x ∈ t'.grammar.first s) ∧
      (∀ x, x ∈ t₂'.grammar.follow s → x ∈ t'.grammar.follow s) ∧
      ∀ a ∈ part.followSymbols, a ∈ g.followSymbols ∧ ∃ listed listed₂,
        table.cell? s.name a.name = some listed ∧ table₂.cell? s.name a.name = some listed₂ ∧
          listed₂.Sublist listed) ∧
    (table.isLL1 = true → table₂.isLL1 = true)

theorem findsNoMore_of_within (h : part.Within g) (hg : g.Standard) (hpart : part.Standard) :
    FindsNoMore part g := by
  obtain ⟨table, t', hrun, hv, -, hsolved, htable⟩ := exists_solveAll hg
  obtain ⟨table₂, t₂', hrun₂, hv₂, -, hsolved₂, htable₂⟩ := exists_solveAll hpart
  have hg' := hv.standard hg
  have hpart' := hv₂.standard hpart
  have h' := h.varies hv hv₂
  obtain ⟨-, -, hcells⟩ := h'.cells hsolved hsolved₂ hg' hpart' htable htable₂
  obtain ⟨_, htable₂', hrows₂, hcolumns₂, -⟩ := LookaheadTable.ofGrammar_spec hpart'
  obtain rfl := Except.ok.inj (htable₂.symm.trans htable₂')
  refine ⟨_, table, t', _, table₂, t₂', ofGrammar_eq_ok hg, hrun, ofGrammar_eq_ok hpart, hrun₂,
    fun s hs => ?_, h'.isLL1 hsolved hsolved₂ hg' hpart' htable htable₂⟩
  have hs' : s ∈ t₂'.grammar.nonterminalList := hv₂.nonterminalList ▸ hs
  refine ⟨h.nonterminals hs, h'.nullable hsolved hsolved₂ (.inl hs'),
    fun x => h'.first hsolved hsolved₂ (.inl hs'), fun x => h'.follow hsolved hsolved₂ hs',
    fun a ha => ⟨?_, hcells s.name ?_ a.name ?_⟩⟩
  · rcases List.mem_append.mp ha with ha | ha
    · exact List.mem_append_left _ (h.terminals ha)
    · exact List.mem_append_right _ ha
  · rw [hrows₂]
    exact List.mem_map_of_mem hs'
  · rw [hcolumns₂, Grammar.followSymbols, hv₂.terminalList]
    exact List.mem_map_of_mem ha

/-- In a grammar read from a text every production but the start production can be removed, and
then solving all steps finds no more than before; the same holds after reducing. -/
theorem findsNoMore_of_removed (hg : g.FromText) :
    (∀ p ∈ g.productionList, g.startProduction? ≠ some p →
      ∃ part, Grammar.remove p g = .ok () part ∧ FindsNoMore part g) ∧
    FindsNoMore (Change.reduce.left g) g := by
  have h := hg.consistent
  constructor
  · intro p hp hstart
    obtain ⟨hrun, -⟩ := h.remove hp
    have hpart := h.standard_detach hg.standard hp hstart
    exact ⟨g.detach p, hrun, findsNoMore_of_within (h.within_detach hp) hg.standard hpart⟩
  · obtain ⟨hpart, hwithin⟩ := h.within_reduce hg.standard
    exact findsNoMore_of_within hwithin hg.standard hpart

/-- Without its only production a nonterminal stays that others use. -/
theorem findsNoMore_of_removed_sample : ∃ g part, Grammar.ofText Sample.text = .ok g ∧
    Grammar.remove Sample.empty g = .ok () part ∧ FindsNoMore part g ∧
    FindsNoMore (Change.reduce.left g) g := by
  obtain ⟨g, hg, -, -, hproductions⟩ := Sample.exists_grammar
  obtain ⟨hremove, hreduce⟩ := findsNoMore_of_removed ⟨_, g, hg, .inl rfl⟩
  have hmem : Sample.empty ∈ g.productionList := by simp [hproductions]
  have hstart : g.startProduction? ≠ some Sample.empty := by
    rw [Grammar.startProduction?, hproductions]
    decide
  obtain ⟨part, hrun, hless⟩ := hremove Sample.empty hmem hstart
  exact ⟨g, part, hg, hrun, hless, hreduce⟩

end Tutor

end Lookahead
