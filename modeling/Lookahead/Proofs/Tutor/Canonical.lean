import Lookahead.Proofs.Grammar.Canonical
import Lookahead.Proofs.Graph.Likeness
import Lookahead.Proofs.Tutor.SolveAll

/-!
# Tutors for sorted grammars

Whatever was done to two grammars, if they list productions of the same names then tutors for
the sorted grammars show the same graphs, with the same ids, and the same table.
-/

namespace Lookahead

open Grammar (Reached)
open Nullability (Marked)

namespace Tutor

variable {g g' e e' : Grammar}

theorem IsGraphOf.of_alike (ha : e.Alike e') (h : e.Standard) (h' : e'.Standard) (hm : Marked e)
    (hm' : Marked e') {phase : GraphPhase} {graph : Graph} (hgraph : IsGraphOf e phase graph) :
    IsGraphOf e' phase graph := by
  cases phase with
  | empty => exact (Graph.nullability_eq_of_alike ha).symm.trans hgraph
  | first => exact (Graph.first_eq_of_alike ha h h' hm hm').symm.trans hgraph
  | follow =>
    obtain ⟨first, hfirst, hfollow⟩ := hgraph
    exact ⟨first, (Graph.first_eq_of_alike ha h h' hm hm').symm.trans hfirst,
      (Graph.follow_eq_of_alike ha h h' hm hm' first).symm.trans hfollow⟩

/-- There are tutors for both grammars. They show the same graph of every step, ids included, and
come to the same table, which lists the same productions up to stamps. -/
def SameLessons (g g' : Grammar) : Prop :=
  ∃ t t', Tutor.ofGrammar g = .ok t ∧ Tutor.ofGrammar g' = .ok t' ∧
    (∀ phase : GraphPhase, ∃ graph u u',
      phaseGraph phase.name t = .ok graph u ∧ phaseGraph phase.name t' = .ok graph u') ∧
    ∃ table table' u u', solveAll t = .ok table u ∧ solveAll t' = .ok table' u' ∧
      table.bare = table'.bare ∧ table.toJson = table'.toJson

section Standard

variable (ha : g.Alike g') (h : g.Standard) (h' : g'.Standard)
include ha h h'

theorem exists_phaseGraph_of_alike (phase : GraphPhase) :
    ∃ graph t t', phaseGraph phase.name { grammar := g } = .ok graph t ∧
      phaseGraph phase.name { grammar := g' } = .ok graph t' := by
  obtain ⟨e, hv, he, hm⟩ := h.exists_marked
  obtain ⟨e', hv', he', hm'⟩ := h'.exists_marked
  obtain ⟨graph, t, hrun, hgraph⟩ := exists_graphOf he hm hv phase
  obtain ⟨graph', t', hrun', hgraph'⟩ := exists_graphOf he' hm' hv' phase
  have hsame := (hgraph.of_alike (ha.varies hv.symm hv'.symm) he he' hm hm').unique hgraph'
  exact ⟨graph, t, t', hrun, hsame ▸ hrun'⟩

theorem exists_solveAll_of_alike :
    ∃ table table' t t', solveAll { grammar := g } = .ok table t ∧
      solveAll { grammar := g' } = .ok table' t' ∧ table.bare = table'.bare := by
  obtain ⟨table, t, hrun, hv, -, hsolved, htable⟩ := exists_solveAll h
  obtain ⟨table', t', hrun', hv', -, hsolved', htable'⟩ := exists_solveAll h'
  have hbare := LookaheadTable.bare_ofGrammar (ha.varies hv hv') (hv.standard h) (hv'.standard h')
    hsolved hsolved'
  rw [htable, htable'] at hbare
  exact ⟨table, table', t, t', hrun, hrun', Except.ok.inj hbare⟩

theorem sameLessons_of_alike : SameLessons g g' := by
  obtain ⟨table, table', u, u', hrun, hrun', hbare⟩ := exists_solveAll_of_alike ha h h'
  refine ⟨_, _, ofGrammar_eq_ok h, ofGrammar_eq_ok h', exists_phaseGraph_of_alike ha h h',
    table, table', u, u', hrun, hrun', hbare, ?_⟩
  rw [← LookaheadTable.toJson_bare, hbare, LookaheadTable.toJson_bare]

end Standard

theorem ofGrammar_eq_error (h : ∀ p ∈ g.productionList, p.left ≠ Symbol.start) :
    Tutor.ofGrammar g = .error (.mistake .noStart) := by
  have hnone : g.startProduction?.isNone = true := by
    simpa [Grammar.startProduction?, List.find?_eq_none] using h
  simp only [Tutor.ofGrammar, hnone]
  rfl

/-- Whatever was done to two grammars, if their productions have the same names, sorting makes
them the same: the lists of productions, nonterminals and terminals in order, the numbers, which
count from 0 on every left side, the reference counts, and with them the graphs and the table. -/
theorem sort_canonical (hg : Reached g) (hg' : Reached g') (hsame : g.SameProductions g') :
    g.sort.Alike g'.sort ∧
      (g.sort.productionList.map Production.name).Perm (g.productionList.map Production.name) ∧
      (∀ left, (g.sort.productionList.filter fun p => p.left.name = left).map Production.number =
        (List.range (g.sort.productionList.countP fun p => p.left.name = left)).map Int.ofNat) ∧
      ((∃ p ∈ g.productionList, p.left = Symbol.start) ∧ SameLessons g.sort g'.sort ∨
        (∀ p ∈ g.productionList, p.left ≠ Symbol.start) ∧
          Tutor.ofGrammar g.sort = .error (.mistake .noStart) ∧
          Tutor.ofGrammar g'.sort = .error (.mistake .noStart)) := by
  have h := hg.consistent
  have h' := hg'.consistent
  have ha := Grammar.alike_sort h.toTidy h'.toTidy hsame
  refine ⟨ha, Grammar.perm_map_sort h.toMade h.toTidy.valid fun _ _ => rfl, h.toTidy.numbers_sort,
    ?_⟩
  by_cases hstart : ∃ p ∈ g.productionList, p.left = Symbol.start
  · refine .inl ⟨hstart, ?_⟩
    have hstart' := Grammar.exists_start h.toTidy h'.toTidy hsame hstart
    have hs : g.Standard := ⟨h.toTidy.lawful, hstart⟩
    have hs' : g'.Standard := ⟨h'.toTidy.lawful, hstart'⟩
    exact sameLessons_of_alike ha hs.sort hs'.sort
  · have hstart' : ¬ ∃ p ∈ g'.productionList, p.left = Symbol.start :=
      fun hs => hstart (Grammar.exists_start h'.toTidy h.toTidy hsame.symm hs)
    have hsort {k : Grammar} (hk : k.Consistent)
        (hno : ¬ ∃ p ∈ k.productionList, p.left = Symbol.start) :
        Tutor.ofGrammar k.sort = .error (.mistake .noStart) := by
      refine ofGrammar_eq_error fun p hp hleft => hno ?_
      obtain ⟨q, hq, -, hleft', -⟩ := hk.toTidy.exists_of_mem_sort hp
      exact ⟨q, hq, hleft'.trans hleft⟩
    exact .inr ⟨fun p hp hleft => hstart ⟨p, hp, hleft⟩, hsort h hstart, hsort h' hstart'⟩

/-- The second grammar takes a detour over another start symbol and a production that goes. -/
theorem sort_canonical_sample : ∃ g g', Reached g ∧ Reached g' ∧
    g.productionList.map Production.name = ["S->A b", "A->ε", "S'->S"] ∧
    g'.productionList.map Production.name = ["A->ε", "S->A b", "S'->S"] ∧
    g.sort.Alike g'.sort ∧ SameLessons g.sort g'.sort := by
  let after (changes : List Grammar.Change) : Grammar := changes.foldl (fun g c => c.left g) {}
  let short := after [.add "S -> A b", .add "A ->", .setStart "S"]
  let long := after [.add "A -> c", .add "A ->", .setStart "A", .add "S -> A b", .setStart "S"]
  let spare : Production := ⟨3, ⟨.nonterminal, "A", 1⟩, [⟨.terminal, "c", 2⟩], -1⟩
  have hshort : Reached short :=
    ((Reached.empty.step (.add "S -> A b") trivial).step (.add "A ->") trivial).step
      (.setStart "S") trivial
  have hlong : Reached long :=
    ((((Reached.empty.step (.add "A -> c") trivial).step (.add "A ->") trivial).step
      (.setStart "A") trivial).step (.add "S -> A b") trivial).step (.setStart "S") trivial
  have hspare : (Grammar.Change.remove spare).Allowed long := by decide +kernel
  have hremoved := hlong.step (.remove spare) hspare
  have hnames : short.productionList.map Production.name = ["S->A b", "A->ε", "S'->S"] := by
    decide +kernel
  have hnames' : ((Grammar.Change.remove spare).left long).productionList.map Production.name =
      ["A->ε", "S->A b", "S'->S"] := by decide +kernel
  have hsame : short.SameProductions ((Grammar.Change.remove spare).left long) := fun name => by
    rw [hnames, hnames']
    simp [or_left_comm]
  obtain ⟨ha, -, -, ⟨-, hlessons⟩ | ⟨hno, -⟩⟩ := sort_canonical hshort hremoved hsame
  · exact ⟨_, _, hshort, hremoved, hnames, hnames', ha, hlessons⟩
  · have hstart : ∃ p ∈ short.productionList, p.left = Symbol.start := by decide +kernel
    obtain ⟨p, hp, hleft⟩ := hstart
    exact absurd hleft (hno p hp)

end Tutor

end Lookahead
