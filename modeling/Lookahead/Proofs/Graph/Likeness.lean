import Lookahead.Proofs.Graph.Agreement
import Lookahead.Proofs.Likeness

/-!
# Graphs of alike grammars

The graph of a step is made of names in the order of the lists, and of the marks that are
right. So the graphs of alike grammars are the same, down to the ids of nodes and edges.
-/

namespace Lookahead

open Nullability (Marked)

variable {g g' : Grammar}

theorem all_eq_of_bare {test test' : Symbol → Bool} {u v : List Symbol}
    (h : u.map Symbol.bare = v.map Symbol.bare)
    (htest : ∀ s ∈ u, ∀ t ∈ v, s.bare = t.bare → test s = test' t) : u.all test = v.all test' := by
  simpa [Function.comp_def] using congrArg (List.all · id) (map_eq_of_map_eq h htest)

namespace Graph

theorem takeThrough_bare {stop stop' : Symbol → Bool} {u v : List Symbol}
    (h : u.map Symbol.bare = v.map Symbol.bare)
    (hstop : ∀ s ∈ u, ∀ t ∈ v, s.bare = t.bare → stop s = stop' t) :
    (takeThrough stop u).map Symbol.bare = (takeThrough stop' v).map Symbol.bare := by
  induction u generalizing v with
  | nil => rw [List.map_eq_nil_iff.mp h.symm]; rfl
  | cons s u ih =>
    obtain ⟨t, v, rfl, hst, hrest⟩ := List.map_eq_cons_iff.mp h.symm
    have hmore := ih hrest.symm fun s hs t ht =>
      hstop s (List.mem_cons_of_mem _ hs) t (List.mem_cons_of_mem _ ht)
    rw [takeThrough, takeThrough,
      ← hstop s (List.mem_cons_self ..) t (List.mem_cons_self ..) hst.symm]
    split
    · simp [hst]
    · simp [hst, hmore]

theorem followLinksOf_bare {left left' : Symbol} {u v : List Symbol}
    (hleft : left.bare = left'.bare) (h : u.map Symbol.bare = v.map Symbol.bare)
    (hnullable : ∀ s ∈ u, ∀ t ∈ v, s.bare = t.bare → g.nullable s = g'.nullable t) :
    followLinksOf g left u = followLinksOf g' left' v := by
  induction u generalizing v with
  | nil => rw [List.map_eq_nil_iff.mp h.symm]; rfl
  | cons s u ih =>
    obtain ⟨t, v, rfl, hst, hrest⟩ := List.map_eq_cons_iff.mp h.symm
    obtain ⟨hkind, hname⟩ := Symbol.bare_eq_iff.mp hst
    have hmarks : ∀ s ∈ u, ∀ t ∈ v, s.bare = t.bare → g.nullable s = g'.nullable t :=
      fun s hs t ht => hnullable s (List.mem_cons_of_mem _ hs) t (List.mem_cons_of_mem _ ht)
    have htake : ((takeThrough (fun y => !g.nullable y) u).map fun y : Symbol =>
        (Naming.carried y.name, Naming.followLeaf s.name)) =
        (takeThrough (fun y => !g'.nullable y) v).map fun y : Symbol =>
          (Naming.carried y.name, Naming.followLeaf s.name) :=
      map_eq_of_bare (fun _ => rfl) (takeThrough_bare hrest.symm fun s hs t ht he => by
        rw [hmarks s hs t ht he])
    have hall : u.all g.nullable = v.all g'.nullable := all_eq_of_bare hrest.symm hmarks
    have hnonterminal : t.isNonterminal = s.isNonterminal := by
      rw [Symbol.isNonterminal, Symbol.isNonterminal, hkind]
    rw [followLinksOf, followLinksOf, contributions, contributions, ih hrest.symm hmarks, htake,
      hall, hnonterminal, hname, (Symbol.bare_eq_iff.mp hleft).2]

section Alike

variable (ha : g.Alike g')
include ha

/-- The empty word is used equally often. -/
theorem references_epsilon_eq :
    g.references Symbol.epsilon = g'.references Symbol.epsilon :=
  (List.cons.inj ha.references).1

theorem nullability_eq_of_alike : nullability g = nullability g' := by
  have hsymbols : g.nullabilitySymbols.map Symbol.name = g'.nullabilitySymbols.map Symbol.name := by
    refine map_eq_of_bare (fun _ => rfl) ?_
    rw [Grammar.nullabilitySymbols, Grammar.nullabilitySymbols, references_epsilon_eq ha]
    simp only [List.map_append, ha.nonterminals, ha.terminals]
  have hlinks : nullabilityLinks g = nullabilityLinks g' := by
    refine flatMap_eq_of_map_eq ha.productions fun p _ q _ he => ?_
    have hleft : p.left.name = q.left.name := congrArg (fun p => p.left.name) he
    rw [hleft]
    exact map_eq_of_bare (fun _ => rfl) (congrArg Production.right he)
  rw [nullability, nullability, hsymbols, hlinks]

theorem firstLeaves_eq_of_alike : firstLeaves g = firstLeaves g' := by
  have hterminals : g.terminalList.map Symbol.name = g'.terminalList.map Symbol.name :=
    map_eq_of_bare (fun _ => rfl) ha.terminals
  have hnonterminals : g.nonterminalList.map Symbol.name = g'.nonterminalList.map Symbol.name :=
    map_eq_of_bare (fun _ => rfl) ha.nonterminals
  have hwraps : (g.terminalList.map fun t => Naming.terminalLeaf t.name) =
      g'.terminalList.map fun t => Naming.terminalLeaf t.name :=
    map_eq_of_bare (fun _ => rfl) ha.terminals
  rw [firstLeaves, firstLeaves, hterminals, hnonterminals, hwraps, references_epsilon_eq ha]

variable (h : g.Standard) (h' : g'.Standard) (hm : Marked g) (hm' : Marked g')
include h h' hm hm'

theorem nullable_eq_on_rights {p q : Production} (hp : p ∈ g.productionList)
    (hq : q ∈ g'.productionList) {s t : Symbol} (hs : s ∈ p.right) (ht : t ∈ q.right)
    (he : s.bare = t.bare) : g.nullable s = g'.nullable t :=
  ha.nullable_eq h h' hm hm' (h.epsilon_or_registered hp hs) (h'.epsilon_or_registered hq ht) he

theorem first_eq_of_alike : first g = first g' := by
  have hwraps : (g.terminalList.map fun t => (Naming.terminalLeaf t.name, t.name)) =
      g'.terminalList.map fun t => (Naming.terminalLeaf t.name, t.name) :=
    map_eq_of_bare (fun _ => rfl) ha.terminals
  have hlinks : firstLinks g = firstLinks g' := by
    rw [firstLinks, firstLinks, hwraps]
    refine congrArg _ (flatMap_eq_of_map_eq ha.productions fun p hp q hq he => ?_)
    have hleft : p.left.name = q.left.name := congrArg (fun p => p.left.name) he
    rw [hleft]
    refine map_eq_of_bare (fun _ => rfl)
      (takeThrough_bare (congrArg Production.right he) fun s hs t ht hst => ?_)
    rw [nullable_eq_on_rights ha h h' hm hm' hp hq hs ht hst, Symbol.isEpsilon, Symbol.isEpsilon,
      (Symbol.bare_eq_iff.mp hst).1]
  simp only [first, hlinks, firstLeaves_eq_of_alike ha]

theorem follow_eq_of_alike (carriedOver : Graph) : follow g carriedOver = follow g' carriedOver := by
  have hlinks : followLinks g = followLinks g' := by
    refine flatMap_eq_of_map_eq ha.productions fun p hp q hq he => ?_
    rw [Grammar.isEpsilon_eq_of_bare he, followLinksOf_bare (congrArg Production.left he)
      (congrArg Production.right he) fun s hs t ht hst =>
        nullable_eq_on_rights ha h h' hm hm' hp hq hs ht hst]
  have hleaves : (g.nonterminalList.map fun n => Naming.followLeaf n.name) =
      g'.nonterminalList.map fun n => Naming.followLeaf n.name :=
    map_eq_of_bare (fun _ => rfl) ha.nonterminals
  simp only [follow, hlinks, hleaves]

end Alike

end Graph

end Lookahead
