import Lookahead.Grammar.Load
import Lookahead.Proofs.Leftmost
import Lookahead.Proofs.Tutor.Operations

/-!
# What solving all steps finds

For every grammar that was read from a text, solving all steps gives a table and leaves the
findings of the derivations. The table guides every leftmost derivation, so it has a conflict
wherever a word could be derived in two ways.
-/

namespace Lookahead

open Nullability (Marked Exact)

namespace Grammar

variable {g g' : Grammar}

/-- The rounds find a form of the grammar with right marks. -/
theorem Standard.exists_marked (h : g.Standard) : ∃ e, e.Varies g ∧ e.Standard ∧ Marked e := by
  obtain ⟨hv, hs, hm⟩ := Nullability.solved_spec h
  exact ⟨_, hv.symm, hs, hm⟩

/-- If all nonterminals are reached from the start marker, what follows does so in a form derived
from it. -/
theorem follows_iff_of_reached (h : g.Standard) {x s : Symbol}
    (hreach : ∀ r ∈ g.nonterminalList, ∃ u v, Derives g.productionList [Symbol.start] (u ++ r :: v)) :
    Follows g.productionList g.nonterminalList x s ↔
      Follows g.productionList [Symbol.start] x s := by
  constructor
  · rintro ⟨root, hroot, u, v, hderives⟩
    obtain ⟨y, z, hstart⟩ := hreach root hroot
    refine ⟨Symbol.start, List.mem_singleton_self _, y ++ u, v ++ z, ?_⟩
    have hwithin := (hderives.append_left y).append_right z
    simpa using hstart.trans (by simpa using hwithin)
  · rintro ⟨_, hroot, hderives⟩
    exact ⟨_, List.mem_singleton.mp hroot ▸ h.start_mem, hderives⟩

end Grammar

namespace Tutor

variable {e g : Grammar} {t : Tutor}

theorem ofGrammar_eq_ok (h : g.Standard) : Tutor.ofGrammar g = .ok { grammar := g } := by
  obtain ⟨p, hp, hleft⟩ := h.start
  have hstart : g.startProduction?.isSome = true :=
    List.find?_isSome.mpr ⟨p, hp, by simpa using hleft⟩
  have hnone : g.startProduction?.isNone = false := by
    rw [← Option.not_isSome, hstart]
    rfl
  have hvalid := Grammar.validate_eq_ok_iff.mpr h.valid
  simp only [Tutor.ofGrammar, hnone, hvalid]
  rfl

/-- All steps of a new tutor can be solved. -/
theorem exists_solveAll (h : g.Standard) : ∃ table t', solveAll { grammar := g } = .ok table t' ∧
    g.Varies t'.grammar ∧ Exact t'.grammar ∧ t'.grammar.Solved ∧
      LookaheadTable.ofGrammar t'.grammar = .ok table := by
  obtain ⟨e, hv, he, hm⟩ := h.exists_marked
  obtain ⟨table, t', hrun, hc, hn, hf, htable⟩ := solveAll_spec he hm (Coherent.ofGrammar hv)
  have hexact := hc.exact he hn
  exact ⟨table, t', hrun, hv.symm.trans hc.varies, hexact, hc.solved hexact.toMarked hf, htable⟩

/-! ### A grammar with a nonterminal that vanishes -/

namespace Sample

def text : String := "S -> A b\nA ->"

def s : Symbol := ⟨.nonterminal, "S", 1⟩

def a : Symbol := ⟨.nonterminal, "A", 2⟩

def b : Symbol := ⟨.terminal, "b", 3⟩

def long : Production := { stamp := 4, left := s, right := [a, b] }

def empty : Production := { stamp := 5, left := a, right := [Symbol.epsilon] }

def start : Production := { stamp := 6, left := Symbol.start, right := [s] }

theorem exists_grammar : ∃ g, Grammar.ofText text = .ok g ∧
    g.nonterminalList = [s, a, Symbol.start] ∧ g.terminalList = [b] ∧
    g.productionList = [long, empty, start] := by
  have hread : (Grammar.ofText text).toOption.map (fun g =>
      (g.nonterminalList, g.terminalList, g.productionList)) =
      some ([s, a, Symbol.start], [b], [long, empty, start]) := by decide +kernel
  cases hg : Grammar.ofText text with
  | error f => simp [hg, Except.toOption] at hread
  | ok g =>
    simp only [hg, Except.toOption, Option.map_some, Option.some.injEq, Prod.mk.injEq] at hread
    exact ⟨g, rfl, hread⟩

theorem vanishes_a : Vanishes [long, empty, start] [a] :=
  Derives.of_rule (p := empty) (by simp)

theorem derives_s : Derives [long, empty, start] [s] [a, b] :=
  Derives.of_rule (p := long) (by simp)

end Sample

/-! ### Findings -/

/-- Solving all steps is not refused, and it finds what the derivations say: the nonterminals and
the bodies that vanish, the first sets, and the follow sets, which are those of the start marker
if all nonterminals are reached from it. -/
theorem solveAll_findings (hg : g.FromText) :
    ∃ t table t', Tutor.ofGrammar g = .ok t ∧ solveAll t = .ok table t' ∧
      g.Varies t'.grammar ∧
      (∀ s ∈ g.nonterminalList,
        (t'.grammar.nullable s = true ↔ Vanishes g.productionList [s]) ∧
        (∀ x, x ∈ t'.grammar.first s ↔
          ∃ a ∈ g.terminalList, a.name = x ∧ Begins g.productionList a [s]) ∧
        ∀ x, x ∈ t'.grammar.follow s ↔
          (∃ a ∈ g.terminalList, a.name = x ∧ Follows g.productionList g.nonterminalList a s) ∨
            x = Symbol.endOfInput.name ∧ EndsWith g.productionList Symbol.start s) ∧
      (∀ a ∈ g.terminalList,
        t'.grammar.nullable a = false ∧ t'.grammar.first a = NameSet.ofList [a.name]) ∧
      (∀ p ∈ g.productionList,
        t'.grammar.emptiable p = true ↔ Vanishes g.productionList p.body) ∧
      ((∀ r ∈ g.nonterminalList,
          ∃ u v, Derives g.productionList [Symbol.start] (u ++ r :: v)) →
        ∀ s ∈ g.nonterminalList, ∀ x, x ∈ t'.grammar.follow s ↔
          (∃ a ∈ g.terminalList, a.name = x ∧ Follows g.productionList [Symbol.start] a s) ∨
            x = Symbol.endOfInput.name ∧ EndsWith g.productionList Symbol.start s) := by
  have h := hg.standard
  obtain ⟨table, t', hrun, hv, hexact, hsolved, -⟩ := exists_solveAll h
  have hnullable := hexact.nullable
  have hemptiable := hexact.emptiable
  have hfirst := hsolved.first
  have hfollow := hsolved.follow
  obtain ⟨found, emptying, hgrammar⟩ := hv
  rw [hgrammar] at hnullable hemptiable hfirst hfollow
  refine ⟨_, table, t', ofGrammar_eq_ok h, hrun, ⟨found, emptying, hgrammar⟩, ?_⟩
  rw [hgrammar]
  refine ⟨fun s hs => ⟨hnullable s (.inl hs), hfirst s (.inl hs), hfollow s hs⟩,
    fun a ha => ⟨?_, ?_⟩, hemptiable, fun hreach s hs x => ?_⟩
  · rw [← Bool.not_eq_true, hnullable a (.inr ha)]
    exact h.not_vanishes_terminal ha
  · refine NameSet.ext_mem fun x => ?_
    rw [hfirst a (.inr ha) x, NameSet.mem_ofList, List.mem_singleton]
    exact Grammar.firstOf_terminal h ha
  · rw [hfollow s hs x]
    exact or_congr_left (exists_congr fun a => and_congr_right fun _ => and_congr_right fun _ =>
      Grammar.follows_iff_of_reached h hreach)

theorem solveAll_findings_sample : ∃ g t table t', Grammar.ofText Sample.text = .ok g ∧
    Tutor.ofGrammar g = .ok t ∧ solveAll t = .ok table t' ∧
      t'.grammar.nullable Sample.a = true ∧ "b" ∈ t'.grammar.follow Sample.a := by
  obtain ⟨g, hg, hnonterminals, hterminals, hproductions⟩ := Sample.exists_grammar
  obtain ⟨t, table, t', ht, hrun, -, hfound, -⟩ := solveAll_findings ⟨_, g, hg, .inl rfl⟩
  obtain ⟨hnullable, -, hfollow⟩ := hfound Sample.a (by simp [hnonterminals])
  refine ⟨g, t, table, t', hg, ht, hrun, hnullable.mpr ?_, (hfollow "b").mpr (.inl ?_)⟩
  · rw [hproductions]
    exact Sample.vanishes_a
  · refine ⟨Sample.b, by simp [hterminals], rfl, Sample.s, by simp [hnonterminals], [], [], ?_⟩
    rw [hproductions]
    exact Sample.derives_s

/-! ### The table -/

/-- The table lists every production, once and in the order of the grammar, where words derived
from its body begin and, if the body can vanish, where its left side is followed. The production
of every step of a leftmost derivation is listed under the next symbol of the word, and if no cell
lists two productions no word has two leftmost derivations. -/
theorem solveAll_table (hg : g.FromText) :
    ∃ t table t', Tutor.ofGrammar g = .ok t ∧ solveAll t = .ok table t' ∧
      table.rows = g.nonterminalList.map Symbol.name ∧
      table.columns = g.terminalList.map Symbol.name ++ [Symbol.endOfInput.name] ∧
      (∀ s ∈ g.nonterminalList, ∀ x ∈ table.columns, ∃ listed,
        table.cell? s.name x = some listed ∧ listed.Sublist g.productionList ∧ listed.Nodup ∧
        ∀ p, p ∈ listed ↔ p ∈ g.productionList ∧ p.left = s ∧
          ((∃ a ∈ g.terminalList, a.name = x ∧ Begins g.productionList a p.body) ∨
            Vanishes g.productionList p.body ∧ g.FollowOf s x)) ∧
      (∀ w ps, (∀ a ∈ w, a.isTerminal = true) →
        Leftmost g.productionList [Symbol.start] ps w →
        ∀ done p after, ps = done ++ p :: after → ∃ matched rest remaining,
          (∀ a ∈ matched, a.isTerminal = true) ∧ w = matched ++ remaining ∧
          Leftmost g.productionList [Symbol.start] done (matched ++ p.left :: rest) ∧
          Leftmost g.productionList (matched ++ p.left :: rest) (p :: after) w ∧
          ∃ listed, table.cell? p.left.name (nextName remaining) = some listed ∧ p ∈ listed) ∧
      (table.isLL1 = true → ∀ w ps qs, (∀ a ∈ w, a.isTerminal = true) →
        Leftmost g.productionList [Symbol.start] ps w →
        Leftmost g.productionList [Symbol.start] qs w → ps = qs) := by
  have h := hg.standard
  obtain ⟨table, t', hrun, hv, hexact, hsolved, htable⟩ := exists_solveAll h
  have h' := hv.standard h
  obtain ⟨_, htable', hrows, hcolumns, hlists⟩ := LookaheadTable.ofGrammar_spec h'
  obtain rfl := Except.ok.inj (htable.symm.trans htable')
  obtain ⟨found, emptying, hgrammar⟩ := hv
  rw [hgrammar] at h' hsolved hrows hcolumns hlists
  refine ⟨_, table, t', ofGrammar_eq_ok h, hrun, hrows, ?_, fun s hs x hx => ?_, ?_, ?_⟩
  · rw [hcolumns, Grammar.followSymbols, List.map_append]
    rfl
  · have hr : s.name ∈ table.rows := hrows ▸ List.mem_map_of_mem hs
    refine ⟨_, hlists.cell?_eq hr hx, List.filter_sublist, h.nodup_productionList.filter _,
      fun p => ?_⟩
    rw [List.mem_filter, decide_eq_true_iff]
    refine and_congr_right fun hp => ?_
    have hleft : p.left.name = s.name ↔ p.left = s :=
      ⟨h.eq_of_name_eq (.inl (h.left_mem hp)) (.inl hs), congrArg Symbol.name⟩
    rw [hleft]
    refine and_congr_right fun he => ?_
    rw [Grammar.mem_lookahead_iff h' hsolved hp, ← he]
    exact and_iff_right hx
  · intro w ps hw hps done p after hsplit
    obtain ⟨form, hdone, hstep⟩ := (hsplit ▸ hps).split
    obtain ⟨matched, rest, hm, rfl⟩ := hstep.exists_form
    obtain ⟨remaining, rfl, hr, hc, hmem⟩ :=
      Leftmost.mem_cell h' hsolved hrows hcolumns hlists hw hm hdone.derives hstep
    refine ⟨matched, rest, remaining, hm, rfl, hdone, hstep, _, hlists.cell?_eq hr hc, ?_⟩
    rwa [LookaheadTable.content, hlists.cell?_eq hr hc] at hmem
  · intro hll w ps qs hw hps hqs
    exact Leftmost.eq_of_isLL1 h' hsolved hrows hcolumns hlists hll hw (.refl _) hps hqs

theorem solveAll_table_sample : ∃ g t table t', Grammar.ofText Sample.text = .ok g ∧
    Tutor.ofGrammar g = .ok t ∧ solveAll t = .ok table t' ∧
      ∃ listed, table.cell? "S" "b" = some listed ∧ Sample.long ∈ listed := by
  obtain ⟨g, hg, hnonterminals, hterminals, hproductions⟩ := Sample.exists_grammar
  obtain ⟨t, table, t', ht, hrun, -, hcolumns, hcells, -⟩ := solveAll_table ⟨_, g, hg, .inl rfl⟩
  obtain ⟨listed, hcell, -, -, hlisted⟩ := hcells Sample.s (by simp [hnonterminals]) "b"
    (by simp [hcolumns, hterminals, Sample.b])
  refine ⟨g, t, table, t', hg, ht, hrun, listed, hcell, (hlisted Sample.long).mpr ?_⟩
  refine ⟨by simp [hproductions], rfl, .inl ⟨Sample.b, by simp [hterminals], rfl, [], ?_⟩⟩
  rw [hproductions]
  exact Derives.append_right Sample.vanishes_a [Sample.b]

end Tutor

end Lookahead
