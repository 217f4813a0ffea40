import Lookahead.Proofs.Graph.Refusals
import Lookahead.Proofs.Tutor.Histories
import Lookahead.Proofs.Tutor.Sessions

/-!
# What a refused action leaves

A step can be started, checked or read from while the grammar has become another one than
the steps were made for. The guard of the first step is the only thing that can refuse it. The
follow step is refused behind its guard as well, and then the follow sets are gone already;
and a check of the follow step that meets a nonterminal that is no more has written the sets
before it. Nothing else is ever touched, and in an orderly session without changes from outside
nothing at all.
-/

namespace Lookahead.Tutor

open Nullability (Marked)

variable {g : Grammar} {t t' : Tutor} {f : Fault}

/-! ### The first step -/

/-- Without leaves there is nothing to join, and the step has no groups. -/
theorem exists_firstStart_of_no_leaves (h : g.Lawful) (hempty : Graph.firstLeaves g = []) :
    ∃ graph seeds p, Graph.first g = .ok graph ∧ graph.firstSeeds = .ok seeds ∧
      Propagation.start graph seeds = .ok p := by
  have hlinks : Graph.firstLinks g = [] := by
    refine List.eq_nil_iff_forall_not_mem.mpr fun pair hp => ?_
    have hend := (Graph.ends_of_mem_firstLinks h hp).1.1
    rw [hempty] at hend
    cases hend
  have hfirst : Graph.first g = .ok { phase := "First" } := by
    rw [Graph.first, hempty, hlinks]
    rfl
  exact ⟨_, _, _, hfirst, rfl, rfl⟩

theorem exists_firstStart (h : g.Lawful) : ∃ graph seeds p, Graph.first g = .ok graph ∧
    graph.firstSeeds = .ok seeds ∧ Propagation.start graph seeds = .ok p := by
  by_cases hempty : Graph.firstLeaves g = []
  · exact exists_firstStart_of_no_leaves h hempty
  · obtain ⟨graph, seeds, p, hgraph, hseeds, hp, -⟩ := exists_firstRun h hempty
    exact ⟨graph, seeds, p, hgraph, hseeds, hp⟩

/-- Behind its guard the first step starts, whatever has become of the grammar. -/
theorem exists_startFirst (h : t.grammar.Consistent) (hn : t.nullabilityFinished = true) :
    ∃ p t', startFirst t = .ok p t' := by
  have hc := (sameMarks_clearFirst t.grammar).varies.consistent h
  obtain ⟨graph, seeds, p, hgraph, hseeds, hp⟩ := exists_firstStart hc.toTidy.lawful
  refine ⟨p, { grammar := clearFirst t.grammar, nullability := t.nullability, first := some p }, ?_⟩
  rw [startFirst, Outcome.run_get_bind, Outcome.run_guard_eq_ok]
  refine ⟨by simp [hn], ?_⟩
  simp only [Outcome.run_bind_eq_ok, run_ofExcept_eq_ok]
  exact ⟨(), _, rfl, _, _, rfl, graph, _, ⟨hgraph, rfl⟩, seeds, _, ⟨hseeds, rfl⟩,
    p, _, ⟨hp, rfl⟩, (), _, rfl, rfl⟩

theorem startFirst_eq_error (h : t.grammar.Consistent) : startFirst t = .error f t' ↔
    t.nullabilityFinished = false ∧ f = .mistake .previousStepOpen ∧ t' = t := by
  constructor
  · intro hrun
    cases hn : t.nullabilityFinished with
    | true =>
      obtain ⟨p, t'', hok⟩ := exists_startFirst h hn
      rw [hok] at hrun
      cases hrun
    | false =>
      rw [startFirst_refused hn] at hrun
      cases hrun
      exact ⟨rfl, rfl, rfl⟩
  · rintro ⟨hn, rfl, rfl⟩
    exact startFirst_refused hn

/-! ### The follow step -/

theorem follow_clearFollow (g : Grammar) (s : Symbol) :
    (clearFollow g).follow s = if s ∈ g.allSymbols then {} else g.follow s := by
  suffices hfold : ∀ (symbols : List Symbol) (g : Grammar),
      (symbols.foldl (fun g s => g.setFollow s {}) g).follow s =
        if s ∈ symbols then {} else g.follow s from hfold g.allSymbols g
  intro symbols
  induction symbols with
  | nil => intro g; simp
  | cons r symbols ih =>
    intro g
    rw [List.foldl_cons, ih, Grammar.follow_setFollow]
    by_cases hr : r = s
    · simp [hr]
    · simp [hr, Ne.symm hr]

theorem refollowed_clearFollow (t : Tutor) :
    Refollowed [{}] t { t with grammar := clearFollow t.grammar } where
  nullability := rfl
  first := rfl
  follow := rfl
  grammar := ⟨sameMarks_clearFollow _, first_clearFollow _⟩
  written s := by
    rw [follow_clearFollow]
    split <;> simp

/-- The follow step is refused by its guard, or by what is built once the sets are cleared. -/
theorem startFollow_error (hrun : startFollow t = .error f t') :
    t.setStepFinished .first = false ∧ f = .mistake .previousStepOpen ∧ t' = t ∨
      t.setStepFinished .first = true ∧ ¬f.IsMistake ∧
        t' = { t with grammar := clearFollow t.grammar } := by
  cases hf : t.setStepFinished .first with
  | false =>
    rw [startFollow_refused hf] at hrun
    cases hrun
    exact .inl ⟨rfl, rfl, rfl⟩
  | true =>
    obtain ⟨first, hfirst, hdone⟩ := exists_of_setStepFinished hf
    have hfirst : t.first = some first := hfirst
    rw [startFollow, Outcome.run_get_bind, hfirst] at hrun
    simp only [hdone, Bool.not_true, Bool.false_eq_true, if_false] at hrun
    rcases Outcome.run_bind_eq_error.mp hrun with hclear | ⟨_, _, hclear, hrun⟩
    · cases hclear
    cases hclear
    rw [Outcome.run_get_bind] at hrun
    rcases Outcome.run_bind_eq_error.mp hrun with hgraph | ⟨graph, _, hgraph, hrun⟩
    · obtain ⟨hrefused, rfl⟩ := run_ofExcept_eq_error.mp hgraph
      exact .inr ⟨rfl, Graph.unblaming_follow _ _ f hrefused, rfl⟩
    obtain ⟨-, rfl⟩ := run_ofExcept_eq_ok.mp hgraph
    rcases Outcome.run_bind_eq_error.mp hrun with hseeds | ⟨start, _, hseeds, hrun⟩
    · obtain ⟨hrefused, rfl⟩ := run_ofExcept_eq_error.mp hseeds
      exact .inr ⟨rfl, Graph.unblaming_followSeeds _ _ _ f hrefused, rfl⟩
    obtain ⟨-, rfl⟩ := run_ofExcept_eq_ok.mp hseeds
    rcases Outcome.run_bind_eq_error.mp hrun with hstep | ⟨step, _, hstep, hrun⟩
    · obtain ⟨hrefused, rfl⟩ := run_ofExcept_eq_error.mp hstep
      exact .inr ⟨rfl, Propagation.unblaming_start _ _ _ f hrefused, rfl⟩
    -- once the step is built nothing is refused any more
    cases hrun

/-- What is refused while the follow step is built leaves the cleared sets behind. -/
theorem startFollow_of_not_built {first : Propagation} (hfirst : t.first = some first)
    (hdone : first.finished = true)
    (hgraph : Graph.follow (clearFollow t.grammar) first.graph = .error f) :
    startFollow t = .error f { t with grammar := clearFollow t.grammar } := by
  obtain ⟨grammar, nullability, step, follow⟩ := t
  obtain rfl : step = some first := hfirst
  rw [startFollow, Outcome.run_get_bind]
  simp only [hdone, Bool.not_true, Bool.false_eq_true, if_false]
  refine Outcome.run_bind_eq_error.mpr (.inr ⟨(), _, rfl, ?_⟩)
  rw [Outcome.run_get_bind, Outcome.run_bind_eq_error, run_ofExcept_eq_error]
  exact .inl ⟨hgraph, rfl⟩

/-! ### Checks and tables -/

theorem checkSets_error {kind : SetKind} {p : Propagation}
    (hrun : checkSets kind p t = .error f t') :
    t' = t ∨ kind = .follow ∧ (∃ label, f = .breach (.leafNotNonterminal label)) ∧
      Refollowed (setsOf p) t t' := by
  rcases Outcome.run_bind_eq_error.mp hrun with hcheck | ⟨verdict, _, hcheck, hrun⟩
  · exact .inl (run_ofExcept_eq_error.mp hcheck).2.symm
  obtain ⟨-, rfl⟩ := run_ofExcept_eq_ok.mp hcheck
  split at hrun
  · rcases Outcome.run_bind_eq_error.mp hrun with hcommit | ⟨_, _, _, hrun⟩
    · cases kind with
      | first => cases hcommit
      | follow =>
        obtain ⟨t'', hwritten, hok | ⟨label, herror⟩⟩ := writes_commit p t
        · rw [hok] at hcommit
          cases hcommit
        · rw [herror] at hcommit
          cases hcommit
          exact .inr ⟨rfl, ⟨label, rfl⟩, hwritten⟩
    · cases hrun
  · cases hrun

theorem table_error (hrun : table t = .error f t') : t' = t := by
  rw [table, Outcome.run_get_bind] at hrun
  split at hrun
  · rcases Outcome.run_bind_eq_error.mp hrun with hthrow | ⟨_, _, hthrow, -⟩
    · cases hthrow
      rfl
    · cases hthrow
  · exact (run_ofExcept_eq_error.mp hrun).2.symm

/-! ### Sessions without changes from outside -/

/-- In an orderly session the follow step is refused by its guard only and no check is refused. -/
theorem kept_of_orderly (hg : g.FromText) {t₀ : Tutor} (ht : Tutor.ofGrammar g = .ok t₀)
    {ops : List Operation} (ho : t₀.Orderly ops) (hmarked : Marked (t₀.run ops).grammar) :
    (∀ f t', startFollow (t₀.run ops) = .error f t' → t' = t₀.run ops) ∧
      ∀ kind p, (t₀.run ops).setStep kind = some p →
        ∃ verdict t', checkSets kind p (t₀.run ops) = .ok verdict t' := by
  obtain ⟨e, -, he, hm, -, hc⟩ := exists_coherent_run hg.standard ht ho
  refine ⟨fun f t' hrun => ?_, fun kind p hp => ?_⟩
  · cases hf : (t₀.run ops).setStepFinished .first with
    | false =>
      rw [startFollow_refused hf] at hrun
      cases hrun
      rfl
    | true =>
      obtain ⟨p, t'', hok, -⟩ := startFollow_spec he hm hc hmarked hf
      rw [hok] at hrun
      cases hrun
  · obtain ⟨verdict, t', hok, -⟩ := checkSets_spec he hm hc hp
    exact ⟨verdict, t', hok⟩

namespace Sample

def root : Production := { stamp := 4, left := Symbol.start, right := [s] }

/-- All steps are solved, and then the start production of `S -> a` is removed. -/
def uproot (t : Tutor) : Tutor := left (edit (Grammar.Change.remove root).perform) (t.run [.solveAll])

theorem exists_uprooted : ∃ g t first, Grammar.ofText "S -> a" = .ok g ∧
    Tutor.ofGrammar g = .ok t ∧ Reached (uproot t) ∧ (uproot t).first = some first ∧
      first.finished = true ∧
      Graph.follow (clearFollow (uproot t).grammar) first.graph = .error (.breach .noStartLeaf) ∧
      s ∈ (uproot t).grammar.nonterminalList ∧ (uproot t).grammar.follow s = .ofList ["$"] := by
  have hread : (Grammar.ofText "S -> a").toOption.any (fun g =>
      (Tutor.ofGrammar g).toOption.any fun t =>
        decide (root ∈ (t.run [.solveAll]).grammar.productionList) &&
          (uproot t).first.any (fun first => first.finished &&
            decide (Graph.follow (clearFollow (uproot t).grammar) first.graph =
              .error (.breach .noStartLeaf))) &&
          decide (s ∈ (uproot t).grammar.nonterminalList ∧
            (uproot t).grammar.follow s = .ofList ["$"])) = true := by decide +kernel
  obtain ⟨g, hg, hread⟩ := Option.any_eq_true _ _ |>.mp hread
  obtain ⟨t, ht, hread⟩ := Option.any_eq_true _ _ |>.mp hread
  simp only [Bool.and_eq_true, decide_eq_true_eq, Option.any_eq_true] at hread
  obtain ⟨⟨hroot, first, hfirst, hdone, hfollow⟩, hs, hset⟩ := hread
  have hg := Outcome.eq_ok_of_toOption hg
  have ht := Outcome.eq_ok_of_toOption ht
  have hsolved : Reached (t.run [.solveAll]) := (Reached.new (.text hg) ht).run _
  exact ⟨g, t, first, hg, ht, hsolved.change (.remove root) hroot, hfirst, hdone, hfollow, hs, hset⟩

end Sample

/-- In every state that operations and changes of the grammar lead to, a refused action keeps the
steps, the marks and the first sets, and it keeps the follow sets too if it is a mistake of the
user, if it does not concern the follow step, or if the session was orderly and the grammar was
not changed from outside. A start of the follow step that is refused for anything else has
cleared the follow sets, and a check of the follow step that is refused for a leaf may have
written some of its sets. -/
theorem kept_of_refused (ht : Reached t) :
    (∀ f t', startFirst t = .error f t' ↔
      t.nullabilityFinished = false ∧ f = .mistake .previousStepOpen ∧ t' = t) ∧
    (∀ f t', table t = .error f t' → t' = t) ∧
    (∀ f t', startFollow t = .error f t' →
      t.setStepFinished .first = false ∧ f = .mistake .previousStepOpen ∧ t' = t ∨
        t.setStepFinished .first = true ∧ ¬f.IsMistake ∧ Refollowed [{}] t t' ∧
          ∀ s ∈ t.grammar.allSymbols, t'.grammar.follow s = {}) ∧
    (∀ kind p f t', checkSets kind p t = .error f t' →
      t' = t ∨ kind = .follow ∧ (∃ label, f = .breach (.leafNotNonterminal label)) ∧
        Refollowed (setsOf p) t t') ∧
    ∀ g t₀ ops, g.FromText → Tutor.ofGrammar g = .ok t₀ → t₀.Orderly ops → t = t₀.run ops →
      Marked t.grammar →
      (∀ f t', startFollow t = .error f t' → t' = t) ∧
        ∀ kind p, t.setStep kind = some p → ∃ verdict t', checkSets kind p t = .ok verdict t' := by
  refine ⟨fun f t' => startFirst_eq_error ht.consistent, fun f t' => table_error,
    fun f t' hrun => (startFollow_error hrun).imp_right ?_, fun kind p f t' => checkSets_error, ?_⟩
  · rintro ⟨hdone, hf, rfl⟩
    refine ⟨hdone, hf, refollowed_clearFollow t, fun s hs => ?_⟩
    rw [follow_clearFollow, if_pos hs]
  · rintro g t₀ ops hg ht₀ ho rfl hmarked
    exact kept_of_orderly hg ht₀ ho hmarked

/-- The follow step of `S -> a` is refused for want of a start production. -/
theorem kept_of_refused_sample : ∃ g t t', Grammar.ofText "S -> a" = .ok g ∧
    Tutor.ofGrammar g = .ok t ∧ Reached (Sample.uproot t) ∧
      startFollow (Sample.uproot t) = .error (.breach .noStartLeaf) t' ∧
      Refollowed [{}] (Sample.uproot t) t' := by
  obtain ⟨g, t, first, hg, ht, hreached, hfirst, hdone, hfollow, -⟩ := Sample.exists_uprooted
  have hrun := startFollow_of_not_built hfirst hdone hfollow
  refine ⟨g, t, _, hg, ht, hreached, hrun, ?_⟩
  obtain ⟨-, -, hkept, -⟩ := kept_of_refused hreached
  rcases hkept _ _ hrun with ⟨-, hguard, -⟩ | ⟨-, -, hkept, -⟩
  · cases hguard
  · exact hkept

/-- The follow set of `S` was there before the follow step was refused, and then it is gone. -/
theorem follow_lost_by_refusal : ∃ g t t', Grammar.ofText "S -> a" = .ok g ∧
    Tutor.ofGrammar g = .ok t ∧ Reached (Sample.uproot t) ∧
      startFollow (Sample.uproot t) = .error (.breach .noStartLeaf) t' ∧
      Sample.s ∈ (Sample.uproot t).grammar.nonterminalList ∧
      (Sample.uproot t).grammar.follow Sample.s = .ofList ["$"] ∧
      t'.grammar.follow Sample.s = {} := by
  obtain ⟨g, t, first, hg, ht, hreached, hfirst, hdone, hfollow, hs, hset⟩ :=
    Sample.exists_uprooted
  have hmem : Sample.s ∈ (Sample.uproot t).grammar.allSymbols := by
    simp [Grammar.allSymbols, hs]
  refine ⟨g, t, _, hg, ht, hreached, startFollow_of_not_built hfirst hdone hfollow, hs, hset, ?_⟩
  rw [follow_clearFollow, if_pos hmem]

end Lookahead.Tutor
