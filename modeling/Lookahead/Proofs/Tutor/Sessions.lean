import Lookahead.Proofs.Tutor.SolveAll

/-!
# Sessions

What holds in every state that a user can bring a tutor to, by operations in any order and
refused ones among them. The sets of a started step never get ahead of what was clicked, so
only the final sets pass its check; and tables and graphs are those of a new tutor. Both need
the follow step to be started from right marks: a nullability step that is taken back clears
the marks and leaves the steps behind it as they are, so a table that is read then is not the
table of the grammar.
-/

namespace Lookahead.Tutor

open Nullability (Marked)

variable {e g : Grammar} {t : Tutor}

/-- The follow step is started only while the marks are right, as they are behind a finished
nullability step. -/
def Orderly : Tutor → List Operation → Prop
  | _, [] => True
  | t, op :: ops =>
    (op = .startFollow → t.setStepFinished .first = true → Marked t.grammar) ∧
      Orderly (left (perform op) t) ops

theorem run_cons (t : Tutor) (op : Operation) (ops : List Operation) :
    t.run (op :: ops) = (left (perform op) t).run ops := rfl

/-- The run lemma. -/
theorem Coherent.run (hc : Coherent e t) (h : e.Standard) (hm : Marked e) {ops : List Operation}
    (ho : t.Orderly ops) : Coherent e (t.run ops) := by
  induction ops generalizing t with
  | nil => exact hc
  | cons op ops ih =>
    rw [run_cons]
    exact ih (hc.perform h hm op ho.1) ho.2

/-- A tutor is coherent after every orderly session. -/
theorem exists_coherent_run (h : g.Standard) (ht : Tutor.ofGrammar g = .ok t)
    {ops : List Operation} (ho : t.Orderly ops) :
    ∃ e, e.Varies g ∧ e.Standard ∧ Marked e ∧ t = { grammar := g } ∧ Coherent e (t.run ops) := by
  obtain rfl := Except.ok.inj ((ofGrammar_eq_ok h).symm.trans ht)
  obtain ⟨e, hv, he, hm⟩ := h.exists_marked
  exact ⟨e, hv, he, hm, rfl, (Coherent.ofGrammar hv).run he hm ho⟩

/-! ### Tables and graphs -/

/-- In every orderly session a table that is read with right marks is the one of a new tutor in
which all steps are solved, and the graph of a step is the one that a new tutor gives. -/
theorem table_eq_and_phaseGraph_eq (hg : g.FromText) (ht : Tutor.ofGrammar g = .ok t)
    (ops : List Operation) (ho : t.Orderly ops) :
    (Marked (t.run ops).grammar → ∀ table t', Tutor.table (t.run ops) = .ok table t' →
      ∃ fresh, solveAll t = .ok table fresh) ∧
    ∀ name graph t', phaseGraph name (t.run ops) = .ok graph t' →
      ∃ fresh, phaseGraph name t = .ok graph fresh := by
  have h := hg.standard
  obtain ⟨e, hv, he, hm, rfl, hc⟩ := exists_coherent_run h ht ho
  refine ⟨fun hmarked table t' hrun => ?_, fun name graph t' hrun => ?_⟩
  · obtain ⟨hf, htable, -⟩ := table_eq_ok.mp hrun
    obtain ⟨table', fresh, hsolve, hv', -, hsolved', htable'⟩ := exists_solveAll h
    have hsame := Grammar.ofGrammar_eq_of_solved (hv'.standard h) hsolved'
      (hv'.symm.trans (hv.symm.trans hc.varies)) (hc.solved hmarked hf)
    rw [htable, htable'] at hsame
    exact ⟨fresh, Except.ok.inj hsame ▸ hsolve⟩
  · have hfresh := phaseGraph_spec he hm (Coherent.ofGrammar hv) name
    have hlater := phaseGraph_spec he hm hc name
    cases hname : GraphPhase.ofName? (Text.lower name) with
    | none =>
      rw [phaseGraph, hname] at hrun
      obtain ⟨_, _, -, hthrow⟩ := Outcome.run_bind_eq_ok.mp hrun
      exact (Outcome.run_throw_eq_ok.mp hthrow).elim
    | some phase =>
      obtain ⟨graph₁, t₁, hrun₁, hgraph₁⟩ := hlater.2 phase hname
      obtain ⟨graph₂, t₂, hrun₂, hgraph₂⟩ := hfresh.2 phase hname
      rw [hrun₁] at hrun
      cases hrun
      exact ⟨t₂, hgraph₂.unique hgraph₁ ▸ hrun₂⟩

theorem left_solveAll {table : LookaheadTable} {t' : Tutor} (h : solveAll t = .ok table t') :
    left (perform .solveAll) t = t' := by
  rw [perform, left_discard, left_of_ok h]

/-- Taking the rounds back clears the marks only; the steps behind stay as they are. -/
theorem left_resetRounds {step : NullabilityStep} (hn : t.nullability = some step) :
    left (perform .resetRounds) t =
      { t with
        grammar := Nullability.clear t.grammar
        nullability := some { step with rounds := (Nullability.start t.grammar).1, finished := false } } :=
  left_onRounds_eq resetNullability hn

theorem left_solveRounds {step : NullabilityStep} (hn : t.nullability = some step) :
    (left (perform .solveRounds) t).nullabilityFinished = true ∧
      (left (perform .solveRounds) t).follow = t.follow := by
  have hleft : left (perform .solveRounds) t = left (solveNullability step) t :=
    left_onRounds_eq solveNullability hn
  rw [hleft]
  exact ⟨rfl, rfl⟩

/-- The nullability step is taken back and solved again. -/
theorem table_eq_and_phaseGraph_eq_sample : ∃ g t table t', Grammar.ofText Sample.text = .ok g ∧
    Tutor.ofGrammar g = .ok t ∧ t.Orderly [.solveAll, .resetRounds, .solveRounds] ∧
      Marked (t.run [.solveAll, .resetRounds, .solveRounds]).grammar ∧
      Tutor.table (t.run [.solveAll, .resetRounds, .solveRounds]) = .ok table t' ∧
      ∃ fresh, solveAll t = .ok table fresh := by
  obtain ⟨g, hg, -⟩ := Sample.exists_grammar
  have hfrom : g.FromText := ⟨_, g, hg, .inl rfl⟩
  have h := hfrom.standard
  obtain ⟨e, hv, he, hm⟩ := h.exists_marked
  let ops : List Operation := [.solveAll, .resetRounds, .solveRounds]
  have ho : Orderly { grammar := g } ops := by simp [ops, Orderly]
  have hc : Coherent e (Tutor.run { grammar := g } ops) := (Coherent.ofGrammar hv).run he hm ho
  have hdone : (Tutor.run { grammar := g } ops).nullabilityFinished = true ∧
      (Tutor.run { grammar := g } ops).setStepFinished .follow = true := by
    obtain ⟨table, t₁, hsolve, -, hn, hf, -⟩ := solveAll_spec he hm (Coherent.ofGrammar hv)
    obtain ⟨step, hstep, -⟩ := exists_of_nullabilityFinished hn
    rw [run_cons, run_cons, run_cons, left_solveAll hsolve, left_resetRounds hstep]
    obtain ⟨hdone, hfollow⟩ := left_solveRounds (t := { t₁ with
      grammar := Nullability.clear t₁.grammar
      nullability := some { step with
        rounds := (Nullability.start t₁.grammar).1, finished := false } }) rfl
    refine ⟨hdone, ?_⟩
    rw [Tutor.run, List.foldl_nil, setStepFinished, setStep, hfollow]
    exact hf
  have hmarked := (hc.exact he hdone.1).toMarked
  obtain ⟨table, htable, -⟩ := LookaheadTable.ofGrammar_spec (hc.varies.standard he)
  have hrun := table_eq_ok.mpr ⟨hdone.2, htable, rfl⟩
  exact ⟨g, _, table, _, hg, ofGrammar_eq_ok h, ho, hmarked, hrun,
    (table_eq_and_phaseGraph_eq hfrom (ofGrammar_eq_ok h) ops ho).1 hmarked table _ hrun⟩

namespace Sample

theorem cell?_eq {g : Grammar} {table : LookaheadTable} (h : g.Standard)
    (htable : LookaheadTable.ofGrammar g = .ok table)
    (hnonterminals : g.nonterminalList = [s, a, Symbol.start]) (hterminals : g.terminalList = [b])
    (hproductions : g.productionList = [long, empty, start]) :
    table.cell? "S" "b" = some (if "b" ∈ g.lookahead long then [long] else []) := by
  obtain ⟨table', htable', hrows, hcolumns, hlists⟩ := LookaheadTable.ofGrammar_spec h
  obtain rfl := Except.ok.inj (htable.symm.trans htable')
  have hr : "S" ∈ table.rows := by simp [hrows, hnonterminals, s]
  have hc : "b" ∈ table.columns := by simp [hcolumns, Grammar.followSymbols, hterminals, b]
  have hempty : empty.left.name ≠ "S" := by decide
  have hstart : start.left.name ≠ "S" := by decide
  have hlong : long.left.name = "S" := rfl
  rw [hlists.cell?_eq hr hc, hproductions]
  by_cases hmem : "b" ∈ g.lookahead long <;> simp [hlong, hempty, hstart, hc, hmem]

/-- No form derived from `A` begins with a terminal. -/
theorem not_begins_a {x : Symbol} (hx : x.isTerminal = true) :
    ¬Begins [long, empty, start] x [a] := by
  intro hbegins
  have hclosed : OpeningClosed [long, empty, start]
      (fun r => Vanishes [long, empty, start] [r]) fun r => r ≠ a := by
    intro p hp hopens
    rcases List.mem_cons.mp hp with rfl | hp
    · decide
    · rcases List.mem_cons.mp hp with rfl | hp
      · exact hopens.elim
      · obtain rfl := List.mem_singleton.mp hp
        decide
  have hne : x ≠ a := by
    rintro rfl
    cases hx
  rcases hclosed.opens vanishingClosed_vanishes hne hbegins with ha | ⟨-, hnil⟩
  · exact ha rfl
  · exact hnil.elim

end Sample

/-- After the nullability step was taken back the table lacks a production that it had. -/
theorem table_ne_after_reset : ∃ g t table t₁ table' t₂, Grammar.ofText Sample.text = .ok g ∧
    Tutor.ofGrammar g = .ok t ∧ solveAll t = .ok table t₁ ∧
      Tutor.table (t.run [.solveAll, .resetRounds]) = .ok table' t₂ ∧
      table.cell? "S" "b" = some [Sample.long] ∧ table'.cell? "S" "b" = some [] := by
  obtain ⟨g, hg, hnonterminals, hterminals, hproductions⟩ := Sample.exists_grammar
  have h := Grammar.FromText.standard ⟨_, g, hg, .inl rfl⟩
  obtain ⟨e, hv, he, hm⟩ := h.exists_marked
  obtain ⟨table, t₁, hsolve, hc, hn, hf, htable⟩ := solveAll_spec he hm (Coherent.ofGrammar hv)
  obtain ⟨step, hstep, -⟩ := exists_of_nullabilityFinished hn
  have hsolved := hc.solved (hc.exact he hn).toMarked hf
  have hv₁ : g.Varies t₁.grammar := hv.symm.trans hc.varies
  have hv₂ : g.Varies (Nullability.clear t₁.grammar) := hv₁.trans (Nullability.varies_clear _)
  have hlong : Sample.long ∈ t₁.grammar.productionList := by
    rw [hv₁.productionList, hproductions]
    exact List.mem_cons_self ..
  have hbefore : "b" ∈ t₁.grammar.lookahead Sample.long := by
    rw [Grammar.mem_lookahead_iff (hv₁.standard h) hsolved hlong, hv₁.productionList, hproductions,
      hv₁.terminalList, hterminals]
    exact .inl ⟨Sample.b, List.mem_singleton_self _, rfl, [],
      Derives.append_right Sample.vanishes_a [Sample.b]⟩
  -- without its mark `A` hides what stands behind it
  have hafter : "b" ∉ (Nullability.clear t₁.grammar).lookahead Sample.long := by
    have hregistered : t₁.grammar.Registered Sample.a := by
      rw [Grammar.Registered, hv₁.nonterminalList, hnonterminals]
      simp
    have hmark : (Nullability.clear t₁.grammar).nullable Sample.a = false :=
      Nullability.nullable_clear _ (by
        rcases hregistered with hs | hs <;> simp [Grammar.allSymbols, hs])
    have hseq : (Nullability.clear t₁.grammar).firstOfSequence Sample.long.right =
        (t₁.grammar.first Sample.a, false) := by
      rw [← Nullability.unmarking_first.clear t₁.grammar, Sample.long, Grammar.firstOfSequence, hmark]
      rfl
    rw [Grammar.lookahead, hseq]
    simp only [Bool.false_eq_true, if_false]
    rw [hsolved.first _ hregistered]
    rintro ⟨x, hx, -, hbegins⟩
    rw [hv₁.productionList, hproductions] at hbegins
    refine Sample.not_begins_a ?_ hbegins
    simp [Symbol.isTerminal, (hv₁.standard h).kind_of_mem_terminalList hx]
  obtain ⟨table', htable', -⟩ := LookaheadTable.ofGrammar_spec (hv₂.standard h)
  have hreset : Tutor.run { grammar := g } [.solveAll, .resetRounds] =
      left (perform .resetRounds) t₁ := by
    rw [run_cons, run_cons, left_solveAll hsolve]
    rfl
  have hrun := left_resetRounds hstep
  refine ⟨g, { grammar := g }, table, t₁, table', left (perform .resetRounds) t₁, hg,
    ofGrammar_eq_ok h, hsolve, ?_, ?_, ?_⟩
  · rw [hreset, hrun]
    exact table_eq_ok.mpr ⟨hf, htable', rfl⟩
  · rw [Sample.cell?_eq (hv₁.standard h) htable (hv₁.nonterminalList.trans hnonterminals)
      (hv₁.terminalList.trans hterminals) (hv₁.productionList.trans hproductions), if_pos hbefore]
  · rw [Sample.cell?_eq (hv₂.standard h) htable' (hv₂.nonterminalList.trans hnonterminals)
      (hv₂.terminalList.trans hterminals) (hv₂.productionList.trans hproductions), if_neg hafter]

/-! ### Clicks -/

/-- In every orderly session a started step holds what was clicked and no more: the set of a group
is its seed with what it holds of its senders, and it holds of an active sender its present set
and of another one nothing. So its check says whether all groups are active, and the sets that it
writes are those that are written when all steps are solved. -/
theorem sets_of_clicks (hg : g.FromText) (ht : Tutor.ofGrammar g = .ok t) (ops : List Operation)
    (ho : t.Orderly ops) (kind : SetKind) (p : Propagation)
    (hp : (t.run ops).setStep kind = some p) :
    (∀ id ∈ p.order, ∃ s, p.states.get? id = some s) ∧
    (∀ id s, p.states.get? id = some s →
      (∀ x, x ∈ s.computed ↔
        x ∈ s.seed ∨ ∃ q names, s.incoming.get? q = some (some names) ∧ x ∈ names) ∧
      s.incoming.keys = p.sources id ∧
      ∀ q ∈ p.sources id, s.incoming.get? q =
        some (if p.isActive q then some (p.computedOf q) else none)) ∧
    (∃ verdict, p.check = .ok verdict ∧ (∀ name, verdict ≠ .wrong ⟨.staleSet, name⟩) ∧
      (verdict = .correct ↔ ∀ id ∈ p.order, p.isActive id = true)) ∧
    ∀ t', checkSets kind p (t.run ops) = .ok .correct t' →
      ∃ table fresh, solveAll t = .ok table fresh ∧
        match kind with
        | .first => ∀ s, g.Registered s → t'.grammar.first s = fresh.grammar.first s
        | .follow => ∀ s ∈ g.nonterminalList, t'.grammar.follow s = fresh.grammar.follow s := by
  have h := hg.standard
  obtain ⟨e, hv, he, hm, rfl, hc⟩ := exists_coherent_run h ht ho
  have hsteady := (hc.sets kind p hp).steady
  obtain ⟨verdict, t', hrun, hcheck, hc', -, -, hdone⟩ := checkSets_spec he hm hc hp
  refine ⟨fun id hid => Propagation.exists_state hsteady.consistent hid,
    fun id s hs => ⟨fun x => hsteady.consistent.mem_computed hsteady.wired hs,
      hsteady.consistent.senders hs, fun q hq => hsteady.current.get?_incoming hs hq⟩,
    ⟨verdict, hcheck, fun name hname => ?_, ?_⟩, fun t'' hrun' => ?_⟩
  · rw [Propagation.check_eq hsteady.current, hname] at hcheck
    split at hcheck <;> cases hcheck
  · have hiff := Propagation.check_eq_correct_iff hsteady.current
    rw [hcheck, Except.ok.injEq] at hiff
    exact hiff
  · obtain ⟨table, fresh, hsolve, hfresh, -, hf, -⟩ := solveAll_spec he hm (Coherent.ofGrammar hv)
    obtain ⟨q, hq, hqf⟩ := exists_of_setStepFinished hf
    have hfollow := hfresh.follow hq
    rw [hrun] at hrun'
    cases hrun'
    obtain ⟨p', hp', hpf⟩ := exists_of_setStepFinished (hdone rfl)
    refine ⟨table, fresh, hsolve, ?_⟩
    cases kind with
    | first =>
      intro s hs
      rw [Grammar.Registered, hv.nonterminalList, hv.terminalList] at hs
      refine NameSet.ext_mem fun x => ?_
      rw [((hc'.first hp').found hpf).2 s hs x, hfollow.firsts s hs x]
    | follow =>
      intro s hs
      rw [hv.nonterminalList] at hs
      refine NameSet.ext_mem fun x => ?_
      rw [((hc'.follow hp').found hpf).2 s hs x, (hfollow.found hqf).2 s hs x]

/-- The first step is started and solved, and its check passes. -/
theorem sets_of_clicks_sample : ∃ g t p, Grammar.ofText Sample.text = .ok g ∧
    Tutor.ofGrammar g = .ok t ∧
      t.Orderly [.startNullability, .solveRounds, .startFirst, .solve .first] ∧
      (t.run [.startNullability, .solveRounds, .startFirst, .solve .first]).setStep .first = some p ∧
      p.check = .ok .correct := by
  obtain ⟨g, hg, -⟩ := Sample.exists_grammar
  have hfrom : g.FromText := ⟨_, g, hg, .inl rfl⟩
  obtain ⟨e, hv, he, hm⟩ := hfrom.standard.exists_marked
  let t : Tutor := { grammar := g }
  have hc : Coherent e t := Coherent.ofGrammar hv
  obtain ⟨step, t₁, hstart, hc₁, hstep, -, -⟩ := startNullability_spec he hc
  have hc₂ := hc₁.perform he hm .solveRounds (by simp)
  obtain ⟨q, t₃, hfirst, hc₃, -, hq, hopen, -⟩ :=
    startFirst_spec he hm hc₂ (left_solveRounds hstep).1
  have ho : t.Orderly [.startNullability, .solveRounds, .startFirst, .solve .first] := by
    simp [Orderly]
  have hp : (t.run [.startNullability, .solveRounds, .startFirst, .solve .first]).setStep .first =
      some q.solve.2 := by
    have h₁ : left (perform .startNullability) t = t₁ := by
      rw [perform, left_discard, left_of_ok hstart]
    have h₃ : left (perform .startFirst) (left (perform .solveRounds) t₁) = t₃ :=
      (left_discard startFirst _).trans (left_of_ok hfirst)
    have hsolve : left (perform (.solve .first)) t₃ = t₃.putSetStep .first q.solve.2 :=
      left_onSets_eq .first (solveSets .first) hq
    rw [run_cons, run_cons, run_cons, run_cons, h₁, h₃, hsolve]
    rfl
  obtain ⟨-, -, ⟨verdict, hcheck, -, hcorrect⟩, -⟩ :=
    sets_of_clicks hfrom (ofGrammar_eq_ok hfrom.standard) _ ho .first _ hp
  have hfit := hc₃.first hq
  have hactive := Propagation.allActive_solve hfit.steady.current.tracked hfit.run.acyclic hopen
  exact ⟨g, t, _, hg, ofGrammar_eq_ok hfrom.standard, ho, hp, hcorrect.mpr hactive ▸ hcheck⟩

end Lookahead.Tutor
