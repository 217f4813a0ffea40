import Lookahead.Proofs.Table
import Lookahead.Proofs.Tutor.Steps

/-!
# Operations keep a tutor coherent

An operation leaves a coherent tutor whatever it was refused for, with one exception: the
follow step can be started while the nullability step has been taken back, and then it is
built from marks that are not right. Solving all steps and the graphs of the steps start
what they need themselves, so they give the same from every coherent tutor.
-/

namespace Lookahead.Tutor

open Nullability (Marked Exact)

variable {e : Grammar} {t : Tutor}

/-! ### What an operation leaves -/

theorem left_of_ok {α : Type} {act : Action α} {a : α} {t' : Tutor} (h : act t = .ok a t') :
    left act t = t' := by
  rw [left, h]

theorem left_of_error {α : Type} {act : Action α} {f : Fault} {t' : Tutor}
    (h : act t = .error f t') : left act t = t' := by
  rw [left, h]

theorem left_discard {α : Type} (act : Action α) (t : Tutor) :
    left (do let _ ← act) t = left act t := by
  simp only [left, bind, EStateM.bind]
  cases act t <;> rfl

theorem left_onRounds_eq {α : Type} (act : NullabilityStep → Action α) {step : NullabilityStep}
    (hn : t.nullability = some step) : left (onRounds act) t = left (act step) t := by
  rw [← left_discard (act step), left, left, onRounds, Outcome.run_get_bind, hn]

theorem left_onSets_eq {α : Type} (kind : SetKind) (act : Propagation → Action α)
    {p : Propagation} (hp : t.setStep kind = some p) :
    left (onSets kind act) t = left (act p) t := by
  rw [← left_discard (act p), left, left, onSets, Outcome.run_get_bind, hp]

/-- Without a step to act on nothing happens. -/
theorem left_onRounds {α : Type} (act : NullabilityStep → Action α) (t : Tutor) :
    left (onRounds act) t = t ∨
      ∃ step, t.nullability = some step ∧ left (onRounds act) t = left (act step) t := by
  cases hn : t.nullability with
  | none =>
    refine .inl (left_of_ok (a := ()) ?_)
    rw [onRounds, Outcome.run_bind_eq_ok]
    exact ⟨t, t, rfl, by rw [hn]; rfl⟩
  | some step => exact .inr ⟨step, rfl, left_onRounds_eq act hn⟩

theorem left_onSets {α : Type} (kind : SetKind) (act : Propagation → Action α) (t : Tutor) :
    left (onSets kind act) t = t ∨
      ∃ p, t.setStep kind = some p ∧ left (onSets kind act) t = left (act p) t := by
  cases hp : t.setStep kind with
  | none =>
    refine .inl (left_of_ok (a := ()) ?_)
    rw [onSets, Outcome.run_bind_eq_ok]
    exact ⟨t, t, rfl, by rw [hp]; rfl⟩
  | some p => exact .inr ⟨p, rfl, left_onSets_eq kind act hp⟩

/-! ### Solving all steps -/

theorem table_eq_ok {table : LookaheadTable} {t' : Tutor} : Tutor.table t = .ok table t' ↔
    t.setStepFinished .follow = true ∧ LookaheadTable.ofGrammar t.grammar = .ok table ∧ t = t' := by
  rw [Tutor.table, Outcome.run_bind_eq_ok]
  simp only [Outcome.run_get_eq_ok]
  constructor
  · rintro ⟨_, _, ⟨rfl, rfl⟩, hrun⟩
    rw [Outcome.run_guard_eq_ok, run_ofExcept_eq_ok] at hrun
    simpa using hrun
  · intro hrun
    refine ⟨t, t, ⟨rfl, rfl⟩, ?_⟩
    rw [Outcome.run_guard_eq_ok, run_ofExcept_eq_ok]
    simpa using hrun

/-- Behind a finished follow step all sets are found; only the marks may have been taken back. -/
theorem Coherent.solved (hc : Coherent e t) (hmarked : Marked t.grammar)
    (hf : t.setStepFinished .follow = true) : t.grammar.Solved := by
  obtain ⟨p, hp, hdone⟩ := exists_of_setStepFinished hf
  have hfit := hc.follow hp
  have hfirst := hfit.firsts
  have hfollow := (hfit.found hdone).2
  obtain ⟨_, _, hg⟩ := hc.varies
  rw [hg] at hmarked hfirst hfollow ⊢
  exact ⟨hmarked, hfirst, hfollow⟩

section Standard

variable (h : e.Standard)
include h

theorem ensureNullability_spec (hc : Coherent e t) :
    ∃ t', ensureNullability t = .ok () t' ∧ Coherent e t' ∧ t'.nullabilityFinished = true := by
  rw [ensureNullability]
  simp only [Outcome.run_bind_eq_ok]
  cases hn : t.nullabilityFinished with
  | true => exact ⟨t, ⟨t, t, rfl, by rw [hn]; rfl⟩, hc, hn⟩
  | false =>
    obtain ⟨step, t₁, hstart, hc₁, hstep, -, -⟩ := startNullability_spec h hc
    obtain ⟨_, t₂, hsolve, hc₂, hdone, -, -⟩ := solveNullability_spec h hc₁ hstep
    refine ⟨t₂, ⟨t, t, rfl, ?_⟩, hc₂, hdone⟩
    rw [hn]
    simp only [Bool.not_false, if_true, Outcome.run_bind_eq_ok]
    exact ⟨step, t₁, hstart, _, t₂, hsolve, rfl⟩

variable (hm : Marked e)
include hm

theorem startFirst_settled (hc : Coherent e t) (hn : t.nullabilityFinished = true) :
    ∃ p t₁ t₂, startFirst t = .ok p t₁ ∧ settleSets .first p t₁ = .ok .correct t₂ ∧
      Coherent e t₂ ∧ t₂.nullabilityFinished = true ∧ t₂.setStepFinished .first = true ∧
      t₂.follow = none := by
  obtain ⟨p, t₁, hstart, hc₁, hnull, hp, hopen, hfollow⟩ := startFirst_spec h hm hc hn
  obtain ⟨t₂, hsettle, hc₂, hnull', hother, hdone⟩ :=
    settleSets_spec h hm hc₁ .first hp hopen
  refine ⟨p, t₁, t₂, hstart, hsettle, hc₂, ?_, hdone, ?_⟩
  · rw [nullabilityFinished, hnull', hnull]
    exact hn
  · exact (hother .follow (by decide)).trans hfollow

theorem solveAll_spec (hc : Coherent e t) : ∃ table t', solveAll t = .ok table t' ∧
    Coherent e t' ∧ t'.nullabilityFinished = true ∧ t'.setStepFinished .follow = true ∧
      LookaheadTable.ofGrammar t'.grammar = .ok table := by
  obtain ⟨step, t₁, hstart, hc₁, hstep, -, -⟩ := startNullability_spec h hc
  obtain ⟨rounds, t₂, hsolve, hc₂, hn₂, -, -⟩ := solveNullability_spec h hc₁ hstep
  obtain ⟨p, t₃, t₄, hfirst, hsettle, hc₄, hn₄, hdone₄, -⟩ := startFirst_settled h hm hc₂ hn₂
  obtain ⟨q, t₅, hfollow, hc₅, hnull₅, -, hq, hopen⟩ :=
    startFollow_spec h hm hc₄ (hc₄.exact h hn₄).toMarked hdone₄
  obtain ⟨t₆, hsettle', hc₆, hnull₆, -, hdone₆⟩ :=
    settleSets_spec h hm hc₅ .follow hq hopen
  obtain ⟨table, htable, -⟩ := LookaheadTable.ofGrammar_spec (hc₆.varies.standard h)
  have hn₆ : t₆.nullabilityFinished = true := by
    rw [nullabilityFinished, hnull₆, hnull₅]
    exact hn₄
  refine ⟨table, t₆, ?_, hc₆, hn₆, hdone₆, htable⟩
  rw [solveAll]
  simp only [Outcome.run_bind_eq_ok]
  exact ⟨step, t₁, hstart, rounds, t₂, hsolve, p, t₃, hfirst, .correct, t₄, hsettle, (), t₄, rfl,
    q, t₅, hfollow, .correct, t₆, hsettle', (), t₆, rfl, table_eq_ok.mpr ⟨hdone₆, htable, rfl⟩⟩

/-! ### Graphs of the steps -/

omit h hm in
/-- The graph of a step, which right marks determine. -/
def IsGraphOf (e : Grammar) : GraphPhase → Graph → Prop
  | .empty, graph => Graph.nullability e = .ok graph
  | .first, graph => Graph.first e = .ok graph
  | .follow, graph => ∃ first, Graph.first e = .ok first ∧ Graph.follow e first = .ok graph

omit h hm in
theorem IsGraphOf.unique {phase : GraphPhase} {graph graph' : Graph}
    (hg : IsGraphOf e phase graph) (hg' : IsGraphOf e phase graph') : graph = graph' := by
  cases phase with
  | empty => exact Except.ok.inj (hg.symm.trans hg')
  | first => exact Except.ok.inj (hg.symm.trans hg')
  | follow =>
    obtain ⟨first, hfirst, hg⟩ := hg
    obtain ⟨first', hfirst', hg'⟩ := hg'
    obtain rfl := Except.ok.inj (hfirst.symm.trans hfirst')
    exact Except.ok.inj (hg.symm.trans hg')

omit hm in
theorem emptyGraph_spec (hc : Coherent e t) :
    ∃ graph t', emptyGraph t = .ok graph t' ∧ Coherent e t' ∧ IsGraphOf e .empty graph := by
  rw [emptyGraph]
  simp only [Outcome.run_bind_eq_ok]
  cases hn : t.nullability with
  | some step => exact ⟨step.graph, t, ⟨t, t, rfl, by rw [hn]; rfl⟩, hc, (hc.rounds step hn).graph⟩
  | none =>
    obtain ⟨step, t', hstart, hc', hstep, -, -⟩ := startNullability_spec h hc
    refine ⟨step.graph, t', ⟨t, t, rfl, ?_⟩, hc', (hc'.rounds step hstep).graph⟩
    rw [hn]
    simp only [Outcome.run_bind_eq_ok]
    exact ⟨step, t', hstart, rfl⟩

theorem firstGraph_spec (hc : Coherent e t) (hn : t.nullabilityFinished = true) :
    ∃ graph t', firstGraph t = .ok graph t' ∧ Coherent e t' ∧ IsGraphOf e .first graph := by
  rw [firstGraph]
  simp only [Outcome.run_bind_eq_ok]
  cases hp : t.first with
  | some p => exact ⟨p.graph, t, ⟨t, t, rfl, by rw [hp]; rfl⟩, hc, (hc.first hp).graph⟩
  | none =>
    obtain ⟨p, t', hstart, hc', -, hp', -, -⟩ := startFirst_spec h hm hc hn
    refine ⟨p.graph, t', ⟨t, t, rfl, ?_⟩, hc', (hc'.first hp').graph⟩
    rw [hp]
    simp only [Outcome.run_bind_eq_ok]
    exact ⟨p, t', hstart, rfl⟩

theorem followGraph_of_finished (hc : Coherent e t) (hn : t.nullabilityFinished = true)
    (hf : t.setStepFinished .first = true) :
    ∃ graph t', followGraph t = .ok graph t' ∧ Coherent e t' ∧ IsGraphOf e .follow graph := by
  rw [followGraph]
  simp only [Outcome.run_bind_eq_ok]
  cases hp : t.follow with
  | some p =>
    refine ⟨p.graph, t, ⟨t, t, rfl, ?_⟩, hc, (hc.follow hp).graph⟩
    rw [hf]
    simp only [Bool.not_true, Bool.false_eq_true, if_false, Outcome.run_bind_eq_ok]
    exact ⟨t, t, rfl, by rw [hp]; rfl⟩
  | none =>
    obtain ⟨p, t', hstart, hc', -, -, hp', -⟩ :=
      startFollow_spec h hm hc (hc.exact h hn).toMarked hf
    refine ⟨p.graph, t', ⟨t, t, rfl, ?_⟩, hc', (hc'.follow hp').graph⟩
    rw [hf]
    simp only [Bool.not_true, Bool.false_eq_true, if_false, Outcome.run_bind_eq_ok]
    refine ⟨t, t, rfl, ?_⟩
    rw [hp]
    simp only [Outcome.run_bind_eq_ok]
    exact ⟨p, t', hstart, rfl⟩

theorem followGraph_spec (hc : Coherent e t) (hn : t.nullabilityFinished = true) :
    ∃ graph t', followGraph t = .ok graph t' ∧ Coherent e t' ∧ IsGraphOf e .follow graph := by
  cases hf : t.setStepFinished .first with
  | true => exact followGraph_of_finished h hm hc hn hf
  | false =>
    obtain ⟨p, t₁, t₂, hstart, hsettle, hc₂, hn₂, hf₂, -⟩ := startFirst_settled h hm hc hn
    obtain ⟨graph, t', hrun, hc', hgraph⟩ := followGraph_of_finished h hm hc₂ hn₂ hf₂
    refine ⟨graph, t', ?_, hc', hgraph⟩
    rw [followGraph] at hrun ⊢
    simp only [Outcome.run_bind_eq_ok, Outcome.run_get_eq_ok] at hrun ⊢
    obtain ⟨_, _, ⟨rfl, rfl⟩, hrun⟩ := hrun
    rw [hf₂] at hrun
    refine ⟨t, t, ⟨rfl, rfl⟩, ?_⟩
    rw [hf]
    simp only [Bool.not_true, Bool.false_eq_true, if_false] at hrun
    simp only [Bool.not_false, if_true, Outcome.run_bind_eq_ok]
    exact ⟨p, t₁, hstart, .correct, t₂, hsettle, Outcome.run_bind_eq_ok.mp hrun⟩

/-- The graph of a step that there is, and what is left by a name of none. -/
theorem phaseGraph_spec (hc : Coherent e t) (name : String) :
    Coherent e (left (phaseGraph name) t) ∧ ∀ phase, GraphPhase.ofName? (Text.lower name) = some phase →
      ∃ graph t', phaseGraph name t = .ok graph t' ∧ IsGraphOf e phase graph := by
  rw [phaseGraph]
  cases hname : GraphPhase.ofName? (Text.lower name) with
  | none =>
    obtain ⟨t', hrun, hc', -⟩ := ensureNullability_spec h hc
    have hthrow : (do ensureNullability; throw (.unknownPhase (Text.lower name)) : Action Graph) t =
        .error (.unknownPhase (Text.lower name)) t' := by
      simp only [bind, EStateM.bind, hrun]
      rfl
    refine ⟨?_, fun phase hp => by cases hp⟩
    exact left_of_error hthrow ▸ hc'
  | some phase =>
    have hspec : ∃ graph t', graphOf phase t = .ok graph t' ∧ Coherent e t' ∧
        IsGraphOf e phase graph := by
      cases phase with
      | empty => exact emptyGraph_spec h hc
      | first =>
        obtain ⟨t₁, hensure, hc₁, hn₁⟩ := ensureNullability_spec h hc
        obtain ⟨graph, t', hrun, hc', hgraph⟩ := firstGraph_spec h hm hc₁ hn₁
        refine ⟨graph, t', ?_, hc', hgraph⟩
        rw [graphOf, Outcome.run_bind_eq_ok]
        exact ⟨(), t₁, hensure, hrun⟩
      | follow =>
        obtain ⟨t₁, hensure, hc₁, hn₁⟩ := ensureNullability_spec h hc
        obtain ⟨graph, t', hrun, hc', hgraph⟩ := followGraph_spec h hm hc₁ hn₁
        refine ⟨graph, t', ?_, hc', hgraph⟩
        rw [graphOf, Outcome.run_bind_eq_ok]
        exact ⟨(), t₁, hensure, hrun⟩
    obtain ⟨graph, t', hrun, hc', hgraph⟩ := hspec
    refine ⟨left_of_ok hrun ▸ hc', fun phase' hp => ?_⟩
    obtain rfl := Option.some.inj hp
    exact ⟨graph, t', hrun, hgraph⟩

omit h hm in
theorem ofName?_lower_name (phase : GraphPhase) :
    GraphPhase.ofName? (Text.lower phase.name) = some phase := by
  cases phase <;> decide +kernel

/-- The graph of a step in a new tutor. -/
theorem exists_graphOf (hv : e.Varies g) (phase : GraphPhase) :
    ∃ graph t', phaseGraph phase.name { grammar := g } = .ok graph t' ∧ IsGraphOf e phase graph :=
  (phaseGraph_spec h hm (Coherent.ofGrammar hv) phase.name).2 phase (ofName?_lower_name phase)

/-! ### All operations -/

omit h hm in
theorem startFirst_refused (hn : t.nullabilityFinished = false) :
    startFirst t = .error (.mistake .previousStepOpen) t := by
  rw [startFirst, Outcome.run_get_bind, hn]
  rfl

omit h hm in
theorem startFollow_refused (hf : t.setStepFinished .first = false) :
    startFollow t = .error (.mistake .previousStepOpen) t := by
  rw [startFollow, Outcome.run_get_bind]
  rw [setStepFinished, setStep] at hf
  cases hp : t.first with
  | none => rfl
  | some p =>
    rw [hp] at hf
    have hopen : p.finished = false := hf
    simp only [hopen]
    rfl

omit h hm in
/-- The table is only looked at. -/
theorem left_table (hs : t.grammar.Standard) : left table t = t := by
  cases hf : t.setStepFinished .follow with
  | true =>
    obtain ⟨table, htable, -⟩ := LookaheadTable.ofGrammar_spec hs
    exact left_of_ok (table_eq_ok.mpr ⟨hf, htable, rfl⟩)
  | false =>
    refine left_of_error (f := .mistake .previousStepOpen) ?_
    rw [table, Outcome.run_get_bind, hf]
    rfl

omit h hm in
theorem Coherent.click (hc : Coherent e t) {kind : SetKind} {p : Propagation}
    {clicked : Propagation → Except Fault Propagation}
    (hq : ∀ q, clicked p = .ok q → SetsFit e t.grammar kind q) :
    Coherent e (left (click kind p clicked) t) := by
  cases hclick : clicked p with
  | ok q =>
    have hrun : Tutor.click kind p clicked t = .ok () (t.putSetStep kind q) := by
      rw [Tutor.click, Outcome.run_bind_eq_ok]
      exact ⟨q, t, run_ofExcept_eq_ok.mpr ⟨hclick, rfl⟩, rfl⟩
    exact left_of_ok hrun ▸ hc.putSetStep (hq q hclick)
  | error f =>
    have hrun : Tutor.click kind p clicked t = .error f t := by
      rw [Tutor.click, hclick]
      rfl
    rw [left_of_error hrun]
    exact hc

omit h hm in
theorem Coherent.onRounds (hc : Coherent e t) {α : Type} {act : NullabilityStep → Action α}
    (hact : ∀ step, t.nullability = some step → Coherent e (left (act step) t)) :
    Coherent e (left (onRounds act) t) := by
  rcases left_onRounds act t with he | ⟨step, hstep, he⟩
  · exact he.symm ▸ hc
  · exact he.symm ▸ hact step hstep

omit h hm in
theorem Coherent.onSets (hc : Coherent e t) {α : Type} {kind : SetKind}
    {act : Propagation → Action α}
    (hact : ∀ p, t.setStep kind = some p → Coherent e (left (act p) t)) :
    Coherent e (left (onSets kind act) t) := by
  rcases left_onSets kind act t with he | ⟨p, hp, he⟩
  · exact he.symm ▸ hc
  · exact he.symm ▸ hact p hp

/-- The step lemma. Only a start of the follow step needs right marks. -/
theorem Coherent.perform (hc : Coherent e t) (op : Operation)
    (hop : op = .startFollow → t.setStepFinished .first = true → Marked t.grammar) :
    Coherent e (left (perform op) t) := by
  cases op with
  | startNullability =>
    obtain ⟨_, t', hrun, hc', -⟩ := startNullability_spec h hc
    rw [Tutor.perform, left_discard, left_of_ok hrun]
    exact hc'
  | startFirst =>
    rw [Tutor.perform, left_discard]
    cases hn : t.nullabilityFinished with
    | true =>
      obtain ⟨_, t', hrun, hc', -⟩ := startFirst_spec h hm hc hn
      exact left_of_ok hrun ▸ hc'
    | false =>
      rw [left_of_error (startFirst_refused hn)]
      exact hc
  | startFollow =>
    rw [Tutor.perform, left_discard]
    cases hf : t.setStepFinished .first with
    | true =>
      obtain ⟨_, t', hrun, hc', -⟩ := startFollow_spec h hm hc (hop rfl hf) hf
      exact left_of_ok hrun ▸ hc'
    | false =>
      rw [left_of_error (startFollow_refused hf)]
      exact hc
  | phaseGraph name =>
    rw [Tutor.perform, left_discard]
    exact (phaseGraph_spec h hm hc name).1
  | solveAll =>
    obtain ⟨_, t', hrun, hc', -⟩ := solveAll_spec h hm hc
    rw [Tutor.perform, left_discard, left_of_ok hrun]
    exact hc'
  | table =>
    rw [Tutor.perform, left_discard, left_table (hc.varies.standard h)]
    exact hc
  | advanceRound => exact hc.onRounds fun _ hstep => hc.advanceRound h hstep
  | solveRounds =>
    refine hc.onRounds fun _ hstep => ?_
    obtain ⟨_, t', hrun, hc', -⟩ := solveNullability_spec h hc hstep
    exact left_of_ok hrun ▸ hc'
  | resetRounds => exact hc.onRounds fun _ hstep => hc.resetNullability h hstep
  | checkRound marks fixpoint => exact hc.onRounds fun _ _ => hc
  | activate kind id =>
    exact hc.onSets fun p hp => hc.click fun q hq => (hc.sets kind p hp).activate hq
  | deactivate kind id =>
    exact hc.onSets fun p hp => hc.click fun q hq => (hc.sets kind p hp).deactivate hq
  | solve kind => exact hc.onSets fun p hp => hc.putSetStep (hc.sets kind p hp).solve
  | reset kind => exact hc.onSets fun p hp => hc.putSetStep (hc.sets kind p hp).reset
  | check kind =>
    refine hc.onSets fun p hp => ?_
    obtain ⟨_, t', hrun, -, hc', -⟩ := checkSets_spec h hm hc hp
    exact left_of_ok hrun ▸ hc'

end Standard

end Lookahead.Tutor
