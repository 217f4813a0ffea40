import Lookahead.Proofs.Tutor.Coherence
import Lookahead.Tutor.Session

/-!
# Actions on coherent tutors

Every action of a tutor is given by what it returns and what it leaves. The steps can be
started whenever the tutor lets them, and the follow step then fits if the marks are right;
writing the sets of a step to the grammar makes them those of the derivations.
-/

namespace Lookahead.Tutor

open Nullability (Marked Exact Sound)

variable {e : Grammar} {t : Tutor}

theorem run_ofExcept_eq_ok {α : Type} {x : Except Fault α} {t t' : Tutor} {a : α} :
    ofExcept x t = .ok a t' ↔ x = .ok a ∧ t = t' := by
  cases x <;> simp [ofExcept, Outcome.run_throw_eq_ok, Outcome.run_pure_eq_ok]

theorem run_ofExcept_eq_error {α : Type} {x : Except Fault α} {t t' : Tutor} {f : Fault} :
    ofExcept x t = .error f t' ↔ x = .error f ∧ t = t' := by
  cases x with
  | ok a => simp [ofExcept, pure, EStateM.pure]
  | error e =>
    change EStateM.Result.error e t = .error f t' ↔ _
    simp

/-- A grammar is changed, and the steps stay and fit what it is now. -/
theorem Coherent.putGrammar (hc : Coherent e t) {g : Grammar} (hv : t.grammar.Varies g)
    (hrounds : ∀ n, RoundsFit e t.grammar n → RoundsFit e g n)
    (hfirst : FirstsFound e t.grammar → FirstsFound e g)
    (hfollow : FollowsFound e t.grammar → FollowsFound e g) :
    Coherent e { t with grammar := g } := by
  refine ⟨hc.varies.trans hv, fun n hn => hrounds n (hc.rounds n hn), fun kind p hp => ?_⟩
  have hp' : t.setStep kind = some p := by
    cases kind <;> exact hp
  exact (hc.sets kind p hp').of_sets hfirst hfollow

theorem Coherent.putSetStep (hc : Coherent e t) {kind : SetKind} {p : Propagation}
    (hp : SetsFit e t.grammar kind p) : Coherent e (t.putSetStep kind p) := by
  cases kind with
  | first =>
    refine ⟨hc.varies, hc.rounds, fun kind q hq => ?_⟩
    cases kind with
    | first => exact Option.some.inj hq ▸ hp
    | follow => exact hc.sets .follow q hq
  | follow =>
    refine ⟨hc.varies, hc.rounds, fun kind q hq => ?_⟩
    cases kind with
    | first => exact hc.sets .first q hq
    | follow => exact Option.some.inj hq ▸ hp

/-- Marks are written; the sets in the grammar stay. -/
theorem Coherent.putRounds (hc : Coherent e t) {g : Grammar} {step : NullabilityStep}
    (hv : t.grammar.Varies g) (hstep : RoundsFit e g step)
    (hfirst : g.first = t.grammar.first) (hfollow : g.follow = t.grammar.follow) :
    Coherent e { t with grammar := g, nullability := some step } := by
  refine ⟨hc.varies.trans hv, fun n hn => Option.some.inj hn ▸ hstep, fun kind p hp => ?_⟩
  have hp' : t.setStep kind = some p := by
    cases kind <;> exact hp
  exact (hc.sets kind p hp').of_sets (fun hf => hf.of_first_eq hfirst)
    fun hw => hw.of_follow_eq hfollow

/-! ### The nullability step -/

section Standard

variable (h : e.Standard)
include h

theorem RoundsFit.start {g : Grammar} {graph : Graph} (hv : e.Varies g)
    (hgraph : Graph.nullability e = .ok graph) :
    RoundsFit e (Nullability.start g).2 { rounds := (Nullability.start g).1, graph } :=
  ⟨hgraph, Nullability.sound_start (hv.standard h).toLawful.wellFormed, fun hf => by cases hf⟩

theorem startNullability_spec (hc : Coherent e t) :
    ∃ step t', startNullability t = .ok step t' ∧ Coherent e t' ∧
      t'.nullability = some step ∧ t'.first = none ∧ t'.follow = none := by
  have hv := hc.varies.trans (Grammar.varies_resetAnalysis t.grammar)
  have hv' : e.Varies (Nullability.start t.grammar.resetAnalysis).2 :=
    hv.trans (Nullability.varies_clear _)
  obtain ⟨graph, hgraph, -⟩ := Graph.exists_nullability h.toLawful
  let step : NullabilityStep := { rounds := (Nullability.start t.grammar.resetAnalysis).1, graph }
  let t' : Tutor := { grammar := (Nullability.start t.grammar.resetAnalysis).2
                      nullability := some step }
  have hrun : startNullability t = .ok step t' := by
    rw [startNullability, Outcome.run_bind_eq_ok]
    refine ⟨(), { t with grammar := t.grammar.resetAnalysis }, rfl, ?_⟩
    simp only [Outcome.run_bind_eq_ok, run_ofExcept_eq_ok]
    refine ⟨_, _, rfl, (), _, rfl, graph, _, ⟨?_, rfl⟩, (), t', rfl, rfl⟩
    rw [← hgraph]
    exact Graph.nullability_eq hv'
  refine ⟨step, t', hrun, ⟨hv', fun n hn => ?_, fun kind p hp => ?_⟩, rfl, rfl, rfl⟩
  · obtain rfl := Option.some.inj hn
    exact RoundsFit.start h hv hgraph
  · cases kind <;> cases hp

theorem solveNullability_spec (hc : Coherent e t) {step : NullabilityStep}
    (hstep : t.nullability = some step) :
    ∃ rounds t', solveNullability step t = .ok rounds t' ∧ Coherent e t' ∧
      t'.nullabilityFinished = true ∧ t'.first = t.first ∧ t'.follow = t.follow := by
  have hfit := hc.rounds step hstep
  obtain ⟨hv, hsound, hfix⟩ :=
    Nullability.solve_spec hfit.sound (hc.varies.standard h).toLawful.wellFormed
  refine ⟨_, _, rfl, hc.putRounds hv ⟨hfit.graph, hsound, fun _ => hfix⟩ ?_ ?_, rfl, rfl, rfl⟩
  · exact Nullability.unmarking_first.solve _ _
  · exact Nullability.unmarking_follow.solve _ _

theorem Coherent.advanceRound (hc : Coherent e t) {step : NullabilityStep}
    (hstep : t.nullability = some step) : Coherent e (left (advanceRound step) t) := by
  have hfit := hc.rounds step hstep
  cases hf : step.finished with
  | true =>
    have hrun : Tutor.advanceRound step t = .error (.mistake .stepFinished) t := by
      simp only [Tutor.advanceRound, hf, if_true]
      rfl
    rw [left, hrun]
    exact hc
  | false =>
    cases hx : step.rounds.fixpoint with
    | true =>
      have hrun : Tutor.advanceRound step t = .ok { number := step.rounds.rounds, fixpoint := true }
          { t with nullability := some { step with finished := true } } := by
        simp only [Tutor.advanceRound, hf, hx, if_true]
        rfl
      rw [left, hrun]
      exact hc.putRounds (.refl _) ⟨hfit.graph, hfit.sound, fun _ => hx⟩ rfl rfl
    | false =>
      let found := step.rounds.advance t.grammar
      have hrun : Tutor.advanceRound step t = .ok found.1
          { t with grammar := found.2.2, nullability := some { step with rounds := found.2.1 } } := by
        simp only [Tutor.advanceRound, hf, hx]
        rfl
      rw [left, hrun]
      refine hc.putRounds (Nullability.varies_advance _ _) ⟨hfit.graph, ?_, fun hd => ?_⟩ ?_ ?_
      · exact hfit.sound.advance (hc.varies.standard h).toLawful.wellFormed
      · exact absurd (hf.symm.trans hd) Bool.false_ne_true
      · exact Nullability.unmarking_first.advance _ _
      · exact Nullability.unmarking_follow.advance _ _

theorem Coherent.resetNullability (hc : Coherent e t) {step : NullabilityStep}
    (hstep : t.nullability = some step) : Coherent e (left (resetNullability step) t) := by
  have hfit := RoundsFit.start h hc.varies (hc.rounds step hstep).graph
  refine hc.putRounds (Nullability.varies_clear _) ?_ ?_ ?_
  · exact ⟨hfit.graph, hfit.sound, hfit.fixpoint⟩
  · exact Nullability.unmarking_first.clear _
  · exact Nullability.unmarking_follow.clear _

/-! ### The steps with sets -/

variable (hm : Marked e)
include hm

/-- The first step starts behind a finished nullability step. -/
theorem startFirst_spec (hc : Coherent e t) (hn : t.nullabilityFinished = true) :
    ∃ p t', startFirst t = .ok p t' ∧ Coherent e t' ∧ t'.nullability = t.nullability ∧
      t'.first = some p ∧ p.finished = false ∧ t'.follow = none := by
  have hsame := sameMarks_clearFirst t.grammar
  have hv := hc.varies.trans hsame.varies
  have hmarked : Marked (clearFirst t.grammar) :=
    marked_of_sameMarks hsame (hc.exact h hn).toMarked
  obtain ⟨graph, seeds, p, hgraph, hseeds, hp, rfl, hrun, hsteady, hopen⟩ :=
    exists_firstRun h (Graph.firstLeaves_ne_nil h)
  let t' : Tutor := { grammar := clearFirst t.grammar, nullability := t.nullability, first := some p }
  refine ⟨p, t', ?_, ⟨hv, fun n hn => ?_, fun kind q hq => ?_⟩, rfl, rfl, hopen, rfl⟩
  · rw [startFirst, Outcome.run_bind_eq_ok]
    refine ⟨t, t, rfl, ?_⟩
    rw [Outcome.run_guard_eq_ok]
    refine ⟨by simp [hn], ?_⟩
    simp only [Outcome.run_bind_eq_ok, run_ofExcept_eq_ok]
    refine ⟨(), _, rfl, _, _, rfl, _, _, ⟨?_, rfl⟩, _, _, ⟨hseeds, rfl⟩, p, _, ⟨hp, rfl⟩,
      (), t', rfl, rfl⟩
    rw [← hgraph]
    exact Graph.first_eq h hv hm hmarked
  · exact (hc.rounds n hn).of_sameMarks hsame
  · cases kind with
    | first =>
      obtain rfl := Option.some.inj hq
      exact ⟨hgraph, hrun, hsteady, fun hf => absurd (hopen.symm.trans hf) Bool.false_ne_true⟩
    | follow => cases hq

omit h hm in
theorem get?_setsById {p : Propagation} (hp : p.graph.Tidy) {b : String}
    (hb : b ∈ p.graph.groupIds) : (setsById p).get? b = some (p.computedOf b) := by
  have hlist : p.graph.groups.map (fun n => (n.id, p.computedOf n.id)) =
      p.graph.groupIds.map fun id => (id, p.computedOf id) := by
    rw [Graph.groupIds, List.map_map]
    rfl
  have hnodup : ((p.graph.groupIds.map fun id => (id, p.computedOf id)).map Prod.fst).Nodup := by
    rw [List.map_map]
    simpa [Function.comp_def] using hp.groupIds_nodup
  rw [setsById, hlist, Assoc.ofList_eq hnodup, Assoc.get?_mk_map, if_pos hb]

/-- The follow step starts behind a finished first step, and fits if the marks are right. -/
theorem startFollow_spec (hc : Coherent e t) (hmarked : Marked t.grammar)
    (hf : t.setStepFinished .first = true) :
    ∃ p t', startFollow t = .ok p t' ∧ Coherent e t' ∧ t'.nullability = t.nullability ∧
      t'.first = t.first ∧ t'.follow = some p ∧ p.finished = false := by
  obtain ⟨first, hfirst, hdone⟩ := exists_of_setStepFinished hf
  have hfirst : t.first = some first := hfirst
  have hfit := hc.first hfirst
  obtain ⟨hactive, hfound⟩ := hfit.found hdone
  have hsame := sameMarks_clearFollow t.grammar
  have hv := hc.varies.trans hsame.varies
  obtain ⟨graph, start, p, hgraph, hstart, hp, rfl, hrun, hsteady, hopen⟩ :=
    exists_followRun h hm hfit.run hfit.steady hactive fun _ hb => get?_setsById hfit.run.graph.tidy hb
  let t' : Tutor := { t with grammar := clearFollow t.grammar, follow := some p }
  have hfound' : FirstsFound e (clearFollow t.grammar) := hfound.of_first_eq (first_clearFollow _)
  refine ⟨p, t', ?_, ⟨hv, fun n hn => ?_, fun kind q hq => ?_⟩, rfl, rfl, rfl, hopen⟩
  · rw [startFollow, Outcome.run_bind_eq_ok]
    refine ⟨t, t, rfl, ?_⟩
    rw [hfirst]
    simp only
    rw [Outcome.run_guard_eq_ok]
    refine ⟨by simp [hdone], ?_⟩
    simp only [Outcome.run_bind_eq_ok, run_ofExcept_eq_ok]
    refine ⟨(), _, rfl, _, _, rfl, _, _, ⟨?_, rfl⟩, start, _, ⟨hstart, rfl⟩, p, _, ⟨hp, rfl⟩,
      (), t', rfl, rfl⟩
    rw [← hgraph]
    exact Graph.follow_eq h hv hm (marked_of_sameMarks hsame hmarked) _
  · exact (hc.rounds n hn).of_sameMarks hsame
  · cases kind with
    | first =>
      obtain rfl := Option.some.inj (hfirst.symm.trans hq)
      exact hfit.of_firsts fun _ => hfound'
    | follow =>
      obtain rfl := Option.some.inj hq
      exact ⟨⟨_, hfit.graph, hgraph⟩, hrun, hsteady, hfound',
        fun hf => absurd (hopen.symm.trans hf) Bool.false_ne_true⟩

/-! ### Results -/

theorem commit_spec (hc : Coherent e t) {kind : SetKind} {p : Propagation}
    (hp : SetsFit e t.grammar kind p) (ha : p.AllActive) :
    ∃ g, commit kind p t = .ok () { t with grammar := g } ∧ t.grammar.SameMarks g ∧
      (FirstsFound e t.grammar → FirstsFound e g) ∧
      (FollowsFound e t.grammar → FollowsFound e g) ∧
      SetsFit e g kind { p with finished := true } := by
  have hv : p.Varies { p with finished := true } := ⟨p.states, true, rfl⟩
  have hstandard := hc.varies.standard h
  cases kind with
  | first =>
    have hp : FirstFits e t.grammar p := hp
    have hsame := sameMarks_commitFirst p t.grammar
    have hfound : FirstsFound e (commitFirst p t.grammar) := by
      intro s hs x
      have hs' : t.grammar.Registered s := by
        rwa [Grammar.Registered, hc.varies.nonterminalList, hc.varies.terminalList]
      obtain ⟨b, hb⟩ := hp.run.graph.exists_leafIn s.name
        (Graph.mem_firstLeaves.mpr (.inl ⟨s, hs, rfl⟩))
      rw [first_commitFirst hstandard hs' hp.run.graph hb]
      exact hp.run.mem_computedOf_iff h hm hp.steady ha hs hb
    refine ⟨_, rfl, hsame, fun _ => hfound, fun hw => ?_, hp.graph, hp.run.of_varies hv,
      hp.steady.setFinished true, fun _ => ⟨ha, hfound⟩⟩
    exact hw.of_follow_eq (follow_commitFirst p _)
  | follow =>
    have hp : FollowFits e t.grammar p := hp
    obtain ⟨_, hgraph⟩ := id hp.run.graph
    obtain ⟨g, hcommit, hset, hfollow⟩ :=
      commitFollow_spec hgraph hstandard hc.varies.nonterminalList
    have hfound : FollowsFound e g := by
      intro s hs x
      obtain ⟨b, hb⟩ := hgraph.exists_leafIn (Naming.followLeaf s.name)
        (Graph.mem_followLeaves.mpr (.inr (.inr ⟨s, hs, rfl⟩)))
      rw [hfollow s hs b hb]
      exact hp.run.mem_computedOf_iff h hm hp.steady ha hs hb
    have hfirsts : FirstsFound e t.grammar → FirstsFound e g := fun hf => hf.of_first_eq hset.first
    exact ⟨g, hcommit, hset.marks, hfirsts, fun _ => hfound, hp.graph, hp.run.of_varies hv,
      hp.steady.setFinished true, hfirsts hp.firsts, fun _ => ⟨ha, hfound⟩⟩

omit h hm in
theorem setStep_putSetStep (t : Tutor) (kind : SetKind) (p : Propagation) :
    (t.putSetStep kind p).setStep kind = some p := by
  cases kind <;> rfl

omit h hm in
theorem setStep_putSetStep_of_ne {kind other : SetKind} (hne : other ≠ kind) (p : Propagation) :
    (t.putSetStep kind p).setStep other = t.setStep other := by
  cases kind <;> cases other <;> first | rfl | exact absurd rfl hne

omit h hm in
theorem nullability_putSetStep (kind : SetKind) (p : Propagation) :
    (t.putSetStep kind p).nullability = t.nullability := by
  cases kind <;> rfl

/-- A check is never refused; if it is correct the step is finished. -/
theorem checkSets_spec (hc : Coherent e t) {kind : SetKind} {p : Propagation}
    (hp : t.setStep kind = some p) :
    ∃ verdict t', checkSets kind p t = .ok verdict t' ∧ p.check = .ok verdict ∧ Coherent e t' ∧
      t'.nullability = t.nullability ∧
      (∀ other, other ≠ kind → t'.setStep other = t.setStep other) ∧
      (verdict = .correct → t'.setStepFinished kind = true) := by
  have hfit := hc.sets kind p hp
  obtain ⟨verdict, hcheck⟩ : ∃ verdict, p.check = .ok verdict :=
    ⟨_, Propagation.check_eq hfit.steady.current⟩
  refine ⟨verdict, ?_⟩
  simp only [checkSets, Outcome.run_bind_eq_ok, run_ofExcept_eq_ok]
  by_cases hwrite : (verdict.ok && !p.finished) = true
  · -- the sets are written
    simp only [Bool.and_eq_true, Bool.not_eq_true', Verdict.ok_iff] at hwrite
    obtain ⟨rfl, hopen⟩ := hwrite
    have hactive := (Propagation.check_eq_correct_iff hfit.steady.current).mp hcheck
    obtain ⟨g, hcommit, hsame, hfirst, hfollow, hdone⟩ := commit_spec h hm hc hfit hactive
    have hput := hc.putGrammar hsame.varies (fun _ hn => hn.of_sameMarks hsame) hfirst hfollow
    refine ⟨_, ⟨_, t, ⟨hcheck, rfl⟩, ?_⟩, hcheck, hput.putSetStep hdone,
      nullability_putSetStep kind _, fun other hne => ?_, fun _ => ?_⟩
    · rw [hopen]
      simp only [Verdict.ok_correct, Bool.not_false, Bool.and_self, if_true,
        Outcome.run_bind_eq_ok]
      exact ⟨(), _, hcommit, (), _, rfl, rfl⟩
    · rw [setStep_putSetStep_of_ne hne]
      cases other <;> rfl
    · rw [setStepFinished, setStep_putSetStep]
      rfl
  · -- the step stays as it is
    refine ⟨t, ⟨verdict, t, ⟨hcheck, rfl⟩, ?_⟩, hcheck, hc, rfl, fun _ _ => rfl, ?_⟩
    · rw [if_neg hwrite]
      rfl
    · rintro rfl
      rw [setStepFinished, hp]
      simpa using hwrite

/-- A step that was not finished before is solved correctly. -/
theorem settleSets_spec (hc : Coherent e t) (kind : SetKind) {p : Propagation}
    (hp : t.setStep kind = some p) (hopen : p.finished = false) :
    ∃ t', settleSets kind p t = .ok .correct t' ∧ Coherent e t' ∧
      t'.nullability = t.nullability ∧
      (∀ other, other ≠ kind → t'.setStep other = t.setStep other) ∧
      t'.setStepFinished kind = true := by
  have hfit := hc.sets kind p hp
  have hput : Coherent e (t.putSetStep kind p.solve.2) := hc.putSetStep hfit.solve
  obtain ⟨verdict, t', hrun, hcheck, hc', hnull, hother, hdone⟩ :=
    checkSets_spec h hm hput (setStep_putSetStep t kind p.solve.2)
  have hactive := Propagation.allActive_solve hfit.steady.current.tracked hfit.acyclic hopen
  obtain rfl : verdict = .correct := by
    rw [(Propagation.check_eq_correct_iff hfit.solve.steady.current).mpr hactive] at hcheck
    exact (Except.ok.inj hcheck).symm
  refine ⟨t', ?_, hc', hnull.trans (nullability_putSetStep ..), fun other hne => ?_, hdone rfl⟩
  · rw [settleSets, Outcome.run_bind_eq_ok]
    exact ⟨(), _, rfl, hrun⟩
  · rw [hother other hne, setStep_putSetStep_of_ne hne]

end Standard

end Lookahead.Tutor
