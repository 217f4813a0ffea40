import Lookahead.Proofs.Graph.Agreement
import Lookahead.Proofs.Tutor.Commit

/-!
# Coherent tutors

Marks and sets are kept in the grammar, while each step has its own switch that says that
it is finished. In a coherent tutor the two agree: behind a finished step the grammar holds
its results, and a step with sets has the graph that belongs to right marks. Nothing is said
of the marks while the nullability step is open, also if steps behind it are there.
-/

namespace Lookahead.Tutor

open Nullability (Marked Exact Sound)

variable {e g g' : Grammar} {t : Tutor}

/-! ### Steps and the results behind them -/

def FirstsFound (e g : Grammar) : Prop :=
  ∀ s, e.Registered s → ∀ x, x ∈ g.first s ↔ e.FirstOf s x

def FollowsFound (e g : Grammar) : Prop :=
  ∀ s ∈ e.nonterminalList, ∀ x, x ∈ g.follow s ↔ e.FollowOf s x

structure RoundsFit (e g : Grammar) (n : NullabilityStep) : Prop where
  graph : Graph.nullability e = .ok n.graph
  sound : n.rounds.Sound g
  fixpoint : n.finished = true → n.rounds.fixpoint = true

structure FirstFits (e g : Grammar) (p : Propagation) : Prop where
  graph : Graph.first e = .ok p.graph
  run : FirstRun e p
  steady : p.Steady
  found : p.finished = true → p.AllActive ∧ FirstsFound e g

/-- The first sets stand behind the follow step, even if the first step was taken back since. -/
structure FollowFits (e g : Grammar) (p : Propagation) : Prop where
  graph : ∃ first, Graph.first e = .ok first ∧ Graph.follow e first = .ok p.graph
  run : FollowRun e p
  steady : p.Steady
  firsts : FirstsFound e g
  found : p.finished = true → p.AllActive ∧ FollowsFound e g

def SetsFit (e g : Grammar) : SetKind → Propagation → Prop
  | .first => FirstFits e g
  | .follow => FollowFits e g

/-- A tutor whose steps fit its grammar; `e` is a form of the grammar with right marks. -/
structure Coherent (e : Grammar) (t : Tutor) : Prop where
  varies : e.Varies t.grammar
  rounds : ∀ n, t.nullability = some n → RoundsFit e t.grammar n
  sets : ∀ kind p, t.setStep kind = some p → SetsFit e t.grammar kind p

theorem Coherent.ofGrammar (h : e.Varies g) : Coherent e { grammar := g } := by
  refine ⟨h, fun n hn => ?_, fun kind p hp => ?_⟩
  · cases hn
  · cases kind <;> cases hp

theorem Coherent.first (h : Coherent e t) {p : Propagation} (hp : t.first = some p) :
    FirstFits e t.grammar p := h.sets .first p hp

theorem Coherent.follow (h : Coherent e t) {p : Propagation} (hp : t.follow = some p) :
    FollowFits e t.grammar p := h.sets .follow p hp

theorem exists_of_nullabilityFinished (h : t.nullabilityFinished = true) :
    ∃ n, t.nullability = some n ∧ n.finished = true := by
  rw [nullabilityFinished] at h
  cases hn : t.nullability with
  | none => simp [hn] at h
  | some n => exact ⟨n, rfl, by simpa [hn] using h⟩

theorem exists_of_setStepFinished {kind : SetKind}
    (h : t.setStepFinished kind = true) : ∃ p, t.setStep kind = some p ∧ p.finished = true := by
  rw [setStepFinished] at h
  cases hp : t.setStep kind with
  | none => simp [hp] at h
  | some p => exact ⟨p, rfl, by simpa [hp] using h⟩

/-- Behind a finished nullability step the marks are right. -/
theorem Coherent.exact (hc : Coherent e t) (h : e.Standard)
    (hn : t.nullabilityFinished = true) : Exact t.grammar := by
  obtain ⟨n, hn, hf⟩ := exists_of_nullabilityFinished hn
  have hfit := hc.rounds n hn
  exact hfit.sound.exact (hc.varies.standard h).toLawful.wellFormed (hfit.fixpoint hf)

/-! ### Changes of a propagation -/

section Propagations

variable {p q : Propagation} {kind : SetKind}

theorem SetsFit.steady (h : SetsFit e g kind p) : p.Steady := by
  cases kind with
  | first => exact FirstFits.steady h
  | follow => exact FollowFits.steady h

theorem SetsFit.acyclic (h : SetsFit e g kind p) : p.Acyclic := by
  cases kind with
  | first => exact (FirstFits.run h).acyclic
  | follow => exact (FollowFits.run h).acyclic

theorem SetsFit.allActive (h : SetsFit e g kind p) (hf : p.finished = true) : p.AllActive := by
  cases kind with
  | first => exact (FirstFits.found h hf).1
  | follow => exact (FollowFits.found h hf).1

/-- A step stays one while its groups are changed, if it is finished then only as it was before. -/
theorem SetsFit.of_varies (h : SetsFit e g kind p) (hv : p.Varies q) (hq : q.Steady)
    (hdone : q.finished = true → p.finished = true ∧ q.AllActive) : SetsFit e g kind q := by
  cases kind with
  | first =>
    have h : FirstFits e g p := h
    refine ⟨by rw [hv.graph]; exact h.graph, h.run.of_varies hv, hq, fun hf => ?_⟩
    exact ⟨(hdone hf).2, (h.found (hdone hf).1).2⟩
  | follow =>
    have h : FollowFits e g p := h
    refine ⟨by rw [hv.graph]; exact h.graph, h.run.of_varies hv, hq, h.firsts, fun hf => ?_⟩
    exact ⟨(hdone hf).2, (h.found (hdone hf).1).2⟩

theorem SetsFit.solve (h : SetsFit e g kind p) : SetsFit e g kind p.solve.2 := by
  refine h.of_varies (Propagation.varies_solve h.steady.current.tracked)
    (h.steady.solve h.acyclic) fun hf => ?_
  rw [Propagation.finished_solve] at hf
  refine ⟨hf, ?_⟩
  rw [Propagation.solve, if_pos hf]
  exact h.allActive hf

theorem SetsFit.reset (h : SetsFit e g kind p) : SetsFit e g kind p.reset := by
  refine h.of_varies (Propagation.varies_reset p) h.steady.reset fun hf => ?_
  rw [Propagation.finished_reset] at hf
  cases hf

theorem SetsFit.activate (h : SetsFit e g kind p) {id : String} (hq : p.activate id = .ok q) :
    SetsFit e g kind q := by
  refine h.of_varies (Propagation.varies_activate hq) (h.steady.activate hq) fun hf => ?_
  obtain ⟨hopen, _, _, _, rfl⟩ := Propagation.activate_eq_ok.mp hq
  rw [Propagation.send, Propagation.finished_toggle, hopen] at hf
  cases hf

theorem SetsFit.deactivate (h : SetsFit e g kind p) {id : String} (hq : p.deactivate id = .ok q) :
    SetsFit e g kind q := by
  refine h.of_varies (Propagation.varies_deactivate hq) (h.steady.deactivate hq) fun hf => ?_
  obtain ⟨hopen, _, _, _, rfl⟩ := Propagation.deactivate_eq_ok.mp hq
  rw [Propagation.withdraw, Propagation.finished_toggle, hopen] at hf
  cases hf

end Propagations

/-! ### Changes of the grammar -/

theorem FirstsFound.of_first_eq (h : FirstsFound e g) (hf : g'.first = g.first) :
    FirstsFound e g' := by
  intro s hs x
  rw [hf]
  exact h s hs x

theorem FollowsFound.of_follow_eq (h : FollowsFound e g) (hf : g'.follow = g.follow) :
    FollowsFound e g' := by
  intro s hs x
  rw [hf]
  exact h s hs x

theorem FirstFits.of_firsts {p : Propagation} (h : FirstFits e g p)
    (hfirst : FirstsFound e g → FirstsFound e g') : FirstFits e g' p :=
  ⟨h.graph, h.run, h.steady, fun hf => (h.found hf).imp_right hfirst⟩

theorem FollowFits.of_sets {p : Propagation} (h : FollowFits e g p)
    (hfirst : FirstsFound e g → FirstsFound e g')
    (hfollow : FollowsFound e g → FollowsFound e g') : FollowFits e g' p :=
  ⟨h.graph, h.run, h.steady, hfirst h.firsts, fun hf => (h.found hf).imp_right hfollow⟩

/-- Steps fit as long as sets that were found stay so. -/
theorem SetsFit.of_sets {kind : SetKind} {p : Propagation} (h : SetsFit e g kind p)
    (hfirst : FirstsFound e g → FirstsFound e g')
    (hfollow : FollowsFound e g → FollowsFound e g') : SetsFit e g' kind p := by
  cases kind with
  | first => exact FirstFits.of_firsts h hfirst
  | follow => exact FollowFits.of_sets h hfirst hfollow

section Marks

variable (hs : g.SameMarks g')
include hs

theorem marked_of_sameMarks (h : Marked g) : Marked g' := by
  refine ⟨fun s hreg => ?_, by rw [hs.nullable]; exact h.epsilon⟩
  rw [Grammar.Registered, hs.varies.nonterminalList, hs.varies.terminalList] at hreg
  rw [hs.nullable, hs.varies.productionList]
  exact h.nullable s hreg

theorem sound_of_sameMarks {n : Nullability} (h : n.Sound g) : n.Sound g' := by
  have hlist := hs.varies.productionList
  have hempty := hs.emptiable
  refine ⟨fun s hreg => ?_, ?_, ?_, ?_, ?_, ?_, ?_⟩
  · rw [Grammar.Registered, hs.varies.nonterminalList, hs.varies.terminalList] at hreg
    rw [hs.nullable, hlist]
    exact h.nullable s hreg
  · rw [hempty, hlist]
    exact h.emptiable
  · rw [hs.nullable]
    exact h.epsilon
  · rw [hempty, hs.nullable, hlist]
    exact h.left
  · rw [hlist]
    exact h.worklist
  · rw [hempty, hlist]
    exact h.remaining
  · rw [hempty, hs.nullable, hlist]
    exact h.fixpoint

theorem RoundsFit.of_sameMarks {n : NullabilityStep} (h : RoundsFit e g n) : RoundsFit e g' n :=
  ⟨h.graph, sound_of_sameMarks hs h.sound, h.fixpoint⟩

end Marks

end Lookahead.Tutor
