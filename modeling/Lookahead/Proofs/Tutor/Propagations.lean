import Lookahead.Proofs.Propagation.Marks
import Lookahead.Proofs.Tutor.Histories

/-!
# The propagations of a tutor

The propagations of a tutor are replayable for every grammar, even one that was changed while
the steps were there. So solving a step can be replayed click by click, and the opposite click
undoes a click.
-/

namespace Lookahead.Tutor

open Propagation (Founded)

variable {t : Tutor}

/-- Over groups without circles, of which those that are active from the beginning have no senders,
solving from the start gives a list that can be replayed by clicks on ready groups, and resetting
leads back to the start. The propagations of all tutors are of this kind. -/
theorem solve_replayed :
    (∀ graph seeds ids first, Founded graph ids →
      Propagation.start graph seeds ids = .ok first →
        first.Replayed graph ids ∧ ∀ p, first.Reached p → p.reset = first) ∧
    ∀ t, Reached t → ∀ kind p, t.setStep kind = some p → p.Replayable :=
  ⟨fun _ _ _ _ => Propagation.replayed_of_start,
    fun _ ht kind _ hp => ht.replayable.setStep kind hp⟩

/-- The follow step of `S -> a`, reset and solved once more. -/
theorem solve_replayed_sample : ∃ g t p, Grammar.ofText "S -> a" = .ok g ∧
    ofGrammar g = .ok t ∧ (t.run [.solveAll]).setStep .follow = some p ∧ p.reset.solve.1.Nodup ∧
      p.reset.Follows p.reset.solve.1 p.reset.solve.2 := by
  have hread : (Grammar.ofText "S -> a").toOption.any (fun g =>
      (ofGrammar g).toOption.any fun t => (t.run [.solveAll]).follow.isSome) = true := by
    decide +kernel
  obtain ⟨g, hg, hread⟩ := Option.any_eq_true _ _ |>.mp hread
  obtain ⟨t, ht, hread⟩ := Option.any_eq_true _ _ |>.mp hread
  obtain ⟨p, hp⟩ := Option.isSome_iff_exists.mp hread
  have hg := Outcome.eq_ok_of_toOption hg
  have ht := Outcome.eq_ok_of_toOption ht
  have hsolved : Reached (t.run [.solveAll]) := (Reached.new (.text hg) ht).run _
  obtain ⟨graph, seeds, ids, first, hfounded, hstart, hreached⟩ :=
    solve_replayed.2 _ hsolved .follow p hp
  obtain ⟨hreplayed, hreset⟩ := solve_replayed.1 graph seeds ids first hfounded hstart
  refine ⟨g, t, p, hg, ht, hp, ?_⟩
  rw [hreset p hreached]
  exact ⟨hreplayed.nodup, hreplayed.follows⟩

theorem Reached.current (h : Reached t) (kind : SetKind) {first p : Propagation}
    (hfirst : t.setStep kind = some first) (hp : first.Reached p) : p.Current ∧ p.Acyclic := by
  obtain ⟨graph, seeds, ids, start, hfounded, hstart, hreached⟩ :=
    h.replayable.setStep kind hfirst
  exact hfounded.current_of_reached hstart (hreached.trans hp)

/-- After whatever clicks in a step with sets, an accepted activation takes no name out of a set
and deactivating the group at once leads back to the same state; the other way round an accepted
deactivation adds no name to a set and activating the group leads back. Two activations can be
exchanged if neither group sends to the other, be they accepted one after the other or each for
itself. -/
theorem clicks_undone (ht : Reached t) (kind : SetKind) {first p : Propagation}
    (hfirst : t.setStep kind = some first) (hp : first.Reached p) :
    (∀ id q, p.activate id = .ok q →
      (∀ v x, x ∈ p.computedOf v → x ∈ q.computedOf v) ∧ q.deactivate id = .ok p) ∧
    (∀ id q, p.deactivate id = .ok q →
      (∀ v x, x ∈ q.computedOf v → x ∈ p.computedOf v) ∧ q.activate id = .ok p) ∧
    (∀ id other q r, (id, other) ∉ p.links → p.activate id = .ok q → q.activate other = .ok r →
      ∃ q', p.activate other = .ok q' ∧ q'.activate id = .ok r) ∧
    ∀ id other q r, id ≠ other → (id, other) ∉ p.links → (other, id) ∉ p.links →
      p.activate id = .ok q → p.activate other = .ok r →
        ∃ last, q.activate other = .ok last ∧ r.activate id = .ok last := by
  obtain ⟨h, ha⟩ := ht.current kind hfirst hp
  refine ⟨fun id q hq => ⟨?_, h.deactivate_of_activate ha hq⟩,
    fun id q hq => ⟨?_, h.activate_of_deactivate ha hq⟩,
    fun _ _ _ _ hl hq hr => h.exchange ha hl hq hr,
    fun _ _ _ _ hne hl hl' hq hr => h.exists_both ha hq hr hne hl hl'⟩
  · apply h.subset_of_marks (h.activate hq) ha (Propagation.varies_activate hq)
    intro v hv
    exact (Propagation.isActive_of_activate h.consistent hq v).mpr (.inr hv)
  · have hv : p.Varies q := Propagation.varies_deactivate hq
    apply (h.deactivate hq).subset_of_marks h (ha.of_varies hv) hv.symm
    intro v hv
    exact ((Propagation.isActive_of_deactivate h.consistent hq v).mp hv).2

/-- In the first step of a grammar the groups of the leaves of two terminals are activated, and the
first of them is deactivated again. -/
theorem clicks_undone_sample : ∃ g t p q r, Grammar.ofText "S -> A b\nA -> a" = .ok g ∧
    ofGrammar g = .ok t ∧
    (t.run [.startNullability, .solveRounds, .startFirst]).setStep .first = some p ∧
    p.activate "FirstNode13" = .ok q ∧ q.deactivate "FirstNode13" = .ok p ∧
    q.activate "FirstNode12" = .ok r ∧
    ∃ q', p.activate "FirstNode12" = .ok q' ∧ q'.activate "FirstNode13" = .ok r := by
  have hread : (Grammar.ofText "S -> A b\nA -> a").toOption.any (fun g =>
      (ofGrammar g).toOption.any fun t =>
        (t.run [.startNullability, .solveRounds, .startFirst]).first.any fun p =>
          decide (("FirstNode13", "FirstNode12") ∉ p.links) &&
            (p.activate "FirstNode13").toOption.any fun q =>
              (q.activate "FirstNode12").toOption.isSome) = true := by
    decide +kernel
  obtain ⟨g, hg, hread⟩ := Option.any_eq_true _ _ |>.mp hread
  obtain ⟨t, ht, hread⟩ := Option.any_eq_true _ _ |>.mp hread
  obtain ⟨p, hp, hread⟩ := Option.any_eq_true _ _ |>.mp hread
  obtain ⟨hl, hread⟩ := Bool.and_eq_true _ _ |>.mp hread
  obtain ⟨q, hq, hread⟩ := Option.any_eq_true _ _ |>.mp hread
  obtain ⟨r, hr⟩ := Option.isSome_iff_exists.mp hread
  have hg := Outcome.eq_ok_of_toOption hg
  have ht := Outcome.eq_ok_of_toOption ht
  have hq := Outcome.eq_ok_of_toOption hq
  have hr := Outcome.eq_ok_of_toOption hr
  have hreached : Reached (t.run [.startNullability, .solveRounds, .startFirst]) :=
    (Reached.new (.text hg) ht).run _
  obtain ⟨hundo, -, hexchange, -⟩ := clicks_undone hreached .first hp .start
  exact ⟨g, t, p, q, r, hg, ht, hp, hq, (hundo _ q hq).2, hr,
    hexchange _ _ q r (of_decide_eq_true hl) hq hr⟩

end Lookahead.Tutor
