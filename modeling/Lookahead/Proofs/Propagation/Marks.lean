import Lookahead.Proofs.Propagation.Replay

/-!
# States by their marks

Without circles among the groups a current state is known by the marks of its groups. So a
click is undone by the opposite click, whatever else was clicked before, and two activations
can be exchanged if neither group sends to the other. From a start over such groups every
sequence of clicks leads to a current state.
-/

namespace Lookahead.Propagation

variable {p q r : Propagation} {id other : String}

/-! ### What a click leaves -/

theorem Current.deactivate (h : p.Current) (hq : p.deactivate id = .ok q) : q.Current := by
  obtain ⟨_, hfree, hk, _, rfl⟩ := deactivate_eq_ok.mp hq
  rw [withdraw_eq]
  exact h.toggle (h.consistent.keys ▸ hk) hfree false

theorem isActive_of_deactivate (hc : p.Consistent) (h : p.deactivate id = .ok q) (t : String) :
    q.isActive t = true ↔ t ≠ id ∧ p.isActive t = true := by
  obtain ⟨_, _, hk, _, rfl⟩ := deactivate_eq_ok.mp h
  rw [withdraw, isActive_toggle hc (hc.keys ▸ hk)]
  by_cases ht : id = t
  · simp [ht]
  · simp [ht, Ne.symm ht]

theorem finished_of_activate (h : p.activate id = .ok q) : q.finished = p.finished := by
  obtain ⟨_, _, _, _, rfl⟩ := activate_eq_ok.mp h
  exact finished_toggle ..

theorem finished_of_deactivate (h : p.deactivate id = .ok q) : q.finished = p.finished := by
  obtain ⟨_, _, _, _, rfl⟩ := deactivate_eq_ok.mp h
  exact finished_toggle ..

/-! ### States that differ in marks -/

/-- Two current states of the same groups with the same marks are the same. -/
theorem Current.eq_of_marks (h : p.Current) (h' : q.Current) (ha : p.Acyclic) (hv : p.Varies q)
    (hf : q.finished = p.finished) (hmarks : ∀ t, p.isActive t = true ↔ q.isActive t = true) :
    q = p := by
  have hstates : p.states = q.states := by
    apply states_eq_of_marks h h' ha hv
    intro t _
    exact Bool.eq_iff_iff.mpr (hmarks t)
  exact hv.eq hstates.symm hf

/-- Where more groups are active no set is smaller. -/
theorem Current.subset_of_marks (h : p.Current) (h' : q.Current) (ha : p.Acyclic)
    (hv : p.Varies q) (hmarks : ∀ t, p.isActive t = true → q.isActive t = true) (t x : String)
    (hx : x ∈ p.computedOf t) : x ∈ q.computedOf t := by
  have ht : t ∈ p.order := mem_order_of_mem_computedOf h.consistent hx
  exact computedOf_subset_of_marks h h' ha hv (fun t _ => hmarks t) ht x hx

theorem Acyclic.of_varies (ha : p.Acyclic) (hv : p.Varies q) : q.Acyclic := by
  unfold Acyclic
  rw [hv.links]
  exact ha

/-! ### Undoing -/

/-- The successors of a group that may be clicked stay inactive. -/
theorem Free.of_activate (hc : p.Consistent) (h : p.activate id = .ok q)
    (hfree : p.Free other) (hl : (other, id) ∉ p.links) : q.Free other := by
  intro t ht
  rw [(varies_activate h).links] at ht
  by_contra hactive
  rcases (isActive_of_activate hc h t).mp (by simpa using hactive) with rfl | hbefore
  · exact hl ht
  · rw [hfree t ht] at hbefore
    cases hbefore

theorem Current.deactivate_of_activate (h : p.Current) (ha : p.Acyclic)
    (hq : p.activate id = .ok q) : q.deactivate id = .ok p := by
  obtain ⟨hopen, hfree, hk, hoff, -⟩ := activate_eq_ok.mp hq
  have hv : p.Varies q := varies_activate hq
  have hcurrent : q.Current := h.activate hq
  have hmarks := isActive_of_activate h.consistent hq
  have hself : (id, id) ∉ p.links := fun hl => h.wired.ne _ hl rfl
  have hback : q.deactivate id = .ok (q.withdraw id) := by
    apply deactivate_eq_ok.mpr
    refine ⟨(finished_of_activate hq).trans hopen, hfree.of_activate h.consistent hq hself,
      ?_, (hmarks id).mpr (.inl rfl), rfl⟩
    rw [hcurrent.consistent.keys, hv.order, ← h.consistent.keys]
    exact hk
  have hsame : q.withdraw id = p := by
    apply h.eq_of_marks (hcurrent.deactivate hback) ha (hv.trans (varies_deactivate hback))
    · rw [finished_of_deactivate hback, finished_of_activate hq]
    · intro t
      rw [isActive_of_deactivate hcurrent.consistent hback, hmarks]
      by_cases ht : t = id
      · simp [ht, hoff]
      · simp [ht]
  rw [hback, hsame]

theorem Current.activate_of_deactivate (h : p.Current) (ha : p.Acyclic)
    (hq : p.deactivate id = .ok q) : q.activate id = .ok p := by
  obtain ⟨hopen, hfree, hk, hon, -⟩ := deactivate_eq_ok.mp hq
  have hv : p.Varies q := varies_deactivate hq
  have hcurrent : q.Current := h.deactivate hq
  have hmarks := isActive_of_deactivate h.consistent hq
  have hoff : q.isActive id = false := by
    rw [← Bool.not_eq_true, hmarks]
    exact fun hne => hne.1 rfl
  have hback : q.activate id = .ok (q.send id) := by
    apply activate_eq_ok.mpr
    refine ⟨(finished_of_deactivate hq).trans hopen, fun t hl => ?_, ?_, hoff, rfl⟩
    · rw [hv.links] at hl
      rw [← Bool.not_eq_true, hmarks, hfree t hl]
      exact fun hactive => Bool.false_ne_true hactive.2
    · rw [hcurrent.consistent.keys, hv.order, ← h.consistent.keys]
      exact hk
  have hsame : q.send id = p := by
    apply h.eq_of_marks (hcurrent.activate hback) ha (hv.trans (varies_activate hback))
    · rw [finished_of_activate hback, finished_of_deactivate hq]
    · intro t
      rw [isActive_of_activate hcurrent.consistent hback, hmarks]
      by_cases ht : t = id
      · simp [ht, hon]
      · simp [ht]
  rw [hback, hsame]

/-! ### Exchanging -/

/-- A second group that could be activated at first still can be if it does not send to the first
one. -/
theorem Current.exists_activate (h : p.Current) (hq : p.activate id = .ok q)
    (hr : p.activate other = .ok r) (hne : other ≠ id) (hl : (other, id) ∉ p.links) :
    q.activate other = .ok (q.send other) := by
  obtain ⟨hopen, -⟩ := activate_eq_ok.mp hq
  obtain ⟨-, hfree, hk, hoff, -⟩ := activate_eq_ok.mp hr
  have hcurrent : q.Current := h.activate hq
  apply activate_eq_ok.mpr
  refine ⟨(finished_of_activate hq).trans hopen, hfree.of_activate h.consistent hq hl, ?_,
    ?_, rfl⟩
  · rw [hcurrent.consistent.keys, (varies_activate hq).order, ← h.consistent.keys]
    exact hk
  · rw [← Bool.not_eq_true, isActive_of_activate h.consistent hq, hoff]
    rintro (he | hactive)
    · exact hne he
    · cases hactive

/-- Two groups that could both be activated can be activated in either order, to the same end. -/
theorem Current.exists_both (h : p.Current) (ha : p.Acyclic) (hq : p.activate id = .ok q)
    (hr : p.activate other = .ok r) (hne : id ≠ other) (hl : (id, other) ∉ p.links)
    (hl' : (other, id) ∉ p.links) :
    ∃ last, q.activate other = .ok last ∧ r.activate id = .ok last := by
  have hfirst := h.exists_activate hq hr hne.symm hl'
  have hsecond := h.exists_activate hr hq hne hl
  have hcurrent : q.Current := h.activate hq
  have hcurrent' : r.Current := h.activate hr
  have hv : p.Varies (q.send other) := (varies_activate hq).trans (varies_activate hfirst)
  have hv' : p.Varies (r.send id) := (varies_activate hr).trans (varies_activate hsecond)
  have hsame : r.send id = q.send other := by
    apply (hcurrent.activate hfirst).eq_of_marks (hcurrent'.activate hsecond) (ha.of_varies hv)
      (hv.symm.trans hv')
    · rw [finished_of_activate hsecond, finished_of_activate hr, finished_of_activate hfirst,
        finished_of_activate hq]
    · intro t
      rw [isActive_of_activate hcurrent.consistent hfirst, isActive_of_activate h.consistent hq,
        isActive_of_activate hcurrent'.consistent hsecond, isActive_of_activate h.consistent hr]
      exact or_left_comm
  exact ⟨q.send other, hfirst, hsame ▸ hsecond⟩

/-- Of two activations in a row the second could have come first. -/
theorem Current.activate_first (h : p.Current) (hq : p.activate id = .ok q)
    (hr : q.activate other = .ok r) : other ≠ id ∧ (other, id) ∉ p.links ∧
      p.activate other = .ok (p.send other) := by
  obtain ⟨hopen, -⟩ := activate_eq_ok.mp hq
  obtain ⟨-, hfree, hk, hoff, -⟩ := activate_eq_ok.mp hr
  have hv : p.Varies q := varies_activate hq
  have hmarks := isActive_of_activate h.consistent hq
  have hkeep {t : String} (ht : q.isActive t = false) : t ≠ id ∧ p.isActive t = false := by
    rw [← Bool.not_eq_true, hmarks, not_or] at ht
    exact ⟨ht.1, by simpa using ht.2⟩
  have hbefore : p.Free other := fun t hl => (hkeep (hfree t (hv.links.symm ▸ hl))).2
  refine ⟨(hkeep hoff).1, fun hl => ?_, ?_⟩
  · exact (hkeep (hfree id (hv.links.symm ▸ hl))).1 rfl
  · apply activate_eq_ok.mpr
    refine ⟨hopen, hbefore, ?_, (hkeep hoff).2, rfl⟩
    rw [(h.activate hq).consistent.keys, hv.order, ← h.consistent.keys] at hk
    exact hk

/-- Two activations in a row can be exchanged if the first group does not send to the second. -/
theorem Current.exchange (h : p.Current) (ha : p.Acyclic) (hl : (id, other) ∉ p.links)
    (hq : p.activate id = .ok q) (hr : q.activate other = .ok r) :
    ∃ q', p.activate other = .ok q' ∧ q'.activate id = .ok r := by
  obtain ⟨hne, hl', hother⟩ := h.activate_first hq hr
  obtain ⟨last, hlast, hback⟩ := h.exists_both ha hq hother hne.symm hl hl'
  rw [hr] at hlast
  cases hlast
  exact ⟨p.send other, hother, hback⟩

/-! ### After any clicks -/

theorem Reached.trans (h : p.Reached q) (h' : q.Reached r) : p.Reached r := by
  induction h' with
  | start => exact h
  | click c _ accepted ih => exact ih.click c accepted

theorem Current.setFinished (h : p.Current) (finished : Bool) :
    Current { p with finished := finished } :=
  ⟨Varies.wired ⟨p.states, finished, rfl⟩ h.wired,
    ⟨h.consistent.keys, h.consistent.seed, h.consistent.senders, h.consistent.computed⟩, h.faithful⟩

/-- From a start over groups without circles, where those that are active from the beginning have
no senders, clicks lead to current states. -/
theorem Founded.current_of_reached {graph : Graph} {seeds : Assoc String NameSet}
    {ids : List String} {first : Propagation} (h : Founded graph ids)
    (hstart : start graph seeds ids = .ok first) (hp : first.Reached p) :
    p.Current ∧ p.Acyclic := by
  have hgroups : graph.groupIds.Nodup := h.nodup.sublist (List.filter_sublist.map Node.id)
  have hfresh := h.fresh hstart
  have hacyclic {p : Propagation} (hp : first.Reached p) : p.Acyclic :=
    (begun_of_reached hgroups hstart hp).1.isOver.acyclic h.acyclic
  refine ⟨?_, hacyclic hp⟩
  induction hp with
  | start => exact hfresh.current
  | @click p q c before accepted ih =>
    cases c with
    | activate id => exact ih.activate accepted
    | deactivate id => exact ih.deactivate accepted
    | solve =>
      obtain rfl := Except.ok.inj accepted
      cases hf : p.finished with
      | true => rwa [solve_of_finished hf]
      | false => exact ih.tracked.current_solve (hacyclic before) hf
    | reset =>
      obtain rfl := Except.ok.inj accepted
      rw [(replayed_of_start h hstart).2 p before]
      exact hfresh.current
    | finish =>
      obtain ⟨-, rfl⟩ := finish_eq_ok.mp accepted
      exact ih.setFinished true

end Lookahead.Propagation
