import Lookahead.Proofs.Propagation.Histories

/-!
# Solving click by click

Where the senders of active groups are active, a complete group that is not active has no
active successor, and what an active group has sent is what it has now. So the queue only
ever activates groups that a user could activate next, and no group sends twice: solving
from the start is a sequence of accepted clicks on groups that are ready.
-/

namespace Lookahead.Propagation

variable {p q r : Propagation} {id : String} {ids : List String}

/-! ### Ready groups -/

/-- A group is ready if it is not active and all its senders are. -/
theorem status_eq_ready_iff (h : p.Current) : p.status id = .ok .ready ↔
    id ∈ p.order ∧ p.isActive id = false ∧ ∀ a, (a, id) ∈ p.links → p.isActive a = true := by
  cases hs : p.states.get? id with
  | none =>
    have hid : id ∉ p.order := fun hid => by
      obtain ⟨s, hs'⟩ := exists_state h.consistent hid
      simp [hs] at hs'
    have herror : p.status id = .error (.breach (.unknownGroup id)) := by
      rw [status, state, hs]
      rfl
    simp [herror, hid]
  | some s =>
    have hid : id ∈ p.order := h.consistent.keys ▸ Assoc.mem_keys_of_get? hs
    have hcomplete : s.complete = true ↔ ∀ a, (a, id) ∈ p.links → p.isActive a = true := by
      rw [complete_iff h.consistent h.wired hs]
      refine forall_congr' fun a => imp_congr_right fun hl => ?_
      rw [h.faithful a id hl]
      cases p.isActive a <;> simp
    rw [status_eq hs, ← hcomplete, isActive_eq hs, statusOf]
    cases s.active <;> cases s.complete <;> simp [hid]

theorem isActive_of_activate (hc : p.Consistent) (h : p.activate id = .ok q) (t : String) :
    q.isActive t = true ↔ t = id ∨ p.isActive t = true := by
  obtain ⟨_, _, hk, _, rfl⟩ := activate_eq_ok.mp h
  rw [isActive_send hc (hc.keys ▸ hk)]
  by_cases ht : id = t
  · simp [ht]
  · simp [ht, Ne.symm ht]

theorem Current.activate (h : p.Current) (hq : p.activate id = .ok q) : q.Current := by
  obtain ⟨_, hfree, hk, _, rfl⟩ := activate_eq_ok.mp hq
  rw [send_eq]
  exact h.toggle (h.consistent.keys ▸ hk) hfree true

/-! ### Sequences of clicks -/

theorem Follows.concat (h : p.Follows ids q) (ready : q.status id = .ok .ready)
    (accepted : q.activate id = .ok r) : p.Follows (ids ++ [id]) r := by
  induction h with
  | nil => exact .cons ready accepted .nil
  | cons ready' accepted' _ ih => exact .cons ready' accepted' (ih ready accepted)

/-- What clicks on ready groups do: each activates one more group, behind its senders. -/
structure Ordered (p : Propagation) (ids : List String) (q : Propagation) : Prop where
  current : q.Current
  varies : p.Varies q
  active_iff : ∀ t, q.isActive t = true ↔ p.isActive t = true ∨ t ∈ ids
  inactive : ∀ t ∈ ids, t ∈ p.order ∧ p.isActive t = false
  nodup : ids.Nodup
  behind : ∀ {before id after}, ids = before ++ id :: after →
    ∀ a, (a, id) ∈ p.links → p.isActive a = true ∨ a ∈ before

theorem Ordered.cons (h : p.Current) (ready : p.status id = .ok .ready)
    (accepted : p.activate id = .ok q) (hrest : q.Ordered ids r) : p.Ordered (id :: ids) r := by
  obtain ⟨hid, hoff, hsenders⟩ := (status_eq_ready_iff h).mp ready
  have hactive := isActive_of_activate h.consistent accepted
  have hv := varies_activate accepted
  have hnew : ∀ t ∈ ids, t ∈ p.order ∧ ¬(t = id ∨ p.isActive t = true) := by
    intro t ht
    obtain ⟨horder, hoff⟩ := hrest.inactive t ht
    rw [← hactive, hoff]
    exact ⟨hv.order ▸ horder, Bool.false_ne_true⟩
  refine ⟨hrest.current, hv.trans hrest.varies, fun t => ?_,
    List.forall_mem_cons.mpr ⟨⟨hid, hoff⟩, fun t ht => ?_⟩,
    List.nodup_cons.mpr ⟨fun hm => (hnew id hm).2 (.inl rfl), hrest.nodup⟩, ?_⟩
  · rw [hrest.active_iff, hactive, List.mem_cons, or_assoc, or_left_comm]
  · exact ⟨(hnew t ht).1, by simpa using fun ha => (hnew t ht).2 (.inr ha)⟩
  · intro before t after hsplit a hl
    cases before with
    | nil =>
      obtain rfl : id = t := (List.cons.inj hsplit).1
      exact .inl (hsenders a hl)
    | cons u before =>
      obtain ⟨hhead, htail⟩ := List.cons.inj hsplit
      subst hhead
      rcases hrest.behind htail a (hv.links.symm ▸ hl) with ha | ha
      · rcases (hactive a).mp ha with rfl | ha
        · exact .inr (List.mem_cons_self ..)
        · exact .inl ha
      · exact .inr (List.mem_cons_of_mem _ ha)

theorem Follows.ordered (h : p.Current) (hq : p.Follows ids q) : p.Ordered ids q := by
  induction hq with
  | nil => exact ⟨h, .refl _, by simp, by simp, List.nodup_nil, by simp⟩
  | cons ready accepted _ ih => exact .cons h ready accepted (ih (h.activate accepted))

/-! ### The queue -/

/-- The senders of active groups are active. -/
def Supplied (p : Propagation) : Prop :=
  ∀ a t, (a, t) ∈ p.links → p.isActive t = true → p.isActive a = true

theorem Supplied.free (h : p.Supplied) (hoff : p.isActive id = false) : p.Free id := by
  intro t hl
  cases ht : p.isActive t with
  | true => rw [h id t hl ht] at hoff; cases hoff
  | false => rfl

theorem Supplied.activate (h : p.Supplied) (hp : p.Current) (ready : p.status id = .ok .ready)
    (accepted : p.activate id = .ok q) : q.Supplied := by
  have hactive := isActive_of_activate hp.consistent accepted
  intro a t hl ht
  rw [(varies_activate accepted).links] at hl
  rw [hactive] at ht ⊢
  rcases ht with rfl | ht
  · exact .inr (((status_eq_ready_iff hp).mp ready).2.2 a hl)
  · exact .inr (h a t hl ht)

/-- The invariant of the loop: it has done nothing but click on ready groups. -/
structure Worklist.Clicked (p : Propagation) (w : Worklist) : Prop where
  current : w.propagation.Current
  supplied : w.propagation.Supplied
  follows : p.Follows w.activated w.propagation
  opened : w.propagation.finished = false

theorem Worklist.Clicked.pop {w : Worklist} (h : w.Clicked p) : w.pop.Clicked p := by
  obtain ⟨queue, activated, q⟩ := w
  cases queue with
  | nil => exact h
  | cons id queue =>
    obtain ⟨hcurrent, hsupplied, hfollows, hopen⟩ := h
    obtain ⟨w, hpop, hcases⟩ := exists_popped hcurrent.wired hcurrent.consistent id queue activated
    rw [hpop]
    cases hcases with
    | drop => exact ⟨hcurrent, hsupplied, hfollows, hopen⟩
    | activate mem complete inactive =>
      have hready : q.status id = .ok .ready := by
        refine (status_eq_ready_iff hcurrent).mpr ⟨mem, inactive, fun a hl => ?_⟩
        have hheld := complete a hl
        rw [hcurrent.faithful a id hl] at hheld
        by_contra ha
        exact hheld (if_neg ha)
      have haccepted : q.activate id = .ok (q.send id) := activate_eq_ok.mpr
        ⟨hopen, hsupplied.free inactive, hcurrent.consistent.keys.symm ▸ mem, inactive, rfl⟩
      refine ⟨hcurrent.activate haccepted, hsupplied.activate hcurrent hready haccepted,
        hfollows.concat hready haccepted, ?_⟩
      exact (finished_toggle ..).trans hopen
    | resend mem active new =>
      obtain ⟨t, hl, hne⟩ := new
      rw [hcurrent.faithful id t hl, if_pos active] at hne
      exact absurd rfl hne

theorem Worklist.Clicked.run {w : Worklist} (h : w.Clicked p) (steps : Nat) :
    (w.run steps).Clicked p := by
  induction steps generalizing w with
  | zero => exact h
  | succ steps ih => exact ih h.pop

/-- Solving clicks on ready groups only. -/
theorem follows_solve (h : p.Current) (hs : p.Supplied) (hopen : p.finished = false) :
    p.Follows p.solve.1 p.solve.2 := by
  rw [solve_eq_run hopen]
  have hbegin : p.worklist.Clicked p := ⟨h, hs, .nil, hopen⟩
  exact (hbegin.run p.stepBound).follows

/-! ### From the start -/

/-- Groups without circles, and no group that is active from the beginning has a sender. -/
structure Founded (graph : Graph) (ids : List String) : Prop where
  nodup : graph.nodeIds.Nodup
  acyclic : graph.Acyclic
  sourceless : ∀ id ∈ ids, ∀ a, ¬graph.Joined a id

theorem isActive_foldl_send (hc : p.Consistent) (hids : ∀ id ∈ ids, id ∈ p.order) (t : String) :
    (ids.foldl send p).isActive t = true ↔ t ∈ ids ∨ p.isActive t = true := by
  induction ids generalizing p with
  | nil => simp
  | cons id ids ih =>
    obtain ⟨hid, hrest⟩ := List.forall_mem_cons.mp hids
    have hsend : (p.send id).Consistent := hc.toggle ..
    rw [List.foldl_cons, ih hsend (by rwa [order_send]), isActive_send hc hid, List.mem_cons]
    by_cases ht : id = t
    · simp [ht]
    · simp [ht, Ne.symm ht]

/-- After a reset exactly the groups that are active from the beginning are active. -/
theorem isActive_reset (hids : ∀ id ∈ p.initiallyActive, id ∈ p.order) (t : String) :
    p.reset.isActive t = true ↔ t ∈ p.initiallyActive := by
  rw [reset_eq, isActive_foldl_send (consistent_cleared p) hids, isActive_cleared]
  simp

theorem current_reset (hw : p.Wired) (hids : ∀ id ∈ p.initiallyActive, id ∈ p.order)
    (hsourceless : ∀ id ∈ p.initiallyActive, ∀ a, (a, id) ∉ p.links) : p.reset.Current := by
  suffices h : p.reset.Current ∧ ∀ t, p.reset.isActive t = true → t ∈ p.initiallyActive from h.1
  refine reset_induction (motive := fun q => q.Current ∧
    ∀ t, q.isActive t = true → t ∈ p.initiallyActive) ?_ fun {q id} hv hid ⟨hq, hactive⟩ => ?_
  · refine ⟨⟨(varies_cleared p).wired hw, consistent_cleared p, faithful_cleared p⟩, fun t ht => ?_⟩
    rw [isActive_cleared] at ht
    cases ht
  · have horder : id ∈ q.order := by
      rw [hv.order]
      exact hids id hid
    have hfree : q.Free id := by
      intro t hl
      rw [hv.links] at hl
      by_contra ht
      exact hsourceless t (hactive t (by simpa using ht)) id hl
    refine ⟨hq.toggle horder hfree true, fun t ht => ?_⟩
    rw [isActive_send hq.consistent horder] at ht
    by_cases hid' : id = t
    · exact hid' ▸ hid
    · exact hactive t (by rwa [if_neg hid'] at ht)

/-- What solving from the start gives: a list of all groups that were not active, each of them
once and behind its senders, and the state that clicks on these groups in turn lead to. -/
structure Replayed (p : Propagation) (graph : Graph) (ids : List String) : Prop where
  nodup : p.solve.1.Nodup
  mem_iff : ∀ id, id ∈ p.solve.1 ↔ id ∈ graph.groupIds ∧ id ∉ ids
  behind : ∀ {before id after}, p.solve.1 = before ++ id :: after →
    ∀ a, graph.Joined a id → a ∈ ids ∨ a ∈ before
  follows : p.Follows p.solve.1 p.solve.2

/-- How a propagation starts over such groups. -/
structure Fresh (p : Propagation) (graph : Graph) (seeds : Assoc String NameSet)
    (ids : List String) : Prop where
  isOver : p.Over graph seeds ids
  current : p.Current
  active_iff : ∀ t, p.isActive t = true ↔ t ∈ ids
  reset_eq : p.reset = p
  opened : p.finished = false

theorem Founded.fresh {graph : Graph} {seeds : Assoc String NameSet} (h : Founded graph ids)
    (hstart : start graph seeds ids = .ok p) : p.Fresh graph seeds ids := by
  have hgroups : graph.groupIds.Nodup := h.nodup.sublist (List.filter_sublist.map Node.id)
  have hstartable := startable_of_start hstart
  obtain ⟨r, hr, hover, hw⟩ := exists_start hgroups hstartable
  obtain rfl := Except.ok.inj (hr.symm.trans hstart)
  have hids : ∀ id ∈ r.initiallyActive, id ∈ r.order := by
    rw [hover.initiallyActive_eq, hover.order_eq]
    exact hstartable.active
  have hsourceless : ∀ id ∈ r.initiallyActive, ∀ a, (a, id) ∉ r.links := by
    intro id hid a hl
    rw [hover.initiallyActive_eq] at hid
    exact h.sourceless id hid a ((hover.mem_links a id).mp hl)
  have hv := varies_reset r
  refine ⟨hover.of_varies hv, current_reset hw hids hsourceless, fun t => ?_, hv.reset_eq,
    finished_reset r⟩
  rw [isActive_reset hids, hover.initiallyActive_eq]

theorem replayed_of_start {graph : Graph} {seeds : Assoc String NameSet}
    (h : Founded graph ids) (hstart : start graph seeds ids = .ok p) :
    p.Replayed graph ids ∧ ∀ q, p.Reached q → q.reset = p := by
  have hgroups : graph.groupIds.Nodup := h.nodup.sublist (List.filter_sublist.map Node.id)
  have hfresh := h.fresh hstart
  have hover := hfresh.isOver
  have hactive := hfresh.active_iff
  have hsupplied : p.Supplied := fun a t hl ht =>
    (h.sourceless t ((hactive t).mp ht) a ((hover.mem_links a t).mp hl)).elim
  have hfollows := follows_solve hfresh.current hsupplied hfresh.opened
  have hordered := hfollows.ordered hfresh.current
  have hall := allActive_solve hfresh.current.tracked (hover.acyclic h.acyclic) hfresh.opened
  refine ⟨⟨hordered.nodup, fun id => ?_, ?_, hfollows⟩, fun q hq => ?_⟩
  · have horder : id ∈ p.order ↔ id ∈ graph.groupIds := by
      rw [hover.order_eq]
      rfl
    rw [← horder, ← hactive]
    constructor
    · intro hm
      obtain ⟨hid, hoff⟩ := hordered.inactive id hm
      exact ⟨hid, by simp [hoff]⟩
    · rintro ⟨hid, hoff⟩
      rw [← hordered.varies.order] at hid
      exact ((hordered.active_iff id).mp (hall id hid)).resolve_left hoff
  · intro before id after hsplit a hj
    rw [← hactive]
    exact hordered.behind hsplit a ((hover.mem_links a id).mpr hj)
  · exact (begun_of_reached hgroups hstart hq).2.reset_eq.trans hfresh.reset_eq

end Lookahead.Propagation
