import Lookahead.Proofs.Outcome
import Lookahead.Proofs.Propagation.State

/-!
# Faithful states

In a faithful state every group holds the present sets of its active senders and nothing
of the others. Since a group can be toggled only while its successors are inactive, what
they have sent on cannot be out of date; so accepted clicks and resets keep a state
faithful, in whatever order they come and whether or not a group was complete.
-/

namespace Lookahead.Propagation

variable {p : Propagation}

/-- Every group holds the present sets of its active senders and nothing of the others. -/
def Faithful (p : Propagation) : Prop :=
  ∀ q t, (q, t) ∈ p.links → p.held q t = if p.isActive q then some (p.computedOf q) else none

/-- No successor of a group is active. -/
def Free (p : Propagation) (id : String) : Prop := ∀ t, (id, t) ∈ p.links → p.isActive t = false

/-- Toggling a group whose successors are inactive keeps a state faithful. -/
theorem Faithful.toggle (h : p.Faithful) (hw : p.Wired) (hc : p.Consistent) {id : String}
    (hid : id ∈ p.order) (hfree : p.Free id) (active : Bool) :
    (p.toggle id active (if active then some (p.computedOf id) else none)).Faithful := by
  intro q t hl
  rw [links_toggle] at hl
  rw [held_toggle hc hw hl, isActive_toggle hc hid]
  by_cases hq : id = q
  · subst hq
    rw [if_pos rfl, if_pos rfl, computedOf_toggle fun hself => hw.ne _ hself rfl]
  · rw [if_neg hq, if_neg hq, h q t hl]
    by_cases hlq : (id, q) ∈ p.links
    · simp [hfree q hlq]
    · rw [computedOf_toggle hlq]

theorem send_eq (p : Propagation) (id : String) :
    p.send id = p.toggle id true (if true then some (p.computedOf id) else none) := rfl

theorem withdraw_eq (p : Propagation) (id : String) :
    p.withdraw id = p.toggle id false (if false then some (p.computedOf id) else none) := rfl

/-! ### Accepted clicks -/

theorem find?_isActive_eq_none {id : String} :
    (p.targets id).find? p.isActive = none ↔ p.Free id := by
  simp [List.find?_eq_none, mem_targets, Free]

theorem guarded_eq_ok {id : String} {s : GroupState} :
    p.guarded id = .ok s ↔ p.states.get? id = some s ∧ p.finished = false ∧ p.Free id := by
  have hstate : p.state id = .ok s ↔ p.states.get? id = some s := by
    unfold state
    cases p.states.get? id <;> simp
  unfold guarded
  simp only [Outcome.bind_eq_ok, Outcome.guard_eq_ok, ← find?_isActive_eq_none, ← hstate]
  constructor
  · rintro ⟨s', hs, hf, hm⟩
    cases ht : (p.targets id).find? p.isActive with
    | none =>
      rw [ht] at hm
      exact ⟨Outcome.pure_eq_ok.mp hm ▸ hs, by simpa using hf, rfl⟩
    | some t =>
      rw [ht] at hm
      exact (Outcome.throw_eq_ok.mp hm).elim
  · rintro ⟨hs, hf, ht⟩
    exact ⟨s, hs, by simp [hf], by rw [ht]; rfl⟩

theorem exists_guarded_iff {id : String} {c : GroupState → Prop} :
    (∃ s, p.guarded id = .ok s ∧ c s) ↔
      p.finished = false ∧ p.Free id ∧ ∃ s, p.states.get? id = some s ∧ c s := by
  constructor
  · rintro ⟨s, hg, hc⟩
    obtain ⟨hs, hf, hfree⟩ := guarded_eq_ok.mp hg
    exact ⟨hf, hfree, s, hs, hc⟩
  · rintro ⟨hf, hfree, s, hs, hc⟩
    exact ⟨s, guarded_eq_ok.mpr ⟨hs, hf, hfree⟩, hc⟩

theorem exists_active_iff {id : String} {c : Bool → Prop} :
    (∃ s, p.states.get? id = some s ∧ c s.active) ↔ id ∈ p.states.keys ∧ c (p.isActive id) := by
  constructor
  · rintro ⟨s, hs, hc⟩
    exact ⟨Assoc.mem_keys_of_get? hs, isActive_eq hs ▸ hc⟩
  · rintro ⟨hk, hc⟩
    obtain ⟨s, hs⟩ := Assoc.exists_get?_of_mem_keys hk
    exact ⟨s, hs, isActive_eq hs ▸ hc⟩

/-- What an accepted activation presupposes and leaves. -/
theorem activate_eq_ok {id : String} {q : Propagation} :
    p.activate id = .ok q ↔ p.finished = false ∧ p.Free id ∧ id ∈ p.states.keys ∧
      p.isActive id = false ∧ p.send id = q := by
  unfold activate
  simp only [Outcome.bind_eq_ok, Outcome.guard_eq_ok, Outcome.pure_eq_ok, exists_guarded_iff]
  rw [exists_active_iff (c := fun active => ¬active = true ∧ p.send id = q), Bool.not_eq_true]

/-- What an accepted deactivation presupposes and leaves. -/
theorem deactivate_eq_ok {id : String} {q : Propagation} :
    p.deactivate id = .ok q ↔ p.finished = false ∧ p.Free id ∧ id ∈ p.states.keys ∧
      p.isActive id = true ∧ p.withdraw id = q := by
  unfold deactivate
  simp only [Outcome.bind_eq_ok, Outcome.guard_eq_ok, Outcome.pure_eq_ok, exists_guarded_iff]
  rw [exists_active_iff (c := fun active => ¬(!active) = true ∧ p.withdraw id = q),
    Bool.not_eq_true, Bool.not_eq_false']

/-! ### Steady propagations -/

/-- Every group holds what its senders have, and its set is computed from this. -/
structure Current (p : Propagation) : Prop where
  wired : p.Wired
  consistent : p.Consistent
  faithful : p.Faithful

theorem Current.toggle (h : p.Current) {id : String} (hid : id ∈ p.order) (hfree : p.Free id)
    (active : Bool) :
    (p.toggle id active (if active then some (p.computedOf id) else none)).Current :=
  ⟨h.wired.toggle .., h.consistent.toggle ..,
    h.faithful.toggle h.wired h.consistent hid hfree active⟩

/-- What a group of a current state holds of its senders. -/
theorem Current.get?_incoming (h : p.Current) {id q : String} {s : GroupState}
    (hs : p.states.get? id = some s) (hq : q ∈ p.sources id) : s.incoming.get? q =
      some (if p.isActive q then some (p.computedOf q) else none) := by
  obtain ⟨held, hheld⟩ := Assoc.exists_get?_of_mem_keys (h.consistent.senders hs ▸ hq)
  have hfaithful := h.faithful q id (mem_sources.mp hq)
  rw [held_eq hs, hheld, Option.join_some] at hfaithful
  rw [hheld, hfaithful]

/-- The invariant of a propagation: the groups that are active from the beginning send to no one,
and every group holds what its senders have. -/
structure Steady (p : Propagation) : Prop where
  wired : p.Wired
  consistent : p.Consistent
  faithful : p.Faithful
  sinks : ∀ id ∈ p.initiallyActive, id ∈ p.order ∧ ∀ t, (id, t) ∉ p.links

theorem Steady.current (h : p.Steady) : p.Current := ⟨h.wired, h.consistent, h.faithful⟩

/-- A propagation of the same groups, links and seeds with other states. -/
def Varies (p q : Propagation) : Prop := ∃ states finished, q = { p with states, finished }

namespace Varies

variable {q r : Propagation}

theorem refl (p : Propagation) : p.Varies p := ⟨p.states, p.finished, rfl⟩

theorem trans (h : p.Varies q) (h' : q.Varies r) : p.Varies r := by
  obtain ⟨states, finished, rfl⟩ := h
  obtain ⟨states', finished', rfl⟩ := h'
  exact ⟨states', finished', rfl⟩

theorem symm (h : p.Varies q) : q.Varies p := by
  obtain ⟨_, _, rfl⟩ := h
  exact ⟨p.states, p.finished, rfl⟩

theorem eq (h : p.Varies q) (hstates : q.states = p.states) (hfinished : q.finished = p.finished) :
    q = p := by
  obtain ⟨_, _, rfl⟩ := h
  obtain rfl : _ = p.states := hstates
  obtain rfl : _ = p.finished := hfinished
  rfl

theorem graph (h : p.Varies q) : q.graph = p.graph := by
  obtain ⟨_, _, rfl⟩ := h
  rfl

theorem order (h : p.Varies q) : q.order = p.order := by
  obtain ⟨_, _, rfl⟩ := h
  rfl

theorem links (h : p.Varies q) : q.links = p.links := by
  obtain ⟨_, _, rfl⟩ := h
  rfl

theorem seedOf (h : p.Varies q) (id : String) : q.seedOf id = p.seedOf id := by
  obtain ⟨_, _, rfl⟩ := h
  rfl

theorem initiallyActive (h : p.Varies q) : q.initiallyActive = p.initiallyActive := by
  obtain ⟨_, _, rfl⟩ := h
  rfl

theorem toggle (h : p.Varies q) (id : String) (active : Bool) (names : Option NameSet) :
    p.Varies (q.toggle id active names) := by
  refine h.trans ⟨(q.toggle id active names).states, q.finished, ?_⟩
  exact toggle_frame q id active names

theorem wired (h : p.Varies q) (hw : p.Wired) : q.Wired := by
  obtain ⟨_, _, rfl⟩ := h
  exact ⟨hw.order_nodup, hw.source_mem, hw.target_mem, hw.ne, hw.links_nodup⟩

end Varies

theorem Steady.toggle (h : p.Steady) {id : String} (hid : id ∈ p.order) (hfree : p.Free id)
    (active : Bool) :
    (p.toggle id active (if active then some (p.computedOf id) else none)).Steady := by
  have hcurrent := h.current.toggle hid hfree active
  refine ⟨hcurrent.wired, hcurrent.consistent, hcurrent.faithful, ?_⟩
  rw [initiallyActive_toggle, order_toggle, links_toggle]
  exact h.sinks

theorem Steady.setFinished (h : p.Steady) (finished : Bool) :
    Steady { p with finished := finished } :=
  ⟨⟨h.wired.order_nodup, h.wired.source_mem, h.wired.target_mem, h.wired.ne, h.wired.links_nodup⟩,
    ⟨h.consistent.keys, h.consistent.seed, h.consistent.senders, h.consistent.computed⟩,
    h.faithful, h.sinks⟩

theorem Steady.activate (h : p.Steady) {id : String} {q : Propagation}
    (hq : p.activate id = .ok q) : q.Steady := by
  obtain ⟨_, hfree, hk, _, rfl⟩ := activate_eq_ok.mp hq
  rw [send_eq]
  exact h.toggle (h.consistent.keys ▸ hk) hfree true

theorem Steady.deactivate (h : p.Steady) {id : String} {q : Propagation}
    (hq : p.deactivate id = .ok q) : q.Steady := by
  obtain ⟨_, hfree, hk, _, rfl⟩ := deactivate_eq_ok.mp hq
  rw [withdraw_eq]
  exact h.toggle (h.consistent.keys ▸ hk) hfree false

theorem varies_activate {id : String} {q : Propagation} (hq : p.activate id = .ok q) :
    p.Varies q := by
  obtain ⟨_, _, _, _, rfl⟩ := activate_eq_ok.mp hq
  exact (Varies.refl p).toggle ..

theorem varies_deactivate {id : String} {q : Propagation} (hq : p.deactivate id = .ok q) :
    p.Varies q := by
  obtain ⟨_, _, _, _, rfl⟩ := deactivate_eq_ok.mp hq
  exact (Varies.refl p).toggle ..

/-! ### Resets -/

/-- The state in which no group is active yet. -/
def cleared (p : Propagation) : Propagation :=
  { p with finished := false, states := ⟨p.order.map fun id => (id, p.initialState id)⟩ }

theorem reset_eq (p : Propagation) : p.reset = p.initiallyActive.foldl send p.cleared := rfl

theorem varies_cleared (p : Propagation) : p.Varies p.cleared := ⟨_, false, rfl⟩

theorem get?_cleared {id : String} {s : GroupState} :
    p.cleared.states.get? id = some s ↔ id ∈ p.order ∧ s = p.initialState id := by
  rw [cleared, Assoc.get?_mk_map]
  by_cases h : id ∈ p.order
  · simp [h, eq_comm]
  · simp [h]

theorem received_initialState (p : Propagation) (id : String) :
    (p.initialState id).received = [] := by
  simp [initialState, GroupState.received, Assoc.values]

theorem consistent_cleared (p : Propagation) : p.cleared.Consistent := by
  refine ⟨?_, ?_, ?_, ?_⟩
  · simp [cleared, Assoc.keys, Function.comp_def]
  · intro id s hs
    obtain ⟨_, rfl⟩ := get?_cleared.mp hs
    rfl
  · intro id s hs
    obtain ⟨_, rfl⟩ := get?_cleared.mp hs
    have hsources : p.cleared.sources id = p.sources id := rfl
    simp [hsources, initialState, Assoc.keys, Function.comp_def]
  · intro id s hs
    obtain ⟨_, rfl⟩ := get?_cleared.mp hs
    rw [recompute_eq_iff, received_initialState]
    rfl

theorem isActive_cleared (p : Propagation) (id : String) : p.cleared.isActive id = false := by
  cases h : p.cleared.states.get? id with
  | none => simp [isActive, h]
  | some s =>
    obtain ⟨_, rfl⟩ := get?_cleared.mp h
    rw [isActive_eq h]
    rfl

theorem held_cleared (p : Propagation) (q id : String) : p.cleared.held q id = none := by
  cases h : p.cleared.states.get? id with
  | none => simp [held, h]
  | some s =>
    obtain ⟨_, rfl⟩ := get?_cleared.mp h
    rw [held_eq h, initialState, Assoc.get?_mk_map (p.sources id) fun _ => (none : Option NameSet)]
    by_cases hq : q ∈ p.sources id <;> simp [hq]

theorem faithful_cleared (p : Propagation) : p.cleared.Faithful := by
  intro q t _
  rw [held_cleared, isActive_cleared]
  rfl

/-- What holds of the cleared state and is kept by every sending holds after a reset. -/
theorem reset_induction {motive : Propagation → Prop} (cleared : motive p.cleared)
    (step : ∀ {q id}, p.Varies q → id ∈ p.initiallyActive → motive q → motive (q.send id)) :
    motive p.reset := by
  have hall {ids : List String} (hids : ∀ id ∈ ids, id ∈ p.initiallyActive) {q : Propagation}
      (hv : p.Varies q) (hq : motive q) : motive (ids.foldl send q) := by
    induction ids generalizing q with
    | nil => exact hq
    | cons id ids ih =>
      obtain ⟨hid, hrest⟩ := List.forall_mem_cons.mp hids
      exact ih hrest (hv.toggle ..) (step hv hid hq)
  exact hall (fun _ hid => hid) (varies_cleared p) cleared

theorem varies_reset (p : Propagation) : p.Varies p.reset :=
  reset_induction (varies_cleared p) fun _ _ hq => hq.toggle ..

theorem finished_reset (p : Propagation) : p.reset.finished = false := by
  refine reset_induction (motive := fun q => q.finished = false) rfl fun {q id} _ _ hq => ?_
  rwa [send, finished_toggle]

/-- A reset forgets the states. -/
theorem Varies.reset_eq {q : Propagation} (h : p.Varies q) : q.reset = p.reset := by
  obtain ⟨_, _, rfl⟩ := h
  rfl

/-- Groups that send to no one can be activated in any state. -/
theorem steady_reset (hw : p.Wired)
    (hsinks : ∀ id ∈ p.initiallyActive, id ∈ p.order ∧ ∀ t, (id, t) ∉ p.links) :
    p.reset.Steady := by
  refine reset_induction ⟨(varies_cleared p).wired hw, consistent_cleared p, faithful_cleared p,
    hsinks⟩ fun {q id} hv hid hq => ?_
  obtain ⟨horder, hsink⟩ := hsinks id hid
  rw [send_eq]
  refine hq.toggle (by rwa [hv.order]) (fun t hl => ?_) true
  rw [hv.links] at hl
  exact absurd hl (hsink t)

theorem Steady.reset (h : p.Steady) : p.reset.Steady := steady_reset h.wired h.sinks

end Lookahead.Propagation
