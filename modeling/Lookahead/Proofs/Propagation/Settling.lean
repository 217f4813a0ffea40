import Lookahead.Proofs.Propagation.Clicks
import Lookahead.Propagation.Worklist
import Mathlib.Algebra.Order.BigOperators.Group.List
import Mathlib.Data.List.Perm.Subperm
import Mathlib.Logic.Relation
import Mathlib.Tactic.Ring

/-!
# Solving reaches the end

While groups are settled their sets only grow, and what a group holds of a sender is an
earlier set of it. Every sending marks a group or brings a held set nearer to the names
that occur at all, so the bound on the steps is never reached and every group comes to
rest: it is active with its set delivered, or it still waits for a sender. Without circles
among the links no group can wait, so all are active and the state is faithful.
-/

namespace Lookahead

namespace NameSet

variable {s t : NameSet}

/-- A part of a set has no more names than the set. -/
theorem length_le_of_subset (h : ∀ z ∈ s, z ∈ t) : s.names.length ≤ t.names.length :=
  (List.Nodup.subperm s.nodup_names h).length_le

/-- A part of a set that is not the whole set is smaller. -/
theorem length_lt_of_subset (h : ∀ z ∈ s, z ∈ t) (hne : s ≠ t) :
    s.names.length < t.names.length := by
  refine Nat.lt_of_not_le fun hle => hne (ext_mem fun z => ⟨h z, fun hz => ?_⟩)
  exact ((List.Nodup.subperm s.nodup_names h).perm_of_length_le hle).mem_iff.mpr hz

end NameSet

namespace Propagation

open Relation (TransGen)

variable {p : Propagation}

/-- What a group holds of a sender is an earlier set of it, and nothing iff the sender is
inactive. -/
structure Growing (p : Propagation) : Prop where
  sent : ∀ {q t}, (q, t) ∈ p.links → ((p.held q t).isSome = true ↔ p.isActive q = true)
  earlier : ∀ {q t names}, (q, t) ∈ p.links → p.held q t = some names →
    ∀ x ∈ names, x ∈ p.computedOf q

theorem Faithful.growing (h : p.Faithful) : p.Growing := by
  refine ⟨fun {q t} hl => ?_, fun {q t names} hl hheld x hx => ?_⟩
  · rw [h q t hl]
    cases p.isActive q <;> simp
  · rw [h q t hl] at hheld
    split at hheld
    · rw [Option.some.inj hheld]
      exact hx
    · cases hheld

/-- No computed set has a name outside of a set. -/
def Within (p : Propagation) (all : NameSet) : Prop :=
  ∀ id ∈ p.order, ∀ x ∈ p.computedOf id, x ∈ all

/-! ### Sending -/

section Sending

variable {id : String}

theorem isActive_send (hc : p.Consistent) (hid : id ∈ p.order) (t : String) :
    (p.send id).isActive t = if id = t then true else p.isActive t :=
  isActive_toggle hc hid t true _

theorem held_send (hc : p.Consistent) (hw : p.Wired) {q t : String} (hl : (q, t) ∈ p.links) :
    (p.send id).held q t = if id = q then some (p.computedOf id) else p.held q t :=
  held_toggle hc hw hl true _

theorem order_send : (p.send id).order = p.order := order_toggle ..

theorem links_send : (p.send id).links = p.links := links_toggle ..

/-- What a group has computed after a group has sent. -/
theorem mem_computedOf_send (hc : p.Consistent) (hw : p.Wired) {t x : String}
    (ht : t ∈ p.order) : x ∈ (p.send id).computedOf t ↔
      x ∈ p.seedOf t ∨ ∃ q names, (q, t) ∈ p.links ∧
        (if id = q then some (p.computedOf id) else p.held q t) = some names ∧ x ∈ names := by
  have hmem := mem_computedOf (p := p.send id) (x := x) (hc.toggle ..) (hw.toggle ..)
    (by rwa [order_send])
  have hseed : (p.send id).seedOf t = p.seedOf t := by
    rw [seedOf, send, seeds_toggle, seedOf]
  rw [hmem, hseed, links_send]
  refine or_congr_right (exists_congr fun q => exists_congr fun names =>
    and_congr_right fun hl => ?_)
  rw [held_send hc hw hl]

/-- Sets grow when a group sends. -/
theorem Growing.computedOf_subset_send (h : p.Growing) (hw : p.Wired) (hc : p.Consistent)
    {t x : String} (ht : t ∈ p.order) (hx : x ∈ p.computedOf t) :
    x ∈ (p.send id).computedOf t := by
  rw [mem_computedOf_send hc hw ht]
  rcases (mem_computedOf hc hw ht).mp hx with hx | ⟨q, names, hl, hheld, hx⟩
  · exact .inl hx
  · by_cases hq : id = q
    · subst hq
      exact .inr ⟨id, _, hl, if_pos rfl, h.earlier hl hheld x hx⟩
    · exact .inr ⟨q, names, hl, (if_neg hq).trans hheld, hx⟩

theorem Growing.send (h : p.Growing) (hw : p.Wired) (hc : p.Consistent) (hid : id ∈ p.order) :
    (p.send id).Growing := by
  refine ⟨fun {q t} hl => ?_, fun {q t names} hl hheld x hx => ?_⟩
  · rw [links_send] at hl
    rw [held_send hc hw hl, isActive_send hc hid]
    by_cases hq : id = q
    · simp [hq]
    · simp only [if_neg hq]
      exact h.sent hl
  · rw [links_send] at hl
    rw [held_send hc hw hl] at hheld
    have hq : x ∈ p.computedOf q := by
      by_cases hq : id = q
      · rw [if_pos hq] at hheld
        rw [← hq, Option.some.inj hheld]
        exact hx
      · rw [if_neg hq] at hheld
        exact h.earlier hl hheld x hx
    exact h.computedOf_subset_send hw hc (hw.source_mem _ hl) hq

theorem Within.send {all : NameSet} (h : p.Within all) (hg : p.Growing) (hw : p.Wired)
    (hc : p.Consistent) : (p.send id).Within all := by
  intro t ht x hx
  rw [order_send] at ht
  rcases (mem_computedOf_send hc hw ht).mp hx with hx | ⟨q, names, hl, hheld, hx⟩
  · exact h t ht x ((mem_computedOf hc hw ht).mpr (.inl hx))
  · refine h q (hw.source_mem _ hl) x ?_
    by_cases hq : id = q
    · rw [if_pos hq] at hheld
      rw [← hq, Option.some.inj hheld]
      exact hx
    · rw [if_neg hq] at hheld
      exact hg.earlier hl hheld x hx

end Sending

/-! ### Groups at rest -/

/-- A group still waits for a sender, or it is active and its successors hold its set. -/
def Quiet (p : Propagation) (id : String) : Prop :=
  (∃ q, (q, id) ∈ p.links ∧ p.held q id = none) ∨
    p.isActive id = true ∧ ∀ t, (id, t) ∈ p.links → p.held id t = some (p.computedOf id)

theorem complete_iff (hc : p.Consistent) (hw : p.Wired) {id : String} {s : GroupState}
    (hs : p.states.get? id = some s) :
    s.complete = true ↔ ∀ q, (q, id) ∈ p.links → p.held q id ≠ none := by
  have hnodup : s.incoming.keys.Nodup := hc.senders hs ▸ hw.sources_nodup id
  simp only [GroupState.complete, List.all_eq_true]
  constructor
  · intro h q hl
    obtain ⟨v, hv⟩ := Assoc.exists_get?_of_mem_keys (m := s.incoming) (k := q)
      (by rw [hc.senders hs]; exact mem_sources.mpr hl)
    have hsome := h v (Assoc.mem_values_of_get? hv)
    rw [held_eq hs, hv, Option.join_some]
    exact Option.isSome_iff_ne_none.mp hsome
  · intro h v hv
    obtain ⟨q, hq⟩ := Assoc.exists_get?_of_mem_values hnodup hv
    have hl : (q, id) ∈ p.links := by
      rw [← mem_sources, ← hc.senders hs]
      exact Assoc.mem_keys_of_get? hq
    have hne := h q hl
    rw [held_eq hs, hq, Option.join_some] at hne
    exact Option.isSome_iff_ne_none.mpr hne

theorem isDelivered_iff (hc : p.Consistent) (hw : p.Wired) {id : String} {s : GroupState}
    (hs : p.states.get? id = some s) :
    p.isDelivered id s = true ↔
      ∀ t, (id, t) ∈ p.links → p.held id t = some (p.computedOf id) := by
  simp only [isDelivered, List.all_eq_true, mem_targets, computedOf_eq hs]
  refine forall_congr' fun t => imp_congr_right fun hl => ?_
  obtain ⟨r, hr⟩ := exists_state hc (hw.target_mem _ hl)
  rw [held_eq hr, hr, Option.any_some, decide_eq_true_eq, Option.join_eq_some_iff]

/-- After a sending every group is as quiet as before, unless it has received a set. -/
theorem Quiet.send {id u : String} (h : p.Quiet u) (hw : p.Wired) (hc : p.Consistent)
    (hid : id ∈ p.order) (hu : (id, u) ∉ p.links) : (p.send id).Quiet u := by
  rcases h with ⟨q, hl, hheld⟩ | ⟨ha, hd⟩
  · refine .inl ⟨q, by rwa [links_send], ?_⟩
    rw [held_send hc hw hl, if_neg, hheld]
    rintro rfl
    exact hu hl
  · have hkeep : (p.send id).computedOf u = p.computedOf u := computedOf_toggle hu ..
    refine .inr ⟨?_, fun t hl => ?_⟩
    · rw [isActive_send hc hid, ha, ite_self]
    · rw [links_send] at hl
      rw [held_send hc hw hl, hkeep]
      by_cases hid' : id = u
      · subst hid'
        exact if_pos rfl
      · exact (if_neg hid').trans (hd t hl)

/-- The group that has sent is quiet. -/
theorem quiet_send_self {id : String} (hw : p.Wired) (hc : p.Consistent) (hid : id ∈ p.order) :
    (p.send id).Quiet id := by
  refine .inr ⟨by rw [isActive_send hc hid, if_pos rfl], fun t hl => ?_⟩
  rw [links_send] at hl
  have hkeep : (p.send id).computedOf id = p.computedOf id :=
    computedOf_toggle (fun hself => hw.ne _ hself rfl) ..
  rw [held_send hc hw hl, if_pos rfl, hkeep]

/-! ### The bound on the steps -/

/-- The room that is left between a held set and all names. -/
def room (all : NameSet) (held : Option NameSet) : Nat :=
  all.names.length - held.elim 0 fun names => names.names.length

/-- What sendings use up: groups that are not active and room of held sets. -/
def unsettled (p : Propagation) (all : NameSet) : Nat :=
  (p.order.map fun id => if p.isActive id then 0 else 1).sum +
    (p.links.map fun l => room all (p.held l.1 l.2)).sum

/-- The invariant of the loop. -/
structure Underway (p : Propagation) (all : NameSet) : Prop where
  wired : p.Wired
  consistent : p.Consistent
  growing : p.Growing
  within : p.Within all

variable {all : NameSet}

theorem Underway.send (h : p.Underway all) {id : String} (hid : id ∈ p.order) :
    (p.send id).Underway all :=
  ⟨h.wired.toggle .., h.consistent.toggle .., h.growing.send h.wired h.consistent hid,
    h.within.send h.growing h.wired h.consistent⟩

theorem mark_send_le (hc : p.Consistent) {id : String} (hid : id ∈ p.order) (t : String) :
    (if (p.send id).isActive t then 0 else 1) ≤ if p.isActive t then 0 else 1 := by
  rw [isActive_send hc hid]
  by_cases ht : id = t <;> simp [ht]

theorem room_send_le (h : p.Underway all) {id : String} {l : String × String}
    (hl : l ∈ p.links) : room all ((p.send id).held l.1 l.2) ≤ room all (p.held l.1 l.2) := by
  rw [held_send h.consistent h.wired hl]
  split
  · rename_i hid
    cases hheld : p.held l.1 l.2 with
    | none => simp [room]
    | some names =>
      have hle := NameSet.length_le_of_subset (h.growing.earlier hl hheld)
      rw [← hid] at hle
      simp only [room, Option.elim_some]
      omega
  · exact Nat.le_refl _

/-- A sending that marks a group or delivers something new uses up a part of what is left. -/
theorem unsettled_send_lt (h : p.Underway all) {id : String} (hid : id ∈ p.order)
    (hnew : p.isActive id = false ∨
      ∃ t, (id, t) ∈ p.links ∧ p.isActive id = true ∧ p.held id t ≠ some (p.computedOf id)) :
    (p.send id).unsettled all < p.unsettled all := by
  have hmarks : ((p.send id).order.map fun t => if (p.send id).isActive t then 0 else 1).sum ≤
      (p.order.map fun t => if p.isActive t then 0 else 1).sum := by
    rw [order_send]
    exact List.sum_le_sum fun t _ => mark_send_le h.consistent hid t
  have hrooms : ((p.send id).links.map fun l => room all ((p.send id).held l.1 l.2)).sum ≤
      (p.links.map fun l => room all (p.held l.1 l.2)).sum := by
    rw [links_send]
    exact List.sum_le_sum fun l hl => room_send_le h hl
  rcases hnew with ha | ⟨t, hl, ha, hne⟩
  · have hlt : ((p.send id).order.map fun t => if (p.send id).isActive t then 0 else 1).sum <
        (p.order.map fun t => if p.isActive t then 0 else 1).sum := by
      rw [order_send]
      refine List.sum_lt_sum _ _ (fun t _ => mark_send_le h.consistent hid t) ⟨id, hid, ?_⟩
      simp [isActive_send h.consistent hid, ha]
    simp only [unsettled]
    omega
  · have hlt : ((p.send id).links.map fun l => room all ((p.send id).held l.1 l.2)).sum <
        (p.links.map fun l => room all (p.held l.1 l.2)).sum := by
      rw [links_send]
      refine List.sum_lt_sum _ _ (fun l hl => room_send_le h hl) ⟨(id, t), hl, ?_⟩
      obtain ⟨names, hheld⟩ := Option.isSome_iff_exists.mp ((h.growing.sent hl).mpr ha)
      have hsub := h.growing.earlier hl hheld
      have hlt := NameSet.length_lt_of_subset hsub fun he => hne (he ▸ hheld)
      have hle := NameSet.length_le_of_subset (h.within id hid)
      rw [held_send h.consistent h.wired hl, if_pos rfl, hheld]
      simp only [room, Option.elim_some]
      omega
    simp only [unsettled]
    omega

theorem length_targets_le (p : Propagation) (id : String) :
    (p.targets id).length ≤ p.links.length := by
  rw [targets, List.length_map]
  exact List.length_filter_le ..

/-- The steps that suffice for a state and a queue. -/
def stepsLeft (p : Propagation) (all : NameSet) (queue : List String) : Nat :=
  p.unsettled all * (p.links.length + 1) + queue.length

theorem stepsLeft_send_lt {id : String} (queue : List String)
    (hlt : (p.send id).unsettled all < p.unsettled all) :
    (p.send id).stepsLeft all (queue ++ p.targets id) < p.stepsLeft all (id :: queue) := by
  have hlen := length_targets_le p id
  have hmul := Nat.mul_le_mul_right (p.links.length + 1) (Nat.succ_le_of_lt hlt)
  rw [Nat.succ_mul] at hmul
  rw [stepsLeft, stepsLeft, links_send, List.length_append, List.length_cons]
  omega

/-! ### The loop -/

/-- Every group that is not quiet is in the queue. -/
def Queued (p : Propagation) (queue : List String) : Prop :=
  ∀ id ∈ p.order, id ∈ queue ∨ p.Quiet id

theorem Queued.drop {id : String} {queue : List String} (h : p.Queued (id :: queue))
    (hquiet : id ∈ p.order → p.Quiet id) : p.Queued queue := by
  intro u hu
  rcases h u hu with hm | hm
  · rcases List.mem_cons.mp hm with rfl | hm
    · exact .inr (hquiet hu)
    · exact .inl hm
  · exact .inr hm

theorem Queued.send {id : String} {queue : List String} (h : p.Queued (id :: queue))
    (hw : p.Wired) (hc : p.Consistent) (hid : id ∈ p.order) :
    (p.send id).Queued (queue ++ p.targets id) := by
  intro u hu
  rw [order_send] at hu
  by_cases hl : (id, u) ∈ p.links
  · exact .inl (List.mem_append_right _ (mem_targets.mpr hl))
  · rcases h u hu with hm | hm
    · rcases List.mem_cons.mp hm with rfl | hm
      · exact .inr (quiet_send_self hw hc hid)
      · exact .inl (List.mem_append_left _ hm)
    · exact .inr (hm.send hw hc hid hl)

/-- What the loop gives: the same propagation with all groups quiet. -/
structure Settled (p q : Propagation) (all : NameSet) : Prop where
  varies : p.Varies q
  underway : q.Underway all
  quiet : ∀ id ∈ q.order, q.Quiet id

/-- What taking the first group off the queue does: a quiet group is left out, and a complete one
sends its set if it is not active yet or if a successor does not hold this set. -/
inductive Popped (p : Propagation) (id : String) (queue activated : List String) : Worklist → Prop
  | drop (quiet : id ∈ p.order → p.Quiet id) : Popped p id queue activated ⟨queue, activated, p⟩
  | activate (mem : id ∈ p.order) (complete : ∀ q, (q, id) ∈ p.links → p.held q id ≠ none)
      (inactive : p.isActive id = false) :
      Popped p id queue activated ⟨queue ++ p.targets id, activated ++ [id], p.send id⟩
  | resend (mem : id ∈ p.order) (active : p.isActive id = true)
      (new : ∃ t, (id, t) ∈ p.links ∧ p.held id t ≠ some (p.computedOf id)) :
      Popped p id queue activated ⟨queue ++ p.targets id, activated, p.send id⟩

theorem exists_popped (hw : p.Wired) (hc : p.Consistent) (id : String)
    (queue activated : List String) :
    ∃ w, Worklist.pop ⟨id :: queue, activated, p⟩ = w ∧ Popped p id queue activated w := by
  refine ⟨_, rfl, ?_⟩
  rw [Worklist.pop]
  dsimp only
  cases hs : p.states.get? id with
  | none =>
    refine .drop fun hid => ?_
    obtain ⟨s, hs'⟩ := exists_state hc hid
    simp [hs] at hs'
  | some s =>
    have hid : id ∈ p.order := hc.keys ▸ Assoc.mem_keys_of_get? hs
    have hcomplete := complete_iff hc hw hs
    have hdelivered := isDelivered_iff hc hw hs
    have hactive := isActive_eq hs
    dsimp only
    split
    · rename_i h
      rw [Bool.not_eq_true', ← Bool.not_eq_true, hcomplete] at h
      exact .drop fun _ => .inl (by simpa using h)
    · rename_i h
      have hall := hcomplete.mp (by simpa using h)
      split
      · rename_i ha
        split
        · rename_i hd
          exact .drop fun _ => .inr ⟨hactive.trans ha, hdelivered.mp hd⟩
        · rename_i hd
          refine .resend hid (hactive.trans ha) ?_
          simpa [hdelivered] using hd
      · rename_i ha
        exact .activate hid hall (hactive.trans (by simpa using ha))

/-- The loop over a propagation: whoever is not quiet is in the queue. -/
structure Worklist.Sound (w : Worklist) (p : Propagation) (all : NameSet) : Prop where
  varies : p.Varies w.propagation
  underway : w.propagation.Underway all
  queued : w.propagation.Queued w.queue

theorem Worklist.pop_of_nil {w : Worklist} (h : w.queue = []) : w.pop = w := by
  rw [pop, h]

theorem Worklist.run_of_nil {w : Worklist} (h : w.queue = []) (steps : Nat) :
    w.run steps = w := by
  induction steps with
  | zero => rfl
  | succ steps ih => rw [run, pop_of_nil h, ih]

/-- Taking a group off the queue keeps the invariant and uses up a part of the steps left. -/
theorem Worklist.Sound.pop_cons {w : Worklist} (h : w.Sound p all) {id : String}
    {queue : List String} (hqueue : w.queue = id :: queue) : w.pop.Sound p all ∧
      w.pop.propagation.stepsLeft all w.pop.queue < w.propagation.stepsLeft all w.queue := by
  obtain ⟨_, activated, q⟩ := w
  obtain rfl : _ = id :: queue := hqueue
  obtain ⟨hv, hu, hq⟩ := h
  have hsend (hid : id ∈ q.order) (activated : List String)
      (hlt : (q.send id).unsettled all < q.unsettled all) :
      Worklist.Sound ⟨queue ++ q.targets id, activated, q.send id⟩ p all ∧
        (q.send id).stepsLeft all (queue ++ q.targets id) < q.stepsLeft all (id :: queue) :=
    ⟨⟨hv.toggle .., hu.send hid, Queued.send hq hu.wired hu.consistent hid⟩,
      stepsLeft_send_lt queue hlt⟩
  obtain ⟨w', hpop, hcases⟩ := exists_popped hu.wired hu.consistent id queue activated
  rw [hpop]
  cases hcases with
  | drop quiet =>
    refine ⟨⟨hv, hu, Queued.drop hq quiet⟩, ?_⟩
    simp only [stepsLeft, List.length_cons]
    omega
  | activate mem complete inactive =>
    exact hsend mem _ (unsettled_send_lt hu mem (.inl inactive))
  | resend mem active new =>
    obtain ⟨t, hl, hne⟩ := new
    exact hsend mem _ (unsettled_send_lt hu mem (.inr ⟨t, hl, active, hne⟩))

theorem Worklist.Sound.run {w : Worklist} (h : w.Sound p all) (steps : Nat) :
    (w.run steps).Sound p all := by
  induction steps generalizing w with
  | zero => exact h
  | succ steps ih =>
    refine ih ?_
    cases hqueue : w.queue with
    | nil => rwa [pop_of_nil hqueue]
    | cons id queue => exact (h.pop_cons hqueue).1

/-- With enough steps the queue is emptied. -/
theorem Worklist.Sound.queue_run {w : Worklist} (h : w.Sound p all) {steps : Nat}
    (hsteps : w.propagation.stepsLeft all w.queue ≤ steps) : (w.run steps).queue = [] := by
  induction steps generalizing w with
  | zero =>
    rw [stepsLeft] at hsteps
    have hlen : w.queue.length = 0 := by omega
    exact List.length_eq_zero_iff.mp hlen
  | succ steps ih =>
    cases hqueue : w.queue with
    | nil => rwa [run_of_nil hqueue]
    | cons id queue =>
      obtain ⟨hpop, hlt⟩ := h.pop_cons hqueue
      exact ih hpop (by omega)

/-- With an empty queue all groups are quiet. -/
theorem Worklist.Sound.settled {w : Worklist} (h : w.Sound p all) (hqueue : w.queue = []) :
    p.Settled w.propagation all := by
  refine ⟨h.varies, h.underway, fun id hid => (h.queued id hid).resolve_left ?_⟩
  rw [hqueue]
  exact List.not_mem_nil

/-- The loop on the queue gives what settling gives. -/
theorem run_eq_settle (steps : Nat) (queue activated : List String) (p : Propagation) :
    (Worklist.run steps ⟨queue, activated, p⟩).activated = activated ++ (settle steps queue p).1 ∧
      (Worklist.run steps ⟨queue, activated, p⟩).propagation = (settle steps queue p).2 := by
  induction steps generalizing queue activated p with
  | zero => exact ⟨(List.append_nil _).symm, rfl⟩
  | succ steps ih =>
    cases queue with
    | nil =>
      rw [Worklist.run_of_nil rfl]
      exact ⟨(List.append_nil _).symm, rfl⟩
    | cons id queue =>
      rw [Worklist.run, Worklist.pop, settle]
      dsimp only
      cases p.states.get? id with
      | none => exact ih ..
      | some s =>
        dsimp only
        split
        · exact ih ..
        · split
          · split
            · exact ih ..
            · exact ih ..
          · obtain ⟨hactivated, hlast⟩ := ih (queue ++ p.targets id) (activated ++ [id]) (p.send id)
            rw [List.append_assoc] at hactivated
            exact ⟨hactivated, hlast⟩

theorem solve_eq_run (hopen : p.finished = false) :
    p.solve = ((p.worklist.run p.stepBound).activated, (p.worklist.run p.stepBound).propagation) := by
  obtain ⟨hactivated, hlast⟩ := run_eq_settle p.stepBound p.order [] p
  rw [solve, hopen, if_neg Bool.false_ne_true]
  exact Prod.ext (hactivated.trans (List.nil_append _)).symm hlast.symm

/-! ### Enough steps -/

theorem mem_names {id : String} {s : GroupState} {x : String} (hs : p.states.get? id = some s)
    (hx : x ∈ s.computed) : x ∈ p.names := by
  have hfold (states : List GroupState) (all : NameSet) :
      x ∈ states.foldl (fun all s =>
        s.received.foldl NameSet.union ((all.union s.seed).union s.computed)) all ↔
      x ∈ all ∨ ∃ s ∈ states, x ∈ s.seed ∨ x ∈ s.computed ∨ ∃ t ∈ s.received, x ∈ t := by
    induction states generalizing all with
    | nil => simp
    | cons s states ih => simp [ih, NameSet.mem_foldl_union, or_assoc]
  exact (hfold ..).mpr (.inr ⟨s, Assoc.mem_values_of_get? hs, .inr (.inl hx)⟩)

theorem within_names (hc : p.Consistent) : p.Within p.names := by
  intro id hid x hx
  obtain ⟨s, hs⟩ := exists_state hc hid
  rw [computedOf_eq hs] at hx
  exact mem_names hs hx

theorem unsettled_le (p : Propagation) (all : NameSet) :
    p.unsettled all ≤ p.order.length + p.links.length * all.names.length := by
  have hmarks : (p.order.map fun id => if p.isActive id then 0 else 1).sum ≤
      p.order.length * 1 := by
    refine (List.sum_le_card_nsmul _ 1 fun n hn => ?_).trans (by simp)
    obtain ⟨id, _, rfl⟩ := List.mem_map.mp hn
    split <;> omega
  have hrooms : (p.links.map fun l => room all (p.held l.1 l.2)).sum ≤
      p.links.length * all.names.length := by
    refine (List.sum_le_card_nsmul _ all.names.length fun n hn => ?_).trans (by simp)
    obtain ⟨l, _, rfl⟩ := List.mem_map.mp hn
    exact Nat.sub_le ..
  rw [unsettled]
  omega

theorem stepsLeft_lt_stepBound (p : Propagation) :
    p.stepsLeft p.names p.order < p.stepBound := by
  have hle := unsettled_le p p.names
  simp only [stepsLeft, stepBound]
  generalize p.order.length = groups at *
  generalize p.links.length = links at *
  generalize p.names.names.length = names at *
  have hinner : 2 * groups + links * names < (groups + 1) * (links + 1) * (names + 2) := by
    have hexpand : (groups + 1) * (links + 1) * (names + 2) =
        2 * groups + links * names +
          (groups * links * names + 2 * (groups * links) + groups * names + 2 * links + names + 2)
        := by ring
    omega
  calc p.unsettled p.names * (links + 1) + groups
      ≤ (groups + links * names) * (links + 1) + groups :=
        Nat.add_le_add_right (Nat.mul_le_mul_right _ hle) _
    _ ≤ (groups + links * names) * (links + 1) + groups * (links + 1) :=
        Nat.add_le_add_left (Nat.le_mul_of_pos_right _ (Nat.succ_pos _)) _
    _ = (2 * groups + links * names) * (links + 1) := by ring
    _ < (groups + 1) * (links + 1) * (names + 2) * (links + 1) :=
        Nat.mul_lt_mul_of_pos_right hinner (Nat.succ_pos _)
    _ ≤ (groups + 1) * ((groups + 1) * (links + 1) * (names + 2) * (links + 1)) :=
        Nat.le_mul_of_pos_left _ (Nat.succ_pos _)
    _ = (groups + 1) * (groups + 1) * (links + 1) * (links + 1) * (names + 2) := by ring

/-! ### All groups active -/

/-- No way along the links leads back to where it began. -/
def Acyclic (p : Propagation) : Prop := ∀ id, ¬TransGen (fun a b => (a, b) ∈ p.links) id id

open Classical in
/-- The number of groups from which a group is reached. -/
noncomputable def rank (p : Propagation) (id : String) : Nat :=
  (p.order.map fun q => if TransGen (fun a b => (a, b) ∈ p.links) q id then 1 else 0).sum

/-- Links lead to groups of higher rank. -/
theorem rank_lt (h : p.Acyclic) (hw : p.Wired) {a b : String} (hl : (a, b) ∈ p.links) :
    p.rank a < p.rank b := by
  refine List.sum_lt_sum _ _ (fun q _ => ?_) ⟨a, hw.source_mem _ hl, ?_⟩
  · split
    · rename_i hq
      rw [if_pos (hq.tail hl)]
    · exact Nat.zero_le _
  · rw [if_neg (h a), if_pos (.single hl)]
    exact Nat.zero_lt_one

/-- Induction along the links. -/
theorem Acyclic.induction (h : p.Acyclic) (hw : p.Wired) {motive : String → Prop}
    (step : ∀ id, (∀ q, (q, id) ∈ p.links → motive q) → motive id) (id : String) : motive id := by
  induction hr : p.rank id using Nat.strong_induction_on generalizing id with
  | _ r ih =>
    subst hr
    exact step id fun q hl => ih _ (rank_lt h hw hl) q rfl

/-- Where every group is quiet none waits. -/
theorem isActive_of_quiet (h : p.Acyclic) (hw : p.Wired) (hg : p.Growing)
    (hquiet : ∀ id ∈ p.order, p.Quiet id) (id : String) :
    id ∈ p.order → p.isActive id = true := by
  induction id using h.induction hw with
  | step id ih =>
    intro hid
    rcases hquiet id hid with ⟨q, hl, hheld⟩ | ⟨ha, _⟩
    · have hsent := (hg.sent hl).mpr (ih q hl (hw.source_mem _ hl))
      simp [hheld] at hsent
    · exact ha

/-- All groups are active. -/
def AllActive (p : Propagation) : Prop := ∀ id ∈ p.order, p.isActive id = true

theorem Settled.allActive {q : Propagation} (h : p.Settled q all) (ha : p.Acyclic) :
    q.AllActive := by
  have hacyclic : q.Acyclic := by
    rw [Acyclic, h.varies.links]
    exact ha
  exact isActive_of_quiet hacyclic h.underway.wired h.underway.growing h.quiet

theorem Settled.faithful {q : Propagation} (h : p.Settled q all) (ha : p.Acyclic) :
    q.Faithful := by
  intro a t hl
  have hactive := h.allActive ha a (h.underway.wired.source_mem _ hl)
  rw [if_pos hactive]
  rcases h.quiet a (h.underway.wired.source_mem _ hl) with ⟨b, hb, hheld⟩ | ⟨_, hd⟩
  · have hsent := (h.underway.growing.sent hb).mpr
      (h.allActive ha b (h.underway.wired.source_mem _ hb))
    simp [hheld] at hsent
  · exact hd t hl

/-- What every group holds of a sender is an earlier set of it, and its set is computed from
this. -/
structure Tracked (p : Propagation) : Prop where
  wired : p.Wired
  consistent : p.Consistent
  growing : p.Growing

theorem Current.tracked (h : p.Current) : p.Tracked :=
  ⟨h.wired, h.consistent, h.faithful.growing⟩

theorem Tracked.sound (h : p.Tracked) : p.worklist.Sound p p.names :=
  ⟨.refl p, ⟨h.wired, h.consistent, h.growing, within_names h.consistent⟩,
    fun _ hid => .inl hid⟩

theorem Tracked.queue_run (h : p.Tracked) : (p.worklist.run p.stepBound).queue = [] :=
  h.sound.queue_run (Nat.le_of_lt (stepsLeft_lt_stepBound p))

/-- Solving brings every group to rest. -/
theorem settled_solve (h : p.Tracked) (hopen : p.finished = false) :
    p.Settled p.solve.2 p.names := by
  rw [solve_eq_run hopen]
  exact (h.sound.run _).settled h.queue_run

theorem solve_of_finished (h : p.finished = true) : p.solve = ([], p) := by
  rw [solve, if_pos h]

theorem varies_solve (h : p.Tracked) : p.Varies p.solve.2 := by
  cases hf : p.finished with
  | true =>
    rw [solve_of_finished hf]
    exact .refl p
  | false => exact (settled_solve h hf).varies

theorem Tracked.solve (h : p.Tracked) : p.solve.2.Tracked := by
  cases hf : p.finished with
  | true => rwa [solve_of_finished hf]
  | false =>
    have hu := (settled_solve h hf).underway
    exact ⟨hu.wired, hu.consistent, hu.growing⟩

theorem Tracked.current_solve (h : p.Tracked) (ha : p.Acyclic) (hopen : p.finished = false) :
    p.solve.2.Current :=
  ⟨h.solve.wired, h.solve.consistent, (settled_solve h hopen).faithful ha⟩

theorem Steady.solve (h : p.Steady) (ha : p.Acyclic) : p.solve.2.Steady := by
  cases hf : p.finished with
  | true => rwa [solve_of_finished hf]
  | false =>
    have hv := varies_solve h.current.tracked
    have hc := h.current.tracked.current_solve ha hf
    refine ⟨hc.wired, hc.consistent, hc.faithful, ?_⟩
    rw [hv.initiallyActive, hv.order, hv.links]
    exact h.sinks

theorem allActive_solve (h : p.Tracked) (ha : p.Acyclic) (hopen : p.finished = false) :
    p.solve.2.AllActive :=
  (settled_solve h hopen).allActive ha

theorem Worklist.finished_pop (w : Worklist) :
    w.pop.propagation.finished = w.propagation.finished := by
  rw [pop]
  split
  · rfl
  · split
    · rfl
    · split
      · rfl
      · split
        · split
          · rfl
          · exact finished_toggle ..
        · exact finished_toggle ..

/-- Solving ends no step. -/
theorem finished_solve (p : Propagation) : p.solve.2.finished = p.finished := by
  have hrun (steps : Nat) (w : Worklist) :
      (w.run steps).propagation.finished = w.propagation.finished := by
    induction steps generalizing w with
    | zero => rfl
    | succ steps ih => rw [Worklist.run, ih, w.finished_pop]
  cases hf : p.finished with
  | true => rwa [solve_of_finished hf]
  | false =>
    rw [solve_eq_run hf, hrun]
    exact hf

end Propagation

end Lookahead
