import Lookahead.Propagation.History
import Lookahead.Proofs.Graph.Circles
import Lookahead.Proofs.Propagation.Solution

/-!
# Histories of a propagation

Whatever clicks came before, what a group holds of a sender is an earlier set of it. So
solving ends on every graph and only adds marks and names on its way. Without circles
among the groups it ends in one state that does not depend on the clicks, and solving once
more changes nothing.
-/

namespace Lookahead.Propagation

open Relation (ReflTransGen TransGen)

variable {p q : Propagation}

/-! ### Clicks -/

theorem Tracked.send (h : p.Tracked) {id : String} (hid : id ∈ p.order) : (p.send id).Tracked :=
  ⟨h.wired.toggle .., h.consistent.toggle .., h.growing.send h.wired h.consistent hid⟩

/-- A group whose successors are inactive has sent its set to nobody who has sent it on. -/
theorem Tracked.withdraw (h : p.Tracked) {id : String} (hid : id ∈ p.order) (hfree : p.Free id) :
    (p.withdraw id).Tracked := by
  refine ⟨h.wired.toggle .., h.consistent.toggle .., fun {q t} hl => ?_,
    fun {q t names} hl hheld => ?_⟩
  · rw [Propagation.withdraw, links_toggle] at hl
    rw [Propagation.withdraw, held_toggle h.consistent h.wired hl, isActive_toggle h.consistent hid]
    by_cases hq : id = q
    · simp [hq]
    · simp only [if_neg hq]
      exact h.growing.sent hl
  · rw [Propagation.withdraw, links_toggle] at hl
    rw [Propagation.withdraw, held_toggle h.consistent h.wired hl] at hheld
    by_cases hq : id = q
    · rw [if_pos hq] at hheld
      cases hheld
    · rw [if_neg hq] at hheld
      have hactive := (h.growing.sent hl).mp (by rw [hheld]; rfl)
      have hkeep : (id, q) ∉ p.links := fun hlq => by simp [hfree q hlq] at hactive
      rw [Propagation.withdraw, computedOf_toggle hkeep]
      exact h.growing.earlier hl hheld

theorem tracked_reset (hw : p.Wired) (hactive : ∀ id ∈ p.initiallyActive, id ∈ p.order) :
    p.reset.Tracked := by
  have hcleared : p.cleared.Current :=
    ⟨(varies_cleared p).wired hw, consistent_cleared p, faithful_cleared p⟩
  refine reset_induction hcleared.tracked fun {q id} hv hid hq => hq.send ?_
  rw [hv.order]
  exact hactive id hid

theorem finish_eq_ok : p.finish = .ok q ↔
    p.check = .ok .correct ∧ { p with finished := true } = q := by
  simp only [finish, Outcome.bind_eq_ok]
  constructor
  · rintro ⟨verdict, hverdict, h⟩
    cases verdict with
    | correct => exact ⟨hverdict, Outcome.pure_eq_ok.mp h⟩
    | wrong d => exact (Outcome.throw_eq_ok.mp h).elim
  · rintro ⟨hverdict, h⟩
    exact ⟨_, hverdict, Outcome.pure_eq_ok.mpr h⟩

/-- What an accepted click keeps. -/
theorem Tracked.clicked (h : p.Tracked) (hactive : ∀ id ∈ p.initiallyActive, id ∈ p.order)
    {c : Click} (hq : p.clicked c = .ok q) : q.Tracked ∧ p.Varies q := by
  cases c with
  | activate id =>
    refine ⟨?_, varies_activate hq⟩
    obtain ⟨_, _, hk, _, rfl⟩ := activate_eq_ok.mp hq
    exact h.send (h.consistent.keys ▸ hk)
  | deactivate id =>
    refine ⟨?_, varies_deactivate hq⟩
    obtain ⟨_, hfree, hk, _, rfl⟩ := deactivate_eq_ok.mp hq
    exact h.withdraw (h.consistent.keys ▸ hk) hfree
  | solve =>
    obtain rfl := Except.ok.inj hq
    exact ⟨h.solve, varies_solve h⟩
  | reset =>
    obtain rfl := Except.ok.inj hq
    exact ⟨tracked_reset h.wired hactive, varies_reset p⟩
  | finish =>
    obtain ⟨_, rfl⟩ := finish_eq_ok.mp hq
    exact ⟨⟨⟨h.wired.order_nodup, h.wired.source_mem, h.wired.target_mem, h.wired.ne,
      h.wired.links_nodup⟩, ⟨h.consistent.keys, h.consistent.seed, h.consistent.senders,
      h.consistent.computed⟩, ⟨h.growing.sent, h.growing.earlier⟩⟩, p.states, true, rfl⟩

/-- What all clicks keep from the start. -/
theorem Tracked.reached (h : p.Tracked) (hactive : ∀ id ∈ p.initiallyActive, id ∈ p.order)
    (hq : p.Reached q) : q.Tracked ∧ p.Varies q := by
  induction hq with
  | start => exact ⟨h, .refl p⟩
  | click c _ haccepted ih =>
    obtain ⟨hq, hv⟩ := ih
    rw [← hv.initiallyActive, ← hv.order] at hactive
    obtain ⟨hr, hvr⟩ := hq.clicked hactive haccepted
    exact ⟨hr, hv.trans hvr⟩

/-- What holds of everything that clicks lead to from a start. -/
structure Begun (p : Propagation) (graph : Graph) (seeds : Assoc String NameSet)
    (ids : List String) : Prop where
  isOver : p.Over graph seeds ids
  tracked : p.Tracked

theorem begun_of_reached {graph : Graph} {seeds : Assoc String NameSet} {ids : List String}
    (hgroups : graph.groupIds.Nodup) (hstart : start graph seeds ids = .ok p) (hq : p.Reached q) :
    q.Begun graph seeds ids ∧ p.Varies q := by
  obtain ⟨r, hr, hover, hw⟩ := exists_start hgroups (startable_of_start hstart)
  obtain rfl := Except.ok.inj (hr.symm.trans hstart)
  have hactive : ∀ id ∈ r.initiallyActive, id ∈ r.order := by
    rw [hover.initiallyActive_eq, hover.order_eq]
    exact (startable_of_start hstart).active
  have hv := varies_reset r
  have htracked := tracked_reset hw hactive
  rw [← hv.initiallyActive, ← hv.order] at hactive
  obtain ⟨hq', hvq⟩ := htracked.reached hactive hq
  exact ⟨⟨(hover.of_varies hv).of_varies hvq, hq'⟩, hvq⟩

/-! ### On the way -/

/-- Marks stay, and sets and what was received of them only grow. -/
structure Grown (p q : Propagation) : Prop where
  active : ∀ {id}, p.isActive id = true → q.isActive id = true
  computed : ∀ {id x}, x ∈ p.computedOf id → x ∈ q.computedOf id
  held : ∀ {sender id names}, p.held sender id = some names →
    ∃ more, q.held sender id = some more ∧ ∀ x ∈ names, x ∈ more

theorem Grown.refl (p : Propagation) : p.Grown p :=
  ⟨fun h => h, fun h => h, fun {_ _ names} h => ⟨names, h, fun _ hx => hx⟩⟩

theorem mem_links_of_held (hc : p.Consistent) {sender id : String} {names : NameSet}
    (h : p.held sender id = some names) : (sender, id) ∈ p.links := by
  cases hs : p.states.get? id with
  | none => simp [Propagation.held, hs] at h
  | some s =>
    rw [held_eq hs, Option.join_eq_some_iff] at h
    exact mem_sources.mp (hc.senders hs ▸ Assoc.mem_keys_of_get? h)

theorem mem_order_of_mem_computedOf (hc : p.Consistent) {id x : String}
    (h : x ∈ p.computedOf id) : id ∈ p.order := by
  rw [← hc.keys, ← Assoc.isSome_get?_iff]
  cases hs : p.states.get? id with
  | none =>
    simp only [computedOf, hs, Option.elim_none] at h
    exact absurd h (NameSet.not_mem_empty x)
  | some s => rfl

theorem Tracked.grown_send (h : p.Tracked) {id : String} (hid : id ∈ p.order) :
    p.Grown (p.send id) := by
  refine ⟨fun {t} ha => ?_, fun {t x} hx => ?_, fun {q t names} hheld => ?_⟩
  · rw [isActive_send h.consistent hid, ha, ite_self]
  · exact h.growing.computedOf_subset_send h.wired h.consistent
      (mem_order_of_mem_computedOf h.consistent hx) hx
  · have hl := mem_links_of_held h.consistent hheld
    rw [held_send h.consistent h.wired hl]
    by_cases hq : id = q
    · subst hq
      exact ⟨_, if_pos rfl, h.growing.earlier hl hheld⟩
    · exact ⟨names, (if_neg hq).trans hheld, fun _ hx => hx⟩

theorem Worklist.Sound.grown_pop {w : Worklist} {all : NameSet} (h : w.Sound p all) :
    w.propagation.Grown w.pop.propagation := by
  obtain ⟨queue, activated, q⟩ := w
  have hu := h.underway
  have htracked : q.Tracked := ⟨hu.wired, hu.consistent, hu.growing⟩
  cases queue with
  | nil => exact .refl q
  | cons id queue =>
    obtain ⟨w', hpop, hcases⟩ := exists_popped hu.wired hu.consistent id queue activated
    rw [hpop]
    cases hcases with
    | drop => exact .refl q
    | activate mem => exact htracked.grown_send mem
    | resend mem => exact htracked.grown_send mem

theorem Worklist.run_succ (w : Worklist) (steps : Nat) : w.run (steps + 1) = (w.run steps).pop := by
  induction steps generalizing w with
  | zero => rfl
  | succ steps ih => exact ih w.pop

/-- Solving ends on every graph, whatever clicks came before: after finitely many groups the queue
is empty, and no step clears a mark or takes a name out of a set. -/
theorem exists_run_eq_solve {graph : Graph} {seeds : Assoc String NameSet} {ids : List String}
    {first : Propagation} (hnodes : graph.nodeIds.Nodup)
    (hstart : start graph seeds ids = .ok first) (hp : first.Reached p)
    (hopen : p.finished = false) :
    ∃ steps, (p.worklist.run steps).queue = [] ∧
      p.solve = ((p.worklist.run steps).activated, (p.worklist.run steps).propagation) ∧
      ∀ n, (p.worklist.run n).propagation.Grown (p.worklist.run (n + 1)).propagation := by
  have hgroups : graph.groupIds.Nodup := hnodes.sublist (List.filter_sublist.map Node.id)
  have h := (begun_of_reached hgroups hstart hp).1.tracked
  refine ⟨p.stepBound, h.queue_run, solve_eq_run hopen, fun n => ?_⟩
  rw [Worklist.run_succ]
  exact (h.sound.run n).grown_pop

namespace Sample

def group (id : String) : Node := ⟨id, .group, .string id, none⟩

/-- Two groups that send to each other. -/
def ring : Graph :=
  { phase := "First", nodes := [group "a", group "b"],
    edges := [⟨"0", "a", "b", true⟩, ⟨"1", "b", "a", true⟩] }

/-- Two groups, of which the first sends to the second. -/
def pair : Graph :=
  { phase := "First", nodes := [group "a", group "b"], edges := [⟨"0", "a", "b", true⟩] }

def seeds : Assoc String NameSet := ⟨[("a", .ofList ["x"])]⟩

end Sample

theorem exists_run_eq_solve_sample : ∃ first p, start Sample.ring Sample.seeds = .ok first ∧
    first.activate "a" = .ok p ∧ ∃ steps, (p.worklist.run steps).queue = [] ∧
      p.solve = ((p.worklist.run steps).activated, (p.worklist.run steps).propagation) ∧
      ∀ n, (p.worklist.run n).propagation.Grown (p.worklist.run (n + 1)).propagation := by
  have hrun : (start Sample.ring Sample.seeds).toOption.any (fun first =>
      (first.activate "a").toOption.any fun p => decide (p.finished = false)) = true := by
    decide +kernel
  obtain ⟨first, hstart, hrun⟩ := Option.any_eq_true _ _ |>.mp hrun
  obtain ⟨p, hp, hopen⟩ := Option.any_eq_true _ _ |>.mp hrun
  have hstart := Outcome.eq_ok_of_toOption hstart
  have hp := Outcome.eq_ok_of_toOption hp
  exact ⟨first, p, hstart, hp, exists_run_eq_solve (by decide) hstart
    (.click (.activate "a") .start hp) (of_decide_eq_true hopen)⟩

/-! ### Without circles -/

/-- Where all groups are active and hold the present sets, every group is taken off the queue
without effect. -/
theorem run_of_allActive (h : p.Current) (ha : p.AllActive) (steps : Nat)
    (queue activated : List String) :
    ∃ rest, Worklist.run steps ⟨queue, activated, p⟩ = ⟨rest, activated, p⟩ := by
  induction steps generalizing queue with
  | zero => exact ⟨queue, rfl⟩
  | succ steps ih =>
    cases queue with
    | nil => exact ⟨[], Worklist.run_of_nil rfl _⟩
    | cons id queue =>
      obtain ⟨w, hpop, hcases⟩ := exists_popped h.wired h.consistent id queue activated
      rw [Worklist.run, hpop]
      cases hcases with
      | drop => exact ih queue
      | activate mem _ inactive => simp [ha id mem] at inactive
      | resend mem active new =>
        obtain ⟨t, hl, hne⟩ := new
        rw [h.faithful id t hl, if_pos active] at hne
        exact absurd rfl hne

theorem solve_eq_self (h : p.Current) (ha : p.AllActive) : p.solve = ([], p) := by
  cases hf : p.finished with
  | true => exact solve_of_finished hf
  | false =>
    obtain ⟨rest, hrun⟩ := run_of_allActive h ha p.stepBound p.order []
    rw [solve_eq_run hf, worklist, hrun]

/-- The states depend on the seeds, the links and the marks only. -/
theorem states_eq_of_marks (h : p.Current) (h' : q.Current) (hacyclic : p.Acyclic)
    (hv : p.Varies q) (hmarks : ∀ id ∈ p.order, p.isActive id = q.isActive id) :
    p.states = q.states := by
  have hkeys : p.states.keys = q.states.keys := by
    rw [h.consistent.keys, h'.consistent.keys, hv.order]
  refine Assoc.ext_get? (h.consistent.keys ▸ h.wired.order_nodup) hkeys fun id hid => ?_
  obtain ⟨s, hs⟩ := Assoc.exists_get?_of_mem_keys hid
  obtain ⟨s', hs'⟩ := Assoc.exists_get?_of_mem_keys (hkeys ▸ hid)
  have hid : id ∈ p.order := h.consistent.keys ▸ hid
  have hsources : p.sources id = q.sources id := by rw [sources, sources, hv.links]
  have hsets {id : String} (hid : id ∈ p.order) : p.computedOf id = q.computedOf id :=
    computedOf_eq_of_marks h h' hacyclic hv hmarks hid
  have hactive : s.active = s'.active := by
    rw [← isActive_eq hs, ← isActive_eq hs', hmarks id hid]
  have hincoming : s.incoming = s'.incoming := by
    have hin : s.incoming.keys = p.sources id := h.consistent.senders hs
    refine Assoc.ext_get? (hin ▸ h.wired.sources_nodup id)
      (by rw [hin, hsources, h'.consistent.senders hs']) fun q' hq' => ?_
    rw [hin] at hq'
    have hq : q' ∈ p.order := h.wired.source_mem _ (mem_sources.mp hq')
    rw [h.get?_incoming hs hq', h'.get?_incoming hs' (hsources ▸ hq'), hmarks q' hq, hsets hq]
  have hcomputed : s.computed = s'.computed := by
    rw [← computedOf_eq hs, ← computedOf_eq hs', hsets hid]
  have hseed : s.seed = s'.seed := by
    rw [h.consistent.seed hs, h'.consistent.seed hs', hv.seedOf]
  rw [hs, hs']
  obtain ⟨active, incoming, computed, seed⟩ := s
  simp only at hactive hincoming hcomputed hseed
  rw [hactive, hincoming, hcomputed, hseed]

/-- With all groups active the states depend on the seeds and the links only. -/
theorem states_eq_of_varies (h : p.Current) (ha : p.AllActive) (h' : q.Current)
    (ha' : q.AllActive) (hacyclic : p.Acyclic) (hv : p.Varies q) : p.states = q.states :=
  states_eq_of_marks h h' hacyclic hv fun id hid =>
    (ha id hid).trans (ha' id (hv.order.symm ▸ hid)).symm

/-- The set of a group is made of the seeds of the groups from which it is reached. -/
theorem mem_computedOf_iff_exists_seed (h : p.Current) (ha : p.AllActive) (hacyclic : p.Acyclic)
    {id x : String} (hid : id ∈ p.order) : x ∈ p.computedOf id ↔
      ∃ q, ReflTransGen (fun a b => (a, b) ∈ p.links) q id ∧ x ∈ p.seedOf q := by
  constructor
  · intro hx
    refine of_mem_computedOf (motive := fun id x =>
      ∃ q, ReflTransGen (fun a b => (a, b) ∈ p.links) q id ∧ x ∈ p.seedOf q) h ha hacyclic
      (fun id _ x hx => ⟨id, .refl, hx⟩) (fun a b x hl ⟨q, hq, hx⟩ => ⟨q, hq.tail hl, hx⟩) hid hx
  · rintro ⟨q, hq, hx⟩
    induction hq with
    | refl => exact (mem_computedOf_iff h ha hid).mpr (.inl hx)
    | @tail b c _ hl ih =>
      exact (mem_computedOf_iff h ha hid).mpr (.inr ⟨b, hl, ih (h.wired.source_mem _ hl)⟩)

theorem status_eq {id : String} {s : GroupState} (h : p.states.get? id = some s) :
    p.status id = .ok (statusOf s) := by
  rw [status, state, h]
  rfl

theorem Over.links_eq {graph : Graph} {seeds : Assoc String NameSet} {ids : List String}
    (h : p.Over graph seeds ids) : (fun a b => (a, b) ∈ p.links) = graph.Joined := by
  funext a b
  exact propext (h.mem_links a b)

theorem Over.acyclic {graph : Graph} {seeds : Assoc String NameSet} {ids : List String}
    (h : p.Over graph seeds ids) (hacyclic : graph.Acyclic) : p.Acyclic := by
  rw [Acyclic, h.links_eq]
  exact hacyclic

/-- A propagation over groups without circles starts, and from whatever clicks lead to solving ends
in the same state: every group is active, the check passes, the set of every group is the union of
the seeds of the groups from which it is reached, and solving once more changes nothing. -/
theorem solve_eq_of_reached {graph : Graph} {seeds : Assoc String NameSet} {ids : List String}
    (hnodes : graph.nodeIds.Nodup) (hacyclic : graph.Acyclic) (h : Startable graph seeds ids) :
    ∃ first, start graph seeds ids = .ok first ∧
      ∀ p, first.Reached p → p.finished = false →
        p.solve.2 = first.solve.2 ∧
        (∀ id ∈ graph.groupIds, p.solve.2.status id = .ok .active) ∧
        p.solve.2.check = .ok .correct ∧
        (∀ id ∈ graph.groupIds, ∀ x, x ∈ p.solve.2.computedOf id ↔
          ∃ q, ReflTransGen graph.Joined q id ∧ x ∈ (seeds.get? q).getD {}) ∧
        p.solve.2.solve = ([], p.solve.2) := by
  have hgroups : graph.groupIds.Nodup := hnodes.sublist (List.filter_sublist.map Node.id)
  obtain ⟨r, hstart, -, -⟩ := exists_start hgroups h
  -- what solving gives from any state, the first one among them
  have hsolve {p : Propagation} (hp : r.reset.Reached p) (hf : p.finished = false) :
      p.solve.2.Over graph seeds ids ∧ p.solve.2.Current ∧ p.solve.2.AllActive ∧
        r.reset.Varies p.solve.2 ∧ p.solve.2.finished = false := by
    obtain ⟨hbegun, hv⟩ := begun_of_reached hgroups hstart hp
    have hacyclic := hbegun.isOver.acyclic hacyclic
    have hvs := varies_solve hbegun.tracked
    exact ⟨hbegun.isOver.of_varies hvs, hbegun.tracked.current_solve hacyclic hf,
      allActive_solve hbegun.tracked hacyclic hf, hv.trans hvs, (finished_solve p).trans hf⟩
  obtain ⟨hover₀, hcurrent₀, hactive₀, hv₀, hopen₀⟩ := hsolve .start (finished_reset r)
  refine ⟨r.reset, hstart, fun p hp hf => ?_⟩
  obtain ⟨hover, hcurrent, hactive, hv, hopen⟩ := hsolve hp hf
  have horder : p.solve.2.order = graph.groupIds := hover.order_eq
  refine ⟨?_, fun id hid => ?_, (check_eq_correct_iff hcurrent).mpr hactive, fun id hid x => ?_,
    solve_eq_self hcurrent hactive⟩
  · have hvaries := hv₀.symm.trans hv
    refine hvaries.eq (states_eq_of_varies hcurrent₀ hactive₀ hcurrent hactive ?_ hvaries).symm
      (hopen.trans hopen₀.symm)
    exact hover₀.acyclic hacyclic
  · have hid : id ∈ p.solve.2.order := horder ▸ hid
    obtain ⟨s, hs⟩ := exists_state hcurrent.consistent hid
    have hs' := hactive id hid
    rw [isActive_eq hs] at hs'
    rw [status_eq hs, statusOf, if_pos hs']
  · rw [mem_computedOf_iff_exists_seed hcurrent hactive (hover.acyclic hacyclic) (horder ▸ hid),
      hover.links_eq]
    simp only [seedOf, hover.seeds_eq]

namespace Sample

theorem joined_pair {a b : String} : pair.Joined a b ↔ a = "a" ∧ b = "b" := by
  constructor
  · rintro ⟨-, e, he, -, rfl, rfl⟩
    obtain rfl := List.mem_singleton.mp he
    exact ⟨rfl, rfl⟩
  · rintro ⟨rfl, rfl⟩
    exact ⟨by decide, _, List.mem_singleton.mpr rfl, rfl, rfl, rfl⟩

theorem acyclic_pair : pair.Acyclic := by
  intro id hcycle
  obtain ⟨_, hfirst, -⟩ := TransGen.head'_iff.mp hcycle
  obtain ⟨_, -, hlast⟩ := TransGen.tail'_iff.mp hcycle
  have hid := (joined_pair.mp hfirst).1.symm.trans (joined_pair.mp hlast).2
  exact absurd hid (by decide)

end Sample

/-- The second group of two is activated too early, and solving repairs this. -/
theorem solve_eq_of_reached_sample : ∃ first p, start Sample.pair Sample.seeds = .ok first ∧
    first.activate "b" = .ok p ∧ p.solve.2 = first.solve.2 ∧ p.solve.2.check = .ok .correct ∧
      "x" ∈ p.solve.2.computedOf "b" ∧ p.solve.2.solve = ([], p.solve.2) := by
  have hstartable : Startable Sample.pair Sample.seeds [] := ⟨by decide, by decide, by decide⟩
  obtain ⟨first, hstart, hsolve⟩ := solve_eq_of_reached (by decide) Sample.acyclic_pair hstartable
  have hrun : (start Sample.pair Sample.seeds).toOption.any (fun first =>
      (first.activate "b").toOption.any fun p => decide (p.finished = false)) = true := by
    decide +kernel
  rw [hstart] at hrun
  obtain ⟨_, hfirst, hrun⟩ := Option.any_eq_true _ _ |>.mp hrun
  obtain rfl := Option.some.inj hfirst
  obtain ⟨p, hp, hopen⟩ := Option.any_eq_true _ _ |>.mp hrun
  have hp := Outcome.eq_ok_of_toOption hp
  obtain ⟨hsame, -, hcheck, hsets, hagain⟩ :=
    hsolve p (.click (.activate "b") .start hp) (of_decide_eq_true hopen)
  refine ⟨first, p, hstart, hp, hsame, hcheck, (hsets "b" (by decide) "x").mpr ?_, hagain⟩
  exact ⟨"a", .single (Sample.joined_pair.mpr ⟨rfl, rfl⟩), by decide⟩

end Lookahead.Propagation
