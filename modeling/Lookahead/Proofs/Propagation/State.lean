import Lookahead.Propagation.Basic
import Mathlib.Data.List.Nodup

/-!
# What a click changes

A propagation is looked at through the marks of its groups, the sets they have computed
and what each group holds of its senders. Setting the mark of a group changes its own
mark, what its successors hold of it, and through that their sets; everything else stays.
-/

namespace Lookahead.Propagation

variable {p : Propagation}

/-- What a group holds of a sender; nothing if the sender has sent nothing. -/
def held (p : Propagation) (sender id : String) : Option NameSet :=
  ((p.states.get? id).bind fun s => s.incoming.get? sender).join

def seedOf (p : Propagation) (id : String) : NameSet := (p.seeds.get? id).getD {}

theorem mem_targets {id t : String} : t ∈ p.targets id ↔ (id, t) ∈ p.links := by
  simp [targets, List.mem_map, List.mem_filter]

theorem mem_sources {id q : String} : q ∈ p.sources id ↔ (q, id) ∈ p.links := by
  simp [sources, List.mem_map, List.mem_filter]

/-! ### What is kept -/

theorem modifyState_frame (p : Propagation) (id : String) (f : GroupState → GroupState) :
    p.modifyState id f = { p with states := (p.modifyState id f).states } := by
  unfold modifyState
  cases p.states.get? id <;> rfl

theorem deliver_frame (p : Propagation) (id : String) (names : Option NameSet) :
    p.deliver id names = { p with states := (p.deliver id names).states } := by
  unfold deliver
  generalize p.targets id = ts
  induction ts generalizing p with
  | nil => rfl
  | cons t ts ih =>
    rw [List.foldl_cons]
    refine (ih _).trans ?_
    rw [modifyState_frame]

theorem toggle_frame (p : Propagation) (id : String) (active : Bool) (names : Option NameSet) :
    p.toggle id active names = { p with states := (p.toggle id active names).states } := by
  unfold toggle
  rw [deliver_frame, modifyState_frame]

section Frame

variable (id : String) (active : Bool) (names : Option NameSet)

@[simp] theorem graph_toggle : (p.toggle id active names).graph = p.graph := by
  rw [toggle_frame]

@[simp] theorem order_toggle : (p.toggle id active names).order = p.order := by
  rw [toggle_frame]

@[simp] theorem links_toggle : (p.toggle id active names).links = p.links := by
  rw [toggle_frame]

@[simp] theorem seeds_toggle : (p.toggle id active names).seeds = p.seeds := by
  rw [toggle_frame]

@[simp] theorem initiallyActive_toggle :
    (p.toggle id active names).initiallyActive = p.initiallyActive := by
  rw [toggle_frame]

@[simp] theorem finished_toggle : (p.toggle id active names).finished = p.finished := by
  rw [toggle_frame]

end Frame

/-! ### States after a change -/

theorem get?_modifyState (p : Propagation) (id t : String) (f : GroupState → GroupState) :
    (p.modifyState id f).states.get? t =
      (p.states.get? t).map fun s => if id = t then f s else s := by
  unfold modifyState
  cases hs : p.states.get? id with
  | none =>
    by_cases h : id = t
    · subst h
      simp [hs]
    · simp [h]
  | some s =>
    rw [Assoc.get?_put]
    by_cases h : id = t
    · subst h
      simp [hs]
    · simp [h]

theorem keys_modifyState (p : Propagation) (id : String) (f : GroupState → GroupState) :
    (p.modifyState id f).states.keys = p.states.keys := by
  unfold modifyState
  cases hs : p.states.get? id with
  | none => rfl
  | some s => exact Assoc.keys_put_of_mem _ (Assoc.mem_keys_of_get? hs)

/-- Receiving the same thing twice is receiving it once. -/
theorem receive_receive (s : GroupState) (q : String) (names : Option NameSet) :
    (s.receive q names).receive q names = s.receive q names := by
  have hput (entries : List (String × Option NameSet)) :
      Assoc.putEntry q names (Assoc.putEntry q names entries) = Assoc.putEntry q names entries := by
    induction entries with
    | nil => simp [Assoc.putEntry]
    | cons e rest ih =>
      by_cases he : e.1 = q
      · simp [Assoc.putEntry, he]
      · simp [Assoc.putEntry, he, ih]
  simp [GroupState.receive, GroupState.recompute, Assoc.put, hput, GroupState.received]

theorem get?_deliver (p : Propagation) (id t : String) (names : Option NameSet) :
    (p.deliver id names).states.get? t =
      (p.states.get? t).map fun s => if t ∈ p.targets id then s.receive id names else s := by
  unfold deliver
  generalize p.targets id = ts
  induction ts generalizing p with
  | nil => simp
  | cons u ts ih =>
    rw [List.foldl_cons, ih, get?_modifyState, Option.map_map]
    congr 1
    funext s
    by_cases hu : u = t
    · subst hu
      by_cases hm : u ∈ ts <;> simp [hm, receive_receive]
    · have hu' : ¬t = u := fun h => hu h.symm
      simp [hu, hu']

theorem keys_deliver (p : Propagation) (id : String) (names : Option NameSet) :
    (p.deliver id names).states.keys = p.states.keys := by
  unfold deliver
  generalize p.targets id = ts
  induction ts generalizing p with
  | nil => rfl
  | cons t ts ih => rw [List.foldl_cons, ih, keys_modifyState]

/-- The state of every group after the mark of one was set. -/
theorem get?_toggle (p : Propagation) (id t : String) (active : Bool) (names : Option NameSet) :
    (p.toggle id active names).states.get? t =
      (p.states.get? t).map fun s =>
        let s := if id = t then { s with active } else s
        if (id, t) ∈ p.links then s.receive id names else s := by
  have ht : (p.modifyState id fun s => { s with active }).targets id = p.targets id := by
    simp only [targets, congrArg links (modifyState_frame p id _)]
  rw [toggle, get?_deliver, get?_modifyState, Option.map_map, ht]
  simp only [Function.comp_def, mem_targets]

@[simp] theorem keys_toggle (p : Propagation) (id : String) (active : Bool)
    (names : Option NameSet) : (p.toggle id active names).states.keys = p.states.keys := by
  rw [toggle, keys_deliver, keys_modifyState]

theorem recompute_eq_iff {s : GroupState} :
    s.recompute = s ↔ s.received.foldl NameSet.union s.seed = s.computed := by
  obtain ⟨active, incoming, computed, seed⟩ := s
  simp [GroupState.recompute]

/-- What a group has become by a change, field by field. -/
theorem exists_of_get?_toggle {id t : String} {active : Bool} {names : Option NameSet}
    {s : GroupState} (h : (p.toggle id active names).states.get? t = some s) :
    ∃ s₀, p.states.get? t = some s₀ ∧ s.seed = s₀.seed ∧
      s.active = (if id = t then active else s₀.active) ∧
      s.incoming = (if (id, t) ∈ p.links then s₀.incoming.put id names else s₀.incoming) ∧
      (s₀.recompute = s₀ → s.recompute = s) := by
  rw [get?_toggle] at h
  obtain ⟨s₀, h₀, rfl⟩ := Option.map_eq_some_iff.mp h
  refine ⟨s₀, h₀, ?_⟩
  by_cases ht : id = t <;> by_cases hl : (id, t) ∈ p.links
  · simp only [if_pos ht, if_pos hl]
    exact ⟨rfl, rfl, rfl, fun _ => rfl⟩
  · simp only [if_pos ht, if_neg hl, true_and]
    exact fun hc => recompute_eq_iff.mpr (recompute_eq_iff.mp hc :)
  · simp only [if_neg ht, if_pos hl]
    exact ⟨rfl, rfl, rfl, fun _ => rfl⟩
  · simp only [if_neg ht, if_neg hl, true_and, imp_self]

/-! ### Consistent states -/

/-- The links join different groups, and the groups are listed once. -/
structure Wired (p : Propagation) : Prop where
  order_nodup : p.order.Nodup
  source_mem : ∀ l ∈ p.links, l.1 ∈ p.order
  target_mem : ∀ l ∈ p.links, l.2 ∈ p.order
  ne : ∀ l ∈ p.links, l.1 ≠ l.2
  links_nodup : p.links.Nodup

/-- Every group has a state with its seed and a place for every sender, and its set is computed
from these. -/
structure Consistent (p : Propagation) : Prop where
  keys : p.states.keys = p.order
  seed : ∀ {id s}, p.states.get? id = some s → s.seed = p.seedOf id
  senders : ∀ {id s}, p.states.get? id = some s → s.incoming.keys = p.sources id
  computed : ∀ {id s}, p.states.get? id = some s → s.recompute = s

theorem Wired.toggle (h : p.Wired) (id : String) (active : Bool) (names : Option NameSet) :
    (p.toggle id active names).Wired := by
  constructor <;> simp only [order_toggle, links_toggle]
  · exact h.order_nodup
  · exact h.source_mem
  · exact h.target_mem
  · exact h.ne
  · exact h.links_nodup

theorem Wired.sources_nodup (h : p.Wired) (id : String) : (p.sources id).Nodup := by
  refine List.Nodup.map_on (fun a ha b hb hab => ?_) (h.links_nodup.filter _)
  have ha2 : a.2 = id := by simpa using (List.mem_filter.mp ha).2
  have hb2 : b.2 = id := by simpa using (List.mem_filter.mp hb).2
  exact Prod.ext hab (ha2.trans hb2.symm)

theorem Consistent.toggle (h : p.Consistent) (id : String) (active : Bool)
    (names : Option NameSet) : (p.toggle id active names).Consistent := by
  refine ⟨?_, ?_, ?_, ?_⟩
  · rw [keys_toggle, order_toggle, h.keys]
  · intro t s hs
    obtain ⟨s₀, h₀, hseed, -⟩ := exists_of_get?_toggle hs
    rw [hseed, h.seed h₀, seedOf, seedOf, seeds_toggle]
  · intro t s hs
    obtain ⟨s₀, h₀, -, -, hin, -⟩ := exists_of_get?_toggle hs
    have hkeys : s₀.incoming.keys = p.sources t := h.senders h₀
    rw [hin, sources, links_toggle, ← sources, ← hkeys]
    split
    · rename_i hl
      exact Assoc.keys_put_of_mem _ (by rw [hkeys]; exact mem_sources.mpr hl)
    · rfl
  · intro t s hs
    obtain ⟨s₀, h₀, -, -, -, hc⟩ := exists_of_get?_toggle hs
    exact hc (h.computed h₀)

/-! ### Marks, held sets and computed sets -/

theorem exists_state (h : p.Consistent) {id : String} (hid : id ∈ p.order) :
    ∃ s, p.states.get? id = some s :=
  Assoc.exists_get?_of_mem_keys (h.keys ▸ hid)

theorem isActive_eq {id : String} {s : GroupState} (h : p.states.get? id = some s) :
    p.isActive id = s.active := by
  simp [isActive, h]

theorem computedOf_eq {id : String} {s : GroupState} (h : p.states.get? id = some s) :
    p.computedOf id = s.computed := by
  simp [computedOf, h]

theorem held_eq {q id : String} {s : GroupState} (h : p.states.get? id = some s) :
    p.held q id = (s.incoming.get? q).join := by
  simp [held, h]

/-- A set is the seed with everything that was received. -/
theorem Consistent.mem_computed (h : p.Consistent) (hw : p.Wired) {id x : String} {s : GroupState}
    (hs : p.states.get? id = some s) : x ∈ s.computed ↔
      x ∈ s.seed ∨ ∃ q names, s.incoming.get? q = some (some names) ∧ x ∈ names := by
  have hnodup : s.incoming.keys.Nodup := h.senders hs ▸ hw.sources_nodup id
  rw [← recompute_eq_iff.mp (h.computed hs), NameSet.mem_foldl_union]
  simp only [GroupState.received, List.mem_filterMap]
  constructor
  · rintro (hx | ⟨names, ⟨_, hv, rfl⟩, hx⟩)
    · exact .inl hx
    · obtain ⟨q, hq⟩ := Assoc.exists_get?_of_mem_values hnodup hv
      exact .inr ⟨q, names, hq, hx⟩
  · rintro (hx | ⟨q, names, hq, hx⟩)
    · exact .inl hx
    · exact .inr ⟨names, ⟨_, Assoc.mem_values_of_get? hq, rfl⟩, hx⟩

theorem mem_computedOf (h : p.Consistent) (hw : p.Wired) {id x : String} (hid : id ∈ p.order) :
    x ∈ p.computedOf id ↔
      x ∈ p.seedOf id ∨ ∃ q names, (q, id) ∈ p.links ∧ p.held q id = some names ∧ x ∈ names := by
  obtain ⟨s, hs⟩ := exists_state h hid
  rw [computedOf_eq hs, h.mem_computed hw hs, h.seed hs]
  refine or_congr_right (exists_congr fun q => exists_congr fun names => ?_)
  rw [held_eq hs, Option.join_eq_some_iff]
  constructor
  · rintro ⟨hq, hx⟩
    exact ⟨mem_sources.mp (h.senders hs ▸ Assoc.mem_keys_of_get? hq), hq, hx⟩
  · exact fun hq => hq.2

theorem isActive_toggle (h : p.Consistent) {id : String} (hid : id ∈ p.order) (t : String)
    (active : Bool) (names : Option NameSet) :
    (p.toggle id active names).isActive t = if id = t then active else p.isActive t := by
  cases hs : p.states.get? t with
  | none =>
    have hne : id ≠ t := by
      rintro rfl
      obtain ⟨s, hs'⟩ := exists_state h hid
      simp [hs] at hs'
    simp [isActive, get?_toggle, hs, hne]
  | some s =>
    obtain ⟨s', hs'⟩ := exists_state (h.toggle id active names)
      (by rw [order_toggle, ← h.keys]; exact Assoc.mem_keys_of_get? hs)
    obtain ⟨s₀, h₀, -, ha, -⟩ := exists_of_get?_toggle hs'
    rw [isActive_eq hs', isActive_eq h₀, ha]

theorem held_toggle (h : p.Consistent) (hw : p.Wired) {id q t : String} (hl : (q, t) ∈ p.links)
    (active : Bool) (names : Option NameSet) :
    (p.toggle id active names).held q t = if id = q then names else p.held q t := by
  obtain ⟨s', hs'⟩ := exists_state (h.toggle id active names)
    (by rw [order_toggle]; exact hw.target_mem _ hl)
  obtain ⟨s₀, h₀, -, -, hin, -⟩ := exists_of_get?_toggle hs'
  rw [held_eq hs', held_eq h₀, hin]
  by_cases hq : id = q
  · subst hq
    simp [hl]
  · rw [if_neg hq]
    split
    · rw [Assoc.get?_put_of_ne _ _ hq]
    · rfl

/-- Only the successors of the group compute their sets anew. -/
theorem computedOf_toggle {id t : String} (hl : (id, t) ∉ p.links)
    (active : Bool) (names : Option NameSet) :
    (p.toggle id active names).computedOf t = p.computedOf t := by
  simp only [computedOf, get?_toggle, if_neg hl, Option.elim_map]
  cases p.states.get? t with
  | none => rfl
  | some s => simp only [Option.elim_some]; split <;> rfl

end Lookahead.Propagation
