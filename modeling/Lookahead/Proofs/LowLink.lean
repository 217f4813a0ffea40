import Lookahead.Digraph
import Mathlib.Logic.Relation
import Mathlib.Data.List.Basic
import Mathlib.Data.List.Nodup

/-!
# The low-link search finds the components

The nodes of the frames form a path. Everything above a node of the path on the stack of
nodes is reached from it, and every node on that stack reaches a node of the path that is
not above it. What was looked at from a node is in a component found earlier, or on the
stack and not below the low link of the node of the path that is closest. A node that is
left with its own number as its low link therefore has its component above it, and no
edge leads from there to anything that stays on the stack.
-/

namespace Lookahead.Digraph

open Relation (ReflTransGen)

variable {α : Type}

/-- There is a way from successor to successor. -/
def Connects (succ : α → List α) : α → α → Prop := ReflTransGen fun v w => w ∈ succ v

/-- Every list is a class of nodes that reach each other, and no edge leads from it to a node that
is neither in it nor in a list before it. -/
inductive Decomposition (succ : α → List α) : List (List α) → Prop where
  | nil : Decomposition succ []
  | snoc {cs : List (List α)} {c : List α} (before : Decomposition succ cs) (ne_nil : c ≠ [])
      (isClass : ∀ v ∈ c, ∀ w, w ∈ c ↔ Connects succ v w ∧ Connects succ w v)
      (closed : ∀ v ∈ c, ∀ w ∈ succ v, w ∈ c ∨ w ∈ cs.flatten) : Decomposition succ (cs ++ [c])

namespace Decomposition

variable {succ : α → List α} {cs : List (List α)}

theorem closed (h : Decomposition succ cs) {v w : α} (hv : v ∈ cs.flatten) (hw : w ∈ succ v) :
    w ∈ cs.flatten := by
  induction h with
  | nil => exact absurd hv List.not_mem_nil
  | snoc before _ _ closed ih =>
    simp only [List.flatten_append, List.flatten_cons, List.flatten_nil, List.append_nil,
      List.mem_append] at hv ⊢
    rcases hv with hv | hv
    · exact .inl (ih hv)
    · exact (closed v hv w hw).symm

theorem mem_of_connects (h : Decomposition succ cs) {v w : α} (hv : v ∈ cs.flatten)
    (hvw : Connects succ v w) : w ∈ cs.flatten := by
  induction hvw with
  | refl => exact hv
  | tail _ hw ih => exact h.closed ih hw

theorem ne_nil (h : Decomposition succ cs) {c : List α} (hc : c ∈ cs) : c ≠ [] := by
  induction h with
  | nil => exact absurd hc List.not_mem_nil
  | snoc _ ne_nil _ _ ih =>
    rcases List.mem_append.mp hc with hc | hc
    · exact ih hc
    · exact List.mem_singleton.mp hc ▸ ne_nil

theorem isClass (h : Decomposition succ cs) {c : List α} (hc : c ∈ cs) {v w : α} (hv : v ∈ c) :
    w ∈ c ↔ Connects succ v w ∧ Connects succ w v := by
  induction h with
  | nil => exact absurd hc List.not_mem_nil
  | snoc _ _ isClass _ ih =>
    rcases List.mem_append.mp hc with hc | hc
    · exact ih hc
    · obtain rfl := List.mem_singleton.mp hc
      exact isClass v hv w

/-- No edge leads from a component to a later one. -/
theorem le_of_succ (h : Decomposition succ cs) (hnodup : cs.flatten.Nodup) {i j : Nat}
    {c d : List α} (hi : cs[i]? = some c) (hj : cs[j]? = some d) {v w : α} (hv : v ∈ c)
    (hw : w ∈ d) (hvw : w ∈ succ v) : j ≤ i := by
  induction h with
  | nil => simp at hi
  | @snoc cs e before _ _ _ ih =>
    rw [List.flatten_append, List.flatten_singleton, List.nodup_append] at hnodup
    have hjlen : j < cs.length + 1 := by simpa using (List.getElem?_eq_some_iff.mp hj).1
    by_cases hilen : i < cs.length
    · rw [List.getElem?_append_left hilen] at hi
      have hwcs : w ∈ cs.flatten :=
        before.closed (List.mem_flatten.mpr ⟨c, List.mem_of_getElem? hi, hv⟩) hvw
      by_cases hjcs : j < cs.length
      · rw [List.getElem?_append_left hjcs] at hj
        exact ih hnodup.1 hi hj
      · -- `w` would be in the last component and in one before it
        obtain rfl : j = cs.length := by omega
        obtain rfl : e = d := by simpa using hj
        exact absurd rfl (hnodup.2.2 w hwcs w hw)
    · omega

end Decomposition

namespace Search

variable [DecidableEq α] {succ : α → List α} {roots : List α} {owed : α → α → Prop}
  {s t : Search α} {u v w : α}

def number (s : Search α) (v : α) : Nat := (s.index.get? v).getD 0

def low (s : Search α) (v : α) : Nat := (s.lowlink.get? v).getD 0

/-- The nodes of the frames. -/
def path (s : Search α) : List α := s.work.map Frame.node

/-- The edges that are still to be looked at. -/
def Pending (s : Search α) (v w : α) : Prop := ∃ f ∈ s.work, f.node = v ∧ w ∈ f.rest

/-- The last node of the path that is not above a node of the stack. -/
structure Owner (s : Search α) (v u : α) : Prop where
  mem : u ∈ s.path
  le : s.number u ≤ s.number v
  last : ∀ p ∈ s.path, s.number p ≤ s.number v → s.number p ≤ s.number u

/-- What looking at an edge leaves. -/
def Looked (s : Search α) (v w : α) : Prop :=
  w ∈ s.found.flatten ∨ w ∈ s.stack ∧ ∃ u, s.Owner v u ∧ s.low u ≤ s.number w

theorem Looked.congr (h : s.Looked v w) (hindex : t.index = s.index) (hpath : t.path = s.path)
    (hstack : t.stack = s.stack) (hfound : t.found = s.found) (hlow : ∀ u, t.low u ≤ s.low u) :
    t.Looked v w := by
  have hnumber : t.number = s.number := funext fun u => by rw [number, number, hindex]
  refine h.imp (hfound ▸ ·) fun ⟨hw, u, hu, hle⟩ => ⟨hstack ▸ hw, u, ?_, ?_⟩
  · exact ⟨hpath ▸ hu.mem, hnumber ▸ hu.le, hpath ▸ hnumber ▸ hu.last⟩
  · exact hnumber ▸ Nat.le_trans (hlow u) hle

omit [DecidableEq α] in
theorem pending_iff {f : Frame α} {work : List (Frame α)} (h : s.work = f :: work) :
    s.Pending v w ↔ v = f.node ∧ w ∈ f.rest ∨ Pending { s with work } v w := by
  simp [Pending, h, eq_comm (a := v)]

omit [DecidableEq α] in
/-- A frame with nothing left to look at owes nothing. -/
theorem pending_of_nil {work : List (Frame α)} (h : s.work = ⟨u, []⟩ :: work) :
    s.Pending v w ↔ Pending { s with work } v w := by
  simp [pending_iff h]

theorem pending_enter :
    (s.enter succ u).Pending v w ↔ s.Pending v w ∨ v = u ∧ w ∈ succ u := by
  rw [pending_iff rfl, or_comm]
  rfl

/-- What holds in the course of a search from the roots, with the edges that are owed still to be
looked at. -/
structure Invariant (succ : α → List α) (roots : List α) (owed : α → α → Prop) (s : Search α) :
    Prop where
  onStack_iff : ∀ v, v ∈ s.onStack ↔ v ∈ s.stack
  entered_iff : ∀ v, v ∈ s.index.keys ↔ v ∈ s.stack ∨ v ∈ s.found.flatten
  number_lt : ∀ v ∈ s.index.keys, s.number v < s.counter
  nodup : (s.stack ++ s.found.flatten).Nodup
  stack_sorted : s.stack.Pairwise fun v w => s.number w < s.number v
  path_subset : ∀ v ∈ s.path, v ∈ s.stack
  path_sorted : s.path.Pairwise fun v w => s.number w < s.number v
  owed_edge : ∀ v w, owed v w → v ∈ s.path ∧ w ∈ succ v
  above : ∀ v ∈ s.path, ∀ w ∈ s.stack, s.number v ≤ s.number w → Connects succ v w
  below : ∀ w ∈ s.stack, ∃ v ∈ s.path, s.number v ≤ s.number w ∧ Connects succ w v
  lowest : ∀ v ∈ s.path, ∃ w ∈ s.stack, s.lowlink.get? v = some (s.number w) ∧
    s.number w ≤ s.number v ∧ Connects succ v w
  looked : ∀ v ∈ s.stack, ∀ w ∈ succ v, owed v w ∨ s.Looked v w
  roots_subset : ∀ r ∈ s.roots, r ∈ roots
  root_or_entered : ∀ r ∈ roots, r ∈ s.roots ∨ r ∈ s.index.keys
  reached : ∀ v ∈ s.index.keys, ∃ r ∈ roots, Connects succ r v
  decomposition : Decomposition succ s.found

theorem invariant_start (succ : α → List α) (roots : List α) :
    Invariant succ roots (fun _ _ => False) { roots } := by
  constructor <;> simp [Assoc.keys, path, Decomposition.nil]

namespace Invariant

theorem mono {more : α → α → Prop} (h : Invariant succ roots owed s)
    (howed : ∀ v w, owed v w → more v w) (hedge : ∀ v w, more v w → v ∈ s.path ∧ w ∈ succ v) :
    Invariant succ roots more s :=
  { h with
    owed_edge := hedge
    looked := fun v hv w hw => (h.looked v hv w hw).imp_left (howed v w) }

/-- An edge that was looked at is not owed any more. -/
theorem settle (h : Invariant succ roots (fun a b => owed a b ∨ a = v ∧ b = w) s)
    (hlooked : s.Looked v w) : Invariant succ roots owed s :=
  { h with
    owed_edge := fun a b hab => h.owed_edge a b (.inl hab)
    looked := fun a ha b hb => by
      rcases h.looked a ha b hb with (hab | ⟨rfl, rfl⟩) | hab
      · exact .inl hab
      · exact .inr hlooked
      · exact .inr hab }

theorem number_lt_counter (h : Invariant succ roots owed s) (hv : v ∈ s.stack) :
    s.number v < s.counter :=
  h.number_lt v ((h.entered_iff v).mpr (.inl hv))

theorem get?_index (h : Invariant succ roots owed s) (hv : v ∈ s.stack) :
    s.index.get? v = some (s.number v) := by
  obtain ⟨n, hn⟩ := Assoc.exists_get?_of_mem_keys ((h.entered_iff v).mpr (.inl hv))
  simp [number, hn]

end Invariant

/-! ### Entering a node -/

theorem number_enter_self (s : Search α) (v : α) : (s.enter succ v).number v = s.counter := by
  simp [number, enter]

namespace Invariant

variable (h : Invariant succ roots owed s) (hv : v ∉ s.index.keys)

include h hv

theorem fresh : v ∉ s.stack ∧ v ∉ s.found.flatten :=
  not_or.mp fun hm => hv ((h.entered_iff v).mpr hm)

theorem number_enter (hu : u ∈ s.stack) : (s.enter succ v).number u = s.number u := by
  have hvu : v ≠ u := fun he => (h.fresh hv).1 (he ▸ hu)
  simp [number, Search.enter, Assoc.get?_put_of_ne _ _ hvu]

theorem get?_lowlink_enter (hu : u ∈ s.stack) :
    (s.enter succ v).lowlink.get? u = s.lowlink.get? u :=
  Assoc.get?_put_of_ne _ _ fun he => (h.fresh hv).1 (he ▸ hu)

theorem number_enter_lt (hu : u ∈ s.stack) :
    (s.enter succ v).number u < (s.enter succ v).number v := by
  rw [h.number_enter hv hu, number_enter_self]
  exact h.number_lt_counter hu

theorem owner_enter (hu : u ∈ s.stack) (hw : s.Owner u w) : (s.enter succ v).Owner u w := by
  have hpath {p : α} (hp : p ∈ s.path) : (s.enter succ v).number p = s.number p :=
    h.number_enter hv (h.path_subset p hp)
  refine ⟨List.mem_cons_of_mem _ hw.mem, ?_, fun p hp hle => ?_⟩
  · rw [hpath hw.mem, h.number_enter hv hu]
    exact hw.le
  · rcases List.mem_cons.mp hp with rfl | hp
    · exact absurd (h.number_enter_lt hv hu) (Nat.not_lt.mpr hle)
    · rw [hpath hp, h.number_enter hv hu] at hle
      rw [hpath hp, hpath hw.mem]
      exact hw.last p hp hle

theorem above_enter (hpath : ∀ u ∈ s.path, Connects succ u v) :
    ∀ u ∈ (s.enter succ v).path, ∀ w ∈ (s.enter succ v).stack,
      (s.enter succ v).number u ≤ (s.enter succ v).number w → Connects succ u w := by
  intro u hu w hw hle
  rcases List.mem_cons.mp hw with rfl | hws <;> rcases List.mem_cons.mp hu with rfl | hup
  · exact .refl
  · exact hpath u hup
  · exact absurd (h.number_enter_lt hv hws) (Nat.not_lt.mpr hle)
  · rw [h.number_enter hv hws, h.number_enter hv (h.path_subset u hup)] at hle
    exact h.above u hup w hws hle

theorem lowest_enter : ∀ u ∈ (s.enter succ v).path, ∃ w ∈ (s.enter succ v).stack,
    (s.enter succ v).lowlink.get? u = some ((s.enter succ v).number w) ∧
      (s.enter succ v).number w ≤ (s.enter succ v).number u ∧ Connects succ u w := by
  intro u hu
  rcases List.mem_cons.mp hu with rfl | hu
  · refine ⟨u, List.mem_cons_self .., ?_, Nat.le_refl _, .refl⟩
    rw [number_enter_self]
    exact Assoc.get?_put_self ..
  · obtain ⟨w, hw, hlow, hle, huw⟩ := h.lowest u hu
    refine ⟨w, List.mem_cons_of_mem _ hw, ?_, ?_, huw⟩
    · rw [h.get?_lowlink_enter hv (h.path_subset u hu), hlow, h.number_enter hv hw]
    · rwa [h.number_enter hv hw, h.number_enter hv (h.path_subset u hu)]

theorem looked_enter {a b : α} (ha : a ∈ s.stack) (hb : s.Looked a b) :
    (s.enter succ v).Looked a b := by
  refine hb.imp_right fun ⟨hbs, u, hu, hlow⟩ =>
    ⟨List.mem_cons_of_mem _ hbs, u, h.owner_enter hv ha hu, ?_⟩
  rw [low, h.get?_lowlink_enter hv (h.path_subset u hu.mem), h.number_enter hv hbs]
  exact hlow

theorem enter (hpath : ∀ u ∈ s.path, Connects succ u v) (hroot : ∃ r ∈ roots, Connects succ r v) :
    Invariant succ roots (fun a b => owed a b ∨ a = v ∧ b ∈ succ v) (s.enter succ v) := by
  have hentered (u : α) : u ∈ (s.enter succ v).index.keys ↔ u ∈ s.index.keys ∨ u = v := by
    simp [Search.enter, Assoc.keys_put, hv]
  have hold {u : α} (hu : u ∈ s.stack) : (s.enter succ v).number u = s.number u :=
    h.number_enter hv hu
  have hless {u : α} (hu : u ∈ s.stack) : (s.enter succ v).number u < (s.enter succ v).number v :=
    h.number_enter_lt hv hu
  constructor
  case onStack_iff => simp [Search.enter, h.onStack_iff]
  case entered_iff =>
    intro u
    rw [hentered, h.entered_iff]
    simp only [Search.enter, List.mem_cons]
    tauto
  case number_lt =>
    intro u hu
    show _ < s.counter + 1
    rcases (hentered u).mp hu with hu | rfl
    · have hvu : v ≠ u := fun he => hv (he ▸ hu)
      have := h.number_lt u hu
      simp only [number, Search.enter, Assoc.get?_put_of_ne _ _ hvu] at this ⊢
      omega
    · rw [number_enter_self]
      omega
  case nodup =>
    refine List.nodup_cons.mpr ⟨fun hm => ?_, h.nodup⟩
    exact (List.mem_append.mp hm).elim (h.fresh hv).1 (h.fresh hv).2
  case stack_sorted =>
    refine List.pairwise_cons.mpr ⟨fun u hu => hless hu, ?_⟩
    exact h.stack_sorted.imp_of_mem fun ha hb hab => by rwa [hold ha, hold hb]
  case path_subset =>
    intro u hu
    rcases List.mem_cons.mp hu with rfl | hu
    · exact List.mem_cons_self ..
    · exact List.mem_cons_of_mem _ (h.path_subset u hu)
  case path_sorted =>
    refine List.pairwise_cons.mpr ⟨fun u hu => hless (h.path_subset u hu), ?_⟩
    exact h.path_sorted.imp_of_mem fun ha hb hab => by
      rwa [hold (h.path_subset _ ha), hold (h.path_subset _ hb)]
  case owed_edge =>
    rintro a b (hab | ⟨rfl, hb⟩)
    · exact ⟨List.mem_cons_of_mem _ (h.owed_edge a b hab).1, (h.owed_edge a b hab).2⟩
    · exact ⟨List.mem_cons_self .., hb⟩
  case above => exact h.above_enter hv hpath
  case below =>
    intro w hw
    rcases List.mem_cons.mp hw with rfl | hw
    · exact ⟨w, List.mem_cons_self .., Nat.le_refl _, .refl⟩
    · obtain ⟨u, hu, hle, hwu⟩ := h.below w hw
      refine ⟨u, List.mem_cons_of_mem _ hu, ?_, hwu⟩
      rwa [hold hw, hold (h.path_subset u hu)]
  case lowest => exact h.lowest_enter hv
  case looked =>
    intro a ha b hb
    rcases List.mem_cons.mp ha with rfl | ha
    · exact .inl (.inr ⟨rfl, hb⟩)
    · exact (h.looked a ha b hb).imp .inl (h.looked_enter hv ha)
  case roots_subset => exact h.roots_subset
  case root_or_entered =>
    exact fun r hr => (h.root_or_entered r hr).imp_right fun hm => (hentered r).mpr (.inl hm)
  case reached =>
    intro u hu
    rcases (hentered u).mp hu with hu | rfl
    · exact h.reached u hu
    · exact hroot
  case decomposition => exact h.decomposition

end Invariant

/-! ### Lowering a low link -/

theorem Invariant.get?_lowlink (h : Invariant succ roots owed s) (hv : v ∈ s.path) :
    s.lowlink.get? v = some (s.low v) := by
  obtain ⟨w, _, hlow, _⟩ := h.lowest v hv
  simp [low, hlow]

theorem Invariant.low_le (h : Invariant succ roots owed s) (hv : v ∈ s.path) :
    s.low v ≤ s.number v := by
  obtain ⟨w, _, hlow, hle, _⟩ := h.lowest v hv
  simpa [low, hlow] using hle

/-- The state with the low link of a node lowered to a number. -/
def lowered (v : α) (n : Nat) (s : Search α) : Search α :=
  { s with lowlink := s.lowlink.put v (min (s.low v) n) }

theorem Invariant.lower_eq (h : Invariant succ roots owed s) (hv : v ∈ s.path) (n : Nat) :
    s.lower v n = some (s.lowered v n) :=
  lower_eq_some.mpr ⟨_, h.get?_lowlink hv, rfl⟩

theorem low_lowered (s : Search α) (v u : α) (n : Nat) :
    (s.lowered v n).low u = if v = u then min (s.low v) n else s.low u := by
  by_cases h : v = u <;> simp [low, lowered, Assoc.get?_put, h]

theorem low_lowered_le (s : Search α) (v u : α) (n : Nat) : (s.lowered v n).low u ≤ s.low u := by
  rw [low_lowered]
  split
  · rename_i hvu
    exact hvu ▸ Nat.min_le_left ..
  · exact Nat.le_refl _

theorem Invariant.lowered (h : Invariant succ roots owed s) (hv : v ∈ s.path) (hw : w ∈ s.stack)
    (hvw : Connects succ v w) : Invariant succ roots owed (s.lowered v (s.number w)) := by
  refine { h with
    lowest := fun u hu => ?_
    looked := fun a ha b hb => (h.looked a ha b hb).imp_right
      (·.congr rfl rfl rfl rfl fun u => low_lowered_le s v u _) }
  by_cases hvu : v = u
  · subst hvu
    obtain ⟨x, hx, hlow, hle, hvx⟩ := h.lowest v hv
    have hlow' : s.low v = s.number x := by simp [low, hlow]
    have hput : (s.lowered v (s.number w)).lowlink.get? v = some (min (s.number x) (s.number w)) := by
      rw [← hlow']
      exact Assoc.get?_put_self ..
    by_cases hxw : s.number x ≤ s.number w
    · exact ⟨x, hx, by rw [hput, Nat.min_eq_left hxw]; rfl, hle, hvx⟩
    · have hwx : s.number w ≤ s.number x := by omega
      exact ⟨w, hw, by rw [hput, Nat.min_eq_right hwx]; rfl, Nat.le_trans hwx hle, hvw⟩
  · obtain ⟨x, hx, hlow, hle, hux⟩ := h.lowest u hu
    exact ⟨x, hx, (Assoc.get?_put_of_ne _ _ hvu).trans hlow, hle, hux⟩

/-! ### Leaving a node -/

/-- The top of the path has the greatest number on it. -/
theorem Invariant.number_lt_top (h : Invariant succ roots owed s) {work : List (Frame α)}
    {rest : List α} (hwork : s.work = ⟨v, rest⟩ :: work) (hu : u ∈ work.map Frame.node) :
    s.number u < s.number v := by
  have hsorted := h.path_sorted
  rw [path, hwork] at hsorted
  exact (List.pairwise_cons.mp hsorted).1 u hu

theorem Invariant.le_top (h : Invariant succ roots owed s) {work : List (Frame α)}
    {rest : List α} (hwork : s.work = ⟨v, rest⟩ :: work) (hu : u ∈ s.path) :
    s.number u ≤ s.number v := by
  rw [path, hwork] at hu
  rcases List.mem_cons.mp hu with rfl | hu
  · exact Nat.le_refl _
  · exact Nat.le_of_lt (h.number_lt_top hwork hu)

/-- The edges that the frames below the top still owe. -/
theorem Invariant.owed_below {f : Frame α} {work : List (Frame α)}
    (h : Invariant succ roots s.Pending s) (hwork : s.work = f :: work)
    (hvw : Pending { s with work } v w) : v ∈ work.map Frame.node ∧ w ∈ succ v := by
  obtain ⟨g, hg, rfl, hw⟩ := hvw
  exact ⟨List.mem_map_of_mem hg,
    (h.owed_edge g.node w ⟨g, hwork ▸ List.mem_cons_of_mem _ hg, rfl, hw⟩).2⟩

/-- A node that reaches a number below its own leaves what is above it to the node before it. -/
theorem Invariant.retreat {p : α} {rest : List α} {work : List (Frame α)}
    (h : Invariant succ roots s.Pending s) (hwork : s.work = ⟨v, []⟩ :: ⟨p, rest⟩ :: work)
    (hless : s.low v < s.number v) (hle : s.low p ≤ s.low v) :
    Invariant succ roots (Pending { s with work := ⟨p, rest⟩ :: work })
      { s with work := ⟨p, rest⟩ :: work } := by
  have hpath : s.path = v :: p :: work.map Frame.node := by simp [path, hwork]
  have htop {u : α} (hu : u ∈ p :: work.map Frame.node) : s.number u < s.number v :=
    h.number_lt_top hwork hu
  have hsub {u : α} (hu : u ∈ p :: work.map Frame.node) : u ∈ s.path :=
    hpath ▸ List.mem_cons_of_mem _ hu
  have hcases {u : α} (hu : u ∈ s.path) : u = v ∨ u ∈ p :: work.map Frame.node :=
    List.mem_cons.mp (hpath ▸ hu)
  have hsorted : (p :: work.map Frame.node).Pairwise fun a b => s.number b < s.number a :=
    (List.pairwise_cons.mp (hpath ▸ h.path_sorted)).2
  -- where `v` was the node of the path that is reached, one below it is reached as well
  obtain ⟨x, hx, hlow, _, hvx⟩ := h.lowest v (hpath ▸ List.mem_cons_self ..)
  have hlow : s.low v = s.number x := by simp [low, hlow]
  obtain ⟨q, hq, hqx, hxq⟩ := h.below x hx
  have hqv : q ∈ p :: work.map Frame.node :=
    (hcases hq).resolve_left fun he => by subst he; omega
  refine { h with
    path_subset := fun u hu => h.path_subset u (hsub hu)
    path_sorted := hsorted
    owed_edge := fun a b hab => h.owed_below hwork hab
    above := fun u hu => h.above u (hsub hu)
    below := ?_
    lowest := fun u hu => h.lowest u (hsub hu)
    looked := ?_ }
  · intro w hw
    obtain ⟨u, hu, huw, hwu⟩ := h.below w hw
    rcases hcases hu with rfl | hu
    · refine ⟨q, hqv, ?_, hwu.trans (hvx.trans hxq)⟩
      have := htop hqv
      show s.number q ≤ s.number w
      omega
    · exact ⟨u, hu, huw, hwu⟩
  · intro a ha b hb
    rcases h.looked a ha b hb with howed | hfound | ⟨hbs, u, hu, hub⟩
    · exact .inl ((pending_of_nil hwork).mp howed)
    · exact .inr (.inl hfound)
    · refine .inr (.inr ⟨hbs, ?_⟩)
      rcases hcases hu.mem with rfl | hmem
      · have hpu := htop (List.mem_cons_self ..)
        refine ⟨p, ⟨List.mem_cons_self .., Nat.le_trans (Nat.le_of_lt hpu) hu.le, ?_⟩,
          Nat.le_trans hle hub⟩
        intro r hr _
        rcases List.mem_cons.mp hr with rfl | hr
        · exact Nat.le_refl _
        · exact Nat.le_of_lt ((List.pairwise_cons.mp hsorted).1 r hr)
      · exact ⟨u, ⟨hmem, hu.le, fun r hr => hu.last r (hsub hr)⟩, hub⟩

theorem cut_eq {above : List α} (hv : v ∉ above) (taken below : List α) :
    cut v taken (above ++ v :: below) = some (v :: (above.reverse ++ taken), below) := by
  induction above generalizing taken with
  | nil => simp [cut]
  | cons w above ih =>
    obtain ⟨hw, hv⟩ := not_or.mp fun hm => hv (List.mem_cons.mpr hm)
    rw [List.cons_append, cut, if_neg fun he => hw he.symm, ih hv]
    simp

theorem complete_eq {c below : List α} (h : cut v [] s.stack = some (c, below)) :
    s.complete v = some { s with
      stack := below
      onStack := s.onStack.filter fun w => !c.contains w
      found := s.found ++ [c] } := by
  rw [complete, h]
  rfl

/-- The edges from what lies above a node that reaches no number below its own. -/
theorem Invariant.closed_above {work : List (Frame α)} (h : Invariant succ roots s.Pending s)
    (hwork : s.work = ⟨v, []⟩ :: work) (hlow : s.low v = s.number v) (hu : u ∈ s.stack)
    (hvu : s.number v ≤ s.number u) (hw : w ∈ succ u) :
    w ∈ s.stack ∧ s.number v ≤ s.number w ∨ w ∈ s.found.flatten := by
  rcases h.looked u hu w hw with howed | hfound | ⟨hws, p, hp, hpw⟩
  · have hbelow := (h.owed_below hwork ((pending_of_nil hwork).mp howed)).1
    exact absurd (h.number_lt_top hwork hbelow) (Nat.not_lt.mpr hvu)
  · exact .inr hfound
  · -- the closest node of the path is the one that is left
    have hvp : s.number v ≤ s.number p := hp.last v (by simp [path, hwork]) hvu
    have hmem := hp.mem
    rw [path, hwork] at hmem
    rcases List.mem_cons.mp hmem with rfl | hmem
    · exact .inl ⟨hws, hlow ▸ hpw⟩
    · exact absurd (h.number_lt_top hwork hmem) (Nat.not_lt.mpr hvp)

/-- What lies above the top of the path reaches it and is reached from it. -/
theorem Invariant.mutual_above {work : List (Frame α)} {rest : List α}
    (h : Invariant succ roots owed s) (hwork : s.work = ⟨v, rest⟩ :: work) (hu : u ∈ s.stack)
    (hvu : s.number v ≤ s.number u) : Connects succ v u ∧ Connects succ u v := by
  have hv : v ∈ s.path := by simp [path, hwork]
  obtain ⟨p, hp, _, hup⟩ := h.below u hu
  exact ⟨h.above v hv u hu hvu,
    hup.trans (h.above p hp v (h.path_subset v hv) (h.le_top hwork hp))⟩

theorem Invariant.class_above {work : List (Frame α)} (h : Invariant succ roots s.Pending s)
    (hwork : s.work = ⟨v, []⟩ :: work) (hlow : s.low v = s.number v) (hu : u ∈ s.stack)
    (hvu : s.number v ≤ s.number u) :
    w ∈ s.stack ∧ s.number v ≤ s.number w ↔ Connects succ u w ∧ Connects succ w u := by
  obtain ⟨hto, hfrom⟩ := h.mutual_above hwork hu hvu
  constructor
  · rintro ⟨hw, hvw⟩
    obtain ⟨hto', hfrom'⟩ := h.mutual_above hwork hw hvw
    exact ⟨hfrom.trans hto', hfrom'.trans hto⟩
  · rintro ⟨huw, hwu⟩
    have hstays : w ∈ s.stack ∧ s.number v ≤ s.number w ∨ w ∈ s.found.flatten := by
      clear hwu
      induction huw with
      | refl => exact .inl ⟨hu, hvu⟩
      | tail _ hbc ih =>
        rcases ih with ⟨hb, hvb⟩ | hb
        · exact h.closed_above hwork hlow hb hvb hbc
        · exact .inr (h.decomposition.closed hb hbc)
    refine hstays.resolve_right fun hw => ?_
    have hfound := h.decomposition.mem_of_connects hw hwu
    exact (List.nodup_append.mp h.nodup).2.2 u hu u hfound rfl

/-- A node of the stack with what is above it, and what is below it. -/
structure Split (s : Search α) (v : α) (c below : List α) : Prop where
  cut : cut v [] s.stack = some (c, below)
  mem : v ∈ c
  perm : s.stack.Perm (c ++ below)
  sublist : below.Sublist s.stack
  above_iff : ∀ u, u ∈ c ↔ u ∈ s.stack ∧ s.number v ≤ s.number u
  below_iff : ∀ u, u ∈ below ↔ u ∈ s.stack ∧ s.number u < s.number v

/-- A node of the stack divides it by the numbers. -/
theorem Invariant.exists_split (h : Invariant succ roots owed s) (hv : v ∈ s.stack) :
    ∃ c below, s.Split v c below := by
  obtain ⟨above, below, hstack⟩ := List.append_of_mem hv
  have hsorted := h.stack_sorted
  rw [hstack, List.pairwise_append, List.pairwise_cons] at hsorted
  obtain ⟨_, ⟨hbelow, _⟩, habove⟩ := hsorted
  have hover : ∀ u ∈ above, s.number v < s.number u := fun u hu =>
    habove u hu v (List.mem_cons_self ..)
  refine ⟨v :: above.reverse, below, ?_, List.mem_cons_self .., ?_, ?_, fun u => ?_, fun u => ?_⟩
  · rw [hstack, cut_eq fun hm => Nat.lt_irrefl _ (hover v hm), List.append_nil]
  · rw [hstack]
    exact List.perm_middle.trans (((List.reverse_perm above).symm.append_right below).cons v)
  · rw [hstack]
    exact (List.sublist_cons_self v below).trans (List.sublist_append_right above _)
  · simp only [hstack, List.mem_cons, List.mem_reverse, List.mem_append]
    constructor
    · rintro (rfl | hu)
      · exact ⟨.inr (.inl rfl), Nat.le_refl _⟩
      · exact ⟨.inl hu, Nat.le_of_lt (hover u hu)⟩
    · rintro ⟨hu | rfl | hu, hle⟩
      · exact .inr hu
      · exact .inl rfl
      · exact absurd (hbelow u hu) (Nat.not_lt.mpr hle)
  · simp only [hstack, List.mem_cons, List.mem_append]
    constructor
    · exact fun hu => ⟨.inr (.inr hu), hbelow u hu⟩
    · rintro ⟨hu | rfl | hu, hlt⟩
      · exact absurd (hover u hu) (Nat.lt_asymm hlt)
      · exact absurd hlt (Nat.lt_irrefl _)
      · exact hu

/-- A completed component moves from the stack to those found, and no node is lost. -/
theorem Split.perm_found {c below : List α} (h : s.Split v c below) :
    (below ++ (s.found ++ [c]).flatten).Perm (s.stack ++ s.found.flatten) := by
  rw [List.flatten_append, List.flatten_singleton, ← List.append_assoc]
  refine List.perm_append_comm.trans ?_
  rw [← List.append_assoc]
  exact h.perm.symm.append_right _

/-- A node that reaches no number below its own ends a component. -/
theorem Invariant.complete {work : List (Frame α)} (h : Invariant succ roots s.Pending s)
    (hwork : s.work = ⟨v, []⟩ :: work) (hlow : s.low v = s.number v) :
    ∃ t, complete v { s with work } = some t ∧ Invariant succ roots t.Pending t := by
  have hpath : s.path = v :: work.map Frame.node := by simp [path, hwork]
  have hsub {u : α} (hu : u ∈ work.map Frame.node) : u ∈ s.path :=
    hpath ▸ List.mem_cons_of_mem _ hu
  have hrest {u : α} (hu : u ∈ s.path) (hlt : s.number u < s.number v) :
      u ∈ work.map Frame.node := by
    refine (List.mem_cons.mp (hpath ▸ hu)).resolve_left ?_
    rintro rfl
    exact Nat.lt_irrefl _ hlt
  obtain ⟨c, below, hsplit⟩ := h.exists_split (h.path_subset v (hpath ▸ List.mem_cons_self ..))
  have hclass := hsplit.above_iff
  have hbelow := hsplit.below_iff
  refine ⟨_, complete_eq hsplit.cut, ?_⟩
  constructor
  case onStack_iff =>
    intro u
    simp only [List.mem_filter, h.onStack_iff, Bool.not_eq_true', List.contains_eq_mem,
      decide_eq_false_iff_not, hclass, hbelow, ← Nat.not_le]
    tauto
  case entered_iff =>
    intro u
    have hmem := hsplit.perm_found.mem_iff (a := u)
    rw [List.mem_append, List.mem_append] at hmem
    rw [hmem]
    exact h.entered_iff u
  case number_lt => exact h.number_lt
  case nodup => exact hsplit.perm_found.nodup_iff.mpr h.nodup
  case stack_sorted => exact h.stack_sorted.sublist hsplit.sublist
  case path_subset =>
    exact fun u hu => (hbelow u).mpr ⟨h.path_subset u (hsub hu), h.number_lt_top hwork hu⟩
  case path_sorted => exact (List.pairwise_cons.mp (hpath ▸ h.path_sorted)).2
  case owed_edge => exact fun a b hab => h.owed_below hwork hab
  case above => exact fun u hu w hw => h.above u (hsub hu) w ((hbelow w).mp hw).1
  case below =>
    intro w hw
    obtain ⟨hws, hwv⟩ := (hbelow w).mp hw
    obtain ⟨u, hu, huw, hwu⟩ := h.below w hws
    exact ⟨u, hrest hu (Nat.lt_of_le_of_lt huw hwv), huw, hwu⟩
  case lowest =>
    intro u hu
    obtain ⟨w, hw, hlow, hwu, huw⟩ := h.lowest u (hsub hu)
    have hwv := Nat.lt_of_le_of_lt hwu (h.number_lt_top hwork hu)
    exact ⟨w, (hbelow w).mpr ⟨hw, hwv⟩, hlow, hwu, huw⟩
  case looked =>
    intro a ha b hb
    obtain ⟨has, hav⟩ := (hbelow a).mp ha
    rcases h.looked a has b hb with howed | hfound | ⟨hbs, u, hu, hub⟩
    · exact .inl ((pending_of_nil hwork).mp howed)
    · exact .inr (.inl (by simp [hfound]))
    · rcases List.mem_append.mp (hsplit.perm.mem_iff.mp hbs) with hbc | hbb
      · exact .inr (.inl (by simp [hbc]))
      · exact .inr (.inr ⟨hbb, u, ⟨hrest hu.mem (Nat.lt_of_le_of_lt hu.le hav), hu.le,
          fun p hp => hu.last p (hsub hp)⟩, hub⟩)
  case roots_subset => exact h.roots_subset
  case root_or_entered => exact h.root_or_entered
  case reached => exact h.reached
  case decomposition =>
    refine .snoc h.decomposition (List.ne_nil_of_mem hsplit.mem) (fun u hu w => ?_) fun u hu w hw => ?_
    · obtain ⟨hus, hvu⟩ := (hclass u).mp hu
      rw [hclass]
      exact h.class_above hwork hlow hus hvu
    · obtain ⟨hus, hvu⟩ := (hclass u).mp hu
      rw [hclass]
      exact h.closed_above hwork hlow hus hvu hw

theorem leave_eq {low n : Nat} (hlow : s.lowlink.get? v = some low)
    (hdown : s.handDown low = some t) (hnumber : t.index.get? v = some n) :
    s.leave v = if low = n then t.complete v else some t := by
  simp [Search.leave, hlow, hdown, hnumber]

theorem Invariant.leave {work : List (Frame α)} (h : Invariant succ roots s.Pending s)
    (hwork : s.work = ⟨v, []⟩ :: work) :
    ∃ t, leave v { s with work } = some t ∧ Invariant succ roots t.Pending t := by
  have hpath : s.path = v :: work.map Frame.node := by simp [path, hwork]
  have hv : v ∈ s.path := hpath ▸ List.mem_cons_self ..
  have hlow : s.lowlink.get? v = some (s.low v) := h.get?_lowlink hv
  have hnumber : s.index.get? v = some (s.number v) := h.get?_index (h.path_subset v hv)
  obtain ⟨x, hx, hvx, hle, hconnects⟩ := h.lowest v hv
  have hvx : s.low v = s.number x := by simpa [hlow] using hvx
  rcases work with - | ⟨⟨p, rest⟩, work⟩
  · -- the first node of a search from a root reaches no lower number
    have hend : s.low v = s.number v := by
      obtain ⟨q, hq, hqx, _⟩ := h.below x hx
      obtain rfl : q = v := by simpa [hpath] using hq
      omega
    have hleave := leave_eq (s := { s with work := [] }) hlow rfl hnumber
    rw [hleave, if_pos hend]
    exact h.complete hwork hend
  · have hp : p ∈ s.path := by simp [hpath]
    have hpv : s.number p < s.number v := h.number_lt_top hwork (by simp)
    have hne : p ≠ v := by
      rintro rfl
      exact Nat.lt_irrefl _ hpv
    have hpx : Connects succ p x :=
      (h.above p hp v (h.path_subset v hv) (Nat.le_of_lt hpv)).trans hconnects
    have hlowered : Invariant succ roots (s.lowered p (s.low v)).Pending (s.lowered p (s.low v)) :=
      hvx ▸ h.lowered hp hx hpx
    have hkeeps : (s.lowered p (s.low v)).low v = s.low v := by simp [low_lowered, hne]
    have hdown : handDown (s.low v) { s with work := ⟨p, rest⟩ :: work } =
        some { s.lowered p (s.low v) with work := ⟨p, rest⟩ :: work } :=
      lower_eq_some.mpr ⟨_, h.get?_lowlink hp, rfl⟩
    have hleave := leave_eq (s := { s with work := ⟨p, rest⟩ :: work }) hlow hdown hnumber
    rw [hleave]
    split
    · rename_i hend
      exact hlowered.complete hwork (hkeeps.trans hend)
    · rename_i hend
      have hless : s.low v < s.number v := Nat.lt_of_le_of_ne (hvx ▸ hle) hend
      refine ⟨_, rfl, hlowered.retreat hwork ?_ ?_⟩
      · rw [hkeeps]
        exact hless
      · rw [hkeeps, low_lowered, if_pos rfl]
        exact Nat.min_le_right ..

/-! ### Steps and runs -/

/-- Frames of the same nodes. -/
theorem Invariant.reframe {work : List (Frame α)} (h : Invariant succ roots owed s)
    (hwork : work.map Frame.node = s.path) : Invariant succ roots owed { s with work } := by
  have hpath : path { s with work } = s.path := hwork
  refine { h with
    path_subset := hpath ▸ h.path_subset
    path_sorted := ?_
    owed_edge := hpath ▸ h.owed_edge
    above := hpath ▸ h.above
    below := hpath ▸ h.below
    lowest := hpath ▸ h.lowest
    looked := fun a ha b hb => (h.looked a ha b hb).imp_right
      (·.congr rfl hpath rfl rfl fun _ => Nat.le_refl _) }
  rw [hpath]
  exact h.path_sorted

theorem Invariant.owner_top {work : List (Frame α)} {rest : List α}
    (h : Invariant succ roots owed s) (hwork : s.work = ⟨v, rest⟩ :: work) : s.Owner v v := by
  exact ⟨by simp [path, hwork], Nat.le_refl _, fun p hp _ => h.le_top hwork hp⟩

/-- The next edge of a frame is taken off to be looked at. -/
theorem Invariant.take {work : List (Frame α)} {rest : List α}
    (h : Invariant succ roots s.Pending s) (hwork : s.work = ⟨v, w :: rest⟩ :: work)
    (ht : t = { s with work := ⟨v, rest⟩ :: work }) :
    Invariant succ roots (fun a b => t.Pending a b ∨ a = v ∧ b = w) t := by
  have hpending (a b : α) : s.Pending a b ↔ t.Pending a b ∨ a = v ∧ b = w := by
    have htwork : t.work = ⟨v, rest⟩ :: work := by rw [ht]
    rw [pending_iff hwork, pending_iff htwork, ht]
    simp only [List.mem_cons]
    tauto
  have hframes : (⟨v, rest⟩ :: work).map Frame.node = s.path := by simp [path, hwork]
  rw [ht]
  refine (h.reframe hframes).mono (fun a b hab => ht ▸ (hpending a b).mp hab) fun a b hab => ?_
  exact (h.reframe hframes).owed_edge a b ((hpending a b).mpr (ht ▸ hab))

theorem Invariant.look {work : List (Frame α)} {rest : List α}
    (h : Invariant succ roots (fun a b => s.Pending a b ∨ a = v ∧ b = w) s)
    (hwork : s.work = ⟨v, rest⟩ :: work) :
    ∃ t, s.look succ v w = some t ∧ Invariant succ roots t.Pending t := by
  obtain ⟨hv, hedge⟩ := h.owed_edge v w (.inr ⟨rfl, rfl⟩)
  have howner : s.Owner v v := h.owner_top hwork
  have hvs : v ∈ s.stack := h.path_subset v hv
  rw [Search.look]
  split
  · rename_i hnew
    have hw : w ∉ s.index.keys := Assoc.get?_eq_none_iff.mp hnew
    have hpath : ∀ u ∈ s.path, Connects succ u w := fun u hu =>
      (h.above u hu v hvs (h.le_top hwork hu)).tail hedge
    have hroot : ∃ r ∈ roots, Connects succ r w := by
      obtain ⟨r, hr, hrv⟩ := h.reached v ((h.entered_iff v).mpr (.inl hvs))
      exact ⟨r, hr, hrv.tail hedge⟩
    have henter := h.enter hw hpath hroot
    refine ⟨_, rfl, settle (v := v) (w := w) (henter.mono ?_ ?_) (.inr ⟨List.mem_cons_self .., ?_⟩)⟩
    · intro a b hab
      rw [pending_enter]
      tauto
    · intro a b hab
      rw [pending_enter] at hab
      exact henter.owed_edge a b (by tauto)
    · refine ⟨v, h.owner_enter hw hvs howner, ?_⟩
      have hlow : (s.enter succ w).low v = s.low v := by
        rw [low, h.get?_lowlink_enter hw hvs, low]
      have hle : s.low v ≤ s.number v := h.low_le hv
      have hless := h.number_enter_lt hw hvs
      rw [h.number_enter hw hvs] at hless
      omega
  · rename_i number hnumber
    have hw : w ∈ s.index.keys := Assoc.mem_keys_of_get? hnumber
    split
    · rename_i hstack
      have hws : w ∈ s.stack := (h.onStack_iff w).mp (by simpa using hstack)
      obtain rfl : s.number w = number := by simp [Search.number, hnumber]
      refine ⟨_, h.lower_eq hv _, (h.lowered hv hws (.single hedge)).settle ?_⟩
      refine .inr ⟨hws, v, ⟨howner.mem, howner.le, howner.last⟩, ?_⟩
      rw [low_lowered, if_pos rfl]
      exact Nat.min_le_right ..
    · rename_i hstack
      have hws : w ∉ s.stack := fun hm => hstack (by simpa using (h.onStack_iff w).mpr hm)
      exact ⟨s, rfl, h.settle (.inl (((h.entered_iff w).mp hw).resolve_left hws))⟩

/-- A root that was entered is not needed any more. -/
theorem Invariant.dropRoot {r : α} {rest : List α} (h : Invariant succ roots owed s)
    (hroots : s.roots = r :: rest) (hr : r ∈ s.index.keys) :
    Invariant succ roots owed { s with roots := rest } :=
  { h with
    roots_subset := fun q hq => h.roots_subset q (hroots ▸ List.mem_cons_of_mem _ hq)
    root_or_entered := fun q hq => by
      rcases h.root_or_entered q hq with hm | hm
      · rcases List.mem_cons.mp (hroots ▸ hm) with rfl | hm
        · exact .inr hr
        · exact .inl hm
      · exact .inr hm
    looked := fun a ha b hb => (h.looked a ha b hb).imp_right
      (·.congr rfl rfl rfl rfl fun _ => Nat.le_refl _) }

theorem Invariant.advance (h : Invariant succ roots s.Pending s) (hdone : s.isDone = false) :
    ∃ t, s.advance succ = some t ∧ Invariant succ roots t.Pending t := by
  rw [Search.advance]
  split
  · rename_i v w rest work hwork
    exact Invariant.look (h.take hwork rfl) rfl
  · rename_i v work hwork
    exact h.leave hwork
  · rename_i hwork
    split
    · rename_i hroots
      simp [isDone, hwork, hroots] at hdone
    · rename_i r rest hroots
      have hpath : s.path = [] := by simp [path, hwork]
      have hr : r ∈ roots := h.roots_subset r (hroots ▸ List.mem_cons_self ..)
      split
      · rename_i hentered
        have hkeys : r ∈ s.index.keys := Assoc.isSome_get?_iff.mp hentered
        exact ⟨_, rfl, h.dropRoot hroots hkeys⟩
      · rename_i hentered
        have hkeys : r ∉ s.index.keys := fun hm => hentered (Assoc.isSome_get?_iff.mpr hm)
        have henter := h.enter hkeys (by simp [hpath]) ⟨r, hr, .refl⟩
        have henter : Invariant succ roots (s.enter succ r).Pending (s.enter succ r) :=
          henter.mono (fun _ _ => pending_enter.mpr) fun a b hab =>
            henter.owed_edge a b (pending_enter.mp hab)
        exact ⟨_, rfl, henter.dropRoot hroots (Assoc.mem_keys_of_get? (Assoc.get?_put_self ..))⟩

/-- At the end of a search everything that was entered is in a component. -/
theorem Invariant.mem_found_iff (h : Invariant succ roots owed s) (hdone : s.isDone = true) :
    v ∈ s.found.flatten ↔ ∃ r ∈ roots, Connects succ r v := by
  obtain ⟨hroots, hwork⟩ : s.roots = [] ∧ s.work = [] := by simpa [isDone] using hdone
  have hstack : ∀ w, w ∉ s.stack := fun w hw => by
    obtain ⟨u, hu, _⟩ := h.below w hw
    simp [path, hwork] at hu
  have hentered (w : α) : w ∈ s.index.keys ↔ w ∈ s.found.flatten := by
    rw [h.entered_iff, or_iff_right (hstack w)]
  refine ⟨fun hv => h.reached v ((hentered v).mpr hv), fun ⟨r, hr, hrv⟩ => ?_⟩
  have hrkeys : r ∈ s.index.keys := (h.root_or_entered r hr).resolve_left (by simp [hroots])
  exact h.decomposition.mem_of_connects ((hentered r).mp hrkeys) hrv

/-- A search from roots from which few nodes are reached comes to its end. -/
theorem Invariant.run {nodes : List α} (h : Invariant succ roots s.Pending s)
    (hnodes : ∀ v, (∃ r ∈ roots, Connects succ r v) → succ v ≠ [] → v ∈ nodes) :
    ∃ cs, s.run succ = some cs ∧ Decomposition succ cs ∧ cs.flatten.Nodup ∧
      ∀ v, v ∈ cs.flatten ↔ ∃ r ∈ roots, Connects succ r v := by
  induction hn : s.stepsLeft succ nodes using Nat.strongRecOn generalizing s with
  | ind n ih =>
    rw [Search.run]
    cases hdone : s.isDone with
    | true =>
      refine ⟨s.found, rfl, h.decomposition, ?_, fun v => h.mem_found_iff hdone⟩
      exact (List.nodup_append.mp h.nodup).2.1
    | false =>
      obtain ⟨t, ht, hinv⟩ := h.advance hdone
      have hlt := advance_lt ht fun v hv => hnodes v (hinv.reached v hv)
      obtain ⟨cs, hcs, hspec⟩ := ih _ (hn ▸ hlt) hinv rfl
      exact ⟨cs, by simp [ht, hcs], hspec⟩

end Search

end Lookahead.Digraph
