import Lookahead.Assoc

/-!
# Directed graphs and their components

The low-link search of Tarjan with a stack of its own in place of recursion. The nodes
are numbered as they are entered. A frame of the work stack holds a node together with
those of its successors that were not looked at yet. The low link of a node is the least
number known so far that is on the stack of nodes and can be reached from it. A node that
is left with its own number as its low link ends a component: the component is what lies
above it on the stack of nodes. The components come in the order in which they are
completed, each with its nodes in the order of entry.

A step that looks up what is not there has no result. `tarjan` takes the successors of a
node from any function, and has no result either if the search goes on for ever.
`components` is the same search over a list of edges, where it always ends.
-/

namespace Lookahead.Digraph

variable {α : Type}

/-- A node that was entered, with the successors that are still to be looked at. -/
structure Frame (α : Type) where
  node : α
  rest : List α
  deriving DecidableEq, Repr

/-- The state of a search. The tops of both stacks come first. -/
structure Search (α : Type) where
  roots : List α
  index : Assoc α Nat := {}
  lowlink : Assoc α Nat := {}
  onStack : List α := []
  stack : List α := []
  work : List (Frame α) := []
  counter : Nat := 0
  found : List (List α) := []
  deriving DecidableEq, Repr

namespace Search

variable [DecidableEq α]

def isDone (s : Search α) : Bool := s.roots.isEmpty && s.work.isEmpty

/-- Gives a node its number and puts it on both stacks. -/
def enter (succ : α → List α) (v : α) (s : Search α) : Search α :=
  { s with
    index := s.index.put v s.counter
    lowlink := s.lowlink.put v s.counter
    onStack := v :: s.onStack
    stack := v :: s.stack
    work := ⟨v, succ v⟩ :: s.work
    counter := s.counter + 1 }

/-- Lowers the low link of a node to a number if that is less. -/
def lower (v : α) (n : Nat) (s : Search α) : Option (Search α) := do
  let low ← s.lowlink.get? v
  some { s with lowlink := s.lowlink.put v (min low n) }

/-- Takes nodes from a stack up to the given one. The last one taken comes first. -/
def cut (v : α) (taken : List α) : List α → Option (List α × List α)
  | [] => none
  | w :: rest => if w = v then some (w :: taken, rest) else cut v (w :: taken) rest

/-- Takes the component that a node ends off the stack. -/
def complete (v : α) (s : Search α) : Option (Search α) := do
  let (c, rest) ← cut v [] s.stack
  some { s with
    stack := rest
    onStack := s.onStack.filter fun w => !c.contains w
    found := s.found ++ [c] }

/-- Hands a low link down to the node below, if there is one. -/
def handDown (low : Nat) (s : Search α) : Option (Search α) :=
  match s.work with
  | [] => some s
  | below :: _ => s.lower below.node low

/-- Leaves a node whose frame was taken off. -/
def leave (v : α) (s : Search α) : Option (Search α) := do
  let low ← s.lowlink.get? v
  let s ← s.handDown low
  let number ← s.index.get? v
  if low = number then s.complete v else some s

/-- Looks at a successor of a node. -/
def look (succ : α → List α) (v w : α) (s : Search α) : Option (Search α) :=
  match s.index.get? w with
  | none => some (s.enter succ w)
  | some number => if s.onStack.contains w then s.lower v number else some s

/-- One step of a search that is not done. -/
def advance (succ : α → List α) (s : Search α) : Option (Search α) :=
  match s.work with
  | ⟨v, w :: rest⟩ :: work => look succ v w { s with work := ⟨v, rest⟩ :: work }
  | ⟨v, []⟩ :: work => leave v { s with work }
  | [] =>
    match s.roots with
    | [] => none
    | r :: roots =>
      some (if s.index.contains r then { s with roots } else enter succ r { s with roots })

/-- Advances until the search is done. -/
def run (succ : α → List α) (s : Search α) : Option (List (List α)) :=
  if s.isDone then some s.found
  else
    match s.advance succ with
    | none => none
    | some t => by
      -- written as a term, the call would leave its place in the file behind in the body
      apply run
      · exact succ
      · exact t
partial_fixpoint

/-! ### The search ends if few nodes are entered -/

/-- The successors of the listed nodes that were not entered yet, two steps for each. -/
def unopened (succ : α → List α) (index : Assoc α Nat) : List α → Nat
  | [] => 0
  | v :: nodes =>
    (if index.contains v then 0 else 2 * (succ v).length) + unopened succ index nodes

/-- The successors still to be looked at, two steps for each, and the nodes to be left. -/
def framesLeft : List (Frame α) → Nat
  | [] => 0
  | f :: work => 2 * f.rest.length + 1 + framesLeft work

/-- A bound on the steps that a search still takes if all nodes with successors are listed. -/
def stepsLeft (succ : α → List α) (nodes : List α) (s : Search α) : Nat :=
  2 * s.roots.length + framesLeft s.work + unopened succ s.index nodes

theorem contains_put (index : Assoc α Nat) (v w : α) (n : Nat) :
    (index.put v n).contains w = (decide (v = w) || index.contains w) := by
  by_cases h : v = w <;> simp [Assoc.contains, Assoc.get?_put, h]

theorem unopened_put_le (succ : α → List α) (nodes : List α) (index : Assoc α Nat) (v : α)
    (n : Nat) : unopened succ (index.put v n) nodes ≤ unopened succ index nodes := by
  induction nodes with
  | nil => exact Nat.le_refl _
  | cons u nodes ih =>
    simp only [unopened, contains_put]
    cases index.contains u <;> cases decide (v = u) <;> simp <;> omega

theorem unopened_put (succ : α → List α) {nodes : List α} {index : Assoc α Nat} {v : α} (n : Nat)
    (hv : index.contains v = false) (hmem : v ∈ nodes) :
    unopened succ (index.put v n) nodes + 2 * (succ v).length ≤ unopened succ index nodes := by
  induction nodes with
  | nil => exact absurd hmem List.not_mem_nil
  | cons u nodes ih =>
    by_cases hvu : v = u
    · subst hvu
      have h := unopened_put_le succ nodes index v n
      simp [unopened, contains_put, hv]
      omega
    · have h := ih ((List.mem_cons.mp hmem).resolve_left hvu)
      simp only [unopened, contains_put, hvu, decide_false, Bool.false_or]
      omega

theorem stepsLeft_enter_le {succ : α → List α} {nodes : List α} {v : α} {s : Search α}
    (hv : s.index.contains v = false) (hmem : succ v ≠ [] → v ∈ nodes) :
    stepsLeft succ nodes (s.enter succ v) ≤ stepsLeft succ nodes s + 1 := by
  simp only [stepsLeft, enter, framesLeft]
  by_cases h : succ v = []
  · have := unopened_put_le succ nodes s.index v s.counter
    simp only [h, List.length_nil]
    omega
  · have := unopened_put succ s.counter hv (hmem h)
    omega

theorem lower_eq_some {v : α} {n : Nat} {s t : Search α} :
    s.lower v n = some t ↔
      ∃ low, s.lowlink.get? v = some low ∧
        { s with lowlink := s.lowlink.put v (min low n) } = t := by
  simp [lower, Option.bind_eq_some_iff]

theorem handDown_frame {low : Nat} {s t : Search α} (h : s.handDown low = some t) :
    t.roots = s.roots ∧ t.work = s.work ∧ t.index = s.index := by
  rw [handDown] at h
  split at h
  · cases h
    exact ⟨rfl, rfl, rfl⟩
  · obtain ⟨_, _, rfl⟩ := lower_eq_some.mp h
    exact ⟨rfl, rfl, rfl⟩

theorem complete_frame {v : α} {s t : Search α} (h : s.complete v = some t) :
    t.roots = s.roots ∧ t.work = s.work ∧ t.index = s.index := by
  simp only [complete, Option.bind_eq_bind, Option.bind_eq_some_iff] at h
  obtain ⟨_, _, h⟩ := h
  cases h
  exact ⟨rfl, rfl, rfl⟩

/-- Leaving a node keeps the roots, the frames and the numbers. -/
theorem leave_frame {v : α} {s t : Search α} (h : s.leave v = some t) :
    t.roots = s.roots ∧ t.work = s.work ∧ t.index = s.index := by
  simp only [leave, Option.bind_eq_bind, Option.bind_eq_some_iff] at h
  obtain ⟨low, _, u, hu, number, _, h⟩ := h
  have hframe := handDown_frame hu
  split at h
  · have hcomplete := complete_frame h
    exact ⟨hcomplete.1.trans hframe.1, hcomplete.2.1.trans hframe.2.1,
      hcomplete.2.2.trans hframe.2.2⟩
  · cases h
    exact hframe

theorem advance_lt {succ : α → List α} {nodes : List α} {s t : Search α}
    (h : s.advance succ = some t) (hnodes : ∀ v ∈ t.index.keys, succ v ≠ [] → v ∈ nodes) :
    stepsLeft succ nodes t < stepsLeft succ nodes s := by
  -- entering a node uses up its successors, which are not yet opened
  have henter {v : α} {u : Search α} (hv : u.index.contains v = false)
      (ht : t = u.enter succ v) : stepsLeft succ nodes t ≤ stepsLeft succ nodes u + 1 := by
    refine ht ▸ stepsLeft_enter_le hv fun hsucc => hnodes v ?_ hsucc
    rw [ht]
    exact Assoc.mem_keys_of_get? (Assoc.get?_put_self ..)
  rw [advance] at h
  split at h
  · rename_i v w rest work hwork
    have hu : stepsLeft succ nodes { s with work := ⟨v, rest⟩ :: work } + 2 =
        stepsLeft succ nodes s := by
      simp only [stepsLeft, hwork, framesLeft, List.length_cons]
      omega
    rw [look] at h
    split at h
    · rename_i hw
      have := henter (by simpa [Assoc.contains] using hw) (Option.some.inj h).symm
      omega
    · split at h
      · obtain ⟨_, _, rfl⟩ := lower_eq_some.mp h
        simp only [stepsLeft] at hu ⊢
        omega
      · obtain rfl := Option.some.inj h
        omega
  · rename_i v work hwork
    obtain ⟨hroots, hframes, hindex⟩ := leave_frame h
    simp only [stepsLeft, hroots, hframes, hindex, hwork, framesLeft]
    omega
  · rename_i hwork
    split at h
    · cases h
    · rename_i r roots hroots
      have hu : stepsLeft succ nodes { s with roots } + 2 = stepsLeft succ nodes s := by
        simp only [stepsLeft, hroots, List.length_cons]
        omega
      split at h
      · obtain rfl := Option.some.inj h
        omega
      · rename_i hr
        have := henter (by simpa using hr) (Option.some.inj h).symm
        omega

end Search

/-! ### Components -/

variable [DecidableEq α]

/-- The components of the nodes that can be reached from the roots. -/
def tarjan (succ : α → List α) (roots : List α) : Option (List (List α)) :=
  Search.run succ { roots }

def successors (edges : List (α × α)) (v : α) : List α :=
  (edges.filter fun e => e.1 = v).map Prod.snd

theorem mem_sources_of_successors {edges : List (α × α)} {v : α} (h : successors edges v ≠ []) :
    v ∈ edges.map Prod.fst := by
  obtain ⟨w, hw⟩ := List.exists_mem_of_ne_nil _ h
  obtain ⟨e, he, _⟩ := List.mem_map.mp hw
  obtain ⟨he, hev⟩ := List.mem_filter.mp he
  exact List.mem_map.mpr ⟨e, he, by simpa using hev⟩

/-- Advances until the search along the edges is done. -/
def runEdges (edges : List (α × α)) (s : Search α) : Option (List (List α)) :=
  if s.isDone then some s.found
  else
    match _h : s.advance (successors edges) with
    | none => none
    | some t => runEdges edges t
termination_by s.stepsLeft (successors edges) (edges.map Prod.fst)
decreasing_by exact Search.advance_lt ‹_› fun _ _ => mem_sources_of_successors

/-- The components of the nodes that can be reached from the roots along the edges. -/
def components (edges : List (α × α)) (roots : List α) : List (List α) :=
  (runEdges edges { roots }).getD []

/-- Every node of a list of components with the place of its component. -/
def componentIndices (components : List (List α)) : List (α × Nat) :=
  components.zipIdx.flatMap fun c => c.1.map fun v => (v, c.2)

end Lookahead.Digraph
