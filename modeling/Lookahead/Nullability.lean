import Lookahead.Grammar.Basic
import Lookahead.Verdict

/-!
# Nullability in rounds

A round finds the productions whose right side consists of symbols that were nullable
when the round began, and then marks their left sides. The rounds stop after one that
marks no new left side.
-/

namespace Lookahead

/-- What one round found. -/
structure Round where
  number : Nat
  productions : List String := []
  symbols : List String := []
  fixpoint : Bool := false
  deriving DecidableEq, Repr, Inhabited

/-- How far the rounds have come: the productions still to be looked at and whether the last round
found nothing new. -/
structure Nullability where
  rounds : Nat := 0
  fixpoint : Bool := false
  worklist : List Production := []
  deriving DecidableEq, Repr, Inhabited

namespace Nullability

/-- Only the empty word is nullable before the first round. -/
def clear (g : Grammar) : Grammar :=
  let g := g.allSymbols.foldl (fun g s => g.setNullable s s.isEpsilon) g
  g.productionList.foldl (fun g p => g.setEmptiable p false) g

/-- The state before the first round, with the marks of the grammar cleared. -/
def start (g : Grammar) : Nullability × Grammar :=
  ({ worklist := g.productionList }, clear g)

/-- The productions of the worklist that are not marked yet. -/
def unmarked (n : Nullability) (g : Grammar) : List Production :=
  n.worklist.filter fun p => !g.emptiable p

/-- The open productions whose right side is nullable. -/
def ready (n : Nullability) (g : Grammar) : List Production :=
  (n.unmarked g).filter fun p => (g.current p).right.all g.nullable

/-- Marks left sides in order and gives the names of those that were not marked. -/
def markLefts (g : Grammar) : List Production → List String × Grammar
  | [] => ([], g)
  | p :: rest =>
    let left := (g.current p).left
    if g.nullable left then markLefts g rest
    else
      let (names, g) := markLefts (g.setNullable left true) rest
      (left.name :: names, g)

/-- One round. After the fixpoint nothing changes any more. -/
def advance (n : Nullability) (g : Grammar) : Round × Nullability × Grammar :=
  if n.fixpoint then ({ number := n.rounds, fixpoint := true }, n, g)
  else
    let ready := n.ready g
    let marked := ready.foldl (fun g p => g.setEmptiable p true) g
    let (symbols, after) := markLefts marked ready
    let number := n.rounds + 1
    ({ number, symbols, productions := ready.map fun p => (g.current p).name,
       fixpoint := symbols.isEmpty },
      { rounds := number, fixpoint := symbols.isEmpty, worklist := n.unmarked g }, after)

/-- The number of productions at hand whose left side is not marked; it falls with every round
before the fixpoint. -/
def pending (n : Nullability) (g : Grammar) : Nat :=
  n.worklist.countP fun p => !g.nullable (g.current p).left

theorem nullable_setEmptiable (g : Grammar) (p : Production) (b : Bool) (s : Symbol) :
    (g.setEmptiable p b).nullable s = g.nullable s := rfl

theorem current_setEmptiable (g : Grammar) (p q : Production) (b : Bool) :
    (g.setEmptiable p b).current q = g.current q := rfl

theorem nullable_markEmptiable (ps : List Production) (g : Grammar) (s : Symbol) :
    (ps.foldl (fun g p => g.setEmptiable p true) g).nullable s = g.nullable s := by
  induction ps generalizing g with
  | nil => rfl
  | cons p ps ih => rw [List.foldl_cons, ih, nullable_setEmptiable]

theorem current_markEmptiable (ps : List Production) (g : Grammar) (q : Production) :
    (ps.foldl (fun g p => g.setEmptiable p true) g).current q = g.current q := by
  induction ps generalizing g with
  | nil => rfl
  | cons p ps ih => rw [List.foldl_cons, ih, current_setEmptiable]

theorem current_markLefts (ps : List Production) (g : Grammar) (q : Production) :
    (markLefts g ps).2.current q = g.current q := by
  induction ps generalizing g with
  | nil => rfl
  | cons p ps ih =>
    rw [markLefts]
    split
    · exact ih g
    · exact ih _

theorem nullable_setNullable (g : Grammar) (s t : Symbol) (b : Bool) :
    (g.setNullable s b).nullable t = if s = t then b else g.nullable t := by
  by_cases h : s = t
  · subst h
    simp [Grammar.nullable, Grammar.setNullable]
  · simp [Grammar.nullable, Grammar.setNullable, Grammar.findings_setFindings_of_ne _ _ h, h]

/-- Marking keeps what is marked. -/
theorem nullable_markLefts_of_nullable {ps : List Production} {g : Grammar} {s : Symbol}
    (h : g.nullable s = true) : (markLefts g ps).2.nullable s = true := by
  induction ps generalizing g with
  | nil => exact h
  | cons p ps ih =>
    rw [markLefts]
    split
    · exact ih h
    · refine ih ?_
      rw [nullable_setNullable]
      split
      · rfl
      · exact h

/-- If a name is given, the left side of one of the productions was not marked and is now. -/
theorem exists_marked_of_markLefts {ps : List Production} {g : Grammar}
    (h : (markLefts g ps).1 ≠ []) :
    ∃ p ∈ ps, g.nullable (g.current p).left = false ∧
      (markLefts g ps).2.nullable (g.current p).left = true := by
  induction ps generalizing g with
  | nil => exact absurd rfl h
  | cons p ps ih =>
    by_cases hp : g.nullable (g.current p).left = true
    · rw [markLefts, if_pos hp] at h ⊢
      obtain ⟨q, hq, hq1, hq2⟩ := ih h
      exact ⟨q, List.mem_cons_of_mem _ hq, hq1, hq2⟩
    · refine ⟨p, List.mem_cons_self .., by simpa using hp, ?_⟩
      rw [markLefts, if_neg hp]
      exact nullable_markLefts_of_nullable (by rw [nullable_setNullable]; simp)

theorem pending_advance_lt {n : Nullability} {g : Grammar}
    (h : (n.advance g).2.1.fixpoint = false) :
    (n.advance g).2.1.pending (n.advance g).2.2 < n.pending g := by
  have hf : n.fixpoint = false := by
    cases hn : n.fixpoint with
    | false => rfl
    | true => simp [advance, hn] at h
  simp only [advance, hf, Bool.false_eq_true, if_false] at h ⊢
  let marked := (n.ready g).foldl (fun g p => g.setEmptiable p true) g
  have hne : (markLefts marked (n.ready g)).1 ≠ [] := fun he => by simp [marked, he] at h
  obtain ⟨p, hp, hp1, hp2⟩ := exists_marked_of_markLefts hne
  have hcur (q : Production) : (markLefts marked (n.ready g)).2.current q = g.current q := by
    rw [current_markLefts, current_markEmptiable]
  have hkeep {s : Symbol} (hs : g.nullable s = true) :
      (markLefts marked (n.ready g)).2.nullable s = true :=
    nullable_markLefts_of_nullable (by rw [nullable_markEmptiable]; exact hs)
  have hpw : p ∈ n.worklist := (List.mem_filter.mp (List.mem_filter.mp hp).1).1
  rw [current_markEmptiable] at hp1 hp2
  rw [nullable_markEmptiable] at hp1
  simp only [pending]
  calc List.countP _ (n.unmarked g)
      ≤ List.countP (fun q => !(markLefts marked (n.ready g)).2.nullable
          ((markLefts marked (n.ready g)).2.current q).left) n.worklist :=
        List.Sublist.countP_le List.filter_sublist
    _ < List.countP (fun q => !g.nullable (g.current q).left) n.worklist := by
        simp only [hcur]
        clear hp hne h hf
        generalize n.worklist = ps at hpw
        have hle (q : Production)
            (hq : (!(markLefts marked (n.ready g)).2.nullable (g.current q).left) = true) :
            (!g.nullable (g.current q).left) = true := by
          cases hg : g.nullable (g.current q).left with
          | false => rfl
          | true => rw [hkeep hg] at hq; exact hq
        induction ps with
        | nil => exact absurd hpw List.not_mem_nil
        | cons q ps ih =>
          rcases List.mem_cons.mp hpw with rfl | hm
          · rw [List.countP_cons_of_neg (by simp [hp2]), List.countP_cons_of_pos (by simp [hp1])]
            exact Nat.lt_succ_of_le (List.countP_mono_left fun q _ => hle q)
          · have := ih hm
            simp only [List.countP_cons]
            split <;> rename_i hq
            · rw [if_pos (hle q hq)]
              omega
            · omega

/-- Rounds until the fixpoint. -/
def solve (n : Nullability) (g : Grammar) : List Round × Nullability × Grammar :=
  if n.fixpoint then ([], n, g)
  else
    let step := n.advance g
    if _h : step.2.1.fixpoint then ([step.1], step.2)
    else
      let (rounds, last) := solve step.2.1 step.2.2
      (step.1 :: rounds, last)
termination_by n.pending g
decreasing_by exact pending_advance_lt (by simpa using _h)

/-- The names of the symbols that are marked, in the order of the nullability step. -/
def symbols (g : Grammar) : List String :=
  (g.nullabilitySymbols.filter g.nullable).map Symbol.name

/-- Compares the marks of a user with those of the last round. A symbol without a mark counts as
not nullable. The first wrong symbol is named, then the switch for the fixpoint. -/
def checkRound (n : Nullability) (g : Grammar) (marks : List (String × Json)) (fixpoint : Json) :
    Verdict :=
  let wrong (s : Symbol) : Bool := ((marks.lookup s.name).elim false Json.truthy) != g.nullable s
  match g.nullabilitySymbols.find? wrong with
  | some s => .wrong ⟨.wrongNullability, .string (g.label s)⟩
  | none =>
    if fixpoint.truthy = n.fixpoint then .correct
    else .wrong ⟨.fixpointMismatch,
      .string (if fixpoint.truthy then Discrepancy.toggled else Discrepancy.untoggled)⟩

end Nullability

end Lookahead
