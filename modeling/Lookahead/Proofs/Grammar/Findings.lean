import Lookahead.Nullability
import Lookahead.Proofs.Grammar.Standard

/-!
# What the analyses write

Every analysis writes findings of its own and leaves those of the others as they are.
-/

namespace Lookahead

namespace Grammar

variable {g : Grammar} {s t : Symbol} {names : NameSet}

/-- What no step of a loop changes, the loop does not change. -/
theorem foldl_keeps {α β : Type} {f : Grammar → α → Grammar} (observe : Grammar → β)
    (hf : ∀ g a, observe (f g a) = observe g) (xs : List α) (g : Grammar) :
    observe (xs.foldl f g) = observe g := by
  induction xs generalizing g with
  | nil => rfl
  | cons a xs ih => rw [List.foldl_cons, ih, hf]

theorem findings_setFindings_eq (g : Grammar) (s t : Symbol) (f : Findings) :
    (g.setFindings s f).findings t = if s = t then f else g.findings t := by
  by_cases h : s = t
  · rw [if_pos h, h, findings_setFindings]
  · rw [if_neg h, findings_setFindings_of_ne _ _ h]

/-- What a change of findings keeps of every symbol, it keeps. -/
theorem findings_setFindings_keeps {β : Type} (part : Findings → β) (f : Findings)
    (hf : part f = part (g.findings s)) (t : Symbol) :
    part ((g.setFindings s f).findings t) = part (g.findings t) := by
  rw [findings_setFindings_eq]
  split
  · rename_i h
    rw [hf, h]
  · rfl

theorem nullable_setFirst : (g.setFirst s names).nullable = g.nullable :=
  funext (findings_setFindings_keeps Findings.nullable _ rfl)

theorem follow_setFirst : (g.setFirst s names).follow = g.follow :=
  funext (findings_setFindings_keeps Findings.follow _ rfl)

theorem nullable_setFollow : (g.setFollow s names).nullable = g.nullable :=
  funext (findings_setFindings_keeps Findings.nullable _ rfl)

theorem first_setFollow : (g.setFollow s names).first = g.first :=
  funext (findings_setFindings_keeps Findings.first _ rfl)

theorem first_setNullable (b : Bool) : (g.setNullable s b).first = g.first :=
  funext (findings_setFindings_keeps Findings.first _ rfl)

theorem follow_setNullable (b : Bool) : (g.setNullable s b).follow = g.follow :=
  funext (findings_setFindings_keeps Findings.follow _ rfl)

theorem first_setFirst : (g.setFirst s names).first t = if s = t then names else g.first t := by
  rw [first, setFirst, findings_setFindings_eq]
  split <;> rfl

theorem follow_setFollow : (g.setFollow s names).follow t = if s = t then names else g.follow t := by
  rw [follow, setFollow, findings_setFindings_eq]
  split <;> rfl

/-- A grammar that differs in first sets and follow sets only. -/
structure SameMarks (g g' : Grammar) : Prop where
  varies : g.Varies g'
  nullable : g'.nullable = g.nullable
  emptiable : g'.emptiable = g.emptiable

theorem SameMarks.refl (g : Grammar) : g.SameMarks g := ⟨.refl g, rfl, rfl⟩

theorem SameMarks.trans {g' g'' : Grammar} (h : g.SameMarks g') (h' : g'.SameMarks g'') :
    g.SameMarks g'' :=
  ⟨h.varies.trans h'.varies, h'.nullable.trans h.nullable, h'.emptiable.trans h.emptiable⟩

theorem sameMarks_setFirst (g : Grammar) (s : Symbol) (names : NameSet) :
    g.SameMarks (g.setFirst s names) := ⟨varies_setFindings g s _, nullable_setFirst, rfl⟩

theorem sameMarks_setFollow (g : Grammar) (s : Symbol) (names : NameSet) :
    g.SameMarks (g.setFollow s names) := ⟨varies_setFindings g s _, nullable_setFollow, rfl⟩

theorem SameMarks.foldl {α : Type} {f : Grammar → α → Grammar}
    (hf : ∀ (g : Grammar) (a : α), g.SameMarks (f g a)) (xs : List α) (g : Grammar) :
    g.SameMarks (xs.foldl f g) := by
  induction xs generalizing g with
  | nil => exact .refl g
  | cons a xs ih => exact (hf g a).trans (ih (f g a))

end Grammar

namespace Nullability

variable {g : Grammar} {n : Nullability}

/-! ### The sets during the rounds -/

/-- What is no mark is kept by the rounds. -/
structure Unmarking {β : Type} (observe : Grammar → β) : Prop where
  setNullable : ∀ g s b, observe (g.setNullable s b) = observe g
  setEmptiable : ∀ g p b, observe (g.setEmptiable p b) = observe g

theorem unmarking_first : Unmarking Grammar.first :=
  ⟨fun _ _ _ => Grammar.first_setNullable _, fun _ _ _ => rfl⟩

theorem unmarking_follow : Unmarking Grammar.follow :=
  ⟨fun _ _ _ => Grammar.follow_setNullable _, fun _ _ _ => rfl⟩

namespace Unmarking

variable {β : Type} {observe : Grammar → β} (h : Unmarking observe)
include h

theorem clear (g : Grammar) : observe (Nullability.clear g) = observe g :=
  (Grammar.foldl_keeps observe (fun g p => h.setEmptiable g p _) _ _).trans
    (Grammar.foldl_keeps observe (fun g s => h.setNullable g s _) _ _)

theorem markLefts (ps : List Production) (g : Grammar) :
    observe (markLefts g ps).2 = observe g := by
  induction ps generalizing g with
  | nil => rfl
  | cons p ps ih =>
    rw [Nullability.markLefts]
    split
    · exact ih g
    · exact (ih _).trans (h.setNullable _ _ _)

theorem advance (n : Nullability) (g : Grammar) : observe (n.advance g).2.2 = observe g := by
  rw [Nullability.advance]
  split
  · rfl
  · exact (h.markLefts _ _).trans (Grammar.foldl_keeps observe (fun g p => h.setEmptiable g p _) _ _)

theorem solve (n : Nullability) (g : Grammar) : observe (n.solve g).2.2 = observe g := by
  fun_induction Nullability.solve n g with
  | case1 => rfl
  | case2 n g hf step hlast => exact h.advance n g
  | case3 n g hf step hlast rounds last hrec ih =>
    rw [hrec] at ih
    exact ih.trans (h.advance n g)

end Unmarking

end Nullability

end Lookahead
