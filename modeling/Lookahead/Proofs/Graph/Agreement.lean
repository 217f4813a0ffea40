import Lookahead.Proofs.Graph.FollowStep
import Lookahead.Proofs.Nullability

/-!
# Graphs of grammars with the same marks

The graph of the nullability step depends on the productions only. Those of the other steps
depend on the marks of the symbols as well, so they are the same whenever the marks are
right, whatever else was found in between.
-/

namespace Lookahead

open Nullability (Marked)

variable {grammar g : Grammar}

/-- Right marks are the same marks. -/
theorem Nullability.Marked.nullable_eq (he : Marked grammar) (he' : Marked g)
    (hv : grammar.Varies g) {s : Symbol} (hs : s = Symbol.epsilon ∨ grammar.Registered s) :
    g.nullable s = grammar.nullable s := by
  rcases hs with rfl | hs
  · rw [he.epsilon, he'.epsilon]
  · have hs' : g.Registered s := by rwa [Grammar.Registered, hv.nonterminalList, hv.terminalList]
    have hiff := he'.nullable s hs'
    rw [hv.productionList, ← he.nullable s hs] at hiff
    exact Bool.eq_iff_iff.mpr hiff

namespace Graph

theorem nullability_eq (hv : grammar.Varies g) : nullability g = nullability grammar := by
  obtain ⟨_, _, rfl⟩ := hv
  rfl

theorem firstLeaves_eq (hv : grammar.Varies g) : firstLeaves g = firstLeaves grammar := by
  obtain ⟨_, _, rfl⟩ := hv
  rfl

theorem takeThrough_congr {α : Type} {stop stop' : α → Bool} {xs : List α}
    (h : ∀ a ∈ xs, stop a = stop' a) : takeThrough stop xs = takeThrough stop' xs := by
  induction xs with
  | nil => rfl
  | cons a xs ih =>
    rw [takeThrough, takeThrough, h a (List.mem_cons_self ..),
      ih fun b hb => h b (List.mem_cons_of_mem _ hb)]

theorem followLinksOf_congr {left : Symbol} {right : List Symbol}
    (h : ∀ s ∈ right, g.nullable s = grammar.nullable s) :
    followLinksOf g left right = followLinksOf grammar left right := by
  induction right with
  | nil => rfl
  | cons x rest ih =>
    have hrest : ∀ s ∈ rest, g.nullable s = grammar.nullable s :=
      fun s hs => h s (List.mem_cons_of_mem _ hs)
    have htake : takeThrough (fun y => !g.nullable y) rest =
        takeThrough (fun y => !grammar.nullable y) rest :=
      takeThrough_congr fun s hs => by rw [hrest s hs]
    have hall : rest.all g.nullable = rest.all grammar.nullable := by
      rw [Bool.eq_iff_iff, List.all_eq_true, List.all_eq_true]
      exact forall₂_congr fun s hs => by rw [hrest s hs]
    rw [followLinksOf, followLinksOf, ih hrest, contributions, contributions, htake, hall]

section Marks

variable (h : grammar.Standard) (hv : grammar.Varies g) (he : Marked grammar) (he' : Marked g)
include h hv he he'

theorem nullable_eq_of_mem_right {p : Production} (hp : p ∈ grammar.productionList) {s : Symbol}
    (hs : s ∈ p.right) : g.nullable s = grammar.nullable s :=
  he.nullable_eq he' hv (h.epsilon_or_registered hp hs)

theorem first_eq : first g = first grammar := by
  have hlinks : firstLinks g = firstLinks grammar := by
    rw [firstLinks, firstLinks, hv.terminalList, hv.productionList]
    refine congrArg _ (List.flatMap_congr fun p hp => ?_)
    rw [openers, openers]
    refine congrArg _ (takeThrough_congr fun s hs => ?_)
    rw [nullable_eq_of_mem_right h hv he he' hp hs]
  simp only [first, hlinks, firstLeaves_eq hv]

theorem follow_eq (carriedOver : Graph) :
    follow g carriedOver = follow grammar carriedOver := by
  have hlinks : followLinks g = followLinks grammar := by
    rw [followLinks, followLinks, hv.productionList]
    refine List.flatMap_congr fun p hp => ?_
    rw [followLinksOf_congr fun s hs => nullable_eq_of_mem_right h hv he he' hp hs]
  simp only [follow, hlinks, hv.nonterminalList]

end Marks

end Graph

end Lookahead
