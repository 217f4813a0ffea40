/-!
# Closure under rules

A rule gives a name once all names that it needs are given. `closure rules known` is
the least set of names that contains `known` and is closed under the rules. Every
rule is used at most once, which bounds the number of steps.
-/

namespace Lookahead

structure Rule where
  head : String
  needs : List String
  deriving DecidableEq, Repr

namespace Rule

/-- Whether the rule gives a name that is not known yet. -/
def applies (known : List String) (r : Rule) : Bool :=
  r.needs.all known.contains && !known.contains r.head

def closure (rules : List Rule) (known : List String) : List String :=
  match _h : rules.find? (applies known) with
  | none => known
  | some r => closure (rules.erase r) (r.head :: known)
termination_by rules.length
decreasing_by
  have hm := List.mem_of_find?_eq_some _h
  have := List.length_erase_of_mem hm
  have := List.length_pos_of_mem hm
  omega

/-- What is known stays known. -/
theorem mem_closure_of_mem {rules : List Rule} {known : List String} {x : String}
    (h : x ∈ known) : x ∈ closure rules known := by
  fun_induction closure rules known with
  | case1 => exact h
  | case2 _ _ _ _ ih => exact ih (List.mem_cons_of_mem _ h)

/-- Every set that contains `known` and is closed under the rules contains the closure. -/
theorem closure_subset {rules : List Rule} {known : List String} {s : String → Prop}
    (hk : ∀ x ∈ known, s x) (hr : ∀ r ∈ rules, (∀ x ∈ r.needs, s x) → s r.head) :
    ∀ x ∈ closure rules known, s x := by
  fun_induction closure rules known with
  | case1 => exact hk
  | case2 rules known r h ih =>
    apply ih
    · intro x hx
      rcases List.mem_cons.mp hx with rfl | hx
      · have ha := List.find?_some h
        simp only [applies, Bool.and_eq_true, List.all_eq_true, List.contains_iff_mem] at ha
        exact hr r (List.mem_of_find?_eq_some h) fun y hy => hk y (ha.1 y hy)
      · exact hk x hx
    · exact fun q hq => hr q (List.mem_of_mem_erase hq)

/-- The closure is closed under the rules. -/
theorem head_mem_closure {rules : List Rule} {known : List String} {r : Rule}
    (hr : r ∈ rules) (hn : ∀ x ∈ r.needs, x ∈ closure rules known) :
    r.head ∈ closure rules known := by
  fun_induction closure rules known with
  | case1 rules known h =>
    have ha := List.find?_eq_none.mp h r hr
    simp only [applies, Bool.and_eq_true, List.all_eq_true, Bool.not_eq_true', not_and,
      List.contains_eq_mem, decide_eq_false_iff_not, decide_eq_true_eq, Decidable.not_not] at ha
    exact ha hn
  | case2 rules known q h ih =>
    by_cases hq : r = q
    · subst hq
      exact mem_closure_of_mem (List.mem_cons_self ..)
    · exact ih ((List.mem_erase_of_ne hq).mpr hr) hn

end Rule

end Lookahead
