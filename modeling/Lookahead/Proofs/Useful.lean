import Lookahead.Proofs.Derivation

/-!
# Productions that derivations of words use

A form is productive if it derives a word of terminals. A production is used by the derivation
of a word if its body is productive and its left side is reached from the root through
productions with productive bodies; without the productions that are not used, the same words
are derived. The order matters: what is reached through unproductive productions only is of no
use.
-/

namespace Lookahead

open Relation (ReflTransGen)

variable {rules rules' : List Production} {root s : Symbol} {p : Production}
variable {u v w : List Symbol}

/-! ### Words -/

def IsWord (w : List Symbol) : Prop := ∀ a ∈ w, a.isTerminal = true

/-- A form derives a word. -/
def Productive (rules : List Production) (u : List Symbol) : Prop :=
  ∃ w, IsWord w ∧ Derives rules u w

theorem IsWord.productive (hw : IsWord w) : Productive rules w := ⟨w, hw, .refl w⟩

theorem productive_of_isTerminal (hs : s.isTerminal = true) : Productive rules [s] :=
  IsWord.productive (List.forall_mem_singleton.mpr hs)

theorem Derives.productive (h : Derives rules u v) (hv : Productive rules v) :
    Productive rules u := by
  obtain ⟨w, hw, hvw⟩ := hv
  exact ⟨w, hw, h.trans hvw⟩

theorem productive_of_forall (h : ∀ s ∈ u, Productive rules [s]) : Productive rules u := by
  induction u with
  | nil => exact IsWord.productive (by simp [IsWord])
  | cons s u ih =>
    obtain ⟨w, hw, hs⟩ := h s (List.mem_cons_self ..)
    obtain ⟨w', hw', hu⟩ := ih fun t ht => h t (List.mem_cons_of_mem _ ht)
    exact ⟨w ++ w', List.forall_mem_append.mpr ⟨hw, hw'⟩, Derives.append hs hu⟩

theorem vanishingClosed_productive : VanishingClosed rules fun s => Productive rules [s] :=
  fun _ hp hbody => (Derives.of_rule hp).productive (productive_of_forall hbody)

/-- A closed set with all terminals contains the symbols of all productive forms. -/
theorem VanishingClosed.of_productive {N : Symbol → Prop} (h : VanishingClosed rules N)
    (hterminal : ∀ a, a.isTerminal = true → N a) (hu : Productive rules u) : ∀ s ∈ u, N s := by
  obtain ⟨w, hw, huw⟩ := hu
  exact h.of_derives huw fun a ha => hterminal a (hw a ha)

theorem productive_iff : Productive rules u ↔ ∀ s ∈ u, Productive rules [s] :=
  ⟨vanishingClosed_productive.of_productive fun _ => productive_of_isTerminal,
    productive_of_forall⟩

/-! ### Symbols that are reached -/

/-- A symbol stands in a form derived from the root. -/
def Appears (rules : List Production) (root s : Symbol) : Prop :=
  ∃ u v, Derives rules [root] (u ++ s :: v)

theorem appears_root : Appears rules root root := ⟨[], [], .refl _⟩

/-- A set with the symbols of the body of every production whose left side it contains. -/
def ReachingClosed (rules : List Production) (R : Symbol → Prop) : Prop :=
  ∀ p ∈ rules, R p.left → ∀ s ∈ p.body, R s

theorem reachingClosed_appears : ReachingClosed rules (Appears rules root) := by
  rintro p hp ⟨u, v, h⟩ s hs
  obtain ⟨x, y, hbody⟩ := List.append_of_mem hs
  refine ⟨u ++ x, y ++ v, ?_⟩
  have hstep := Derives.of_rule_within hp u v
  rw [hbody] at hstep
  simpa using h.trans hstep

/-- A closed set with the symbols of a form has those of all forms derived from it. -/
theorem ReachingClosed.of_derives {R : Symbol → Prop} (h : ReachingClosed rules R)
    (hu : ∀ s ∈ u, R s) (huv : Derives rules u v) : ∀ s ∈ v, R s := by
  induction huv with
  | refl => exact hu
  | @tail v w _ hstep ih =>
    obtain ⟨p, hp, x, y⟩ := hstep
    have hleft : R p.left := ih p.left (by simp)
    intro s hs
    simp only [List.mem_append] at hs
    rcases hs with (hs | hs) | hs
    · exact ih s (by simp [hs])
    · exact h p hp hleft s hs
    · exact ih s (by simp [hs])

theorem ReachingClosed.of_appears {R : Symbol → Prop} (h : ReachingClosed rules R) (hroot : R root)
    (hs : Appears rules root s) : R s := by
  obtain ⟨u, v, huv⟩ := hs
  exact h.of_derives (List.forall_mem_singleton.mpr hroot) huv s (by simp)

/-! ### Productions that are used -/

/-- The derivation of a word from the root applies a production. -/
def Used (rules : List Production) (root : Symbol) (p : Production) : Prop :=
  ∃ u v w, IsWord w ∧ Derives rules [root] (u ++ p.left :: v) ∧
    Derives rules (u ++ p.body ++ v) w

/-- A symbol stands in a form of the derivation of a word from the root. -/
def Occurs (rules : List Production) (root s : Symbol) : Prop :=
  ∃ u v w, IsWord w ∧ Derives rules [root] (u ++ s :: v) ∧ Derives rules (u ++ s :: v) w

/-- What derives a productive form does so through productions with productive bodies. -/
theorem Derives.of_productive
    (hkept : ∀ p ∈ rules, (∀ s ∈ p.body, Productive rules [s]) → p ∈ rules')
    (h : Derives rules u v) (hv : Productive rules v) : Derives rules' u v := by
  induction h using ReflTransGen.head_induction_on with
  | refl => exact .refl v
  | head hstep hrest ih =>
    obtain ⟨p, hp, x, y⟩ := hstep
    have hform := productive_iff.mp (Derives.productive hrest hv)
    have hp' := hkept p hp fun s hs => hform s (by simp [hs])
    exact (Derives.of_rule_within hp' x y).trans ih

/-- What derives a productive form from the root does so through productions that are used. -/
theorem Derives.of_used (hused : ∀ p ∈ rules, Used rules root p → p ∈ rules')
    (hu : Derives rules [root] u) (h : Derives rules u v) (hv : Productive rules v) :
    Derives rules' u v := by
  induction h using ReflTransGen.head_induction_on with
  | refl => exact .refl v
  | head hstep hrest ih =>
    obtain ⟨p, hp, x, y⟩ := hstep
    obtain ⟨w, hw, hform⟩ := Derives.productive hrest hv
    have hp' := hused p hp ⟨x, y, w, hw, hu, hform⟩
    exact (Derives.of_rule_within hp' x y).trans (ih (hu.trans (.of_rule_within hp x y)))

/-- A production is used if its body is productive and its left side is reached through such
productions. -/
theorem used_iff (hroot : Productive rules [root])
    (hkept : ∀ p, p ∈ rules' ↔ p ∈ rules ∧ ∀ s ∈ p.body, Productive rules [s]) (hp : p ∈ rules) :
    Used rules root p ↔ p ∈ rules' ∧ Appears rules' root p.left := by
  have hsub : rules' ⊆ rules := fun q hq => ((hkept q).mp hq).1
  constructor
  · rintro ⟨u, v, w, hw, hleft, hbody⟩
    have hform : Productive rules (u ++ p.body ++ v) := ⟨w, hw, hbody⟩
    have hp' : p ∈ rules' :=
      (hkept p).mpr ⟨hp, fun s hs => productive_iff.mp hform s (by simp [hs])⟩
    refine ⟨hp', u, v, ?_⟩
    exact hleft.of_productive (fun q hq hbody => (hkept q).mpr ⟨hq, hbody⟩)
      ((Derives.of_rule_within hp u v).productive hform)
  · rintro ⟨hp', u, v, hleft⟩
    -- through productions with productive bodies only productive symbols are reached
    have hclosed : ReachingClosed rules' fun s => Productive rules [s] :=
      fun q hq _ => ((hkept q).mp hq).2
    have hform := hclosed.of_derives (List.forall_mem_singleton.mpr hroot) hleft
    have hbody := ((hkept p).mp hp').2
    have hnext : Productive rules (u ++ p.body ++ v) := by
      apply productive_of_forall
      intro s hs
      simp only [List.mem_append] at hs
      rcases hs with (hs | hs) | hs
      · exact hform s (by simp [hs])
      · exact hbody s hs
      · exact hform s (by simp [hs])
    obtain ⟨w, hw, hderives⟩ := hnext
    exact ⟨u, v, w, hw, hleft.mono hsub, hderives⟩

/-- A root that is no terminal has a production that is used, if it derives a word at all. -/
theorem exists_used (hroot : root.isTerminal = false) (h : Productive rules [root]) :
    ∃ p ∈ rules, p.left = root ∧ Used rules root p := by
  obtain ⟨w, hw, hderives⟩ := h
  rcases Relation.ReflTransGen.cases_head hderives with rfl | ⟨form, hstep, hrest⟩
  · rw [hw root (List.mem_singleton_self root)] at hroot
    cases hroot
  · generalize hsource : [root] = source at hstep
    obtain ⟨p, hp, x, y⟩ := hstep
    obtain ⟨rfl, hsingle⟩ := List.append_eq_singleton_iff.mp hsource.symm |>.resolve_right (by simp)
    obtain ⟨rfl, rfl⟩ := List.cons_eq_cons.mp hsingle
    exact ⟨p, hp, rfl, [], [], w, hw, .refl _, hrest⟩

section Without

/-! ### Without the productions that are not used -/

variable (h : ∀ p, p ∈ rules' ↔ p ∈ rules ∧ Used rules root p)
include h

theorem derives_word_iff (hw : IsWord w) : Derives rules' [root] w ↔ Derives rules [root] w := by
  constructor
  · exact Derives.mono fun p hp => ((h p).mp hp).1
  · intro hderives
    exact .of_used (fun p hp hused => (h p).mpr ⟨hp, hused⟩) (.refl _) hderives hw.productive

/-- What is used stays in use. -/
theorem used_of_mem (hp : p ∈ rules') : Used rules' root p := by
  obtain ⟨hp', u, v, w, hw, hleft, hbody⟩ := (h p).mp hp
  have hkept : ∀ q ∈ rules, Used rules root q → q ∈ rules' := fun q hq hu => (h q).mpr ⟨hq, hu⟩
  have hstep := Derives.of_rule_within hp' u v
  have hform : Productive rules (u ++ p.left :: v) := hstep.productive ⟨w, hw, hbody⟩
  exact ⟨u, v, w, hw, .of_used hkept (.refl _) hleft hform,
    .of_used hkept (hleft.trans hstep) hbody hw.productive⟩

/-- The symbols of the productions that are left occur in derivations of words. -/
theorem occurs_of_mem (hp : p ∈ rules') (hs : s = p.left ∨ s ∈ p.body) : Occurs rules' root s := by
  obtain ⟨u, v, w, hw, hleft, hbody⟩ := used_of_mem h hp
  have hstep := Derives.of_rule_within hp u v
  rcases hs with rfl | hs
  · exact ⟨u, v, w, hw, hleft, hstep.trans hbody⟩
  · obtain ⟨x, y, hsplit⟩ := List.append_of_mem hs
    rw [hsplit] at hstep hbody
    refine ⟨u ++ x, y ++ v, w, hw, ?_, ?_⟩
    · simpa using hleft.trans hstep
    · simpa using hbody

end Without

end Lookahead
