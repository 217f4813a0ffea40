import Lookahead.Grammar.Production
import Mathlib.Logic.Relation
import Mathlib.Tactic.Tauto

/-!
# Derivations

A step replaces the left side of a production by its body, the right side without the mark
of the empty word. The symbols that vanish, the symbols with which derived forms begin and
the symbols that stand behind a nonterminal in a derived form are each the least sets that
are closed under the productions; this is what the analyses compute.
-/

namespace Lookahead

open Relation (ReflTransGen)

/-- What a production puts in the place of its left side. -/
def Production.body (p : Production) : List Symbol := if p.isEpsilon then [] else p.right

/-- One production is applied somewhere. -/
inductive Rewrites (rules : List Production) : List Symbol → List Symbol → Prop where
  | apply (p : Production) (hp : p ∈ rules) (u v : List Symbol) :
      Rewrites rules (u ++ p.left :: v) (u ++ p.body ++ v)

def Derives (rules : List Production) : List Symbol → List Symbol → Prop :=
  ReflTransGen (Rewrites rules)

variable {rules : List Production} {u v w : List Symbol}

theorem Rewrites.append_left (h : Rewrites rules u v) (w : List Symbol) :
    Rewrites rules (w ++ u) (w ++ v) := by
  obtain ⟨p, hp, x, y⟩ := h
  simpa using Rewrites.apply p hp (w ++ x) y

theorem Rewrites.append_right (h : Rewrites rules u v) (w : List Symbol) :
    Rewrites rules (u ++ w) (v ++ w) := by
  obtain ⟨p, hp, x, y⟩ := h
  simpa using Rewrites.apply p hp x (y ++ w)

namespace Derives

theorem refl (u : List Symbol) : Derives rules u u := ReflTransGen.refl

theorem trans (h : Derives rules u v) (h' : Derives rules v w) : Derives rules u w :=
  ReflTransGen.trans h h'

theorem append_left (h : Derives rules u v) (w : List Symbol) :
    Derives rules (w ++ u) (w ++ v) :=
  ReflTransGen.lift (w ++ ·) (fun _ _ hs => Rewrites.append_left hs w) _ _ h

theorem append_right (h : Derives rules u v) (w : List Symbol) :
    Derives rules (u ++ w) (v ++ w) :=
  ReflTransGen.lift (· ++ w) (fun _ _ hs => Rewrites.append_right hs w) _ _ h

theorem append {u' v' : List Symbol} (h : Derives rules u v) (h' : Derives rules u' v') :
    Derives rules (u ++ u') (v ++ v') :=
  (h.append_right u').trans (h'.append_left v)

/-- A production applied between two parts. -/
theorem of_rule_within {p : Production} (hp : p ∈ rules) (u v : List Symbol) :
    Derives rules (u ++ p.left :: v) (u ++ p.body ++ v) :=
  ReflTransGen.single (.apply p hp u v)

theorem of_rule {p : Production} (hp : p ∈ rules) : Derives rules [p.left] p.body := by
  simpa using of_rule_within hp [] []

/-- More productions derive more. -/
theorem mono {rules' : List Production} (hsub : rules ⊆ rules') (h : Derives rules u v) :
    Derives rules' u v := by
  induction h with
  | refl => exact refl u
  | tail _ hstep ih =>
    obtain ⟨p, hp, x, y⟩ := hstep
    exact ih.trans (of_rule_within (hsub hp) x y)

end Derives

/-- A form that derives nothing further. -/
theorem Rewrites.left_mem (h : Rewrites rules u v) : ∃ p ∈ rules, p.left ∈ u := by
  obtain ⟨p, hp, x, y⟩ := h
  exact ⟨p, hp, by simp⟩

/-! ### Symbols that vanish -/

/-- A form derives the empty word. -/
def Vanishes (rules : List Production) (u : List Symbol) : Prop := Derives rules u []

theorem vanishes_nil : Vanishes rules [] := .refl []

theorem Vanishes.append (h : Vanishes rules u) (h' : Vanishes rules v) :
    Vanishes rules (u ++ v) := Derives.append h h'

theorem vanishes_of_forall (h : ∀ s ∈ u, Vanishes rules [s]) : Vanishes rules u := by
  induction u with
  | nil => exact vanishes_nil
  | cons s u ih =>
    have hs := h s (List.mem_cons_self ..)
    exact hs.append (ih fun t ht => h t (List.mem_cons_of_mem _ ht))

/-- A set of symbols with the left side of every production whose body it contains. -/
def VanishingClosed (rules : List Production) (N : Symbol → Prop) : Prop :=
  ∀ p ∈ rules, (∀ s ∈ p.body, N s) → N p.left

theorem vanishingClosed_vanishes : VanishingClosed rules fun s => Vanishes rules [s] :=
  fun _ hp h => (Derives.of_rule hp).trans (vanishes_of_forall h)

/-- A closed set with the symbols of a form has those of all forms that derive it. -/
theorem VanishingClosed.of_derives {N : Symbol → Prop} (h : VanishingClosed rules N)
    (hu : Derives rules u v) (hv : ∀ s ∈ v, N s) : ∀ s ∈ u, N s := by
  induction hu using ReflTransGen.head_induction_on with
  | refl => exact hv
  | @head u v hstep _ ih =>
    obtain ⟨p, hp, x, y⟩ := hstep
    intro s hs
    rcases List.mem_append.mp hs with hs | hs
    · exact ih s (by simp [hs])
    · rcases List.mem_cons.mp hs with rfl | hs
      · exact h p hp fun t ht => ih t (by simp [ht])
      · exact ih s (by simp [hs])

/-- A closed set contains the symbols of all forms that vanish. -/
theorem VanishingClosed.of_vanishes {N : Symbol → Prop} (h : VanishingClosed rules N)
    (hu : Vanishes rules u) : ∀ s ∈ u, N s := h.of_derives hu (by simp)

theorem vanishes_iff : Vanishes rules u ↔ ∀ s ∈ u, Vanishes rules [s] :=
  ⟨fun h => vanishingClosed_vanishes.of_vanishes h, vanishes_of_forall⟩

/-! ### Symbols with which forms begin -/

/-- A form has a symbol of a set behind symbols that can vanish. -/
def Opens (N F : Symbol → Prop) : List Symbol → Prop
  | [] => False
  | s :: rest => F s ∨ N s ∧ Opens N F rest

theorem opens_append {N F : Symbol → Prop} :
    Opens N F (u ++ v) ↔ Opens N F u ∨ (∀ s ∈ u, N s) ∧ Opens N F v := by
  induction u with
  | nil => simp [Opens]
  | cons s u ih =>
    simp only [List.cons_append, Opens, ih, List.forall_mem_cons]
    tauto

theorem Opens.mono {N F F' : Symbol → Prop} (hF : ∀ s, F s → F' s) (h : Opens N F u) :
    Opens N F' u := by
  induction u with
  | nil => exact h
  | cons s u ih => exact h.imp (hF s) fun h => ⟨h.1, ih h.2⟩

theorem not_opens_false {N : Symbol → Prop} : ¬Opens N (fun _ => False) u := by
  induction u with
  | nil => exact id
  | cons s u ih => exact fun h => h.elim id fun h => ih h.2

/-- A form derives a form that begins with a symbol. -/
def Begins (rules : List Production) (x : Symbol) (u : List Symbol) : Prop :=
  ∃ v, Derives rules u (x :: v)

/-- A set of symbols with the left side of every production whose body one of them opens. -/
def OpeningClosed (rules : List Production) (N F : Symbol → Prop) : Prop :=
  ∀ p ∈ rules, Opens N F p.body → F p.left

theorem begins_of_opens {x : Symbol}
    (h : Opens (fun s => Vanishes rules [s]) (fun s => Begins rules x [s]) u) :
    Begins rules x u := by
  induction u with
  | nil => exact h.elim
  | cons s u ih =>
    rcases h with ⟨v, hv⟩ | ⟨hs, h⟩
    · exact ⟨v ++ u, hv.append_right u⟩
    · obtain ⟨v, hv⟩ := ih h
      exact ⟨v, Derives.append hs hv⟩

theorem openingClosed_begins (x : Symbol) :
    OpeningClosed rules (fun s => Vanishes rules [s]) fun s => Begins rules x [s] := by
  intro p hp h
  obtain ⟨v, hv⟩ := begins_of_opens h
  exact ⟨v, (Derives.of_rule hp).trans hv⟩

/-- A closed set that contains a symbol opens all forms that can begin with it. -/
theorem OpeningClosed.opens {N F : Symbol → Prop} (h : OpeningClosed rules N F)
    (hN : VanishingClosed rules N) {x : Symbol} (hx : F x) (hu : Begins rules x u) :
    Opens N F u := by
  obtain ⟨v, hv⟩ := hu
  induction hv using ReflTransGen.head_induction_on with
  | refl => exact .inl hx
  | @head u w hstep _ ih =>
    obtain ⟨p, hp, y, z⟩ := hstep
    rw [List.append_assoc, opens_append, opens_append] at ih
    rw [opens_append]
    refine ih.imp_right fun ⟨hy, hrest⟩ => ⟨hy, ?_⟩
    rcases hrest with hbody | ⟨hbody, hz⟩
    · exact .inl (h p hp hbody)
    · exact .inr ⟨hN p hp hbody, hz⟩

theorem begins_iff_opens {x : Symbol} : Begins rules x u ↔
    Opens (fun s => Vanishes rules [s]) (fun s => Begins rules x [s]) u :=
  ⟨(openingClosed_begins x).opens vanishingClosed_vanishes ⟨[], .refl _⟩, begins_of_opens⟩

/-! ### Symbols that follow -/

/-- A form begins with a symbol of a set, or all of it vanishes before something that does. -/
def Supplies (N F : Symbol → Prop) (after : Prop) (u : List Symbol) : Prop :=
  Opens N F u ∨ (∀ s ∈ u, N s) ∧ after

/-- Every nonterminal of a form behind which a set begins is in the set `W`. -/
def Obeys (N F W : Symbol → Prop) (after : Prop) : List Symbol → Prop
  | [] => True
  | s :: rest =>
    (s.isNonterminal = true → Supplies N F after rest → W s) ∧ Obeys N F W after rest

section Following

variable {N F W : Symbol → Prop} {after : Prop}

theorem supplies_append :
    Supplies N F after (u ++ v) ↔ Supplies N F (Supplies N F after v) u := by
  simp only [Supplies, opens_append, List.forall_mem_append]
  tauto

theorem obeys_append : Obeys N F W after (u ++ v) ↔
    Obeys N F W (Supplies N F after v) u ∧ Obeys N F W after v := by
  induction u with
  | nil => simp [Obeys]
  | cons s u ih => simp only [List.cons_append, Obeys, ih, supplies_append, and_assoc]

theorem Supplies.mono {after' : Prop} (h : after' → after) (hu : Supplies N F after' u) :
    Supplies N F after u :=
  hu.imp_right fun hu => ⟨hu.1, h hu.2⟩

theorem Obeys.mono {after' : Prop} (h : after' → after) (hu : Obeys N F W after u) :
    Obeys N F W after' u := by
  induction u with
  | nil => trivial
  | cons s u ih => exact ⟨fun hs hrest => hu.1 hs (hrest.mono h), ih hu.2⟩

/-- What a form obeys says of the places in it. -/
theorem Obeys.of_append {s : Symbol} (h : Obeys N F W after (u ++ s :: v))
    (hs : s.isNonterminal = true) (hv : Supplies N F after v) : W s :=
  (obeys_append.mp h).2.1 hs hv

/-- A set that the body of every production obeys, with what follows its left side behind it. -/
def FollowingClosed (rules : List Production) (N F W : Symbol → Prop) : Prop :=
  ∀ p ∈ rules, Obeys N F W (W p.left) p.body

/-- A form that obeys a closed set derives only such forms. -/
theorem FollowingClosed.obeys (h : FollowingClosed rules N F W) (hN : VanishingClosed rules N)
    (hF : OpeningClosed rules N F) (hleft : ∀ p ∈ rules, p.left.isNonterminal = true)
    (hu : Obeys N F W after u) (hv : Derives rules u v) : Obeys N F W after v := by
  induction hv with
  | refl => exact hu
  | @tail v w _ hstep ih =>
    obtain ⟨p, hp, x, y⟩ := hstep
    rw [obeys_append] at ih
    obtain ⟨hx, hleftW, hy⟩ := ih
    rw [List.append_assoc, obeys_append, obeys_append]
    refine ⟨hx.mono fun hs => ?_, (h p hp).mono (hleftW (hleft p hp)), hy⟩
    rw [supplies_append] at hs
    rcases hs with hbody | ⟨hbody, hy⟩
    · exact .inl (.inl (hF p hp hbody))
    · have hpN := hN p hp hbody
      rcases hy with hy | ⟨hy, ha⟩
      · exact .inl (.inr ⟨hpN, hy⟩)
      · exact .inr ⟨List.forall_mem_cons.mpr ⟨hpN, hy⟩, ha⟩

/-- Nothing stands behind a root except what is allowed to. -/
theorem FollowingClosed.obeys_of_root (h : FollowingClosed rules N F W)
    (hN : VanishingClosed rules N) (hF : OpeningClosed rules N F)
    (hleft : ∀ p ∈ rules, p.left.isNonterminal = true) (after : Prop) {root : Symbol}
    (hv : Derives rules [root] v) (hroot : after → W root) : Obeys N F W after v := by
  have hobeys : Obeys N F W after [root] := by
    refine ⟨fun _ hsup => ?_, trivial⟩
    rcases hsup with hnil | ⟨-, ha⟩
    · exact hnil.elim
    · exact hroot ha
  exact h.obeys hN hF hleft hobeys hv

/-- A body obeys a set if what follows inside it and what follows its left side are in the set. -/
theorem obeys_of_parts {body : List Symbol}
    (hinside : ∀ x s y, body = x ++ s :: y → s.isNonterminal = true → Opens N F y → W s)
    (hbehind : ∀ x s y, body = x ++ s :: y → s.isNonterminal = true → (∀ t ∈ y, N t) →
      after → W s) : Obeys N F W after body := by
  suffices h : ∀ x u, body = x ++ u → Obeys N F W after u from h [] body rfl
  intro x u
  induction u generalizing x with
  | nil => exact fun _ => trivial
  | cons s u ih =>
    intro hbody
    refine ⟨fun hs hsup => ?_, ih (x ++ [s]) (by simp [hbody])⟩
    rcases hsup with hu | ⟨hu, ha⟩
    · exact hinside x s u hbody hs hu
    · exact hbehind x s u hbody hs hu ha

end Following

/-- A root derives a form in which a symbol stands behind another. -/
def Follows (rules : List Production) (roots : List Symbol) (x s : Symbol) : Prop :=
  ∃ root ∈ roots, ∃ u v, Derives rules [root] (u ++ s :: x :: v)

/-- A symbol stands at the end of a form derived from a root. -/
def EndsWith (rules : List Production) (root s : Symbol) : Prop :=
  ∃ u, Derives rules [root] (u ++ [s])

theorem followingClosed_follows {roots : List Symbol} (hleft : ∀ p ∈ rules, p.left ∈ roots)
    (x : Symbol) : FollowingClosed rules (fun s => Vanishes rules [s])
      (fun s => Begins rules x [s]) (Follows rules roots x) := by
  intro p hp
  refine obeys_of_parts (fun y s z hbody _ hz => ?_) (fun y s z hbody _ hz ⟨root, hr, u, v, h⟩ => ?_)
  · obtain ⟨v, hv⟩ := begins_of_opens hz
    refine ⟨p.left, hleft p hp, y, v, ?_⟩
    have hrule := Derives.of_rule hp
    rw [hbody] at hrule
    simpa using hrule.trans (by simpa using hv.append_left (y ++ [s]))
  · refine ⟨root, hr, u ++ y, v, h.trans ?_⟩
    have hrule := Derives.of_rule_within hp u (x :: v)
    rw [hbody] at hrule
    have hvanish := (Derives.append_left (vanishes_of_forall hz) (u ++ y ++ [s])).append_right
      (x :: v)
    simpa using hrule.trans (by simpa using hvanish)

/-- Nothing begins with a symbol that is in no set, so only ends are passed on. -/
theorem followingClosed_endsWith (root : Symbol) :
    FollowingClosed rules (fun s => Vanishes rules [s]) (fun _ => False)
      (EndsWith rules root) := by
  intro p hp
  refine obeys_of_parts (fun y s z _ _ hz => ?_) (fun y s z hbody _ hz ⟨u, h⟩ => ?_)
  · exact absurd hz not_opens_false
  · refine ⟨u ++ y, h.trans ?_⟩
    have hrule := Derives.of_rule_within hp u []
    rw [hbody] at hrule
    have hvanish := Derives.append_left (vanishes_of_forall hz) (u ++ y ++ [s])
    simpa using hrule.trans (by simpa using hvanish)

end Lookahead
