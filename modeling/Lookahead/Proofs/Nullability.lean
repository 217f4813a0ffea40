import Lookahead.Nullability
import Lookahead.Proofs.Derivation
import Lookahead.Proofs.Grammar.Sorting

/-!
# Rounds find the symbols that vanish

A round marks only what derives the empty word, and what is marked in earlier rounds stays
marked. After a round that marks no new left side the marks are closed under the
productions; so at the fixpoint the marked symbols are those that derive the empty word,
in whatever steps the rounds were taken.
-/

namespace Lookahead

namespace Grammar

variable {g : Grammar} {s : Symbol} {p : Production}

namespace WellFormed

variable (h : g.WellFormed)
include h

/-- The body of a production is its right side unless that is the mark of the empty word. -/
theorem body_cases (hp : p ∈ g.productionList) :
    p.right = [Symbol.epsilon] ∧ p.body = [] ∨ p.body = p.right ∧ ∀ s ∈ p.right, g.Registered s := by
  rcases h.right_cases hp with hr | hr
  · exact .inl ⟨hr, if_pos ((h.isEpsilon_iff hp).mpr hr)⟩
  · refine .inr ⟨if_neg fun he => ?_, hr⟩
    have hepsilon := (h.isEpsilon_iff hp).mp he
    have hne := h.not_isEpsilon (hr Symbol.epsilon (by simp [hepsilon]))
    simp [Symbol.isEpsilon, Symbol.epsilon] at hne

theorem registered_of_mem_body (hp : p ∈ g.productionList) (hs : s ∈ p.body) : g.Registered s := by
  rcases h.body_cases hp with ⟨_, hb⟩ | ⟨hb, hr⟩
  · simp [hb] at hs
  · exact hr s (hb ▸ hs)

/-- The empty word is marked from the start, so a right side is marked if its body is. -/
theorem forall_mem_right_iff {N : Symbol → Prop} (hepsilon : N Symbol.epsilon)
    (hp : p ∈ g.productionList) : (∀ s ∈ p.right, N s) ↔ ∀ s ∈ p.body, N s := by
  rcases h.body_cases hp with ⟨hr, hb⟩ | ⟨hb, _⟩
  · simp [hr, hb, hepsilon]
  · rw [hb]

theorem left_ne_terminal (hp : p ∈ g.productionList) (hs : s ∈ g.terminalList) : p.left ≠ s := by
  intro he
  have hn := h.nonterminal _ (h.left_mem hp)
  rw [he, h.terminal s hs] at hn
  cases hn

end WellFormed

namespace Lawful

variable (h : g.Lawful)
include h

theorem body_cases (hp : p ∈ g.productionList) :
    p.right = [Symbol.epsilon] ∧ p.body = [] ∨ p.body = p.right ∧ ∀ s ∈ p.right, g.Registered s :=
  h.wellFormed.body_cases hp

theorem registered_of_mem_body (hp : p ∈ g.productionList) (hs : s ∈ p.body) : g.Registered s :=
  h.wellFormed.registered_of_mem_body hp hs

/-- Terminals do not vanish. -/
theorem not_vanishes_terminal (hs : s ∈ g.terminalList) :
    ¬Vanishes g.productionList [s] := by
  intro hv
  rcases Relation.ReflTransGen.cases_head hv with he | ⟨_, hstep, _⟩
  · cases he
  · obtain ⟨p, hp, hleft⟩ := hstep.left_mem
    exact h.wellFormed.left_ne_terminal hp hs (List.mem_singleton.mp hleft)

end Lawful

end Grammar

namespace Nullability

open Grammar (varies_setFindings varies_setEmptiable)

variable {g g' : Grammar} {n n' : Nullability} {s : Symbol} {p : Production}

/-! ### Marks -/

theorem foldl_setNullable (symbols : List Symbol) (f : Symbol → Bool) (g : Grammar) (t : Symbol) :
    (symbols.foldl (fun g s => g.setNullable s (f s)) g).nullable t =
      if t ∈ symbols then f t else g.nullable t := by
  induction symbols generalizing g with
  | nil => simp
  | cons s symbols ih =>
    rw [List.foldl_cons, ih, nullable_setNullable]
    by_cases ht : t ∈ symbols
    · simp [ht]
    · by_cases hs : s = t
      · simp [hs]
      · have hs' : ¬t = s := fun h => hs h.symm
        simp [ht, hs, hs']

theorem emptiable_setEmptiable (g : Grammar) (p q : Production) (b : Bool) :
    (g.setEmptiable p b).emptiable q = if p.stamp = q.stamp then b else g.emptiable q := by
  simp only [Grammar.emptiable, Grammar.setEmptiable, Assoc.get?_put]
  split <;> rfl

theorem foldl_setEmptiable (ps : List Production) (b : Bool) (g : Grammar) (q : Production) :
    (ps.foldl (fun g p => g.setEmptiable p b) g).emptiable q =
      if q.stamp ∈ ps.map Production.stamp then b else g.emptiable q := by
  induction ps generalizing g with
  | nil => simp
  | cons p ps ih =>
    rw [List.foldl_cons, ih, emptiable_setEmptiable]
    by_cases hq : q.stamp ∈ ps.map Production.stamp
    · simp [hq]
    · by_cases hp : p.stamp = q.stamp
      · simp [hp]
      · have hp' : ¬q.stamp = p.stamp := fun h => hp h.symm
        simp [hq, hp, hp']

theorem foldl_setEmptiable_of_mem {ps : List Production} {b : Bool} (hp : p ∈ ps) :
    (ps.foldl (fun g p => g.setEmptiable p b) g).emptiable p = b := by
  rw [foldl_setEmptiable, if_pos (List.mem_map_of_mem hp)]

theorem varies_clear (g : Grammar) : g.Varies (clear g) :=
  (Grammar.Varies.foldl (fun g s => varies_setFindings g s _) _ g).trans
    (Grammar.Varies.foldl (fun g p => varies_setEmptiable g p _) _ _)

theorem nullable_foldl_setEmptiable (ps : List Production) (b : Bool) (g : Grammar) (s : Symbol) :
    (ps.foldl (fun g p => g.setEmptiable p b) g).nullable s = g.nullable s := by
  induction ps generalizing g with
  | nil => rfl
  | cons p ps ih => rw [List.foldl_cons, ih, nullable_setEmptiable]

theorem nullable_clear (g : Grammar) {s : Symbol} (hs : s ∈ g.allSymbols) :
    (clear g).nullable s = s.isEpsilon := by
  rw [clear, nullable_foldl_setEmptiable, foldl_setNullable, if_pos hs]

theorem emptiable_clear (g : Grammar) {p : Production} (hp : p ∈ g.productionList) :
    (clear g).emptiable p = false := by
  have hv : g.Varies (g.allSymbols.foldl (fun g s => g.setNullable s s.isEpsilon) g) :=
    Grammar.Varies.foldl (fun g s => varies_setFindings g s _) _ g
  exact foldl_setEmptiable_of_mem (hv.productionList ▸ hp)

theorem varies_markLefts (ps : List Production) (g : Grammar) : g.Varies (markLefts g ps).2 := by
  induction ps generalizing g with
  | nil => exact .refl g
  | cons p ps ih =>
    rw [markLefts]
    split
    · exact ih g
    · exact (varies_setFindings g _ _).trans (ih _)

theorem emptiable_markLefts (ps : List Production) (g : Grammar) (q : Production) :
    (markLefts g ps).2.emptiable q = g.emptiable q := by
  induction ps generalizing g with
  | nil => rfl
  | cons p ps ih =>
    rw [markLefts]
    split
    · exact ih g
    · exact ih _

theorem nullable_markLefts {ps : List Production} {g : Grammar} :
    (markLefts g ps).2.nullable s = true ↔
      g.nullable s = true ∨ ∃ p ∈ ps, (g.current p).left = s := by
  induction ps generalizing g with
  | nil => simp [markLefts]
  | cons p ps ih =>
    rw [markLefts]
    split
    · rename_i hp
      rw [ih]
      constructor
      · rintro (h | ⟨q, hq, he⟩)
        · exact .inl h
        · exact .inr ⟨q, List.mem_cons_of_mem _ hq, he⟩
      · rintro (h | ⟨q, hq, he⟩)
        · exact .inl h
        · rcases List.mem_cons.mp hq with rfl | hq
          · exact .inl (he ▸ hp)
          · exact .inr ⟨q, hq, he⟩
    · simp only [ih, nullable_setNullable]
      have hcurrent (q : Production) :
          (g.setNullable (g.current p).left true).current q = g.current q := rfl
      simp only [hcurrent]
      constructor
      · rintro (h | ⟨q, hq, he⟩)
        · split at h
          · rename_i he
            exact .inr ⟨p, List.mem_cons_self .., he⟩
          · exact .inl h
        · exact .inr ⟨q, List.mem_cons_of_mem _ hq, he⟩
      · rintro (h | ⟨q, hq, he⟩)
        · exact .inl (by rw [h, ite_self])
        · rcases List.mem_cons.mp hq with rfl | hq
          · exact .inl (if_pos he)
          · exact .inr ⟨q, hq, he⟩

/-- If no name is given every left side was marked before. -/
theorem nullable_of_markLefts_eq_nil {ps : List Production} {g : Grammar}
    (h : (markLefts g ps).1 = []) : ∀ p ∈ ps, g.nullable (g.current p).left = true := by
  induction ps generalizing g with
  | nil => simp
  | cons p ps ih =>
    rw [markLefts] at h
    split at h
    · rename_i hp
      exact List.forall_mem_cons.mpr ⟨hp, ih h⟩
    · cases h

/-! ### Rounds -/

/-- What the rounds have found at any time. -/
structure Sound (n : Nullability) (g : Grammar) : Prop where
  nullable : ∀ s, g.Registered s → g.nullable s = true → Vanishes g.productionList [s]
  emptiable : ∀ p ∈ g.productionList, g.emptiable p = true → Vanishes g.productionList p.body
  epsilon : g.nullable Symbol.epsilon = true
  left : ∀ p ∈ g.productionList, g.emptiable p = true → g.nullable p.left = true
  worklist : ∀ p ∈ n.worklist, p ∈ g.productionList
  remaining : ∀ p ∈ g.productionList, p ∈ n.worklist ∨ g.emptiable p = true
  fixpoint : n.fixpoint = true → ∀ p ∈ g.productionList,
    (∀ s ∈ p.right, g.nullable s = true) → g.emptiable p = true

theorem sound_start (h : g.WellFormed) : (start g).1.Sound (start g).2 := by
  have hv : g.Varies (clear g) := varies_clear g
  have hclear (s : Symbol) (hs : g.Registered s) : (clear g).nullable s = false := by
    have hmem : s ∈ g.allSymbols := by
      rcases hs with hs | hs <;> simp [Grammar.allSymbols, hs]
    rw [nullable_clear g hmem, h.not_isEpsilon hs]
  refine ⟨fun s hs hn => ?_, fun p hp he => ?_, ?_, fun p hp he => ?_, ?_, ?_, ?_⟩
  · rw [Grammar.Registered, start, hv.nonterminalList, hv.terminalList, ← Grammar.Registered] at hs
    simp [start, hclear s hs] at hn
  · rw [start, hv.productionList] at hp
    simp [start, emptiable_clear g hp] at he
  · exact nullable_clear g (List.mem_cons_self ..)
  · rw [start, hv.productionList] at hp
    simp [start, emptiable_clear g hp] at he
  · intro p hp
    rwa [start, hv.productionList]
  · intro p hp
    rw [start, hv.productionList] at hp
    exact .inl hp
  · intro hf
    cases hf

theorem mem_ready (h : g.WellFormed) (hn : n.Sound g) : p ∈ n.ready g ↔
    p ∈ n.worklist ∧ g.emptiable p = false ∧ ∀ s ∈ p.right, g.nullable s = true := by
  simp only [ready, unmarked, List.mem_filter, List.all_eq_true, Bool.not_eq_true', and_assoc]
  apply and_congr_right
  intro hp
  rw [h.current_eq p (hn.worklist p hp)]

theorem Sound.mem_of_ready (hn : n.Sound g) (hp : p ∈ n.ready g) : p ∈ g.productionList :=
  hn.worklist p (List.mem_of_mem_filter (List.mem_of_mem_filter hp))

/-- The grammar after a round. -/
def after (n : Nullability) (g : Grammar) : Grammar :=
  (markLefts ((n.ready g).foldl (fun g p => g.setEmptiable p true) g) (n.ready g)).2

/-- Whether a round marks a new left side. -/
def isLast (n : Nullability) (g : Grammar) : Bool :=
  (markLefts ((n.ready g).foldl (fun g p => g.setEmptiable p true) g) (n.ready g)).1.isEmpty

theorem advance_of_open (hopen : n.fixpoint = false) (g : Grammar) :
    (n.advance g).2 = (⟨n.rounds + 1, n.isLast g, n.unmarked g⟩, n.after g) := by
  simp only [advance, hopen]
  rfl

theorem advance_of_fixpoint (hfix : n.fixpoint = true) (g : Grammar) :
    (n.advance g).2 = (n, g) := by
  simp only [advance, hfix]
  rfl

theorem varies_after (n : Nullability) (g : Grammar) : g.Varies (n.after g) :=
  (Grammar.Varies.foldl (fun g p => varies_setEmptiable g p _) _ g).trans (varies_markLefts _ _)

theorem nullable_after (h : g.WellFormed) (hn : n.Sound g) :
    (n.after g).nullable s = true ↔ g.nullable s = true ∨ ∃ p ∈ n.ready g, p.left = s := by
  rw [after, nullable_markLefts, nullable_markEmptiable]
  simp only [current_markEmptiable]
  apply or_congr_right
  apply exists_congr
  intro p
  apply and_congr_right
  intro hp
  rw [h.current_eq p (hn.mem_of_ready hp)]

theorem emptiable_after (h : g.WellFormed) (hn : n.Sound g) (hp : p ∈ g.productionList) :
    (n.after g).emptiable p = true ↔ g.emptiable p = true ∨ p ∈ n.ready g := by
  rw [after, emptiable_markLefts, foldl_setEmptiable]
  by_cases hm : p.stamp ∈ (n.ready g).map Production.stamp
  · obtain ⟨q, hq, he⟩ := List.mem_map.mp hm
    have hqp : q = p := h.eq_of_stamp_eq (hn.mem_of_ready hq) hp he
    rw [if_pos hm]
    exact iff_of_true rfl (.inr (hqp ▸ hq))
  · have hp' : p ∉ n.ready g := fun hp' => hm (List.mem_map_of_mem hp')
    simp [hm, hp']

/-- A production whose right side is marked was found before or is found in this round. -/
theorem Sound.emptiable_or_ready (hn : n.Sound g) (h : g.WellFormed) (hp : p ∈ g.productionList)
    (hright : ∀ s ∈ p.right, g.nullable s = true) : g.emptiable p = true ∨ p ∈ n.ready g := by
  cases he : g.emptiable p with
  | true => exact .inl rfl
  | false =>
    have hopen := (hn.remaining p hp).resolve_right (by simp [he])
    exact .inr ((mem_ready h hn).mpr ⟨hopen, he, hright⟩)

/-- A round is the last if it finds the left sides of its productions marked. -/
theorem isLast_iff (h : g.WellFormed) (hn : n.Sound g) :
    n.isLast g = true ↔ ∀ p ∈ n.ready g, g.nullable p.left = true := by
  have hcurrent {p : Production} (hp : p ∈ n.ready g) : g.current p = p :=
    h.current_eq p (hn.mem_of_ready hp)
  rw [isLast, List.isEmpty_iff]
  constructor
  · intro hnil p hp
    have hmarked := nullable_of_markLefts_eq_nil hnil p hp
    rwa [nullable_markEmptiable, current_markEmptiable, hcurrent hp] at hmarked
  · intro hmarked
    by_contra hne
    obtain ⟨p, hp, hbefore, -⟩ := exists_marked_of_markLefts hne
    rw [nullable_markEmptiable, current_markEmptiable, hcurrent hp, hmarked p hp] at hbefore
    cases hbefore

/-- A ready production derives the empty word. -/
theorem Sound.vanishes_of_ready (hn : n.Sound g) (h : g.WellFormed) (hp : p ∈ n.ready g) :
    Vanishes g.productionList p.body := by
  have hlist := hn.mem_of_ready hp
  have hbody := (h.forall_mem_right_iff hn.epsilon hlist).mp ((mem_ready h hn).mp hp).2.2
  exact vanishes_of_forall fun s hs =>
    hn.nullable s (h.registered_of_mem_body hlist hs) (hbody s hs)

theorem Sound.after (hn : n.Sound g) (h : g.WellFormed) :
    Sound ⟨n.rounds + 1, n.isLast g, n.unmarked g⟩ (n.after g) := by
  have hv := varies_after n g
  refine ⟨?_, ?_, ?_, ?_, ?_, ?_, ?_⟩
  · intro s hs hnull
    rw [hv.productionList]
    rw [Grammar.Registered, hv.nonterminalList, hv.terminalList] at hs
    rcases (nullable_after h hn).mp hnull with hnull | ⟨p, hp, rfl⟩
    · exact hn.nullable s hs hnull
    · exact (Derives.of_rule (hn.mem_of_ready hp)).trans (hn.vanishes_of_ready h hp)
  · intro p hp he
    rw [hv.productionList] at hp ⊢
    rcases (emptiable_after h hn hp).mp he with he | hr
    · exact hn.emptiable p hp he
    · exact hn.vanishes_of_ready h hr
  · exact (nullable_after h hn).mpr (.inl hn.epsilon)
  · intro p hp he
    rw [hv.productionList] at hp
    refine (nullable_after h hn).mpr ?_
    rcases (emptiable_after h hn hp).mp he with he | hr
    · exact .inl (hn.left p hp he)
    · exact .inr ⟨p, hr, rfl⟩
  · intro p hp
    rw [hv.productionList]
    exact hn.worklist p (List.mem_of_mem_filter hp)
  · intro p hp
    rw [hv.productionList] at hp
    rw [emptiable_after h hn hp]
    cases he : g.emptiable p with
    | true => exact .inr (.inl rfl)
    | false =>
      have hw := (hn.remaining p hp).resolve_right (by simp [he])
      exact .inl (List.mem_filter.mpr ⟨hw, by simp [he]⟩)
  · -- the last round marked nothing, so what is nullable now was so before it
    intro hlast p hp hright
    rw [hv.productionList] at hp
    have hmarked := (isLast_iff h hn).mp hlast
    have hbefore : ∀ s ∈ p.right, g.nullable s = true := by
      intro s hs
      rcases (nullable_after h hn).mp (hright s hs) with hnull | ⟨q, hq, rfl⟩
      · exact hnull
      · exact hmarked q hq
    exact (emptiable_after h hn hp).mpr (hn.emptiable_or_ready h hp hbefore)

theorem varies_advance (n : Nullability) (g : Grammar) : g.Varies (n.advance g).2.2 := by
  cases hf : n.fixpoint with
  | true =>
    rw [advance_of_fixpoint hf]
    exact .refl g
  | false =>
    rw [advance_of_open hf]
    exact varies_after n g

theorem varies_solve (n : Nullability) (g : Grammar) : g.Varies (n.solve g).2.2 := by
  fun_induction solve n g with
  | case1 n g hf => exact .refl g
  | case2 n g hf step hlast => exact varies_advance n g
  | case3 n g hf step hlast rounds last hrec ih =>
    rw [hrec] at ih
    exact (varies_advance n g).trans ih

theorem Sound.advance (hn : n.Sound g) (h : g.WellFormed) :
    (n.advance g).2.1.Sound (n.advance g).2.2 := by
  cases hf : n.fixpoint with
  | true => rwa [advance_of_fixpoint hf]
  | false =>
    rw [advance_of_open hf]
    exact hn.after h

/-- Solving goes on to the fixpoint from any state of the rounds. -/
theorem solve_spec (hn : n.Sound g) (h : g.WellFormed) :
    g.Varies (n.solve g).2.2 ∧ (n.solve g).2.1.Sound (n.solve g).2.2 ∧
      (n.solve g).2.1.fixpoint = true := by
  fun_induction solve n g with
  | case1 n g hf => exact ⟨.refl g, hn, hf⟩
  | case2 n g hf step hlast => exact ⟨varies_advance n g, hn.advance h, hlast⟩
  | case3 n g hf step hlast rounds last hrec ih =>
    have hv : g.Varies step.2.2 := varies_advance n g
    have hrest := ih (hn.advance h) (hv.wellFormed h)
    rw [hrec] at hrest
    exact ⟨hv.trans hrest.1, hrest.2⟩

/-! ### The fixpoint -/

/-- The marked symbols are those that derive the empty word. -/
structure Marked (g : Grammar) : Prop where
  nullable : ∀ s, g.Registered s → (g.nullable s = true ↔ Vanishes g.productionList [s])
  epsilon : g.nullable Symbol.epsilon = true

/-- The marks of the productions are right as well. -/
structure Exact (g : Grammar) : Prop extends Marked g where
  emptiable : ∀ p ∈ g.productionList,
    (g.emptiable p = true ↔ Vanishes g.productionList p.body)

theorem Sound.exact (hn : n.Sound g) (h : g.WellFormed) (hfix : n.fixpoint = true) : Exact g := by
  have hright (p : Production) (hp : p ∈ g.productionList)
      (hbody : ∀ s ∈ p.body, g.Registered s ∧ g.nullable s = true) : g.emptiable p = true := by
    apply hn.fixpoint hfix p hp
    exact (h.forall_mem_right_iff hn.epsilon hp).mpr fun s hs => (hbody s hs).2
  have hclosed : VanishingClosed g.productionList
      fun s => g.Registered s ∧ g.nullable s = true := fun p hp hbody =>
    ⟨.inl (h.left_mem hp), hn.left p hp (hright p hp hbody)⟩
  refine ⟨⟨fun s hs => ⟨hn.nullable s hs, fun hv => ?_⟩, hn.epsilon⟩,
    fun p hp => ⟨hn.emptiable p hp, fun hv => ?_⟩⟩
  · exact (hclosed.of_vanishes hv s (List.mem_singleton_self s)).2
  · exact hright p hp (hclosed.of_vanishes hv)

/-- A grammar with the marks that are left when its rounds are solved. -/
def solved (g : Grammar) : Grammar := ((start g).1.solve (start g).2).2.2

theorem solved_spec (h : g.Standard) :
    g.Varies (solved g) ∧ (solved g).Standard ∧ Marked (solved g) := by
  have hstart : g.Varies (start g).2 := varies_clear g
  have hstandard := hstart.standard h
  obtain ⟨hv, hsound, hfix⟩ :=
    solve_spec (sound_start h.toLawful.wellFormed) hstandard.toLawful.wellFormed
  have hvaries : g.Varies (solved g) := hstart.trans hv
  exact ⟨hvaries, hvaries.standard h,
    (hsound.exact (hv.standard hstandard).toLawful.wellFormed hfix).toMarked⟩

end Nullability

end Lookahead
