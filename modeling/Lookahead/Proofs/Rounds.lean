import Lookahead.Proofs.Nullability
import Mathlib.Logic.Function.Iterate

/-!
# What each round finds

A round looks only at the marks that were there when it began. So what is marked after some
rounds are the nonterminals with a derivation tree of the empty word that has at most as many
levels of productions, and a round that marks no nonterminal is the last that changes anything.
Every other round marks a nonterminal, which bounds their number.
-/

namespace Lookahead

variable {rules : List Production} {j k : Nat} {s : Symbol}

/-! ### Trees of bounded height -/

/-- A symbol has a derivation tree of the empty word with at most so many levels of productions. -/
inductive VanishesWithin (rules : List Production) : Nat → Symbol → Prop where
  | node {k : Nat} {p : Production} (hp : p ∈ rules)
      (children : ∀ s ∈ p.body, VanishesWithin rules k s) : VanishesWithin rules (k + 1) p.left

theorem not_vanishesWithin_zero : ¬VanishesWithin rules 0 s := nofun

theorem vanishesWithin_succ_iff : VanishesWithin rules (k + 1) s ↔
    ∃ p ∈ rules, p.left = s ∧ ∀ t ∈ p.body, VanishesWithin rules k t := by
  constructor
  · intro h
    cases h with
    | node hp children => exact ⟨_, hp, rfl, children⟩
  · rintro ⟨p, hp, rfl, children⟩
    exact .node hp children

theorem VanishesWithin.succ (h : VanishesWithin rules k s) : VanishesWithin rules (k + 1) s := by
  induction h with
  | node hp _ ih => exact .node hp ih

theorem length_filter_lt {α : Type} {l : List α} {p q : α → Bool} {a : α}
    (hpq : ∀ a, p a = true → q a = true) (ha : a ∈ l) (hp : p a = false) (hq : q a = true) :
    (l.filter p).length < (l.filter q).length := by
  have hsub : (l.filter p).Sublist (l.filter q) := List.monotone_filter_right l hpq
  apply Nat.lt_of_le_of_ne hsub.length_le
  intro he
  have hmem : a ∈ l.filter p := by
    rw [hsub.eq_of_length he]
    exact List.mem_filter.mpr ⟨ha, hq⟩
  rw [(List.mem_filter.mp hmem).2] at hp
  cases hp

namespace Nullability

variable {g : Grammar} {n : Nullability} {p : Production}

/-! ### Calls for rounds -/

/-- One call for a round, with what it reports left out. -/
def next (s : Nullability × Grammar) : Nullability × Grammar := (s.1.advance s.2).2

/-- The rounds and the grammar after the start and some calls for a round. -/
def calls (g : Grammar) (k : Nat) : Nullability × Grammar := next^[k] (start g)

/-- What the call after these reports. -/
def report (g : Grammar) (k : Nat) : Round := ((calls g k).1.advance (calls g k).2).1

theorem calls_succ (g : Grammar) (k : Nat) : calls g (k + 1) = next (calls g k) :=
  Function.iterate_succ_apply' ..

theorem calls_succ_of_fixpoint (hfix : (calls g k).1.fixpoint = true) :
    calls g (k + 1) = calls g k := by
  rw [calls_succ, next, advance_of_fixpoint hfix]

theorem calls_succ_of_open (hopen : (calls g k).1.fixpoint = false) :
    calls g (k + 1) = (⟨(calls g k).1.rounds + 1, (calls g k).1.isLast (calls g k).2,
      (calls g k).1.unmarked (calls g k).2⟩, (calls g k).1.after (calls g k).2) := by
  rw [calls_succ, next, advance_of_open hopen]

theorem report_of_fixpoint (hfix : (calls g k).1.fixpoint = true) :
    report g k = { number := (calls g k).1.rounds, fixpoint := true } := by
  simp only [report, advance, hfix, if_true]

theorem fixpoint_report (g : Grammar) (k : Nat) :
    (report g k).fixpoint = (calls g (k + 1)).1.fixpoint := by
  rw [calls_succ, next, report, advance]
  split
  · rename_i hfix
    exact hfix.symm
  · rfl

theorem varies_calls (g : Grammar) (k : Nat) : g.Varies (calls g k).2 := by
  induction k with
  | zero => exact varies_clear g
  | succ k ih =>
    rw [calls_succ]
    exact ih.trans (varies_advance _ _)

theorem wellFormed_calls (h : g.WellFormed) (k : Nat) : (calls g k).2.WellFormed :=
  (varies_calls g k).wellFormed h

theorem sound_calls (h : g.WellFormed) (k : Nat) : (calls g k).1.Sound (calls g k).2 := by
  induction k with
  | zero => exact sound_start h
  | succ k ih =>
    rw [calls_succ]
    exact ih.advance (wellFormed_calls h k)

/-! ### Marks of one round -/

/-- One call marks the left sides of the productions whose bodies were marked before it. At the
fixpoint these are marked already. -/
theorem nullable_calls_succ (h : g.WellFormed) : (calls g (k + 1)).2.nullable s = true ↔
    (calls g k).2.nullable s = true ∨
      ∃ p ∈ g.productionList, p.left = s ∧ ∀ t ∈ p.body, (calls g k).2.nullable t = true := by
  have hw := wellFormed_calls h k
  have hn := sound_calls h k
  have hlist := (varies_calls g k).productionList
  have hright {p : Production} (hp : p ∈ (calls g k).2.productionList) :=
    hw.forall_mem_right_iff (N := fun t => (calls g k).2.nullable t = true) hn.epsilon hp
  rw [← hlist]
  cases hf : (calls g k).1.fixpoint with
  | true =>
    rw [calls_succ_of_fixpoint hf]
    constructor
    · exact .inl
    · rintro (hs | ⟨p, hp, rfl, hbody⟩)
      · exact hs
      · exact hn.left p hp (hn.fixpoint hf p hp ((hright hp).mpr hbody))
  | false =>
    rw [calls_succ_of_open hf, nullable_after hw hn]
    constructor
    · rintro (hs | ⟨p, hr, hleft⟩)
      · exact .inl hs
      · have hp := hn.mem_of_ready hr
        exact .inr ⟨p, hp, hleft, (hright hp).mp ((mem_ready hw hn).mp hr).2.2⟩
    · rintro (hs | ⟨p, hp, rfl, hbody⟩)
      · exact .inl hs
      · rcases hn.emptiable_or_ready hw hp ((hright hp).mpr hbody) with he | hr
        · exact .inl (hn.left p hp he)
        · exact .inr ⟨p, hr, rfl⟩

/-- After so many calls the marked symbols are those with a tree of that height. -/
theorem nullable_calls_iff (h : g.WellFormed) (hs : g.Registered s) :
    (calls g k).2.nullable s = true ↔ VanishesWithin g.productionList k s := by
  induction k generalizing s with
  | zero =>
    have hmem : s ∈ g.allSymbols := by
      rcases hs with hs | hs <;> simp [Grammar.allSymbols, hs]
    have hclear : (calls g 0).2.nullable s = false :=
      (nullable_clear g hmem).trans (h.not_isEpsilon hs)
    simp [hclear, not_vanishesWithin_zero]
  | succ k ih =>
    rw [nullable_calls_succ h, ih hs, vanishesWithin_succ_iff]
    have hbody {p : Production} (hp : p ∈ g.productionList) :
        (∀ t ∈ p.body, (calls g k).2.nullable t = true) ↔
          ∀ t ∈ p.body, VanishesWithin g.productionList k t :=
      forall₂_congr fun t ht => ih (h.registered_of_mem_body hp ht)
    constructor
    · rintro (hs | ⟨p, hp, hleft, hmarked⟩)
      · exact vanishesWithin_succ_iff.mp hs.succ
      · exact ⟨p, hp, hleft, (hbody hp).mp hmarked⟩
    · rintro ⟨p, hp, hleft, hwithin⟩
      exact .inr ⟨p, hp, hleft, (hbody hp).mpr hwithin⟩

theorem nullable_next (s : Nullability × Grammar) {t : Symbol} (ht : s.2.nullable t = true) :
    (next s).2.nullable t = true := by
  cases hf : s.1.fixpoint with
  | true => rwa [next, advance_of_fixpoint hf]
  | false =>
    rw [next, advance_of_open hf, after, nullable_markLefts, nullable_markEmptiable]
    exact .inl ht

theorem emptiable_next (s : Nullability × Grammar) (hp : s.2.emptiable p = true) :
    (next s).2.emptiable p = true := by
  cases hf : s.1.fixpoint with
  | true => rwa [next, advance_of_fixpoint hf]
  | false =>
    rw [next, advance_of_open hf, after, emptiable_markLefts, foldl_setEmptiable]
    split
    · rfl
    · exact hp

theorem fixpoint_next (s : Nullability × Grammar) (hf : s.1.fixpoint = true) :
    (next s).1.fixpoint = true := by
  rwa [next, advance_of_fixpoint hf]

/-- What one call keeps all calls keep. -/
theorem calls_keep {P : Nullability × Grammar → Prop} (hP : ∀ s, P s → P (next s)) (hjk : j ≤ k)
    (hj : P (calls g j)) : P (calls g k) := by
  induction hjk with
  | refl => exact hj
  | step _ ih =>
    rw [calls_succ]
    exact hP _ ih

/-- A round is the last if it marks nothing that was not marked when it began. -/
theorem report_fixpoint_iff (h : g.WellFormed) : (report g k).fixpoint = true ↔
    ∀ s ∈ g.nonterminalList,
      (calls g (k + 1)).2.nullable s = true → (calls g k).2.nullable s = true := by
  have hw := wellFormed_calls h k
  have hn := sound_calls h k
  rw [fixpoint_report]
  cases hf : (calls g k).1.fixpoint with
  | true =>
    rw [calls_succ_of_fixpoint hf]
    exact iff_of_true hf fun _ _ => id
  | false =>
    rw [calls_succ_of_open hf]
    apply (isLast_iff hw hn).trans
    constructor
    · intro hmarked s _ hs
      rcases (nullable_after hw hn).mp hs with hs | ⟨p, hp, rfl⟩
      · exact hs
      · exact hmarked p hp
    · intro hkept p hp
      have hleft := hw.left_mem (hn.mem_of_ready hp)
      rw [(varies_calls g k).nonterminalList] at hleft
      exact hkept p.left hleft ((nullable_after hw hn).mpr (.inr ⟨p, hp, rfl⟩))

/-! ### The number of rounds -/

/-- Each round but the last has marked a nonterminal. -/
theorem rounds_calls_le (h : g.WellFormed) (k : Nat) : (calls g k).1.rounds ≤
    (g.nonterminalList.filter (calls g k).2.nullable).length +
      if (calls g k).1.fixpoint then 1 else 0 := by
  induction k with
  | zero => exact Nat.zero_le _
  | succ k ih =>
    cases hf : (calls g k).1.fixpoint with
    | true => rwa [calls_succ_of_fixpoint hf]
    | false =>
      have hkeep (s : Symbol) (hs : (calls g k).2.nullable s = true) :
          (calls g (k + 1)).2.nullable s = true := (nullable_calls_succ h).mpr (.inl hs)
      have hrounds : (calls g (k + 1)).1.rounds = (calls g k).1.rounds + 1 := by
        rw [calls_succ_of_open hf]
      rw [hf, if_neg Bool.false_ne_true, Nat.add_zero] at ih
      rw [hrounds]
      cases hlast : (calls g (k + 1)).1.fixpoint with
      | true =>
        have hle := (List.monotone_filter_right g.nonterminalList hkeep).length_le
        rw [if_pos rfl]
        omega
      | false =>
        -- a round that is not the last marks some nonterminal
        have hnew : ¬(report g k).fixpoint = true := by simp [fixpoint_report, hlast]
        simp only [report_fixpoint_iff h, not_forall] at hnew
        obtain ⟨s, hs, hafter, hbefore⟩ := hnew
        have hlt := length_filter_lt hkeep hs (by simpa using hbefore) hafter
        rw [if_neg Bool.false_ne_true]
        omega

theorem rounds_calls_le_length (h : g.WellFormed) (k : Nat) :
    (calls g k).1.rounds ≤ g.nonterminalList.length + 1 := by
  have hle := rounds_calls_le h k
  have hfilter := List.length_filter_le (calls g k).2.nullable g.nonterminalList
  split at hle <;> omega

/-- Solving makes as many calls as it gives rounds, and counts them. -/
theorem solve_eq_iterate (n : Nullability) (g : Grammar) :
    (n.solve g).2 = next^[(n.solve g).1.length] (n, g) ∧
      (n.solve g).2.1.rounds = n.rounds + (n.solve g).1.length := by
  fun_induction solve n g with
  | case1 n g hf => exact ⟨rfl, rfl⟩
  | case2 n g hf step hlast =>
    refine ⟨rfl, ?_⟩
    simp only [step, advance_of_open (Bool.not_eq_true _ ▸ hf)]
    rfl
  | case3 n g hf step hlast rounds last hrec ih =>
    rw [hrec] at ih
    obtain ⟨hstate, hcount⟩ := ih
    have hstep : step.2.1.rounds = n.rounds + 1 := by
      simp only [step, advance_of_open (Bool.not_eq_true _ ▸ hf)]
    refine ⟨hstate, ?_⟩
    change last.1.rounds = n.rounds + (rounds.length + 1)
    rw [show last.1.rounds = step.2.1.rounds + rounds.length from hcount, hstep]
    omega

/-- Solving from any state ends at the fixpoint after at most one round for each nonterminal and
one more. -/
theorem solve_calls (h : g.WellFormed) (k : Nat) : ∃ rounds,
    (calls g k).1.solve (calls g k).2 = (rounds, calls g (k + rounds.length)) ∧
      rounds.length ≤ g.nonterminalList.length + 1 ∧
      (calls g (k + rounds.length)).1.fixpoint = true := by
  obtain ⟨-, -, hfix⟩ := solve_spec (sound_calls h k) (wellFormed_calls h k)
  cases hsolve : (calls g k).1.solve (calls g k).2 with
  | mk rounds state =>
    obtain ⟨hstate, hcount⟩ := solve_eq_iterate (calls g k).1 (calls g k).2
    simp only [hsolve] at hstate hcount
    have hcalls : state = calls g (k + rounds.length) := by
      rw [hstate, Nat.add_comm, calls, calls, Function.iterate_add_apply]
    rw [hsolve, hcalls] at hfix
    rw [hcalls] at hcount
    have hle := rounds_calls_le_length h (k + rounds.length)
    exact ⟨rounds, by rw [hcalls], by omega, hfix⟩

/-! ### All rounds -/

/-- What the calls for rounds leave in every valid grammar. After some calls the marked
nonterminals are those with a derivation tree of that height. A round is the last if and only if
it marks no nonterminal; calls after it change nothing. Marks stay. Solving from any state ends
after at most one round for each nonterminal and one more, and then what is marked is what derives
the empty word. -/
theorem marks_of_calls (h : g.WellFormed) (k : Nat) :
    (∀ s ∈ g.nonterminalList,
      (calls g k).2.nullable s = true ↔ VanishesWithin g.productionList k s) ∧
    ((report g k).fixpoint = true ↔ ∀ s ∈ g.nonterminalList,
      (calls g (k + 1)).2.nullable s = true → (calls g k).2.nullable s = true) ∧
    (report g k).fixpoint = (calls g (k + 1)).1.fixpoint ∧
    ((calls g k).1.fixpoint = true → calls g (k + 1) = calls g k ∧
      report g k = { number := (calls g k).1.rounds, fixpoint := true }) ∧
    (∀ j ≤ k,
      (∀ s, (calls g j).2.nullable s = true → (calls g k).2.nullable s = true) ∧
      (∀ p, (calls g j).2.emptiable p = true → (calls g k).2.emptiable p = true) ∧
      ((calls g j).1.fixpoint = true → (calls g k).1.fixpoint = true)) ∧
    ∃ rounds, (calls g k).1.solve (calls g k).2 = (rounds, calls g (k + rounds.length)) ∧
      rounds.length ≤ g.nonterminalList.length + 1 ∧
      (calls g (k + rounds.length)).1.fixpoint = true ∧
      (∀ s ∈ g.nonterminalList, (calls g (k + rounds.length)).2.nullable s = true ↔
        Derives g.productionList [s] []) ∧
      ∀ p ∈ g.productionList, (calls g (k + rounds.length)).2.emptiable p = true ↔
        Derives g.productionList p.body [] := by
  refine ⟨fun s hs => nullable_calls_iff h (.inl hs), report_fixpoint_iff h, fixpoint_report g k,
    fun hf => ⟨calls_succ_of_fixpoint hf, report_of_fixpoint hf⟩, fun j hjk => ⟨?_, ?_, ?_⟩, ?_⟩
  · intro s
    exact calls_keep (P := fun state => state.2.nullable s = true)
      (fun state hs => nullable_next state hs) hjk
  · intro p
    exact calls_keep (P := fun state => state.2.emptiable p = true)
      (fun state hp => emptiable_next state hp) hjk
  · exact calls_keep (P := fun state => state.1.fixpoint = true) fixpoint_next hjk
  · obtain ⟨rounds, hsolve, hlength, hfix⟩ := solve_calls h k
    have hv := varies_calls g (k + rounds.length)
    have hexact := (sound_calls h _).exact (hv.wellFormed h) hfix
    have hnullable := hexact.nullable
    have hemptiable := hexact.emptiable
    rw [Grammar.Varies.productionList hv] at hnullable hemptiable
    refine ⟨rounds, hsolve, hlength, hfix, fun s hs => hnullable s (.inl ?_), hemptiable⟩
    rwa [hv.nonterminalList]

namespace Sample

def a : Symbol := ⟨.nonterminal, "A", 1⟩

def b : Symbol := ⟨.nonterminal, "B", 2⟩

def unit : Production := ⟨3, a, [b], -1⟩

/-- A production whose number was overwritten. -/
def empty : Production := ⟨4, b, [Symbol.epsilon], 7⟩

def grammar : Grammar where
  productions := ⟨[("A->B", unit), ("B->ε", empty)]⟩
  nonterminals := ⟨[("A", a), ("B", b)]⟩
  usages := ⟨[(a, ⟨1, false⟩), (b, ⟨2, false⟩), (Symbol.epsilon, ⟨1, false⟩)]⟩
  amended := ⟨[(4, empty)]⟩
  issued := 4

theorem wellFormed_grammar : grammar.WellFormed where
  valid := by decide +kernel
  nonterminal := by decide +kernel
  terminal := by decide +kernel
  stamps_nodup := by decide +kernel
  current_eq := by decide +kernel

theorem productionList_grammar : grammar.productionList = [unit, empty] := rfl

end Sample

/-- A symbol above one that vanishes is marked a round later. -/
theorem marks_of_calls_sample : Sample.grammar.WellFormed ∧
    (calls Sample.grammar 1).2.nullable Sample.b = true ∧
    (calls Sample.grammar 1).2.nullable Sample.a = false ∧
    (calls Sample.grammar 2).2.nullable Sample.a = true := by
  have h := Sample.wellFormed_grammar
  obtain ⟨hone, -⟩ := marks_of_calls h 1
  obtain ⟨htwo, -⟩ := marks_of_calls h 2
  rw [Sample.productionList_grammar] at hone htwo
  have hb : VanishesWithin [Sample.unit, Sample.empty] 1 Sample.b :=
    .node (p := Sample.empty) (by simp) (by simp [Production.body, Sample.empty,
      Production.isEpsilon, Symbol.isEpsilon, Symbol.epsilon])
  have hbody : Sample.unit.body = [Sample.b] := by decide
  refine ⟨h, (hone Sample.b (by decide)).mpr hb, ?_, (htwo Sample.a (by decide)).mpr ?_⟩
  · rw [← Bool.not_eq_true, hone Sample.a (by decide), vanishesWithin_succ_iff]
    rintro ⟨p, hp, hleft, hbelow⟩
    simp only [List.mem_cons, List.not_mem_nil, or_false] at hp
    rcases hp with rfl | rfl
    · exact not_vanishesWithin_zero (hbelow Sample.b (by simp [hbody]))
    · exact absurd hleft (by decide)
  · apply VanishesWithin.node (p := Sample.unit) (by simp)
    rw [hbody]
    intro s hs
    rwa [List.mem_singleton.mp hs]

end Nullability

end Lookahead
