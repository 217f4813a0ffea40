import Lookahead.Proofs.Table

/-!
# Leftmost derivations along a lookahead table

A leftmost derivation replaces the first nonterminal of a form; what stands before it is
matched already. The word that is derived decides, by its next symbol, the cell in which the
production of every step is listed. So a table that lists at most one production in a cell
leaves no choice.
-/

namespace Lookahead

/-- A derivation that always replaces the first nonterminal, with its productions in order. -/
inductive Leftmost (rules : List Production) :
    List Symbol → List Production → List Symbol → Prop where
  | refl (u : List Symbol) : Leftmost rules u [] u
  | step {p : Production} {matched rest w : List Symbol} {ps : List Production} (hp : p ∈ rules)
      (hmatched : ∀ s ∈ matched, s.isTerminal = true)
      (h : Leftmost rules (matched ++ p.body ++ rest) ps w) :
      Leftmost rules (matched ++ p.left :: rest) (p :: ps) w

/-- The name of the next symbol of a word, or of the end of the input. -/
def nextName : List Symbol → String
  | [] => Symbol.endOfInput.name
  | s :: _ => s.name

variable {rules : List Production} {u v w matched rest : List Symbol} {ps qs : List Production}
  {p q : Production}

theorem Leftmost.derives (h : Leftmost rules u ps w) : Derives rules u w := by
  induction h with
  | refl u => exact .refl u
  | step hp _ _ ih => exact (Derives.of_rule_within hp _ _).trans ih

/-- A derivation is taken apart between any two steps. -/
theorem Leftmost.split (h : Leftmost rules u (ps ++ qs) w) :
    ∃ v, Leftmost rules u ps v ∧ Leftmost rules v qs w := by
  induction ps generalizing u with
  | nil => exact ⟨u, .refl u, h⟩
  | cons p ps ih =>
    cases h with
    | step hp hmatched h =>
      obtain ⟨v, hfront, hback⟩ := ih h
      exact ⟨v, .step hp hmatched hfront, hback⟩

theorem Leftmost.exists_form (h : Leftmost rules u (p :: ps) w) :
    ∃ matched rest, (∀ s ∈ matched, s.isTerminal = true) ∧ u = matched ++ p.left :: rest := by
  cases h with
  | step _ hmatched _ => exact ⟨_, _, hmatched, rfl⟩

/-- The first nonterminal of a form is in one place. -/
theorem eq_of_first_nonterminal {m m' r r' : List Symbol} {s s' : Symbol}
    (hm : ∀ t ∈ m, t.isTerminal = true) (hm' : ∀ t ∈ m', t.isTerminal = true)
    (hs : s.isTerminal = false) (hs' : s'.isTerminal = false) (he : m ++ s :: r = m' ++ s' :: r') :
    m = m' ∧ s = s' ∧ r = r' := by
  induction m generalizing m' with
  | nil =>
    cases m' with
    | nil => exact ⟨rfl, List.cons.inj he⟩
    | cons t m' =>
      obtain ⟨rfl, -⟩ := List.cons.inj he
      rw [hm' s (List.mem_cons_self ..)] at hs
      cases hs
  | cons t m ih =>
    cases m' with
    | nil =>
      obtain ⟨rfl, -⟩ := List.cons.inj he
      rw [hm t (List.mem_cons_self ..)] at hs'
      cases hs'
    | cons t' m' =>
      obtain ⟨rfl, htail⟩ := List.cons.inj he
      obtain ⟨rfl, hrest⟩ := ih (fun a ha => hm a (List.mem_cons_of_mem _ ha))
        (fun a ha => hm' a (List.mem_cons_of_mem _ ha)) htail
      exact ⟨rfl, hrest⟩

section Nonterminals

variable (hrules : ∀ p ∈ rules, p.left.isTerminal = false)
include hrules

/-- What is matched stays in front. -/
theorem Derives.of_matched (hm : ∀ s ∈ matched, s.isTerminal = true)
    (h : Derives rules (matched ++ u) w) : ∃ r, w = matched ++ r ∧ Derives rules u r := by
  induction h with
  | refl => exact ⟨u, rfl, .refl u⟩
  | tail _ hstep ih =>
    obtain ⟨r, rfl, hr⟩ := ih
    generalize hv : matched ++ r = v at hstep
    obtain ⟨p, hp, x, y⟩ := hstep
    rcases List.append_eq_append_iff.mp hv with ⟨m, rfl, rfl⟩ | ⟨m, rfl, hm'⟩
    · exact ⟨m ++ p.body ++ y, by simp, hr.trans (Derives.of_rule_within hp m y)⟩
    · cases m with
      | nil =>
        refine ⟨p.body ++ y, by simp, ?_⟩
        obtain rfl : r = p.left :: y := by simpa using hm'.symm
        exact hr.trans (Derives.of_rule_within hp [] y)
      | cons s m =>
        obtain ⟨rfl, -⟩ := List.cons.inj hm'
        have hleft := hm p.left (by simp)
        rw [hrules p hp] at hleft
        cases hleft

/-- The first step of a derivation replaces the first nonterminal. -/
theorem Leftmost.of_cons (hm : ∀ s ∈ matched, s.isTerminal = true)
    (h : Leftmost rules (matched ++ p.left :: rest) (p :: ps) w) :
    p ∈ rules ∧ Leftmost rules (matched ++ p.body ++ rest) ps w := by
  generalize hv : matched ++ p.left :: rest = v at h
  cases h with
  | step hp hm' h =>
    obtain ⟨rfl, -, rfl⟩ := eq_of_first_nonterminal hm hm' (hrules p hp) (hrules p hp) hv
    exact ⟨hp, h⟩

end Nonterminals

/-! ### The cells of the steps -/

section Guided

variable {g : Grammar} (h : g.Standard)
include h

theorem isTerminal_left : ∀ p ∈ g.productionList, p.left.isTerminal = false := by
  intro p hp
  simp [Symbol.isTerminal, h.kind_of_mem_nonterminalList (h.left_mem hp)]

/-- Forms derived from registered symbols consist of such. -/
theorem registered_of_derives (hu : ∀ s ∈ u, g.Registered s) (hv : Derives g.productionList u v) :
    ∀ s ∈ v, g.Registered s := by
  induction hv with
  | refl => exact hu
  | tail _ hstep ih =>
    obtain ⟨p, hp, x, y⟩ := hstep
    intro s hs
    rcases List.mem_append.mp hs with hs | hs
    · rcases List.mem_append.mp hs with hs | hs
      · exact ih s (by simp [hs])
      · exact h.registered_of_mem_body hp hs
    · exact ih s (by simp [hs])

theorem mem_terminalList_of_derives {t : Symbol} (hv : Derives g.productionList [Symbol.start] v)
    (ht : t ∈ v) (hk : t.isTerminal = true) : t ∈ g.terminalList := by
  have hstart : ∀ s ∈ [Symbol.start], g.Registered s :=
    fun s hs => List.mem_singleton.mp hs ▸ .inl h.start_mem
  refine (registered_of_derives h hstart hv t ht).resolve_left fun hn => ?_
  simp [Symbol.isTerminal, h.kind_of_mem_nonterminalList hn] at hk

variable (hs : g.Solved)
include hs

/-- A production that leads to the rest of a word is listed under its next symbol. -/
theorem nextName_mem_lookahead (hp : p ∈ g.productionList)
    (hreach : Derives g.productionList [Symbol.start] (matched ++ p.left :: rest))
    (hderives : Derives g.productionList (p.body ++ rest) w) (hw : ∀ s ∈ w, s.isTerminal = true) :
    nextName w ∈ g.followSymbols.map Symbol.name ∧ nextName w ∈ g.lookahead p := by
  rw [Grammar.mem_lookahead_iff h hs hp]
  have hform : Derives g.productionList [Symbol.start] (matched ++ w) := by
    refine hreach.trans ((Derives.of_rule_within hp matched rest).trans ?_)
    simpa using hderives.append_left matched
  cases w with
  | nil =>
    have hvanish := vanishingClosed_vanishes.of_vanishes hderives
    rw [List.forall_mem_append, ← vanishes_iff, ← vanishes_iff] at hvanish
    refine ⟨by simp [nextName, Grammar.followSymbols], .inr ⟨hvanish.1, .inr ⟨rfl, matched, ?_⟩⟩⟩
    have hrest := hvanish.2.append_left (matched ++ [p.left])
    simpa using hreach.trans (by simpa using hrest)
  | cons t w =>
    have ht := mem_terminalList_of_derives h hform (t := t) (by simp) (hw t (List.mem_cons_self ..))
    refine ⟨List.mem_map_of_mem (List.mem_append_left _ ht), ?_⟩
    rcases opens_append.mp (begins_iff_opens.mp ⟨w, hderives⟩) with hbody | ⟨hbody, hrest⟩
    · exact .inl ⟨t, ht, rfl, begins_of_opens hbody⟩
    · obtain ⟨v, hv⟩ := begins_of_opens hrest
      refine .inr ⟨vanishes_of_forall hbody, .inl ⟨t, ht, rfl, _, h.start_mem, matched, v, ?_⟩⟩
      have hbehind := hv.append_left (matched ++ [p.left])
      simpa using hreach.trans (by simpa using hbehind)

variable {t : LookaheadTable} (hrows : t.rows = g.nonterminalList.map Symbol.name)
  (hcolumns : t.columns = g.followSymbols.map Symbol.name)
  (hlists : t.Lists fun row column => g.productionList.filter fun p =>
    p.left.name = row ∧ column ∈ t.columns ∧ column ∈ g.lookahead p)
include hrows hcolumns hlists

/-- The production of a step is in the cell of the next symbol. -/
theorem Leftmost.mem_cell (hw : ∀ s ∈ w, s.isTerminal = true)
    (hm : ∀ s ∈ matched, s.isTerminal = true)
    (hreach : Derives g.productionList [Symbol.start] (matched ++ p.left :: rest))
    (hstep : Leftmost g.productionList (matched ++ p.left :: rest) (p :: ps) w) :
    ∃ remaining, w = matched ++ remaining ∧ p.left.name ∈ t.rows ∧
      nextName remaining ∈ t.columns ∧ p ∈ t.content p.left.name (nextName remaining) := by
  obtain ⟨hp, hnext⟩ := hstep.of_cons (isTerminal_left h) hm
  obtain ⟨remaining, rfl, hderives⟩ := Derives.of_matched (isTerminal_left h) hm
    (by simpa using hnext.derives)
  obtain ⟨hcolumn, hlisted⟩ := nextName_mem_lookahead h hs hp hreach hderives
    fun s hs => hw s (List.mem_append_right _ hs)
  have hr : p.left.name ∈ t.rows := hrows ▸ List.mem_map_of_mem (h.left_mem hp)
  rw [← hcolumns] at hcolumn
  refine ⟨remaining, rfl, hr, hcolumn, ?_⟩
  rw [LookaheadTable.content, hlists.cell?_eq hr hcolumn, Option.getD_some, List.mem_filter]
  exact ⟨hp, by simp [hcolumn, hlisted]⟩

omit h hs hrows hcolumns hlists in
theorem eq_of_mem_of_length_le {α : Type} {a b : α} {xs : List α} (hle : xs.length ≤ 1)
    (ha : a ∈ xs) (hb : b ∈ xs) : a = b := by
  match xs, hle with
  | [x], _ => rw [List.mem_singleton.mp ha, List.mem_singleton.mp hb]

/-- A table without conflicts leaves no choice. -/
theorem Leftmost.eq_of_isLL1 (hll : t.isLL1 = true) (hw : ∀ s ∈ w, s.isTerminal = true)
    (hreach : Derives g.productionList [Symbol.start] u)
    (hps : Leftmost g.productionList u ps w) (hqs : Leftmost g.productionList u qs w) :
    ps = qs := by
  induction hps generalizing qs with
  | refl w =>
    cases hqs with
    | refl => rfl
    | step hq _ _ =>
      have hleft := hw _ (List.mem_append_right _ (List.mem_cons_self ..))
      rw [isTerminal_left h _ hq] at hleft
      cases hleft
  | @step p matched rest w ps hp hm hnext ih =>
    generalize hu : matched ++ p.left :: rest = u at hqs
    cases hqs with
    | refl =>
      have hleft := hw p.left (hu ▸ List.mem_append_right _ (List.mem_cons_self ..))
      rw [isTerminal_left h p hp] at hleft
      cases hleft
    | @step q matched' rest' _ qs hq hm' hnext' =>
      obtain ⟨rfl, hleft, rfl⟩ :=
        eq_of_first_nonterminal hm hm' (isTerminal_left h p hp) (isTerminal_left h q hq) hu
      obtain ⟨remaining, hsplit, hr, hc, hmem⟩ :=
        mem_cell h hs hrows hcolumns hlists hw hm hreach (.step hp hm hnext)
      obtain ⟨remaining', hsplit', _, _, hmem'⟩ :=
        mem_cell h hs hrows hcolumns hlists hw hm (hleft ▸ hreach) (.step hq hm hnext')
      obtain rfl := List.append_cancel_left (hsplit.symm.trans hsplit')
      rw [← hleft] at hmem'
      have hle := LookaheadTable.isLL1_iff.mp hll _ hr _ hc
      obtain rfl := eq_of_mem_of_length_le hle hmem hmem'
      refine congrArg (p :: ·) (ih hw ?_ hnext')
      exact hreach.trans (Derives.of_rule_within hp matched rest)

end Guided

end Lookahead
