import Lookahead.Proofs.Table

/-!
# Grammars that are alike

Two grammars are alike if they list productions and symbols of the same names in the same
order, whenever these were introduced. What is derived in one is derived in the other, up to
the stamps of the symbols, so the analyses find the same.
-/

namespace Lookahead

open Relation (ReflTransGen)

/-- Lists of the same images give the same wherever elements of the same image do. -/
theorem map_eq_of_map_eq {α β γ : Type} {f : α → β} {k k' : α → γ} {xs ys : List α}
    (h : xs.map f = ys.map f) (hk : ∀ a ∈ xs, ∀ b ∈ ys, f a = f b → k a = k' b) :
    xs.map k = ys.map k' := by
  induction xs generalizing ys with
  | nil => rw [List.map_eq_nil_iff.mp h.symm]; rfl
  | cons a xs ih =>
    obtain ⟨b, ys, rfl, hab, hrest⟩ := List.map_eq_cons_iff.mp h.symm
    rw [List.map_cons, List.map_cons,
      hk a (List.mem_cons_self ..) b (List.mem_cons_self ..) hab.symm,
      ih hrest.symm fun a ha b hb => hk a (List.mem_cons_of_mem _ ha) b (List.mem_cons_of_mem _ hb)]

theorem flatMap_eq_of_map_eq {α β γ : Type} {f : α → β} {part part' : α → List γ} {xs ys : List α}
    (h : xs.map f = ys.map f) (hpart : ∀ a ∈ xs, ∀ b ∈ ys, f a = f b → part a = part' b) :
    xs.flatMap part = ys.flatMap part' := by
  rw [List.flatMap_def, List.flatMap_def, map_eq_of_map_eq h hpart]

namespace Symbol

/-- The symbol as if it had been there from the beginning. -/
def bare (s : Symbol) : Symbol := { s with stamp := 0 }

@[simp] theorem name_bare (s : Symbol) : s.bare.name = s.name := rfl

@[simp] theorem kind_bare (s : Symbol) : s.bare.kind = s.kind := rfl

theorem bare_eq_iff {s t : Symbol} : s.bare = t.bare ↔ s.kind = t.kind ∧ s.name = t.name := by
  simp [bare]

end Symbol

/-- What reads kinds and names only gives the same for lists that are the same without stamps. -/
theorem map_eq_of_bare {α : Type} {f : Symbol → α} (hf : ∀ s : Symbol, f s.bare = f s)
    {u v : List Symbol} (h : u.map Symbol.bare = v.map Symbol.bare) : u.map f = v.map f := by
  have hcomp : f ∘ Symbol.bare = f := funext hf
  have he := congrArg (List.map f) h
  rwa [List.map_map, List.map_map, hcomp] at he

/-- The production without the stamps of itself and of its symbols. -/
def Production.bare (p : Production) : Production :=
  ⟨0, p.left.bare, p.right.map Symbol.bare, p.number⟩

/-! ### Derivations -/

/-- Rules whose symbols are known, with a counterpart for each of the given rules. Known symbols
are told apart without their stamps. -/
structure Mirrors (known : Symbol → Prop) (rules rules' : List Production) : Prop where
  rule : ∀ p ∈ rules, ∃ q ∈ rules',
    q.left.bare = p.left.bare ∧ q.body.map Symbol.bare = p.body.map Symbol.bare
  left : ∀ q ∈ rules', known q.left
  body : ∀ q ∈ rules', ∀ s ∈ q.body, known s
  clear : ∀ s t, known s → known t → s.bare = t.bare → s = t

section Mirrors

variable {known : Symbol → Prop} {rules rules' : List Production} {u v u' : List Symbol}

theorem Mirrors.rewrites (h : Mirrors known rules rules') (hstep : Rewrites rules u v)
    (hu : u'.map Symbol.bare = u.map Symbol.bare) (hknown : ∀ s ∈ u', known s) :
    ∃ v', Rewrites rules' u' v' ∧ v'.map Symbol.bare = v.map Symbol.bare ∧
      ∀ s ∈ v', known s := by
  obtain ⟨p, hp, x, y⟩ := hstep
  obtain ⟨q, hq, hleft, hbody⟩ := h.rule p hp
  rw [List.map_append, List.map_cons, List.map_eq_append_iff] at hu
  obtain ⟨x', rest, rfl, hx, hrest⟩ := hu
  obtain ⟨s, y', rfl, hs, hy⟩ := List.map_eq_cons_iff.mp hrest
  have he : s = q.left :=
    h.clear _ _ (hknown s (by simp)) (h.left q hq) (hs.trans hleft.symm)
  subst he
  refine ⟨x' ++ q.body ++ y', .apply q hq x' y', by simp [hx, hy, hbody], fun t ht => ?_⟩
  simp only [List.mem_append] at ht
  rcases ht with (ht | ht) | ht
  · exact hknown t (by simp [ht])
  · exact h.body q hq t ht
  · exact hknown t (by simp [ht])

theorem Mirrors.derives (h : Mirrors known rules rules') (hderives : Derives rules u v)
    (hu : u'.map Symbol.bare = u.map Symbol.bare) (hknown : ∀ s ∈ u', known s) :
    ∃ v', Derives rules' u' v' ∧ v'.map Symbol.bare = v.map Symbol.bare ∧
      ∀ s ∈ v', known s := by
  induction hderives with
  | refl => exact ⟨u', .refl u', hu, hknown⟩
  | tail _ hstep ih =>
    obtain ⟨w, hw, hbare, hw'⟩ := ih
    obtain ⟨v', hv, hbare', hv'⟩ := h.rewrites hstep hbare hw'
    exact ⟨v', ReflTransGen.tail hw hv, hbare', hv'⟩

theorem Mirrors.vanishes (h : Mirrors known rules rules') (hvanishes : Vanishes rules u)
    (hu : u'.map Symbol.bare = u.map Symbol.bare) (hknown : ∀ s ∈ u', known s) :
    Vanishes rules' u' := by
  obtain ⟨v', hv, hbare, -⟩ := h.derives hvanishes hu hknown
  obtain rfl := List.map_eq_nil_iff.mp hbare
  exact hv

theorem Mirrors.begins (h : Mirrors known rules rules') {t : Symbol} (hbegins : Begins rules t u)
    (hu : u'.map Symbol.bare = u.map Symbol.bare) (hknown : ∀ s ∈ u', known s) :
    ∃ t', t'.bare = t.bare ∧ known t' ∧ Begins rules' t' u' := by
  obtain ⟨v, hv⟩ := hbegins
  obtain ⟨v', hv, hbare, hv'⟩ := h.derives hv hu hknown
  obtain ⟨t', rest, rfl, ht, -⟩ := List.map_eq_cons_iff.mp hbare
  exact ⟨t', ht, hv' t' (by simp), rest, hv⟩

/-- A known symbol takes the place of its counterpart within a derived form. -/
theorem Mirrors.derives_within (h : Mirrors known rules rules') {root root' s s' : Symbol}
    {before after : List Symbol} (hderives : Derives rules [root] (before ++ s :: after))
    (hroot : root'.bare = root.bare) (hroot' : known root') (hs : s'.bare = s.bare)
    (hs' : known s') : ∃ before' after', Derives rules' [root'] (before' ++ s' :: after') ∧
      after'.map Symbol.bare = after.map Symbol.bare ∧ ∀ t ∈ after', known t := by
  have hu : [root'].map Symbol.bare = [root].map Symbol.bare := congrArg (fun s => [s]) hroot
  obtain ⟨v', hv, hbare, hv'⟩ := h.derives hderives hu (by simpa using hroot')
  rw [List.map_append, List.map_cons, List.map_eq_append_iff] at hbare
  obtain ⟨before', rest, rfl, -, hrest⟩ := hbare
  obtain ⟨t, after', rfl, ht, hafter⟩ := List.map_eq_cons_iff.mp hrest
  obtain rfl := h.clear t s' (hv' t (by simp)) hs' (ht.trans hs.symm)
  exact ⟨before', after', hv, hafter, fun t ht => hv' t (by simp [ht])⟩

end Mirrors

namespace Grammar

/-! ### Alike grammars -/

/-- The same productions and symbols in the same order, used equally often, up to stamps. -/
structure Alike (g g' : Grammar) : Prop where
  productions : g.productionList.map Production.bare = g'.productionList.map Production.bare
  nonterminals : g.nonterminalList.map Symbol.bare = g'.nonterminalList.map Symbol.bare
  terminals : g.terminalList.map Symbol.bare = g'.terminalList.map Symbol.bare
  references : g.allSymbols.map g.references = g'.allSymbols.map g'.references

theorem exists_of_map_eq {α β : Type} {f : α → β} {xs ys : List α} (h : xs.map f = ys.map f)
    {a : α} (ha : a ∈ xs) : ∃ b ∈ ys, f b = f a :=
  List.mem_map.mp (h ▸ List.mem_map_of_mem ha)

variable {g g' : Grammar} {p q : Production} {s s' : Symbol} {x : String}

theorem Standard.eq_of_bare_eq (h : g.Standard) (hs : g.Registered s) (hs' : g.Registered s')
    (he : s.bare = s'.bare) : s = s' :=
  h.eq_of_name_eq hs hs' (Symbol.bare_eq_iff.mp he).2

theorem isEpsilon_eq_of_bare (h : p.bare = q.bare) : p.isEpsilon = q.isEpsilon := by
  have hbare (r : Production) : r.isEpsilon = r.bare.isEpsilon := by
    rw [Production.isEpsilon, Production.isEpsilon, Production.bare]
    cases r.right with
    | nil => rfl
    | cons s rest => cases rest <;> rfl
  rw [hbare p, h, ← hbare q]

theorem body_bare (h : p.bare = q.bare) : p.body.map Symbol.bare = q.body.map Symbol.bare := by
  have hright : p.right.map Symbol.bare = q.right.map Symbol.bare :=
    congrArg Production.right h
  rw [Production.body, Production.body, isEpsilon_eq_of_bare h]
  split
  · rfl
  · exact hright

theorem Registered.isTerminal_iff (h : g.Standard) (hs : g.Registered s) :
    s ∈ g.terminalList ↔ s.kind = .terminal := by
  refine ⟨h.kind_of_mem_terminalList, fun hk => hs.resolve_left fun hn => ?_⟩
  rw [h.kind_of_mem_nonterminalList hn] at hk
  cases hk

namespace Alike

theorem symm (h : g.Alike g') : g'.Alike g :=
  ⟨h.productions.symm, h.nonterminals.symm, h.terminals.symm, h.references.symm⟩

theorem varies {e e' : Grammar} (h : g.Alike g') (hv : g.Varies e) (hv' : g'.Varies e') :
    e.Alike e' := by
  obtain ⟨_, _, rfl⟩ := hv
  obtain ⟨_, _, rfl⟩ := hv'
  exact ⟨h.productions, h.nonterminals, h.terminals, h.references⟩

section Standard

variable (ha : g.Alike g') (h : g.Standard) (h' : g'.Standard)
include ha h'

theorem mirrors : Mirrors g'.Registered g.productionList g'.productionList where
  rule p hp := by
    obtain ⟨q, hq, he⟩ := exists_of_map_eq ha.productions hp
    exact ⟨q, hq, congrArg Production.left he, body_bare he⟩
  left q hq := .inl (h'.left_mem hq)
  body q hq s hs := h'.registered_of_mem_body hq hs
  clear s t hs ht he := h'.eq_of_bare_eq hs ht he

include h

/-- A terminal of a name opens the same forms. -/
theorem exists_begins {u u' : List Symbol} (hu : u'.map Symbol.bare = u.map Symbol.bare)
    (hu' : ∀ s ∈ u', g'.Registered s)
    (hbegins : ∃ t ∈ g.terminalList, t.name = x ∧ Begins g.productionList t u) :
    ∃ t ∈ g'.terminalList, t.name = x ∧ Begins g'.productionList t u' := by
  obtain ⟨t, ht, rfl, hbegins⟩ := hbegins
  obtain ⟨t', he, hknown, hbegins'⟩ := (ha.mirrors h').begins hbegins hu hu'
  obtain ⟨hkind, hname⟩ := Symbol.bare_eq_iff.mp he
  refine ⟨t', ?_, hname, hbegins'⟩
  rw [Registered.isTerminal_iff h' hknown, hkind]
  exact h.kind_of_mem_terminalList ht

theorem followOf (he : s'.bare = s.bare) (hs' : g'.Registered s') (hfollow : g.FollowOf s x) :
    g'.FollowOf s' x := by
  have hm := ha.mirrors h'
  rcases hfollow with ⟨t, ht, rfl, root, hroot, before, after, hderives⟩ |
    ⟨rfl, before, hderives⟩
  · obtain ⟨root', hroot', hr⟩ := exists_of_map_eq ha.nonterminals hroot
    obtain ⟨before', after', hderives', hafter, hknown⟩ :=
      hm.derives_within hderives hr (.inl hroot') he hs'
    obtain ⟨t', after', rfl, ht', -⟩ := List.map_eq_cons_iff.mp hafter
    obtain ⟨hkind, hname⟩ := Symbol.bare_eq_iff.mp ht'
    refine .inl ⟨t', ?_, hname, root', hroot', before', after', hderives'⟩
    rw [Registered.isTerminal_iff h' (hknown t' (by simp)), hkind]
    exact h.kind_of_mem_terminalList ht
  · obtain ⟨before', after', hderives', hafter, -⟩ :=
      hm.derives_within hderives rfl (.inl h'.start_mem) he hs'
    obtain rfl := List.map_eq_nil_iff.mp hafter
    exact .inr ⟨rfl, before', hderives'⟩

/-! ### Findings -/

/-- Right marks agree on symbols of one name. -/
theorem nullable_eq (hm : Nullability.Marked g) (hm' : Nullability.Marked g')
    (hs : s = Symbol.epsilon ∨ g.Registered s) (hs' : s' = Symbol.epsilon ∨ g'.Registered s')
    (he : s.bare = s'.bare) : g.nullable s = g'.nullable s' := by
  rcases hs with rfl | hs
  · rcases hs' with rfl | hs'
    · rw [hm.epsilon, hm'.epsilon]
    · have hno := h'.not_isEpsilon hs'
      simp [Symbol.isEpsilon, ← (Symbol.bare_eq_iff.mp he).1, Symbol.epsilon] at hno
  · rcases hs' with rfl | hs'
    · have hno := h.not_isEpsilon hs
      simp [Symbol.isEpsilon, (Symbol.bare_eq_iff.mp he).1, Symbol.epsilon] at hno
    · rw [Bool.eq_iff_iff, hm.nullable s hs, hm'.nullable s' hs']
      exact ⟨fun hv => (ha.mirrors h').vanishes hv (by simp [he]) (by simpa using hs'),
        fun hv => (ha.symm.mirrors h).vanishes hv (by simp [he]) (by simpa using hs)⟩

/-- With right findings a production is listed under the same symbols. -/
theorem lookahead_eq (hsolved : g.Solved) (hsolved' : g'.Solved) (hp : p ∈ g.productionList)
    (hq : q ∈ g'.productionList) (he : p.bare = q.bare) : g.lookahead p = g'.lookahead q := by
  have hleft : p.left.bare = q.left.bare := congrArg Production.left he
  have hbody := body_bare he
  have hknown : ∀ s ∈ p.body, g.Registered s := fun s hs => h.registered_of_mem_body hp hs
  have hknown' : ∀ s ∈ q.body, g'.Registered s := fun s hs => h'.registered_of_mem_body hq hs
  refine NameSet.ext_mem fun x => ?_
  rw [mem_lookahead_iff h hsolved hp, mem_lookahead_iff h' hsolved' hq]
  constructor
  · exact Or.imp (ha.exists_begins h h' hbody.symm hknown') fun ⟨hv, hf⟩ =>
      ⟨(ha.mirrors h').vanishes hv hbody.symm hknown',
        ha.followOf h h' hleft.symm (.inl (h'.left_mem hq)) hf⟩
  · exact Or.imp (ha.symm.exists_begins h' h hbody hknown) fun ⟨hv, hf⟩ =>
      ⟨(ha.symm.mirrors h).vanishes hv hbody hknown,
        ha.symm.followOf h' h hleft (.inl (h.left_mem hp)) hf⟩

end Standard

end Alike

end Grammar

/-! ### Tables -/

namespace Assoc

variable {κ α β : Type} [DecidableEq κ]

theorem lookupIn_mapValues (f : α → β) (entries : List (κ × α)) (k : κ) :
    lookupIn k (entries.map fun e => (e.1, f e.2)) = (lookupIn k entries).map f := by
  induction entries with
  | nil => rfl
  | cons e rest ih =>
    rw [List.map_cons, lookupIn, lookupIn]
    split
    · rfl
    · exact ih

theorem get?_mapValues (f : α → β) (m : Assoc κ α) (k : κ) :
    (m.mapValues f).get? k = (m.get? k).map f :=
  lookupIn_mapValues f m.entries k

theorem mapValues_put (f : α → β) (m : Assoc κ α) (k : κ) (a : α) :
    (m.put k a).mapValues f = (m.mapValues f).put k (f a) := by
  obtain ⟨entries⟩ := m
  simp only [put, mapValues, mk.injEq]
  induction entries with
  | nil => rfl
  | cons e rest ih =>
    rw [putEntry, List.map_cons, putEntry]
    split
    · rfl
    · exact congrArg (List.cons _) ih

end Assoc

namespace LookaheadTable

variable {t t' : LookaheadTable} {p q : Production} {row column : String}

/-- The table that lists the same productions without stamps. -/
def bare (t : LookaheadTable) : LookaheadTable :=
  { t with cells := t.cells.mapValues (·.mapValues (·.map Production.bare)) }

theorem name_bare (p : Production) : p.bare.name = p.name := by
  rw [Production.name, Production.name, Production.bare, List.map_map]
  rfl

theorem toJson_bare (t : LookaheadTable) : t.bare.toJson = t.toJson := by
  have hcell (ps : List Production) : (ps.map Production.bare).map (fun p => Json.string p.name) =
      ps.map fun p => Json.string p.name := by
    rw [List.map_map]
    exact List.map_congr_left fun p _ => by rw [Function.comp_apply, name_bare]
  simp [toJson, bare, Assoc.mapValues, Function.comp_def, hcell]

theorem bare_list (t : LookaheadTable) (row column : String) (p : Production) :
    (t.list row column p).map bare = t.bare.list row column p.bare := by
  have hget : t.bare.cells.get? row =
      (t.cells.get? row).map (·.mapValues (·.map Production.bare)) :=
    Assoc.get?_mapValues ..
  rw [list, list, hget]
  cases t.cells.get? row with
  | none => rfl
  | some cells =>
    have hcell : ((cells.get? column).getD [] ++ [p]).map Production.bare =
        ((cells.mapValues (·.map Production.bare)).get? column).getD [] ++ [p.bare] := by
      rw [Assoc.get?_mapValues]
      cases cells.get? column <;> simp
    simp [Except.map, bare, Assoc.mapValues_put, ← hcell]

theorem bare_listAll (p : Production) (columns : List String) (t : LookaheadTable) :
    (listAll p columns t).map bare = listAll p.bare columns t.bare := by
  induction columns generalizing t with
  | nil => rfl
  | cons column rest ih =>
    have hleft : p.bare.left.name = p.left.name := rfl
    rw [listAll, listAll, hleft, ← bare_list]
    cases t.list p.left.name column p with
    | error f => rfl
    | ok t => exact ih t

/-- Productions of the same lookahead are listed in the same cells. -/
theorem bare_addProductions {g g' : Grammar} {ps qs : List Production}
    (h : ps.map Production.bare = qs.map Production.bare)
    (hlookahead : ∀ p ∈ ps, ∀ q ∈ qs, p.bare = q.bare → g.lookahead p = g'.lookahead q)
    (ht : t.bare = t'.bare) :
    (addProductions g ps t).map bare = (addProductions g' qs t').map bare := by
  induction ps generalizing qs t t' with
  | nil =>
    rw [List.map_eq_nil_iff.mp h.symm]
    exact congrArg Except.ok ht
  | cons p ps ih =>
    obtain ⟨q, qs, rfl, hpq, hrest⟩ := List.map_eq_cons_iff.mp h.symm
    have hcolumns : t.columns = t'.columns :=
      show t.bare.columns = t'.bare.columns from congrArg columns ht
    have hlisted : (listAll p (t.columns.filter fun c => c ∈ g.lookahead p) t).map bare =
        (listAll q (t'.columns.filter fun c => c ∈ g'.lookahead q) t').map bare := by
      rw [bare_listAll, bare_listAll, hcolumns, ht, hpq,
        hlookahead p (List.mem_cons_self ..) q (List.mem_cons_self ..) hpq.symm]
    have hmore : ∀ p ∈ ps, ∀ q ∈ qs, p.bare = q.bare → g.lookahead p = g'.lookahead q :=
      fun p hp q hq => hlookahead p (List.mem_cons_of_mem _ hp) q (List.mem_cons_of_mem _ hq)
    rw [addProductions, addProductions]
    revert hlisted
    cases listAll p (t.columns.filter fun c => c ∈ g.lookahead p) t with
    | error f =>
      cases listAll q (t'.columns.filter fun c => c ∈ g'.lookahead q) t' with
      | error f' => exact id
      | ok u' => exact fun hlisted => by cases hlisted
    | ok u =>
      cases listAll q (t'.columns.filter fun c => c ∈ g'.lookahead q) t' with
      | error f' => exact fun hlisted => by cases hlisted
      | ok u' => exact fun hlisted => ih hrest.symm hmore (Except.ok.inj hlisted)

/-- With right findings alike grammars have the same table, up to stamps. -/
theorem bare_ofGrammar {g g' : Grammar} (ha : g.Alike g') (h : g.Standard) (h' : g'.Standard)
    (hsolved : g.Solved) (hsolved' : g'.Solved) :
    (ofGrammar g).map bare = (ofGrammar g').map bare := by
  have hrows : g.nonterminalList.map Symbol.name = g'.nonterminalList.map Symbol.name :=
    map_eq_of_bare (fun _ => rfl) ha.nonterminals
  have hcolumns : g.followSymbols.map Symbol.name = g'.followSymbols.map Symbol.name := by
    rw [Grammar.followSymbols, Grammar.followSymbols, List.map_append, List.map_append,
      map_eq_of_bare (fun _ => rfl) ha.terminals]
  rw [ofGrammar, ofGrammar, hrows, hcolumns]
  exact bare_addProductions ha.productions
    (fun p hp q hq he => ha.lookahead_eq h h' hsolved hsolved' hp hq he) rfl

end LookaheadTable

end Lookahead
