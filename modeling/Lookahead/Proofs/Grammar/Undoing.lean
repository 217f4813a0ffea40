import Lookahead.Proofs.Grammar.History

/-!
# Refused edits are undone

Nothing here is assumed of the counts and marks: they may have been overwritten with
anything, so checks may fail and symbols may be dropped and introduced again in the
middle of an edit. An edit recounts only symbols that it would put back and symbols that
it introduces itself, so undoing it gives every symbol the counts and marks it had.
-/

namespace Lookahead.Grammar

variable {g g' : Grammar} {p : Production} {s : Symbol} {T : Symbol → Prop}

/-! ### What an edit recounts -/

/-- Symbols outside of a class are counted and marked as before. -/
def Spares (T : Symbol → Prop) (g g' : Grammar) : Prop := ∀ s, ¬T s → g'.usage s = g.usage s

theorem Spares.refl (g : Grammar) : Spares T g g := fun _ _ => rfl

theorem Spares.trans {g'' : Grammar} (h : Spares T g g') (h' : Spares T g' g'') :
    Spares T g g'' := fun s hs => (h' s hs).trans (h s hs)

theorem spares_setUsage (hs : T s) (u : Usage) : Spares T g (g.setUsage s u) :=
  fun _ ht => usage_setUsage_of_ne g u fun he => ht (he ▸ hs)

theorem spares_acquire (hs : T s) : Spares T g (g.acquire s) := by
  rw [acquire]
  split
  · refine Spares.trans (fun t _ => ?_) (spares_setUsage hs _)
    rw [usage, usage, usages_register]
  · exact spares_setUsage hs _

theorem spares_release (hs : T s) : Spares T g (g.release s) := by
  have hcounted : Spares T g (g.addReferences s (-1)) := spares_setUsage hs _
  rw [release]
  split
  · refine hcounted.trans fun t _ => ?_
    rw [usage, usage, usages_unregister]
  · exact hcounted

theorem spares_foldl {step : Grammar → Symbol → Grammar} {symbols : List Symbol}
    (hstep : ∀ g s, T s → Spares T g (step g s)) (hs : ∀ s ∈ symbols, T s) (g : Grammar) :
    Spares T g (symbols.foldl step g) := by
  induction symbols generalizing g with
  | nil => exact .refl g
  | cons s symbols ih =>
    exact (hstep g s (hs s (List.mem_cons_self ..))).trans
      (ih (fun t ht => hs t (List.mem_cons_of_mem _ ht)) (step g s))

theorem spares_attach (hp : ∀ s ∈ p.symbols, T s) : Spares T g (g.attach p) :=
  spares_foldl (fun _ _ hs => spares_acquire hs) hp g

theorem spares_detach (hp : ∀ s ∈ p.symbols, T s) : Spares T g (g.detach p) := by
  have hright : ∀ s ∈ p.right, T s := fun s hs => hp s (List.mem_cons_of_mem _ hs)
  rw [detach]
  refine Spares.trans ?_ (spares_foldl (fun _ _ hs => spares_release hs) hp _)
  split
  · exact spares_foldl (fun _ _ hs => spares_setUsage hs _) hright
      { g with productions := g.productions.erase p.name }
  · exact fun _ _ => rfl

/-- Undoing gives back the usage of what is to be put back and touches nothing else. -/
theorem usage_restore (before after : Grammar) (s : Symbol) :
    (before.restore after).usage s =
      if s ∈ before.restorable then before.usage s else after.usage s := by
  suffices hfold : ∀ symbols : List Symbol, ∀ g : Grammar,
      (symbols.foldl (fun g s => g.setUsage s (before.usage s)) g).usage s =
        if s ∈ symbols then before.usage s else g.usage s from hfold before.restorable after
  intro symbols
  induction symbols with
  | nil => intro g; simp
  | cons t symbols ih =>
    intro g
    rw [List.foldl_cons, ih]
    by_cases ht : t = s
    · subst ht
      simp
    · have : ¬s = t := fun he => ht he.symm
      simp [usage_setUsage_of_ne g _ ht, this]

theorem Spares.restore (h : Spares T g g') : Spares T g (g.restore g') := by
  intro s hs
  rw [usage_restore, h s hs, ite_self]

/-! ### Edits that are refused with breaches only -/

/-- An edit that recounts symbols of a class only, refused or not, and that is refused only
because the state of the grammar is broken. -/
structure Edit.Careful {α : Type} (T : Symbol → Prop) (edit : Edit α) (g : Grammar) : Prop where
  ok : ∀ a g', edit g = .ok a g' → Spares T g g'
  error : ∀ f g', edit g = .error f g' → f.isBreach ∧ Spares T g g'

namespace Edit.Careful

variable {α β : Type} {edit : Edit α} {rest : α → Edit β}

theorem of_eq_ok {a : α} (hrun : edit g = .ok a g') (h : Spares T g g') : edit.Careful T g where
  ok := by
    intro b g'' hb
    rw [hrun] at hb
    cases hb
    exact h
  error := by
    intro f g'' hf
    rw [hrun] at hf
    cases hf

theorem of_breach {b : Breach} (hrun : edit g = .error (.breach b) g) : edit.Careful T g where
  ok := by
    intro b g' hb
    rw [hrun] at hb
    cases hb
  error := by
    intro f g' hf
    rw [hrun] at hf
    cases hf
    exact ⟨rfl, .refl g⟩

theorem bind (h : edit.Careful T g)
    (hrest : ∀ a g', edit g = .ok a g' → Edit.Careful T (rest a) g') :
    Edit.Careful T (edit >>= rest) g where
  ok b g' hrun := by
    obtain ⟨a, mid, hedit, hrun⟩ := Outcome.run_bind_eq_ok.mp hrun
    exact (h.ok a mid hedit).trans ((hrest a mid hedit).ok b g' hrun)
  error f g' hrun := by
    rcases Outcome.run_bind_eq_error.mp hrun with hrun | ⟨a, mid, hedit, hrun⟩
    · exact h.error f g' hrun
    · obtain ⟨hf, hspares⟩ := (hrest a mid hedit).error f g' hrun
      exact ⟨hf, (h.ok a mid hedit).trans hspares⟩

end Edit.Careful

section Undone

variable {α : Type} {edit : Edit α}

/-- A refused edit that is undone was refused where the restoring starts from. -/
theorem Edit.Careful.exists_of_orRestore (h : edit.Careful T g) {f : Fault}
    (hrun : edit.orRestore g = .error f g') :
    f.isBreach ∧ ∃ mid, Spares T g mid ∧ g' = g.restore mid := by
  rw [Edit.orRestore] at hrun
  cases hedit : edit g with
  | ok a mid =>
    rw [hedit] at hrun
    cases hrun
  | error e mid =>
    obtain ⟨he, hspares⟩ := h.error e mid hedit
    rw [hedit] at hrun
    simp only [he, if_true, EStateM.Result.error.injEq] at hrun
    exact ⟨hrun.1 ▸ he, mid, hspares, hrun.2.symm⟩

theorem Edit.Careful.orRestore (h : edit.Careful T g) : edit.orRestore.Careful T g where
  ok a g' hrun := h.ok a g' (orRestore_eq_ok.mp hrun)
  error f g' hrun := by
    obtain ⟨hf, mid, hspares, rfl⟩ := h.exists_of_orRestore hrun
    exact ⟨hf, hspares.restore⟩

end Undone

theorem careful_check : Edit.Careful T check g where
  ok _ g' hrun := by
    obtain ⟨-, rfl⟩ := check_eq_ok.mp hrun
    exact .refl _
  error f g' hrun := by
    rw [check, validate] at hrun
    cases hbreaches : g.breaches with
    | nil =>
      rw [hbreaches] at hrun
      cases hrun
    | cons b rest =>
      rw [hbreaches] at hrun
      cases hrun
      exact ⟨rfl, .refl g⟩

theorem careful_add_body (hp : ∀ s ∈ p.symbols, T s) :
    Edit.Careful T (do modify (·.attach p); check; return p) g := by
  refine .bind (.of_eq_ok (a := ⟨⟩) rfl (spares_attach hp)) fun _ _ _ => ?_
  exact .bind careful_check fun _ mid _ => .of_eq_ok (a := p) rfl (.refl mid)

theorem careful_add (hp : ∀ s ∈ p.symbols, T s) : Edit.Careful T (add p) g :=
  (careful_add_body hp).orRestore

theorem careful_remove_body (hp : ∀ s ∈ p.symbols, T s) :
    Edit.Careful T (do modify (·.detach p); check) g :=
  .bind (.of_eq_ok (a := ⟨⟩) rfl (spares_detach hp)) fun _ _ _ => careful_check

theorem careful_remove (hp : ∀ s ∈ p.symbols, T s) : Edit.Careful T (remove p) g := by
  cases hlists : g.lists p with
  | true =>
    have hrun : remove p g = Edit.orRestore (do modify (·.detach p); check) g := by
      rw [remove, Outcome.run_get_bind, hlists]
      rfl
    have hbody := (careful_remove_body (g := g) hp).orRestore
    exact ⟨fun a g' h => hbody.ok a g' (hrun ▸ h), fun f g' h => hbody.error f g' (hrun ▸ h)⟩
  | false =>
    refine .of_breach (b := .productionNotListed p.name) ?_
    rw [remove, Outcome.run_get_bind, hlists]
    rfl

theorem careful_removeAll {removed : List Production} (hp : ∀ p ∈ removed, ∀ s ∈ p.symbols, T s) :
    Edit.Careful T (removeAll removed) g := by
  induction removed generalizing g with
  | nil => exact .of_eq_ok (a := ⟨⟩) rfl (.refl g)
  | cons p removed ih =>
    exact .bind (careful_remove (hp p (List.mem_cons_self ..))) fun _ _ _ =>
      ih fun q hq => hp q (List.mem_cons_of_mem _ hq)

theorem careful_addStart {name : String} (hstart : T Symbol.start)
    (htarget : T (g.intern .nonterminal name {}).1) : Edit.Careful T (addStart name) g := by
  have hsymbols (stamp : Nat) :
      ∀ s ∈ Production.symbols ⟨stamp, Symbol.start, [(g.intern .nonterminal name {}).1], -1⟩,
        T s := by
    intro s hs
    simp only [Production.symbols, List.mem_cons, List.not_mem_nil, or_false] at hs
    rcases hs with rfl | rfl
    · exact hstart
    · exact htarget
  refine .bind (.of_eq_ok (a := g) rfl (.refl g)) fun a mid hrun => ?_
  obtain ⟨rfl, rfl⟩ := Outcome.run_get_eq_ok.mp hrun
  refine .bind (.of_eq_ok (a := ⟨⟩) rfl ?_) fun _ _ _ => careful_add (hsymbols _)
  exact (spares_setUsage htarget _ : Spares T { g with issued := _ } _)

/-! ### Symbols at stake -/

/-- A symbol whose usage would be put back, or one that was not introduced yet. -/
def AtStake (g : Grammar) (s : Symbol) : Prop := s ∈ g.restorable ∨ g.issued < s.stamp

theorem atStake_start (g : Grammar) : g.AtStake Symbol.start := .inl (by simp [restorable])

theorem atStake_epsilon (g : Grammar) : g.AtStake Symbol.epsilon := .inl (by simp [restorable])

theorem atStake_of_registry {kind : SymbolKind} {name : String}
    (h : (g.registry kind).get? name = some s) : g.AtStake s := by
  have hmem := Assoc.mem_values_of_get? h
  refine .inl ?_
  cases kind with
  | nonterminal => simp [restorable, show s ∈ g.nonterminalList from hmem]
  | terminal => simp [restorable, show s ∈ g.terminalList from hmem]
  | epsilon => cases hmem
  | endOfInput => cases hmem

theorem Tidy.atStake (h : g.Tidy) (hp : p ∈ g.productionList) :
    ∀ s ∈ p.symbols, g.AtStake s := by
  intro s hs
  rcases (h.formed p hp).of_mem_symbols hs with hproper | rfl
  · exact atStake_of_registry
      ((h.counted.registered s.kind s.name s).mpr
        ⟨hproper.tabled, rfl, rfl, Tidy.mem_occurrences hp hs⟩)
  · exact atStake_epsilon g

theorem atStake_intern {kind : SymbolKind} {name : String} {fresh : Assoc String Symbol}
    (h : ∀ name s, fresh.get? name = some s → g.AtStake s) :
    g.AtStake (g.intern kind name fresh).1 ∧
      ∀ other s, (g.intern kind name fresh).2.get? other = some s → g.AtStake s := by
  rw [intern]
  split
  · exact ⟨atStake_start g, h⟩
  split
  · rename_i _ _ hs
    exact ⟨atStake_of_registry hs, h⟩
  · rename_i hs
    exact ⟨h _ _ hs, h⟩
  · have hnew : g.AtStake ⟨kind, name, g.issued + fresh.size + 1⟩ := .inr (by dsimp only; omega)
    refine ⟨hnew, fun other s hs => ?_⟩
    rw [Assoc.get?_put] at hs
    split at hs
    · exact Option.some.inj hs ▸ hnew
    · exact h _ _ hs

theorem atStake_intern_first (g : Grammar) (kind : SymbolKind) (name : String) :
    g.AtStake (g.intern kind name {}).1 ∧
      ∀ other s, (g.intern kind name {}).2.get? other = some s → g.AtStake s :=
  atStake_intern fun _ _ hs => by cases hs

theorem atStake_internAll {names : List (SymbolKind × String)} {fresh : Assoc String Symbol}
    (h : ∀ name s, fresh.get? name = some s → g.AtStake s) :
    ∀ s ∈ (g.internAll names fresh).1, g.AtStake s := by
  induction names generalizing fresh with
  | nil => simp [internAll]
  | cons n names ih =>
    have hhead : g.AtStake (g.intern n.1 n.2 fresh).1 ∧ _ := atStake_intern h
    obtain ⟨hhead, hfresh⟩ := hhead
    intro s hs
    rcases List.mem_cons.mp hs with rfl | hs
    · exact hhead
    · exact ih hfresh s hs

theorem atStake_production (g : Grammar) (text : ProductionText) :
    ∀ s ∈ (g.production text).1.symbols, g.AtStake s := by
  obtain ⟨hleft, hfresh⟩ := atStake_intern_first g .nonterminal text.left
  intro s hs
  rcases List.mem_cons.mp hs with rfl | hs
  · exact hleft
  simp only [production] at hs
  split at hs
  · rw [List.mem_singleton.mp hs]
    exact atStake_epsilon g
  · exact atStake_internAll hfresh s hs

theorem get?_registry_of_release {kind : SymbolKind} {name : String} {t : Symbol}
    (h : ((g.release t).registry kind).get? name = some s) :
    (g.registry kind).get? name = some s := by
  rw [release] at h
  split at h
  · rw [get?_registry_unregister] at h
    split at h
    · cases h
    · cases kind <;> exact h
  · cases kind <;> exact h

theorem get?_registry_of_foldl_release {symbols : List Symbol} {kind : SymbolKind} {name : String}
    (h : ((symbols.foldl release g).registry kind).get? name = some s) :
    (g.registry kind).get? name = some s := by
  induction symbols generalizing g with
  | nil => exact h
  | cons t symbols ih => exact get?_registry_of_release (ih h)

theorem get?_registry_of_detach {kind : SymbolKind} {name : String}
    (h : ((g.detach p).registry kind).get? name = some s) :
    (g.registry kind).get? name = some s := by
  obtain ⟨g', ⟨⟨_, hmarks⟩, _⟩, -, heq⟩ := exists_detach_eq g p
  rw [heq] at h
  have hkept := get?_registry_of_foldl_release h
  rw [hmarks] at hkept
  cases kind <;> exact hkept

/-- After a production went, a name stands for what it stood for before or for a new symbol. -/
theorem atStake_intern_detach (g : Grammar) (p : Production) (name : String) :
    g.AtStake ((g.detach p).intern .nonterminal name {}).1 := by
  rw [intern]
  split
  · exact atStake_start g
  split
  · rename_i _ _ hs
    exact atStake_of_registry (get?_registry_of_detach hs)
  · rename_i hs
    cases hs
  · exact .inr (by rw [(productions_detach g p).2]; dsimp only; omega)

theorem remove_eq_ok {u : Unit} (h : remove p g = .ok u g') : g' = g.detach p := by
  rw [remove, Outcome.run_get_bind, Outcome.run_guard_eq_ok, orRestore_eq_ok,
    Outcome.run_bind_eq_ok] at h
  obtain ⟨-, ⟨⟩, mid, hmodify, hcheck⟩ := h
  rw [Outcome.run_modify_eq_ok.mp hmodify]
  exact (check_eq_ok.mp hcheck).2.symm

/-! ### Refused changes -/

/-- The productions and the registered symbols in their order, and the usage of every symbol
there was, registered or not. -/
structure Restored (g g' : Grammar) : Prop where
  productions : g'.productions = g.productions
  nonterminals : g'.nonterminals = g.nonterminals
  terminals : g'.terminals = g.terminals
  usage : ∀ s, s ∈ g.allSymbols ∨ s.stamp ≤ g.issued → g'.usage s = g.usage s

theorem Restored.refl (g : Grammar) : g.Restored g := ⟨rfl, rfl, rfl, fun _ _ => rfl⟩

theorem restored_restore (h : Spares g.AtStake g g') : g.Restored (g.restore g') where
  productions := rfl
  nonterminals := rfl
  terminals := rfl
  usage s hs := by
    rw [usage_restore]
    split
    · rfl
    rename_i hout
    refine h s fun hstake => ?_
    have hnew := hstake.resolve_left hout
    rcases hs with hs | hs
    · -- the end of the input is not put back, and it has the stamp of no new symbol
      simp only [allSymbols, restorable, List.mem_cons, not_or] at hs hout
      rcases hs with rfl | rfl | hs
      · exact hout.1 rfl
      · exact absurd hnew (Nat.not_lt_zero _)
      · exact hout.2.2 hs
    · omega

section Refused

variable {α : Type} {edit : Edit α} {f : Fault}

theorem Edit.Careful.restored (h : edit.Careful g.AtStake g)
    (hrun : edit.orRestore g = .error f g') : g.Restored g' := by
  obtain ⟨-, mid, hspares, rfl⟩ := h.exists_of_orRestore hrun
  exact restored_restore hspares

theorem restored_of_addText {text : String} (hrun : addText text g = .error f g') :
    g.Restored g' := by
  rw [addText] at hrun
  cases hparse : ProductionText.parse text with
  | error t =>
    rw [hparse] at hrun
    cases hrun
    exact .refl g
  | ok t =>
    rw [hparse] at hrun
    simp only [addParsed, Outcome.run_get_bind] at hrun
    cases hlisted : g.productions.get? t.name with
    | some p =>
      rw [hlisted] at hrun
      cases hrun
    | none =>
      rw [hlisted] at hrun
      -- the stamps given out are the only thing that differs when the attaching starts
      have hbody : Edit.Careful g.AtStake
          (do modify (·.attach (g.production t).1); check; return (g.production t).1)
          (g.production t).2 := careful_add_body (atStake_production g t)
      obtain ⟨-, mid, hspares, rfl⟩ := hbody.exists_of_orRestore hrun
      exact restored_restore (hspares : Spares g.AtStake g mid)

theorem restored_of_remove (hp : ∀ s ∈ p.symbols, g.AtStake s)
    (hrun : remove p g = .error f g') : g.Restored g' := by
  rw [remove, Outcome.run_get_bind] at hrun
  split at hrun
  · cases hrun
    exact .refl g
  · exact (careful_remove_body hp).restored hrun

theorem restored_of_setStart {name : String}
    (hp : ∀ p ∈ g.productionList, ∀ s ∈ p.symbols, g.AtStake s)
    (hrun : setStart name g = .error f g') : g.Restored g' := by
  rw [setStart, Outcome.run_get_bind] at hrun
  cases htarget : g.nonterminals.get? name with
  | none =>
    rw [htarget] at hrun
    cases hrun
    exact .refl g
  | some target =>
    simp only [htarget] at hrun
    split at hrun
    · cases hrun
      exact .refl g
    cases hold : g.startProduction? with
    | none =>
      simp only [hold] at hrun
      exact (careful_addStart (atStake_start g) (atStake_intern_first g _ name).1).restored hrun
    | some old =>
      have hmem : old ∈ g.productionList := List.mem_of_find?_eq_some hold
      simp only [hold] at hrun
      cases hright : old.right with
      | nil =>
        rw [hright] at hrun
        cases hrun
        exact .refl g
      | cons s rest =>
        simp only [hright] at hrun
        split at hrun
        · cases hrun
        refine Edit.Careful.restored ?_ hrun
        refine .bind (careful_remove (hp old hmem)) fun _ mid hremove => ?_
        obtain rfl := remove_eq_ok hremove
        exact careful_addStart (atStake_start g) (atStake_intern_detach g old name)

theorem restored_of_reduce (hp : ∀ p ∈ g.productionList, ∀ s ∈ p.symbols, g.AtStake s)
    (hrun : reduce g = .error f g') : g.Restored g' := by
  rw [reduce, Outcome.run_get_bind] at hrun
  split at hrun
  · cases hrun
    exact .refl g
  split at hrun
  · cases hrun
    exact .refl g
  have huseless : ∀ p ∈ g.useless, ∀ s ∈ p.symbols, g.AtStake s :=
    fun p hmem => hp p (List.filter_sublist.mem hmem)
  rcases Outcome.run_bind_eq_error.mp hrun with hrun | ⟨_, _, -, hrun⟩
  · exact (careful_removeAll huseless).restored hrun
  · cases hrun

end Refused

/-- However wrong the counts and marks of the symbols are, a refused change leaves the
productions, the registered symbols and the usage of every symbol as they were. -/
theorem restored_of_refused (h : Reached g) (usages : Assoc Symbol Usage) {c : Change}
    (hc : c.Allowed g) {f : Fault} (hrun : c.perform { g with usages } = .error f g') :
    Restored { g with usages } g' := by
  have hstake : ∀ p ∈ g.productionList, ∀ s ∈ p.symbols, AtStake { g with usages } s :=
    fun p hp => h.consistent.toTidy.atStake hp
  cases c with
  | add text =>
    rcases Outcome.run_bind_eq_error.mp hrun with hrun | ⟨_, _, -, hrun⟩
    · exact restored_of_addText hrun
    · cases hrun
  | remove p => exact restored_of_remove (hstake p hc) hrun
  | setStart name =>
    rcases Outcome.run_bind_eq_error.mp hrun with hrun | ⟨_, _, -, hrun⟩
    · exact restored_of_setStart hstake hrun
    · cases hrun
  | reduce =>
    rcases Outcome.run_bind_eq_error.mp hrun with hrun | ⟨_, _, -, hrun⟩
    · exact restored_of_reduce hstake hrun
    · cases hrun
  | sort => cases hrun
  | resetAnalysis => cases hrun

/-- The count of the new start symbol is too low, which shows only after it was marked. -/
theorem restored_of_refused_sample : ∃ g usages g', Reached g ∧
    (Change.setStart "S").perform { g with usages } =
      .error (.breach (.referenceCount "S" 1 2)) g' ∧
    Restored { g with usages } g' := by
  let g := (Change.add "S -> a").left {}
  let usages : Assoc Symbol Usage := g.usages.put ⟨.nonterminal, "S", 1⟩ {}
  have hg : Reached g := .step (.add "S -> a") .empty trivial
  have hfault : (match (Change.setStart "S").perform { g with usages } with
      | .error f _ => some f
      | .ok _ _ => none) = some (.breach (.referenceCount "S" 1 2)) := by decide +kernel
  cases hrun : (Change.setStart "S").perform { g with usages } with
  | ok _ g' =>
    rw [hrun] at hfault
    cases hfault
  | error f g' =>
    rw [hrun] at hfault
    obtain rfl := Option.some.inj hfault
    exact ⟨g, usages, g', hg, hrun, restored_of_refused hg usages (c := .setStart "S") trivial hrun⟩

end Lookahead.Grammar
