import Lookahead.Grammar.Edit
import Mathlib.Data.List.Perm.Basic

/-!
# Counted uses

The tables and the reference counts of a grammar are those of a list of uses if every
symbol is counted as often as it occurs there and a name is registered for the symbols
that occur. Acquiring a symbol adds a use and releasing one takes a use away, whatever
the order of the list. What a name stands for must be clear among the uses.
-/

namespace Lookahead

open List (Perm)

/-- Symbols of these kinds are entered in tables; the markers are not. -/
def SymbolKind.Tabled (k : SymbolKind) : Prop := k = .terminal ∨ k = .nonterminal

instance (k : SymbolKind) : Decidable k.Tabled :=
  inferInstanceAs (Decidable (k = .terminal ∨ k = .nonterminal))

namespace Grammar

variable {g : Grammar} {s : Symbol} {uses more : List Symbol}

/-! ### Tables and counts after one edit -/

theorem get?_registry_register (g : Grammar) (s : Symbol) (kind : SymbolKind) (name : String) :
    ((g.register s).registry kind).get? name =
      if kind.Tabled ∧ s.kind = kind ∧ s.name = name then some s
      else (g.registry kind).get? name := by
  rw [register]
  cases hs : s.kind <;> cases kind <;>
    simp [registry, SymbolKind.Tabled, Assoc.get?_put]

theorem get?_registry_unregister (g : Grammar) (s : Symbol) (kind : SymbolKind) (name : String) :
    ((g.unregister s).registry kind).get? name =
      if kind.Tabled ∧ s.kind = kind ∧ s.name = name then none
      else (g.registry kind).get? name := by
  rw [unregister]
  cases hs : s.kind <;> cases kind <;>
    simp [registry, SymbolKind.Tabled, Assoc.get?_erase]

@[simp] theorem usages_register (g : Grammar) (s : Symbol) : (g.register s).usages = g.usages := by
  rw [register]
  split <;> rfl

@[simp] theorem usages_unregister (g : Grammar) (s : Symbol) :
    (g.unregister s).usages = g.usages := by
  rw [unregister]
  split <;> rfl

theorem references_addReferences (g : Grammar) (s t : Symbol) (n : Int) :
    (g.addReferences s n).references t = if s = t then g.references t + n else g.references t := by
  rw [addReferences, references]
  by_cases h : s = t
  · subst h
    simp
  · rw [usage_setUsage_of_ne g _ h, if_neg h]
    rfl

theorem isStart_addReferences (g : Grammar) (s t : Symbol) (n : Int) :
    (g.addReferences s n).isStart t = g.isStart t := by
  rw [addReferences, isStart]
  by_cases h : s = t
  · subst h
    simp [isStart]
  · rw [usage_setUsage_of_ne g _ h]
    rfl

/-! ### Counted uses -/

structure Counted (g : Grammar) (uses : List Symbol) : Prop where
  references : ∀ s, g.references s = uses.count s
  registered : ∀ kind name s, (g.registry kind).get? name = some s ↔
    kind.Tabled ∧ s.kind = kind ∧ s.name = name ∧ s ∈ uses

/-- Two symbols of one kind have different names. -/
def Unambiguous (symbols : List Symbol) : Prop :=
  ∀ s ∈ symbols, ∀ t ∈ symbols, s.kind = t.kind → s.name = t.name → s = t

theorem Counted.perm (h : g.Counted uses) (hp : Perm uses more) : g.Counted more :=
  ⟨fun s => by rw [h.references s, hp.count_eq s],
    fun kind name s => by rw [h.registered, hp.mem_iff]⟩

theorem Counted.mem_iff (h : g.Counted uses) : s ∈ uses ↔ g.references s ≠ 0 := by
  rw [h.references s, ← List.count_pos_iff]
  omega

/-- Only what the tables and counts say matters. -/
theorem Counted.congr {g' : Grammar} (h : g.Counted uses)
    (hreferences : ∀ s, g'.references s = g.references s)
    (hregistry : ∀ kind name, (g'.registry kind).get? name = (g.registry kind).get? name) :
    g'.Counted uses :=
  ⟨fun s => by rw [hreferences, h.references s],
    fun kind name s => by rw [hregistry, h.registered]⟩

theorem Counted.acquire (h : g.Counted uses)
    (hs : ∀ t ∈ uses, s.kind = t.kind → s.name = t.name → s = t) :
    (g.acquire s).Counted (s :: uses) := by
  refine ⟨fun t => ?_, fun kind name t => ?_⟩
  · rw [Grammar.acquire, references_addReferences]
    have hsame : (if g.references s = 0 then g.register s else g).references t =
        g.references t := by
      split <;> simp [Grammar.references, usage]
    rw [hsame, h.references t, List.count_cons]
    by_cases hst : s = t <;> simp [hst]
  · change ((if g.references s = 0 then g.register s else g).registry kind).get? name = some t ↔ _
    by_cases hused : s ∈ uses
    · rw [if_neg (h.mem_iff.mp hused), h.registered]
      have : t ∈ uses ↔ t ∈ s :: uses := by
        rw [List.mem_cons]
        exact ⟨.inr, fun ht => ht.elim (fun he => he ▸ hused) id⟩
      rw [this]
    · rw [if_pos (not_ne_iff.mp (mt h.mem_iff.mpr hused)), get?_registry_register]
      -- the new symbol is found under its name, and under any other name the same as before
      split
      · rename_i hc
        obtain ⟨htabled, rfl, rfl⟩ := hc
        constructor
        · intro he
          obtain rfl := Option.some.inj he
          exact ⟨htabled, rfl, rfl, List.mem_cons_self ..⟩
        · rintro ⟨_, hkind, hname, ht⟩
          rcases List.mem_cons.mp ht with rfl | ht
          · rfl
          · rw [hs t ht hkind.symm hname.symm]
      · rename_i hc
        rw [h.registered]
        refine and_congr_right fun htabled => and_congr_right fun hkind =>
          and_congr_right fun hname => ?_
        have hne : t ≠ s := by
          rintro rfl
          exact hc ⟨htabled, hkind, hname⟩
        simp [hne]

theorem Counted.foldl_acquire {symbols : List Symbol} (h : g.Counted uses)
    (hs : Unambiguous (symbols ++ uses)) :
    (symbols.foldl Grammar.acquire g).Counted (symbols ++ uses) := by
  induction symbols generalizing g uses with
  | nil => exact h
  | cons s symbols ih =>
    have hmiddle : Perm (symbols ++ s :: uses) (s :: symbols ++ uses) := List.perm_middle
    have hfirst := h.acquire (s := s) fun t ht =>
      hs s (List.mem_cons_self ..) t (List.mem_append_right _ ht)
    refine (ih hfirst fun t ht u hu => ?_).perm hmiddle
    exact hs t (hmiddle.mem_iff.mp ht) u (hmiddle.mem_iff.mp hu)

theorem Counted.release (h : g.Counted uses) (hs : s ∈ uses) :
    (g.release s).Counted (uses.erase s) := by
  have hcount : ∀ t, (g.addReferences s (-1)).references t = (uses.erase s).count t := by
    intro t
    rw [references_addReferences, h.references t, List.count_erase]
    by_cases hst : s = t
    · subst hst
      have := List.count_pos_iff.mpr hs
      simp
      omega
    · simp [hst]
  refine ⟨fun t => ?_, fun kind name t => ?_⟩
  · rw [← hcount t, Grammar.release]
    split <;> simp [Grammar.references, usage]
  · rw [Grammar.release]
    split
    · rename_i hlast
      have hgone : s ∉ uses.erase s := by
        rw [hcount s] at hlast
        rw [← List.count_pos_iff]
        omega
      rw [get?_registry_unregister]
      split
      · rename_i hc
        obtain ⟨htabled, rfl, rfl⟩ := hc
        refine ⟨fun hnone => absurd hnone (Option.some_ne_none t).symm, ?_⟩
        rintro ⟨_, hkind, hname, ht⟩
        -- two uses of one name are uses of one symbol, as the table has one entry for it
        have hfound := (h.registered s.kind s.name s).mpr ⟨htabled, rfl, rfl, hs⟩
        rw [(h.registered s.kind s.name t).mpr
          ⟨htabled, hkind, hname, List.mem_of_mem_erase ht⟩] at hfound
        exact absurd (Option.some.inj hfound ▸ ht) hgone
      · rename_i hc
        change (g.registry kind).get? name = some t ↔ _
        rw [h.registered]
        refine and_congr_right fun htabled => and_congr_right fun hkind =>
          and_congr_right fun hname => ?_
        have hne : t ≠ s := by
          rintro rfl
          exact hc ⟨htabled, hkind, hname⟩
        rw [List.mem_erase_of_ne hne]
    · rename_i hleft
      change (g.registry kind).get? name = some t ↔ _
      rw [h.registered]
      refine and_congr_right fun _ => and_congr_right fun _ => and_congr_right fun _ => ?_
      by_cases hts : t = s
      · subst hts
        rw [hcount t] at hleft
        refine ⟨fun _ => ?_, fun _ => hs⟩
        rw [← List.count_pos_iff]
        omega
      · rw [List.mem_erase_of_ne hts]

theorem Counted.foldl_release {symbols : List Symbol} (h : g.Counted uses)
    (hp : Perm uses (symbols ++ more)) : (symbols.foldl Grammar.release g).Counted more := by
  induction symbols generalizing g uses with
  | nil => exact h.perm hp
  | cons s symbols ih =>
    have hs : s ∈ uses := hp.mem_iff.mpr (List.mem_cons_self ..)
    refine ih (h.release hs) ?_
    simpa using hp.erase s

/-! ### What acquiring and releasing leave -/

theorem isStart_acquire (g : Grammar) (s t : Symbol) : (g.acquire s).isStart t = g.isStart t := by
  rw [acquire, isStart_addReferences]
  split <;> simp [isStart, usage]

theorem isStart_release (g : Grammar) (s t : Symbol) : (g.release s).isStart t = g.isStart t := by
  have h := isStart_addReferences g s t (-1)
  rw [release]
  split
  · rw [← h]
    simp [isStart, usage]
  · exact h

theorem isStart_foldl_acquire (symbols : List Symbol) (g : Grammar) (t : Symbol) :
    (symbols.foldl acquire g).isStart t = g.isStart t := by
  induction symbols generalizing g with
  | nil => rfl
  | cons s symbols ih => rw [List.foldl_cons, ih, isStart_acquire]

theorem isStart_foldl_release (symbols : List Symbol) (g : Grammar) (t : Symbol) :
    (symbols.foldl release g).isStart t = g.isStart t := by
  induction symbols generalizing g with
  | nil => rfl
  | cons s symbols ih => rw [List.foldl_cons, ih, isStart_release]

end Grammar

end Lookahead
