import Lookahead.Proofs.Follow
import Lookahead.Proofs.Grammar.Findings
import Lookahead.Tutor.Basic

/-!
# Writing results to the grammar

A finished step writes the set of every group to the symbols of its leaves. Leaves lie in
one group each, so every symbol gets the set of its own group, in whatever order the groups
are visited; marks and the sets of the other step stay.
-/

namespace Lookahead.Tutor

open Lookahead.Graph (FirstGraph FollowGraph)
open Naming (followLeaf carried)

variable {grammar g : Grammar} {p : Propagation}

/-! ### Clearing -/

theorem sameMarks_clearFirst (g : Grammar) : g.SameMarks (clearFirst g) :=
  Grammar.SameMarks.foldl (fun g s =>
    (Grammar.sameMarks_setFirst g s _).trans (Grammar.sameMarks_setFollow _ s _)) _ g

theorem sameMarks_clearFollow (g : Grammar) : g.SameMarks (clearFollow g) :=
  Grammar.SameMarks.foldl (fun g s => Grammar.sameMarks_setFollow g s _) _ g

theorem first_clearFollow (g : Grammar) : (clearFollow g).first = g.first :=
  Grammar.foldl_keeps Grammar.first (fun _ _ => Grammar.first_setFollow) _ g

/-! ### First sets -/

theorem commitFirstLeaf_cases (names : NameSet) (g : Grammar) (leaf : Node) :
    commitFirstLeaf names g leaf = g ∨ ∃ s, (s.isTerminal || s.isNonterminal) = true ∧
      leaf.label.string?.bind g.symbol? = some s ∧
      commitFirstLeaf names g leaf = g.setFirst s names := by
  rw [commitFirstLeaf]
  split
  · rename_i s hs
    split
    · rename_i hk
      exact .inr ⟨s, hk, hs, rfl⟩
    · exact .inl rfl
  · exact .inl rfl

theorem sameMarks_commitFirstLeaf (names : NameSet) (g : Grammar) (leaf : Node) :
    g.SameMarks (commitFirstLeaf names g leaf) := by
  rcases commitFirstLeaf_cases names g leaf with he | ⟨s, _, _, he⟩
  · rw [he]
    exact .refl g
  · rw [he]
    exact Grammar.sameMarks_setFirst g s names

theorem follow_commitFirstLeaf (names : NameSet) (g : Grammar) (leaf : Node) :
    (commitFirstLeaf names g leaf).follow = g.follow := by
  rcases commitFirstLeaf_cases names g leaf with he | ⟨s, _, _, he⟩
  · rw [he]
  · rw [he, Grammar.follow_setFirst]

theorem sameMarks_commitFirst (p : Propagation) (g : Grammar) : g.SameMarks (commitFirst p g) :=
  Grammar.SameMarks.foldl (fun g _ =>
    Grammar.SameMarks.foldl (fun g leaf => sameMarks_commitFirstLeaf _ g leaf) _ g) _ g

theorem follow_commitFirst (p : Propagation) (g : Grammar) :
    (commitFirst p g).follow = g.follow :=
  Grammar.foldl_keeps Grammar.follow (fun g _ =>
    Grammar.foldl_keeps Grammar.follow (fun g leaf => follow_commitFirstLeaf _ g leaf) _ g) _ g

section FirstSets

variable (h : g.Standard) {s : Symbol} (hs : g.Registered s)
include h hs

/-- A leaf decides about the symbol of its label only. -/
theorem first_commitFirstLeaf {names : NameSet} {leaf : Node} {label : String}
    (hlabel : leaf.label = .string label) :
    (commitFirstLeaf names g leaf).first s = if label = s.name then names else g.first s := by
  have hbind : leaf.label.string?.bind g.symbol? = g.symbol? label := by rw [hlabel]; rfl
  split
  · rename_i hname
    subst hname
    have hk : (s.isTerminal || s.isNonterminal) = true := by
      rcases hs with hs | hs
      · simp [Symbol.isNonterminal, h.kind_of_mem_nonterminalList hs]
      · simp [Symbol.isTerminal, h.kind_of_mem_terminalList hs]
    simp only [commitFirstLeaf, hbind, h.symbol?_name hs, hk, if_true]
    rw [Grammar.first_setFirst, if_pos rfl]
  · rename_i hname
    rcases commitFirstLeaf_cases names g leaf with he | ⟨t, hk, ht, he⟩
    · rw [he]
    · rw [he, Grammar.first_setFirst, if_neg]
      rintro rfl
      exact hname (h.registered_of_symbol? (hbind ▸ ht) hk).2.symm

/-- The last leaf with the label of a symbol decides about it, and all give it the same set. -/
theorem first_foldl_commitFirstLeaf {names : NameSet} {leaves : List Node}
    (hleaves : ∀ n ∈ leaves, ∃ label : String, n.label = .string label) :
    (leaves.foldl (commitFirstLeaf names) g).first s =
      if ∃ n ∈ leaves, n.label = .string s.name then names else g.first s := by
  induction leaves generalizing g with
  | nil => simp
  | cons n leaves ih =>
    obtain ⟨label, hlabel⟩ := hleaves n (List.mem_cons_self ..)
    have hv := (sameMarks_commitFirstLeaf names g n).varies
    have hs' : (commitFirstLeaf names g n).Registered s := by
      rwa [Grammar.Registered, hv.nonterminalList, hv.terminalList]
    rw [List.foldl_cons, ih (hv.standard h) hs' fun m hm => hleaves m (List.mem_cons_of_mem _ hm),
      first_commitFirstLeaf h hs hlabel]
    by_cases hrest : ∃ m ∈ leaves, m.label = .string s.name
    · simp [hrest]
    · simp [hrest, hlabel]

/-- Every symbol gets the set of the group with its leaf. -/
theorem first_commitFirst (hp : FirstGraph grammar p.graph) {b : String}
    (hb : p.graph.LeafIn s.name b) : (commitFirst p g).first s = p.computedOf b := by
  suffices hgo : ∀ groups : List Node, (∀ n ∈ groups, n ∈ p.graph.groups) →
      ∀ g : Grammar, g.Standard → g.Registered s →
      (groups.foldl (fun g n =>
        (p.graph.members n.id).foldl (commitFirstLeaf (p.computedOf n.id)) g) g).first s =
      if b ∈ groups.map Node.id then p.computedOf b else g.first s by
    have hmem : b ∈ p.graph.groups.map Node.id := (hp.mem_leaves hb).2
    rw [commitFirst, hgo _ (fun _ hn => hn) g h hs, if_pos hmem]
  intro groups
  induction groups with
  | nil => exact fun _ g _ _ => by simp
  | cons n groups ih =>
    intro hgroups g h hs
    have hv : g.Varies ((p.graph.members n.id).foldl (commitFirstLeaf (p.computedOf n.id)) g) :=
      (Grammar.SameMarks.foldl (fun g leaf => sameMarks_commitFirstLeaf _ g leaf) _ g).varies
    have hs' : ((p.graph.members n.id).foldl (commitFirstLeaf (p.computedOf n.id)) g).Registered s := by
      rwa [Grammar.Registered, hv.nonterminalList, hv.terminalList]
    have hmembers : ∀ m ∈ p.graph.members n.id, ∃ label : String, m.label = .string label :=
      fun m hm => (hp.mem_members hm).2.imp fun _ hl => hl.1
    have hin := hp.exists_member_iff (a := n.id) hb
    rw [List.foldl_cons, ih (fun m hm => hgroups m (List.mem_cons_of_mem _ hm)) _ (hv.standard h) hs',
      first_foldl_commitFirstLeaf h hs hmembers, List.map_cons]
    by_cases hn : n.id = b
    · rw [if_pos (hin.mpr hn), hn]
      simp
    · rw [if_neg fun hmem => hn (hin.mp hmem)]
      simp [Ne.symm hn]

end FirstSets

/-! ### Follow sets -/

/-- The name of the leaf of a follow set gives back its nonterminal. -/
theorem get?_innerName_followLeaf (h : g.Standard) {s : Symbol} (hs : s ∈ g.nonterminalList) :
    g.nonterminals.get? (Naming.innerName (followLeaf s.name)) = some s := by
  rw [(Graph.short_of_registered h (.inl hs)).innerName_followLeaf]
  exact h.mem_nonterminalList_iff.mp hs

/-- A change of the grammar that concerns follow sets only. -/
structure FollowsSet (g g' : Grammar) : Prop where
  marks : g.SameMarks g'
  first : g'.first = g.first

theorem FollowsSet.refl (g : Grammar) : FollowsSet g g := ⟨.refl g, rfl⟩

theorem FollowsSet.trans {g' g'' : Grammar} (h : FollowsSet g g') (h' : FollowsSet g' g'') :
    FollowsSet g g'' := ⟨h.marks.trans h'.marks, h'.first.trans h.first⟩

theorem commitFollowLeaves_spec {names : NameSet} {leaves : List Node} {t : Tutor}
    (h : t.grammar.Standard) (hleaves : ∀ n ∈ leaves, ∃ s ∈ t.grammar.nonterminalList,
      n.label = .string (followLeaf s.name)) :
    ∃ g, commitFollowLeaves names leaves t = .ok () { t with grammar := g } ∧
      FollowsSet t.grammar g ∧ ∀ s ∈ t.grammar.nonterminalList, g.follow s =
        if ∃ n ∈ leaves, n.label = .string (followLeaf s.name) then names
        else t.grammar.follow s := by
  induction leaves generalizing t with
  | nil => exact ⟨t.grammar, rfl, .refl _, by simp⟩
  | cons n leaves ih =>
    obtain ⟨s, hs, hlabel⟩ := hleaves n (List.mem_cons_self ..)
    let g := t.grammar.setFollow s names
    have hset : FollowsSet t.grammar g :=
      ⟨Grammar.sameMarks_setFollow _ s names, Grammar.first_setFollow⟩
    have hv := hset.marks.varies
    obtain ⟨g', hrun, hset', hfollow⟩ := ih (t := { t with grammar := g }) (hv.standard h)
      fun m hm => by
        rw [hv.nonterminalList]
        exact hleaves m (List.mem_cons_of_mem _ hm)
    refine ⟨g', ?_, hset.trans hset', fun r hr => ?_⟩
    · rw [commitFollowLeaves, Outcome.run_bind_eq_ok]
      refine ⟨t, t, rfl, ?_⟩
      have hget := get?_innerName_followLeaf h hs
      have htext : n.label.text = followLeaf s.name := by rw [hlabel, Json.text_string]
      simp only [htext, hget]
      exact hrun
    · rw [hfollow r (hv.nonterminalList ▸ hr), Grammar.follow_setFollow]
      have hiff : n.label = .string (followLeaf r.name) ↔ s = r := by
        rw [hlabel, Json.string_inj]
        constructor
        · exact fun he => h.eq_of_name_eq (.inl hs) (.inl hr) (Naming.followLeaf_injective he)
        · exact fun he => he ▸ rfl
      by_cases hrest : ∃ m ∈ leaves, m.label = .string (followLeaf r.name)
      · simp [hrest]
      · simp [hrest, hiff]

theorem isFollowGroup_followLeaf {m : Node} {l : String} (hl : m.label = .string (followLeaf l)) :
    isFollowGroup m = true := by
  rw [isFollowGroup, hl, Json.text_string]
  simp [followLeaf]

theorem isFollowGroup_carried {m : Node} {l : String} (hl : m.label = .string (carried l)) :
    isFollowGroup m = false := by
  rw [isFollowGroup, hl, Json.text_string]
  simp [carried, List.isPrefixOf]

/-- Every nonterminal gets the set of the group with its leaf. -/
theorem commitFollow_spec {first : Graph} (hp : FollowGraph grammar first p.graph) {t : Tutor}
    (h : t.grammar.Standard) (hn : t.grammar.nonterminalList = grammar.nonterminalList) :
    ∃ g, commitFollow p p.graph.groups t = .ok () { t with grammar := g } ∧
      FollowsSet t.grammar g ∧ ∀ s ∈ grammar.nonterminalList, ∀ b,
        p.graph.LeafIn (followLeaf s.name) b → g.follow s = p.computedOf b := by
  suffices hgo : ∀ groups : List Node, (∀ n ∈ groups, n ∈ p.graph.groups) → ∀ t : Tutor,
      t.grammar.Standard → t.grammar.nonterminalList = grammar.nonterminalList →
      ∃ g, commitFollow p groups t = .ok () { t with grammar := g } ∧ FollowsSet t.grammar g ∧
        ∀ s ∈ grammar.nonterminalList, ∀ b, p.graph.LeafIn (followLeaf s.name) b →
          g.follow s = if b ∈ groups.map Node.id then p.computedOf b else t.grammar.follow s by
    obtain ⟨g, hrun, hset, hfollow⟩ := hgo _ (fun _ hn => hn) t h hn
    refine ⟨g, hrun, hset, fun s hs b hb => ?_⟩
    have hmem : b ∈ p.graph.groups.map Node.id := (hp.mem_leaves hb).2
    rw [hfollow s hs b hb, if_pos hmem]
  intro groups
  induction groups with
  | nil => exact fun _ t _ _ => ⟨t.grammar, rfl, .refl _, by simp⟩
  | cons n groups ih =>
    intro hgroups t h hn
    have hrest := fun m hm => hgroups m (List.mem_cons_of_mem _ hm)
    have hmem := hgroups n (List.mem_cons_self ..)
    rcases hp.titled n hmem with ⟨l, hl, hcarried⟩ | ⟨l, hl, hleaves⟩
    · obtain ⟨g, hrun, hset, hfollow⟩ := ih hrest t h hn
      refine ⟨g, ?_, hset, fun s hs b hb => ?_⟩
      · simp only [commitFollow, isFollowGroup_carried hl]
        exact hrun
      · have hne : b ≠ n.id := by
          rintro rfl
          obtain ⟨l, he⟩ := hcarried _ hb
          exact Naming.carried_ne_followLeaf _ _ he.symm
        rw [hfollow s hs b hb, List.map_cons]
        simp [hne]
    · have hmembers : ∀ m ∈ p.graph.members n.id, ∃ s ∈ t.grammar.nonterminalList,
          m.label = .string (followLeaf s.name) := by
        intro m hm
        obtain ⟨-, label, hlabel, hleaf⟩ := hp.mem_members hm
        obtain ⟨s, hs, rfl⟩ := hleaves label hleaf
        exact ⟨s, hn ▸ hs, hlabel⟩
      obtain ⟨g, hrun, hset, hfollow⟩ := commitFollowLeaves_spec h hmembers
      have hv := hset.marks.varies
      obtain ⟨g', hrun', hset', hfollow'⟩ := ih hrest { t with grammar := g } (hv.standard h)
        (hv.nonterminalList.trans hn)
      refine ⟨g', ?_, hset.trans hset', fun s hs b hb => ?_⟩
      · simp only [commitFollow, isFollowGroup_followLeaf hl, if_true]
        rw [Outcome.run_bind_eq_ok]
        exact ⟨(), _, hrun, hrun'⟩
      · rw [hfollow' s hs b hb, hfollow s (hn ▸ hs), List.map_cons]
        have hin := hp.exists_member_iff (a := n.id) hb
        by_cases hb' : n.id = b
        · rw [if_pos (hin.mpr hb'), hb']
          simp
        · rw [if_neg fun hmem => hb' (hin.mp hmem)]
          simp [Ne.symm hb']

end Lookahead.Tutor
