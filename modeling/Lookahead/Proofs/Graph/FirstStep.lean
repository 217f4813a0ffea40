import Lookahead.Proofs.Grammar.Standard
import Lookahead.Proofs.Graph.Condensed
import Lookahead.Proofs.Graph.Names

/-!
# The graph of the first step

The graph of the first step is built for every valid grammar. Only nonterminals lie on
circles, so the leaf of a terminal lies in a group of its own and no two groups have the
same title.
-/

namespace Lookahead

open Naming (Short terminalLeaf)
open Lookahead.Digraph (Reaches Mutual)

theorem IsSymbolName.short {name : String} (h : IsSymbolName name) : Short name := by
  obtain ⟨c, hc, rfl⟩ := h.exists_char
  refine .inr ⟨c, ?_, rfl⟩
  rintro rfl
  exact absurd hc (by decide)

theorem Symbol.Proper.short {s : Symbol} (h : s.Proper) : Short s.name := by
  rcases h with rfl | ⟨hname, _⟩
  · exact .inl rfl
  · exact hname.short

theorem Symbol.short_epsilon : Short Symbol.epsilon.name := .inr ⟨'ε', by decide, rfl⟩

theorem Symbol.short_endOfInput : Short Symbol.endOfInput.name := .inr ⟨'$', by decide, rfl⟩

/-- The markers have names that no symbol of a text has. -/
theorem Symbol.Proper.name_ne {s : Symbol} (h : s.Proper) :
    s.name ≠ Symbol.epsilon.name ∧ s.name ≠ Symbol.endOfInput.name := by
  rcases h with rfl | ⟨hname, _⟩
  · decide
  · obtain ⟨c, hc, he⟩ := hname.exists_char
    rw [he]
    constructor
    · intro hs
      have hcs := congrArg String.toList hs
      rw [String.toList_singleton] at hcs
      obtain rfl : c = 'ε' := by simpa [Symbol.epsilon] using hcs
      exact absurd hc (by decide)
    · intro hs
      have hcs := congrArg String.toList hs
      rw [String.toList_singleton] at hcs
      obtain rfl : c = '$' := by simpa [Symbol.endOfInput] using hcs
      exact absurd hc (by decide)

namespace Graph

variable {grammar : Grammar} {g : Graph}

theorem mem_of_mem_takeThrough {α : Type} {stop : α → Bool} {a : α} {xs : List α}
    (h : a ∈ takeThrough stop xs) : a ∈ xs := by
  induction xs with
  | nil => exact h
  | cons x xs ih =>
    rw [takeThrough] at h
    split at h
    · exact List.mem_cons.mpr (.inl (List.mem_singleton.mp h))
    · exact List.mem_cons.mpr ((List.mem_cons.mp h).imp_right ih)

/-! ### Leaves and links -/

theorem mem_firstLinks {pair : String × String} : pair ∈ firstLinks grammar ↔
    (∃ t ∈ grammar.terminalList, pair = (terminalLeaf t.name, t.name)) ∨
      ∃ p ∈ grammar.productionList, ∃ s ∈ openers grammar p.right,
        pair = (s.name, p.left.name) := by
  simp only [firstLinks, List.mem_append, List.mem_map, List.mem_flatMap, eq_comm]

theorem mem_firstLeaves {label : String} : label ∈ firstLeaves grammar ↔
    (∃ s, grammar.Registered s ∧ label = s.name) ∨
      0 < grammar.references Symbol.epsilon ∧ label = Symbol.epsilon.name ∨
      ∃ t ∈ grammar.terminalList, label = terminalLeaf t.name := by
  simp only [firstLeaves, Grammar.Registered, List.mem_append, List.mem_map, or_and_right,
    exists_or, List.mem_ite_nil_right, List.mem_singleton, eq_comm, or_assoc]
  rw [or_left_comm]

variable (h : grammar.Lawful)
include h

theorem nodup_names : (grammar.terminalList.map Symbol.name).Nodup ∧
    (grammar.nonterminalList.map Symbol.name).Nodup := by
  constructor
  · have he : grammar.terminalList.map Symbol.name = grammar.terminals.keys := by
      rw [Grammar.terminalList, Assoc.values, Assoc.keys, List.map_map]
      exact List.map_congr_left fun e he => (h.terminal e he).1
    exact he ▸ h.terminals_nodup
  · have he : grammar.nonterminalList.map Symbol.name = grammar.nonterminals.keys := by
      rw [Grammar.nonterminalList, Assoc.values, Assoc.keys, List.map_map]
      exact List.map_congr_left fun e he => (h.nonterminal e he).1
    exact he ▸ h.nonterminals_nodup

theorem short_of_registered {s : Symbol} (hs : grammar.Registered s) : Short s.name :=
  (h.proper_of_registered hs).short

theorem short_of_mem_right {p : Production} (hp : p ∈ grammar.productionList) {s : Symbol}
    (hs : s ∈ p.right) : Short s.name := by
  rcases h.epsilon_or_registered hp hs with rfl | hs
  · exact Symbol.short_epsilon
  · exact short_of_registered h hs

theorem nodup_firstLeaves : (firstLeaves grammar).Nodup := by
  have hterminals := (nodup_names h).1
  have hleaves : (grammar.terminalList.map fun t => terminalLeaf t.name).Nodup := by
    have hmap := hterminals.map fun a b => Naming.terminalLeaf_injective
    rwa [List.map_map] at hmap
  have hdisjoint {s t : Symbol} (hs : s ∈ grammar.terminalList) (ht : t ∈ grammar.nonterminalList) :
      s.name ≠ t.name := by
    intro he
    have hkind := h.kind_of_mem_terminalList hs
    rw [h.eq_of_name_eq (.inr hs) (.inl ht) he, h.kind_of_mem_nonterminalList ht] at hkind
    cases hkind
  rw [firstLeaves, List.nodup_append, List.nodup_append, List.nodup_append]
  refine ⟨⟨⟨hterminals, (nodup_names h).2, ?_⟩, ?_, ?_⟩, hleaves, ?_⟩
  · rintro _ ha _ hb rfl
    obtain ⟨s, hs, rfl⟩ := List.mem_map.mp ha
    obtain ⟨t, ht, he⟩ := List.mem_map.mp hb
    exact hdisjoint hs ht he.symm
  · split <;> simp
  · rintro _ ha _ hb rfl
    obtain ⟨-, rfl⟩ := List.mem_ite_nil_right.mp hb |>.imp_right List.mem_singleton.mp
    rcases List.mem_append.mp ha with ha | ha
    · obtain ⟨s, hs, he⟩ := List.mem_map.mp ha
      exact (h.proper_of_registered (.inr hs)).name_ne.1 he
    · obtain ⟨s, hs, he⟩ := List.mem_map.mp ha
      exact (h.proper_of_registered (.inl hs)).name_ne.1 he
  · rintro a ha _ hb rfl
    obtain ⟨t, ht, rfl⟩ := List.mem_map.mp hb
    have hshort : Short (terminalLeaf t.name) := by
      rcases List.mem_append.mp ha with ha | ha
      · rcases List.mem_append.mp ha with ha | ha
        · obtain ⟨s, hs, he⟩ := List.mem_map.mp ha
          exact he ▸ short_of_registered h (.inr hs)
        · obtain ⟨s, hs, he⟩ := List.mem_map.mp ha
          exact he ▸ short_of_registered h (.inl hs)
      · obtain ⟨-, he⟩ := List.mem_ite_nil_right.mp ha |>.imp_right List.mem_singleton.mp
        exact he ▸ Symbol.short_epsilon
    exact hshort.ne_terminalLeaf (short_of_registered h (.inr ht)) rfl

/-- The mark of the empty word is counted if a production has it. -/
theorem references_epsilon_pos {p : Production} (hp : p ∈ grammar.productionList)
    (hs : Symbol.epsilon ∈ p.right) : 0 < grammar.references Symbol.epsilon := by
  have huses := ((Grammar.valid_iff.mp h.valid).2 Symbol.epsilon (.inl rfl)).1
  have hmem : Symbol.epsilon ∈ grammar.productionList.flatMap Production.symbols :=
    List.mem_flatMap.mpr ⟨p, hp, List.mem_cons_of_mem _ hs⟩
  have hpos : 0 < grammar.uses Symbol.epsilon := List.count_pos_iff.mpr hmem
  omega

theorem mem_firstLeaves_of_mem_right {p : Production} (hp : p ∈ grammar.productionList)
    {s : Symbol} (hs : s ∈ p.right) : s.name ∈ firstLeaves grammar := by
  rcases h.epsilon_or_registered hp hs with rfl | hs'
  · exact mem_firstLeaves.mpr (.inr (.inl ⟨references_epsilon_pos h hp hs, rfl⟩))
  · exact mem_firstLeaves.mpr (.inl ⟨s, hs', rfl⟩)

omit h in
theorem firstLeaves_ne_nil (h : grammar.Standard) : firstLeaves grammar ≠ [] :=
  List.ne_nil_of_mem (mem_firstLeaves.mpr (.inl ⟨_, .inl h.start_mem, rfl⟩))

/-- The graph of the nullability step is built too. -/
theorem exists_nullability : ∃ g, nullability grammar = .ok g ∧
    g.LeafGraph .empty (grammar.nullabilitySymbols.map Symbol.name) (nullabilityLinks grammar) := by
  let marker := if 0 < grammar.references Symbol.epsilon then [Symbol.epsilon.name] else []
  have hlabels : grammar.nullabilitySymbols.map Symbol.name = marker ++
      (grammar.nonterminalList.map Symbol.name ++ grammar.terminalList.map Symbol.name) := by
    simp only [Grammar.nullabilitySymbols, List.map_append, marker]
    split <;> rfl
  have hperm : (grammar.terminalList.map Symbol.name ++ grammar.nonterminalList.map Symbol.name ++
      marker).Perm (grammar.nullabilitySymbols.map Symbol.name) :=
    hlabels ▸ List.perm_append_comm.trans (List.Perm.append_left _ List.perm_append_comm)
  have hmem {s : Symbol} (hs : s.name ∈ firstLeaves grammar) (hshort : Short s.name) :
      s.name ∈ grammar.nullabilitySymbols.map Symbol.name := by
    refine hperm.mem_iff.mp ((List.mem_append.mp hs).resolve_right fun hleaf => ?_)
    obtain ⟨t, ht, he⟩ := List.mem_map.mp hleaf
    exact hshort.ne_terminalLeaf (short_of_registered h (.inr ht)) he.symm
  have hends : ∀ pair ∈ nullabilityLinks grammar, (pair.1 ∈ grammar.nullabilitySymbols.map Symbol.name ∧
      pair.2 ∈ grammar.nullabilitySymbols.map Symbol.name) ∧ Naming.Arrowless pair.1 := by
    intro pair hpair
    obtain ⟨p, hp, hpair⟩ := List.mem_flatMap.mp hpair
    obtain ⟨s, hs, rfl⟩ := List.mem_map.mp hpair
    have hleft : grammar.Registered p.left := .inl (h.left_mem hp)
    exact ⟨⟨hmem (mem_firstLeaves_of_mem_right h hp hs) (short_of_mem_right h hp hs),
      hmem (mem_firstLeaves.mpr (.inl ⟨p.left, hleft, rfl⟩)) (short_of_registered h hleft)⟩,
      (short_of_mem_right h hp hs).arrowless⟩
  exact exists_leafGraph "Empty" .empty
    (hperm.nodup_iff.mp (nodup_firstLeaves h).of_append_left) (fun pair hp => (hends pair hp).1)
    (fun a ha b hb => Naming.pairName_injective (hends a ha).2 (hends b hb).2)

/-- The ends of links are leaves, and the first end has no arrow in it. -/
theorem ends_of_mem_firstLinks {pair : String × String} (hpair : pair ∈ firstLinks grammar) :
    (pair.1 ∈ firstLeaves grammar ∧ pair.2 ∈ firstLeaves grammar) ∧ Naming.Arrowless pair.1 := by
  rcases mem_firstLinks.mp hpair with ⟨t, ht, rfl⟩ | ⟨p, hp, s, hs, rfl⟩
  · refine ⟨⟨mem_firstLeaves.mpr (.inr (.inr ⟨t, ht, rfl⟩)),
      mem_firstLeaves.mpr (.inl ⟨t, .inr ht, rfl⟩)⟩, ?_⟩
    exact (short_of_registered h (.inr ht)).arrowless.terminalLeaf
  · have hs := mem_of_mem_takeThrough hs
    exact ⟨⟨mem_firstLeaves_of_mem_right h hp hs,
      mem_firstLeaves.mpr (.inl ⟨p.left, .inl (h.left_mem hp), rfl⟩)⟩,
      (short_of_mem_right h hp hs).arrowless⟩

/-! ### The graph -/

/-- The graph of the first step, with its groups. -/
structure FirstGraph (grammar : Grammar) (g : Graph) : Prop
    extends g.Condensed (firstLeaves grammar) (firstLinks grammar) where
  related : ∀ {s t b}, g.LeafIn s b → g.LeafIn t b → Mutual (firstLinks grammar) s t
  titled : ∀ n ∈ g.groups, ∃ labels : List String,
    n.label = .string (title .first (labels.map Naming.innerName)) ∧ labels.Nodup ∧
      ∀ label, label ∈ labels ↔ g.LeafIn label n.id

/-- The graph before its leaves are grouped. -/
theorem exists_firstLinked : ∃ g, g.LeafGraph .first (firstLeaves grammar) (firstLinks grammar) ∧
    ∀ condensed, first grammar condensed =
      if condensed then (condense .first).result g else .ok g := by
  obtain ⟨g, hlink, hlinked⟩ := exists_leafGraph "First" .first
    (nodup_firstLeaves h) (fun pair hp => (ends_of_mem_firstLinks h hp).1)
    (fun a ha b hb => Naming.pairName_injective (ends_of_mem_firstLinks h ha).2
      (ends_of_mem_firstLinks h hb).2)
  exact ⟨g, hlinked, fun condensed => by simp only [first, hlink, bind, Except.bind]; rfl⟩

theorem exists_firstGraph (hne : firstLeaves grammar ≠ []) :
    ∃ g, first grammar = .ok g ∧ FirstGraph grammar g := by
  obtain ⟨g, hlinked, hfirst⟩ := exists_firstLinked h
  obtain ⟨g', hcondense, hcondensed, hextends⟩ := (hlinked.shows (by decide) hne).condense
  have hnone : g.groups = [] :=
    List.filter_eq_nil_iff.mpr fun n hn => by simp [Node.isGroup, (hlinked.node n hn).1]
  obtain ⟨added, hgroups, hadded⟩ := hextends.groups
  rw [hnone, List.nil_append] at hgroups
  refine ⟨g', (hfirst true).trans hcondense, hcondensed, fun {s t b} hs ht => ?_, fun n hn => ?_⟩
  · obtain ⟨n, hn, hid⟩ := List.mem_map.mp (hcondensed.mem_leaves hs).2
    subst hid
    exact (hadded n (hgroups ▸ hn)).2 s t hs ht
  · exact (hadded n (hgroups ▸ hn)).1

/-! ### Circles -/

theorem not_mem_firstLinks_terminalLeaf {s : String} {t : Symbol}
    (ht : t ∈ grammar.terminalList) : (s, terminalLeaf t.name) ∉ firstLinks grammar := by
  intro hlink
  have hshort : Short (terminalLeaf t.name) := by
    rcases mem_firstLinks.mp hlink with ⟨u, hu, he⟩ | ⟨p, hp, u, _, he⟩
    · obtain ⟨-, hname⟩ := Prod.mk.inj he
      exact hname ▸ short_of_registered h (.inr hu)
    · obtain ⟨-, hname⟩ := Prod.mk.inj he
      exact hname ▸ short_of_registered h (.inl (h.left_mem hp))
  exact hshort.ne_terminalLeaf (short_of_registered h (.inr ht)) rfl

theorem eq_terminalLeaf_of_reaches {s : String} {t : Symbol} (ht : t ∈ grammar.terminalList)
    (hr : Reaches (firstLinks grammar) s (terminalLeaf t.name)) : s = terminalLeaf t.name := by
  rcases hr.cases_tail with he | ⟨u, -, hlink⟩
  · exact he.symm
  · exact absurd hlink (not_mem_firstLinks_terminalLeaf h ht)

/-- Two labels with ways there and back are those of nonterminals. -/
theorem exists_nonterminal_of_mutual {s t : String} (hst : s ≠ t)
    (hm : Mutual (firstLinks grammar) s t) : ∃ a ∈ grammar.nonterminalList, t = a.name := by
  rcases hm.1.cases_tail with he | ⟨u, hsu, hlink⟩
  · exact absurd he.symm hst
  · rcases mem_firstLinks.mp hlink with ⟨x, hx, he⟩ | ⟨p, hp, _, _, he⟩
    · -- nothing leads to the leaf before a terminal, so no way leads back to it
      obtain ⟨rfl, rfl⟩ := Prod.mk.inj he
      have hs := eq_terminalLeaf_of_reaches h hx hsu
      exact absurd (eq_terminalLeaf_of_reaches h hx (hs ▸ hm.2)) (hs ▸ Ne.symm hst)
    · exact ⟨p.left, h.left_mem hp, (Prod.mk.inj he).2⟩

/-- The leaf from which a terminal starts is alone in its group. -/
theorem FirstGraph.eq_terminalLeaf (hg : FirstGraph grammar g) {t : Symbol}
    (ht : t ∈ grammar.terminalList) {label b : String} (hb : g.LeafIn (terminalLeaf t.name) b)
    (hl : g.LeafIn label b) : label = terminalLeaf t.name :=
  eq_terminalLeaf_of_reaches h ht (hg.related hl hb).1

/-! ### Titles -/

theorem length_name_of_mem_terminalList {t : Symbol} (ht : t ∈ grammar.terminalList) :
    t.name.toList.length = 1 := by
  rcases h.proper_of_registered (.inr ht) with rfl | ⟨hname, _⟩
  · exact absurd (h.kind_of_mem_terminalList ht) (by decide)
  · obtain ⟨c, -, he⟩ := hname.exists_char
    rw [he, String.toList_singleton, List.length_singleton]

theorem comma_not_mem_of_mem_nonterminalList {s : Symbol} (hs : s ∈ grammar.nonterminalList) :
    ',' ∉ s.name.toList := by
  rcases h.proper_of_registered (.inl hs) with rfl | ⟨_, hkind⟩
  · decide
  · rw [h.kind_of_mem_nonterminalList hs, Grammar.kindOfName] at hkind
    split at hkind
    · rename_i hname
      rw [Symbol.isNonterminalName] at hname
      split at hname
      · rename_i c hc
        rw [hc, List.mem_singleton]
        rintro rfl
        exact absurd hname (by decide)
      · cases hname
    · cases hkind

/-- Labels of the first step are their own inner names, of at most three characters. -/
theorem innerName_of_mem_firstLeaves {label : String} (hl : label ∈ firstLeaves grammar) :
    Naming.innerName label = label ∧ label.toList.length ≤ 3 := by
  rcases mem_firstLeaves.mp hl with ⟨s, hs, rfl⟩ | ⟨_, rfl⟩ | ⟨t, ht, rfl⟩
  · have hshort := short_of_registered h hs
    exact ⟨hshort.innerName_eq, hshort.length_le.trans (by decide)⟩
  · exact ⟨Symbol.short_epsilon.innerName_eq, by decide⟩
  · refine ⟨(short_of_registered h (.inr ht)).innerName_terminalLeaf, ?_⟩
    simp [terminalLeaf, length_name_of_mem_terminalList h ht]

/-- The inner names of the leaves of a group are those leaves, and they are telling. -/
theorem FirstGraph.telling (hg : FirstGraph grammar g) {b : String} (hb : b ∈ g.groupIds)
    {labels : List String} (hnodup : labels.Nodup)
    (hlabels : ∀ label, label ∈ labels ↔ g.LeafIn label b) :
    labels.map Naming.innerName = labels ∧ Naming.Telling labels := by
  have hleaf {label : String} (hl : label ∈ labels) : label ∈ firstLeaves grammar :=
    (hg.mem_leaves ((hlabels label).mp hl)).1
  refine ⟨?_, ?_⟩
  · refine (List.map_congr_left fun label hl => ?_).trans (List.map_id _)
    exact (innerName_of_mem_firstLeaves h (hleaf hl)).1
  · obtain ⟨label, hl⟩ := hg.inhabited b hb
    match labels, (hlabels label).mpr hl with
    | [name], _ => exact .inl ⟨name, rfl, (innerName_of_mem_firstLeaves h (hleaf (by simp))).2⟩
    | first :: second :: more, _ =>
      refine .inr ⟨by simp, fun name hname => ?_⟩
      have hother : ∃ other ∈ first :: second :: more, other ≠ name := by
        by_cases he : first = name
        · refine ⟨second, by simp, ?_⟩
          rintro rfl
          simp [he] at hnodup
        · exact ⟨first, by simp, he⟩
      obtain ⟨other, hmem, hne⟩ := hother
      have hmutual := hg.related ((hlabels other).mp hmem) ((hlabels name).mp hname)
      obtain ⟨a, ha, rfl⟩ := exists_nonterminal_of_mutual h hne hmutual
      exact ⟨(short_of_registered h (.inl ha)).ne_nil, comma_not_mem_of_mem_nonterminalList h ha⟩

/-- Groups with the same title are the same. -/
theorem FirstGraph.eq_of_label_eq (hg : FirstGraph grammar g) {m n : Node} (hm : m ∈ g.groups)
    (hn : n ∈ g.groups) (he : m.label = n.label) : m = n := by
  obtain ⟨xs, hx, hxn, hxs⟩ := hg.titled m hm
  obtain ⟨ys, hy, hyn, hys⟩ := hg.titled n hn
  obtain ⟨hxi, hxt⟩ := hg.telling h (List.mem_map_of_mem hm) hxn hxs
  obtain ⟨hyi, hyt⟩ := hg.telling h (List.mem_map_of_mem hn) hyn hys
  rw [hx, hy, hxi, hyi, Json.string_inj] at he
  obtain ⟨name, hmem, hmem'⟩ := Naming.exists_common_of_title_eq hxt hyt he
  have hid : m.id = n.id := hg.eq_of_leafIn ((hxs name).mp hmem) ((hys name).mp hmem')
  exact List.inj_on_of_nodup_map hg.tidy.nodup (List.mem_filter.mp hm).1 (List.mem_filter.mp hn).1 hid

/-- The leaf for the end of the input is none of the first step. -/
theorem endLeaf_not_mem_firstLeaves : Naming.endLeaf ∉ firstLeaves grammar := by
  intro hl
  rcases mem_firstLeaves.mp hl with ⟨s, hs, he⟩ | ⟨_, he⟩ | ⟨t, ht, he⟩
  · exact (short_of_registered h hs).ne_terminalLeaf Symbol.short_endOfInput he.symm
  · exact Symbol.short_epsilon.ne_terminalLeaf Symbol.short_endOfInput he.symm
  · have hname := Naming.terminalLeaf_injective he
    exact (h.proper_of_registered (.inr ht)).name_ne.2 hname.symm

/-- No group has the title of the group for the end of the input. -/
theorem FirstGraph.label_ne_end (hg : FirstGraph grammar g) {n : Node} (hn : n ∈ g.groups) :
    n.label ≠ .string (Naming.component Naming.endLeaf) := by
  intro he
  obtain ⟨xs, hx, hxn, hxs⟩ := hg.titled n hn
  obtain ⟨hxi, hxt⟩ := hg.telling h (List.mem_map_of_mem hn) hxn hxs
  have hend : Naming.component Naming.endLeaf = title .first [Naming.endLeaf] := by
    simp [title]
  rw [hx, hxi, hend, Json.string_inj] at he
  obtain ⟨name, hmem, hmem'⟩ := Naming.exists_common_of_title_eq hxt
    (.inl ⟨_, rfl, by decide⟩) he
  obtain rfl := List.mem_singleton.mp hmem'
  exact endLeaf_not_mem_firstLeaves h (hg.mem_leaves ((hxs _).mp hmem)).1

end Graph

end Lookahead
