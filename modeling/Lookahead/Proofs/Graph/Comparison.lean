import Lookahead.Graph.Comparison
import Lookahead.Proofs.Outcome
import Mathlib.Data.List.Count
import Mathlib.Data.List.Perm.Basic

/-!
# What a comparison finds

Two views are compared by the keys of their nodes and of their edges. They are taken for
equal exactly if the same keys occur equally often; otherwise the first discrepancy in
the order of report is named: what is absent, what is one too many, and last what the
user has too rarely. Keys are optional, as lists and objects have none; a comparison that
meets such a value is given up, and this is its only way to fail.
-/

namespace Lookahead

open List (Perm)

/-! ### Places in a list -/

section Places

variable {α κ : Type} {key : α → κ} {others : List κ} {items : List α} {a : α}

/-- The first item whose key is not among the others. -/
def FirstAbsent (key : α → κ) (others : List κ) (items : List α) (a : α) : Prop :=
  ∃ before after, items = before ++ a :: after ∧ before.map key ⊆ others ∧ key a ∉ others

theorem FirstAbsent.mem (h : FirstAbsent key others items a) : a ∈ items ∧ key a ∉ others := by
  obtain ⟨before, after, rfl, -, ha⟩ := h
  exact ⟨by simp, ha⟩

theorem FirstAbsent.cons {b : α} (h : FirstAbsent key others items a) (hb : key b ∈ others) :
    FirstAbsent key others (b :: items) a := by
  obtain ⟨before, after, rfl, hbefore, ha⟩ := h
  refine ⟨b :: before, after, rfl, ?_, ha⟩
  rw [List.map_cons]
  exact List.cons_subset.mpr ⟨hb, hbefore⟩

variable [BEq κ] [LawfulBEq κ]

/-- No key occurs more often than among the others. -/
def NoExcess (others keys : List κ) : Prop := ∀ k, keys.count k ≤ others.count k

/-- The first item whose key occurs, up to it, once more than among the others. -/
def FirstExcess (key : α → κ) (others : List κ) (items : List α) (a : α) : Prop :=
  ∃ before after, items = before ++ a :: after ∧ NoExcess others (before.map key) ∧
    (before.map key).count (key a) = others.count (key a)

omit [LawfulBEq κ] in
theorem FirstExcess.mem (h : FirstExcess key others items a) : a ∈ items := by
  obtain ⟨before, after, rfl, -⟩ := h
  simp

theorem FirstExcess.cons {b : α} (h : FirstExcess key (others.erase (key b)) items a)
    (hb : key b ∈ others) : FirstExcess key others (b :: items) a := by
  have hpos := List.count_pos_iff.mpr hb
  obtain ⟨before, after, rfl, hbefore, ha⟩ := h
  refine ⟨b :: before, after, rfl, fun k => ?_, ?_⟩
  · have hk := hbefore k
    rw [List.map_cons, List.count_cons]
    rw [List.count_erase] at hk
    by_cases hbk : key b = k
    · subst hbk
      simp only [beq_self_eq_true, if_true] at hk ⊢
      omega
    · simpa [hbk] using hk
  · rw [List.map_cons, List.count_cons]
    rw [List.count_erase] at ha
    by_cases hba : key b = key a
    · rw [hba] at ha hpos ⊢
      simp only [beq_self_eq_true, if_true] at ha ⊢
      omega
    · simpa [hba] using ha

theorem NoExcess.cons {keys : List κ} {k : κ} (h : NoExcess (others.erase k) keys)
    (hk : k ∈ others) : NoExcess others (k :: keys) := by
  have hpos := List.count_pos_iff.mpr hk
  intro l
  have hl := h l
  rw [List.count_cons]
  rw [List.count_erase] at hl
  by_cases hkl : k = l
  · subst hkl
    simp only [beq_self_eq_true, if_true] at hl ⊢
    omega
  · simpa [hkl] using hl

theorem perm_of_noExcess {keys : List κ} (h : NoExcess others keys) (h' : NoExcess keys others) :
    Perm keys others :=
  List.perm_iff_count.mpr fun k => Nat.le_antisymm (h k) (h' k)

end Places

namespace View

/-! ### Keys of items -/

section Keys

variable {α κ : Type} {key? : α → Option κ} {items : List α}

/-- Every item has a key. -/
def AllKeyed (key? : α → Option κ) (items : List α) : Prop := ∀ a ∈ items, key? a ≠ none

instance [DecidableEq κ] : Decidable (AllKeyed key? items) :=
  inferInstanceAs (Decidable (∀ a ∈ items, key? a ≠ none))

theorem keyed_spec (key? : α → Option κ) (items : List α) :
    keyed key? items = .error .unsuitableValue ∧ ¬AllKeyed key? items ∨
      keyed key? items = .ok (keyedOnly key? items) ∧ AllKeyed key? items := by
  induction items with
  | nil => exact .inr ⟨rfl, by simp [AllKeyed]⟩
  | cons a items ih =>
    cases hk : key? a with
    | none =>
      refine .inl ⟨by rw [keyed, hk], fun hall => ?_⟩
      exact hall a (List.mem_cons_self ..) hk
    | some k =>
      rcases ih with ⟨hrun, hnot⟩ | ⟨hrun, hall⟩
      · refine .inl ⟨by rw [keyed, hk, hrun]; rfl, fun hall => ?_⟩
        exact hnot fun b hb => hall b (List.mem_cons_of_mem _ hb)
      · refine .inr ⟨by rw [keyed, hk, hrun]; simp [keyedOnly, hk, Except.map], fun b hb => ?_⟩
        rcases List.mem_cons.mp hb with rfl | hb
        · simp [hk]
        · exact hall b hb

theorem map_some_keyedOnly (h : AllKeyed key? items) :
    ((keyedOnly key? items).map Prod.snd).map some = items.map key? := by
  induction items with
  | nil => rfl
  | cons a items ih =>
    obtain ⟨k, hk⟩ := Option.ne_none_iff_exists'.mp (h a (List.mem_cons_self ..))
    have hrest := ih fun b hb => h b (List.mem_cons_of_mem _ hb)
    rw [keyedOnly, List.filterMap_cons, hk]
    simp only [Option.map_some, List.map_cons, hk]
    rw [← hrest]
    rfl

variable [DecidableEq κ]

theorem firstMissing_spec (key? : α → Option κ) (present : List κ) (items : List α) :
    firstMissing key? present items = .error .unsuitableValue ∧ ¬AllKeyed key? items ∨
      (∃ a, firstMissing key? present items = .ok (some a) ∧
        FirstAbsent key? (present.map some) items a) ∨
      firstMissing key? present items = .ok none ∧ AllKeyed key? items ∧
        items.map key? ⊆ present.map some := by
  induction items with
  | nil => exact .inr (.inr ⟨rfl, by simp [AllKeyed], by simp⟩)
  | cons a items ih =>
    rw [firstMissing]
    cases hk : key? a with
    | none =>
      refine .inl ⟨rfl, fun hall => ?_⟩
      exact hall a (List.mem_cons_self ..) hk
    | some k =>
      dsimp only
      by_cases hpresent : k ∈ present
      · rw [if_pos (List.contains_iff_mem.mpr hpresent)]
        have hmem : key? a ∈ present.map some := by
          rw [hk]
          exact List.mem_map_of_mem hpresent
        rcases ih with ⟨hrun, hnot⟩ | ⟨b, hrun, hb⟩ | ⟨hrun, hall, hsub⟩
        · refine .inl ⟨hrun, fun hall => ?_⟩
          exact hnot fun b hb => hall b (List.mem_cons_of_mem _ hb)
        · exact .inr (.inl ⟨b, hrun, hb.cons hmem⟩)
        · refine .inr (.inr ⟨hrun, fun b hb => ?_, ?_⟩)
          · rcases List.mem_cons.mp hb with rfl | hb
            · simp [hk]
            · exact hall b hb
          · rw [List.map_cons]
            exact List.cons_subset.mpr ⟨hmem, hsub⟩
      · rw [if_neg (by simpa using hpresent)]
        refine .inr (.inl ⟨a, rfl, [], items, rfl, by simp, ?_⟩)
        rw [hk]
        simpa using hpresent

theorem firstSurplus_spec (h : AllKeyed key? items) (expected : List κ) :
    (∃ a, firstSurplus (keyedOnly key? items) expected = some a ∧
        FirstExcess key? (expected.map some) items a) ∨
      firstSurplus (keyedOnly key? items) expected = none ∧
        NoExcess (expected.map some) (items.map key?) := by
  induction items generalizing expected with
  | nil => exact .inr ⟨rfl, fun k => by simp⟩
  | cons a items ih =>
    obtain ⟨k, hk⟩ := Option.ne_none_iff_exists'.mp (h a (List.mem_cons_self ..))
    have hall : AllKeyed key? items := fun b hb => h b (List.mem_cons_of_mem _ hb)
    have hcons : keyedOnly key? (a :: items) = (a, k) :: keyedOnly key? items := by
      simp [keyedOnly, hk]
    rw [hcons, firstSurplus]
    by_cases hexpected : k ∈ expected
    · rw [if_pos (List.contains_iff_mem.mpr hexpected)]
      have herase : (expected.erase k).map some = (expected.map some).erase (key? a) := by
        rw [hk]
        exact List.map_erase (fun _ _ => Option.some.inj) ..
      have hmem : key? a ∈ expected.map some := by
        rw [hk]
        exact List.mem_map_of_mem hexpected
      have hrest := ih hall (expected.erase k)
      rw [herase] at hrest
      rcases hrest with ⟨b, hrun, hb⟩ | ⟨hrun, hnone⟩
      · exact .inl ⟨b, hrun, hb.cons hmem⟩
      · exact .inr ⟨hrun, hnone.cons hmem⟩
    · rw [if_neg (by simpa using hexpected)]
      refine .inl ⟨a, rfl, [], items, rfl, fun k => by simp, ?_⟩
      rw [hk, eq_comm, List.map_nil, List.count_nil, List.count_eq_zero]
      simpa using hexpected

theorem sameKeys_iff {others : List α} (h : AllKeyed key? items) (h' : AllKeyed key? others) :
    sameKeys (keyedOnly key? items) (keyedOnly key? others) = true ↔
      Perm (items.map key?) (others.map key?) := by
  rw [← map_some_keyedOnly h, ← map_some_keyedOnly h',
    List.map_perm_map_iff (fun _ _ => Option.some.inj), sameKeys, Bool.and_eq_true,
    decide_eq_true_eq, List.isPerm_iff]
  refine and_iff_right_of_imp fun hperm => ?_
  simpa using hperm.length_eq

end Keys

/-! ### Discrepancies in the order of report -/

def nodeKeys (v : View) : List (Option NodeKey) := v.nodes.map NodeView.key?

def edgeKeys (v : View) : List (Option Scalar) := v.edges.map Json.scalar?

/-- All labels and names can be compared. -/
def Comparable (v : View) : Prop := AllKeyed NodeView.key? v.nodes ∧ AllKeyed Json.scalar? v.edges

instance (v : View) : Decidable v.Comparable :=
  inferInstanceAs (Decidable (AllKeyed NodeView.key? v.nodes ∧ AllKeyed Json.scalar? v.edges))

/-- The same nodes and edges, each as often. -/
def Matches (canonical user : View) : Prop :=
  Perm canonical.nodeKeys user.nodeKeys ∧ Perm canonical.edgeKeys user.edgeKeys

/-- All nodes and edges are there. -/
def Covered (canonical user : View) : Prop :=
  canonical.nodeKeys ⊆ user.nodeKeys ∧ canonical.edgeKeys ⊆ user.edgeKeys

/-- The discrepancy to be named: each case comes after the ones above it. -/
inductive Diagnosis (canonical user : View) : Discrepancy → Prop
  | absentNode {n : NodeView}
      (first : FirstAbsent NodeView.key? user.nodeKeys canonical.nodes n) :
      Diagnosis canonical user ⟨.missingNode, n.label⟩
  | absentEdge {name : Json} (nodes : canonical.nodeKeys ⊆ user.nodeKeys)
      (first : FirstAbsent Json.scalar? user.edgeKeys canonical.edges name) :
      Diagnosis canonical user ⟨.missingEdge, name⟩
  | extraNode {n : NodeView} (covered : canonical.Covered user)
      (first : FirstExcess NodeView.key? canonical.nodeKeys user.nodes n) :
      Diagnosis canonical user ⟨.extraNode, n.label⟩
  | extraEdge {name : Json} (covered : canonical.Covered user)
      (nodes : NoExcess canonical.nodeKeys user.nodeKeys)
      (first : FirstExcess Json.scalar? canonical.edgeKeys user.edges name) :
      Diagnosis canonical user ⟨.extraEdge, name⟩
  | rareNode {n : NodeView} (covered : canonical.Covered user)
      (nodes : NoExcess canonical.nodeKeys user.nodeKeys)
      (edges : NoExcess canonical.edgeKeys user.edgeKeys)
      (first : FirstExcess NodeView.key? user.nodeKeys canonical.nodes n) :
      Diagnosis canonical user ⟨.missingNode, n.label⟩
  | rareEdge {name : Json} (covered : canonical.Covered user)
      (nodes : Perm canonical.nodeKeys user.nodeKeys)
      (edges : NoExcess canonical.edgeKeys user.edgeKeys)
      (first : FirstExcess Json.scalar? user.edgeKeys canonical.edges name) :
      Diagnosis canonical user ⟨.missingEdge, name⟩

variable {canonical user : View} {d : Discrepancy}

theorem not_matches_of_firstAbsent {α κ : Type} {key : α → κ} {others : List κ} {items : List α}
    {a : α} (h : FirstAbsent key others items a) : ¬Perm (items.map key) others := by
  obtain ⟨before, after, rfl, -, ha⟩ := h
  exact fun hperm => ha (hperm.mem_iff.mp (by simp))

theorem not_noExcess_of_firstExcess {α κ : Type} [BEq κ] [LawfulBEq κ] {key : α → κ}
    {others : List κ} {items : List α} {a : α} (h : FirstExcess key others items a) :
    ¬NoExcess others (items.map key) := by
  obtain ⟨before, after, rfl, -, ha⟩ := h
  intro hnone
  have hle := hnone (key a)
  rw [List.map_append, List.map_cons, List.count_append, List.count_cons_self, ha] at hle
  omega

/-- A diagnosis names the label of a node or an edge of one of the views. -/
theorem Diagnosis.exists_name (h : Diagnosis canonical user d) :
    ∃ v, (v = canonical ∨ v = user) ∧ ((∃ n ∈ v.nodes, n.label = d.name) ∨ d.name ∈ v.edges) := by
  cases h with
  | absentNode first => exact ⟨canonical, .inl rfl, .inl ⟨_, first.mem.1, rfl⟩⟩
  | absentEdge _ first => exact ⟨canonical, .inl rfl, .inr first.mem.1⟩
  | extraNode _ first => exact ⟨user, .inr rfl, .inl ⟨_, first.mem, rfl⟩⟩
  | extraEdge _ _ first => exact ⟨user, .inr rfl, .inr first.mem⟩
  | rareNode _ _ _ first => exact ⟨canonical, .inl rfl, .inl ⟨_, first.mem, rfl⟩⟩
  | rareEdge _ _ _ first => exact ⟨canonical, .inl rfl, .inr first.mem⟩

/-- A diagnosis is true: the two views do not match. -/
theorem Diagnosis.not_matches (h : Diagnosis canonical user d) : ¬canonical.Matches user := by
  rintro ⟨hnodes, hedges⟩
  have hle {κ : Type} [BEq κ] [LawfulBEq κ] {keys others : List κ} (hp : Perm keys others) :
      NoExcess others keys := fun k => Nat.le_of_eq (hp.count_eq k)
  cases h with
  | absentNode first => exact not_matches_of_firstAbsent first hnodes
  | absentEdge _ first => exact not_matches_of_firstAbsent first hedges
  | extraNode _ first => exact not_noExcess_of_firstExcess first (hle hnodes.symm)
  | extraEdge _ _ first => exact not_noExcess_of_firstExcess first (hle hedges.symm)
  | rareNode _ _ _ first => exact not_noExcess_of_firstExcess first (hle hnodes)
  | rareEdge _ _ _ first => exact not_noExcess_of_firstExcess first (hle hedges)

/-- The verdict on a view: correct if it matches, else wrong with the discrepancy to be named. -/
inductive Judged (canonical user : View) : Verdict → Prop
  | correct (h : canonical.Matches user) : Judged canonical user .correct
  | wrong {d : Discrepancy} (h : Diagnosis canonical user d) : Judged canonical user (.wrong d)

/-- Where no key is missing altogether, a verdict is given: if nothing is in excess on either side,
the keys occur equally often, and this was asked first. -/
theorem compareCounts_spec (hc : canonical.Comparable) (hu : user.Comparable)
    (hcovered : canonical.Covered user) :
    ∃ verdict, compareCounts (keyedOnly NodeView.key? canonical.nodes)
        (keyedOnly NodeView.key? user.nodes) (keyedOnly Json.scalar? canonical.edges)
        (keyedOnly Json.scalar? user.edges) = .ok verdict ∧ Judged canonical user verdict := by
  have hmatches : (sameKeys (keyedOnly NodeView.key? canonical.nodes)
      (keyedOnly NodeView.key? user.nodes) && sameKeys (keyedOnly Json.scalar? canonical.edges)
      (keyedOnly Json.scalar? user.edges)) = true ↔ canonical.Matches user := by
    rw [Bool.and_eq_true, sameKeys_iff hc.1 hu.1, sameKeys_iff hc.2 hu.2]
    rfl
  rw [compareCounts]
  by_cases h : canonical.Matches user
  · rw [if_pos (hmatches.mpr h)]
    exact ⟨_, rfl, .correct h⟩
  rw [if_neg fun hsame => h (hmatches.mp hsame)]
  have husersExcess := firstSurplus_spec hu.1 ((keyedOnly NodeView.key? canonical.nodes).map Prod.snd)
  have husersExcess' := firstSurplus_spec hu.2 ((keyedOnly Json.scalar? canonical.edges).map Prod.snd)
  have hexcess := firstSurplus_spec hc.1 ((keyedOnly NodeView.key? user.nodes).map Prod.snd)
  have hexcess' := firstSurplus_spec hc.2 ((keyedOnly Json.scalar? user.edges).map Prod.snd)
  rw [map_some_keyedOnly hc.1] at husersExcess
  rw [map_some_keyedOnly hc.2] at husersExcess'
  rw [map_some_keyedOnly hu.1] at hexcess
  rw [map_some_keyedOnly hu.2] at hexcess'
  rcases husersExcess with ⟨n, hrun, hn⟩ | ⟨hrun, hnodes⟩
  · exact ⟨_, by rw [hrun], .wrong (.extraNode hcovered hn)⟩
  rw [hrun]
  rcases husersExcess' with ⟨name, hrun, hname⟩ | ⟨hrun, hedges⟩
  · exact ⟨_, by rw [hrun], .wrong (.extraEdge hcovered hnodes hname)⟩
  rw [hrun]
  rcases hexcess with ⟨n, hrun, hn⟩ | ⟨hrun, hnodes'⟩
  · exact ⟨_, by rw [hrun], .wrong (.rareNode hcovered hnodes hedges hn)⟩
  rw [hrun]
  have hperm : Perm canonical.nodeKeys user.nodeKeys := perm_of_noExcess hnodes' hnodes
  rcases hexcess' with ⟨name, hrun, hname⟩ | ⟨hrun, hedges'⟩
  · exact ⟨_, by rw [hrun], .wrong (.rareEdge hcovered hperm hedges hname)⟩
  · exact absurd ⟨hperm, perm_of_noExcess hedges' hedges⟩ h

/-- A comparison is given up over a value without a key, or it ends with the verdict. -/
theorem compare_spec (canonical user : View) :
    canonical.compare user = .error .unsuitableValue ∧
        ¬(canonical.Comparable ∧ user.Comparable) ∨
      ∃ verdict, canonical.compare user = .ok verdict ∧ Judged canonical user verdict := by
  rw [compare]
  rcases keyed_spec NodeView.key? user.nodes with ⟨hrun, hnot⟩ | ⟨hrun, hkeyed⟩
  · exact .inl ⟨by rw [hrun]; rfl, fun h => hnot h.2.1⟩
  rw [hrun, Outcome.ok_bind]
  have hmissing := firstMissing_spec NodeView.key?
    ((keyedOnly NodeView.key? user.nodes).map Prod.snd) canonical.nodes
  rw [map_some_keyedOnly hkeyed] at hmissing
  rcases hmissing with ⟨hrun, hnot⟩ | ⟨n, hrun, hn⟩ | ⟨hrun, hkeyed', hnodes⟩
  · exact .inl ⟨by rw [hrun]; rfl, fun h => hnot h.1.1⟩
  · exact .inr ⟨_, by rw [hrun]; rfl, .wrong (.absentNode hn)⟩
  rw [hrun, Outcome.ok_bind]
  dsimp only
  rcases keyed_spec Json.scalar? user.edges with ⟨hrun, hnot⟩ | ⟨hrun, hnamed⟩
  · exact .inl ⟨by rw [hrun]; rfl, fun h => hnot h.2.2⟩
  rw [hrun, Outcome.ok_bind]
  have hmissing := firstMissing_spec Json.scalar?
    ((keyedOnly Json.scalar? user.edges).map Prod.snd) canonical.edges
  rw [map_some_keyedOnly hnamed] at hmissing
  rcases hmissing with ⟨hrun, hnot⟩ | ⟨name, hrun, hname⟩ | ⟨hrun, hnamed', hedges⟩
  · exact .inl ⟨by rw [hrun]; rfl, fun h => hnot h.1.2⟩
  · exact .inr ⟨_, by rw [hrun]; rfl, .wrong (.absentEdge hnodes hname)⟩
  rw [hrun, Outcome.ok_bind]
  exact .inr (compareCounts_spec ⟨hkeyed', hnamed'⟩ ⟨hkeyed, hnamed⟩ ⟨hnodes, hedges⟩)

theorem judged_of_compare {verdict : Verdict} (h : canonical.compare user = .ok verdict) :
    Judged canonical user verdict := by
  rcases compare_spec canonical user with ⟨hrun, -⟩ | ⟨given, hrun, hjudged⟩
  · cases h.symm.trans hrun
  · cases h.symm.trans hrun
    exact hjudged

theorem Judged.ok_iff {verdict : Verdict} (h : Judged canonical user verdict) :
    verdict.ok = true ↔ canonical.Matches user := by
  cases h with
  | correct h => exact iff_of_true rfl h
  | wrong h => exact iff_of_false nofun h.not_matches

end View

namespace GraphLike

open View (Diagnosis)

/-- Wherever two views can be formed, the comparison answers: correct exactly if the same keys occur
equally often, else with one discrepancy, the first in the order of report. It never finds itself
without one, and it is given up only over a list or an object where a label or a name should be. -/
theorem check_judged {canonical user : GraphLike} {c u : View} (hc : canonical.view = .ok c)
    (hu : user.view = .ok u) :
    (∃ verdict, canonical.check user = .ok verdict ∧
        (verdict.ok = true ↔ c.nodeKeys.Perm u.nodeKeys ∧ c.edgeKeys.Perm u.edgeKeys) ∧
          ∀ d, verdict = .wrong d → Diagnosis c u d) ∨
      canonical.check user = .error .unsuitableValue ∧ ¬(c.Comparable ∧ u.Comparable) := by
  have hcheck : canonical.check user = c.compare u := by
    rw [check, hc, hu]
    rfl
  rw [hcheck]
  rcases View.compare_spec c u with hgiven | ⟨verdict, hrun, hjudged⟩
  · exact .inr hgiven
  · refine .inl ⟨verdict, hrun, hjudged.ok_iff, fun d hd => ?_⟩
    subst hd
    cases hjudged with
    | wrong h => exact h

/-! A node is drawn twice, and a node is drawn with a list as its label. -/

namespace Sample

def node (id : String) (label : Json) : Json :=
  .ofFields [("id", .string id), ("type", .string "empty"), ("symbolName", label)]

def drawing (nodes : List Json) : GraphLike :=
  .data (.ofFields [("nodes", .list nodes), ("edges", .list [])])

def single : GraphLike := drawing [node "0" (.string "a")]

def doubled : GraphLike := drawing [node "0" (.string "a"), node "1" (.string "a")]

def listed : GraphLike := drawing [node "0" (.string "a"), node "1" (.list [])]

def leaf (label : Json) : NodeView := ⟨.empty, label, .null⟩

end Sample

open Sample

theorem check_judged_sample : single.view = .ok ⟨[leaf (.string "a")], []⟩ ∧
    doubled.view = .ok ⟨[leaf (.string "a"), leaf (.string "a")], []⟩ ∧
      ∃ d, single.check doubled = .ok (.wrong d) := by
  have hsingle : single.view = .ok ⟨[leaf (.string "a")], []⟩ := rfl
  have hdoubled : doubled.view = .ok ⟨[leaf (.string "a"), leaf (.string "a")], []⟩ := rfl
  refine ⟨hsingle, hdoubled, ?_⟩
  rcases check_judged hsingle hdoubled with ⟨verdict, hrun, hok, -⟩ | ⟨-, hnot⟩
  · cases verdict with
    | correct => exact absurd (hok.mp rfl).1.length_eq (by decide)
    | wrong d => exact ⟨d, hrun⟩
  · exact absurd (by decide) hnot

/-- Both views can be formed and the second has one node more, which no verdict reports. -/
theorem check_without_verdict : single.view = .ok ⟨[leaf (.string "a")], []⟩ ∧
    listed.view = .ok ⟨[leaf (.string "a"), leaf (.list [])], []⟩ ∧
      ∀ verdict, single.check listed ≠ .ok verdict := by
  refine ⟨rfl, rfl, fun verdict => ?_⟩
  have hrun : single.check listed = .error .unsuitableValue := rfl
  rw [hrun]
  nofun

end GraphLike

end Lookahead
