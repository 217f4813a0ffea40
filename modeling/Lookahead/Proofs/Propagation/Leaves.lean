import Lookahead.Proofs.Graph.Condensed
import Lookahead.Proofs.Propagation.Solution

/-!
# Propagation over condensed graphs

The links between the groups of a condensed graph have no circles, since leaves with ways
there and back lie in one group. With all groups active the sets are the least ones, leaf
by leaf, that contain the seeds and are passed on along the edges.
-/

namespace Lookahead.Propagation

open Lookahead.Digraph (Reaches Mutual)
open Lookahead.Graph (LeafIn Condensed)
open Relation (TransGen ReflTransGen)

variable {p : Propagation} {graph : Graph} {seeds : Assoc String NameSet} {ids : List String}
  {leaves : List String} {edges : List (String × String)}

theorem mem_links_iff (h : graph.Condensed leaves edges) (hp : p.Over graph seeds ids)
    {a b : String} : (a, b) ∈ p.links ↔
      a ≠ b ∧ ∃ s t, (s, t) ∈ edges ∧ graph.LeafIn s a ∧ graph.LeafIn t b := by
  rw [hp.mem_links, h.joined]
  constructor
  · exact fun h => h.2
  · exact fun h => ⟨h.1, h⟩

/-- From every leaf of a group that a link leads into there are ways along the links. -/
theorem reaches_of_links (h : graph.Condensed leaves edges) (hp : p.Over graph seeds ids)
    {q a b : String} (hq : (q, a) ∈ p.links)
    (hab : ReflTransGen (fun a b => (a, b) ∈ p.links) a b) {s t : String}
    (hs : graph.LeafIn s a) (ht : graph.LeafIn t b) : Reaches edges s t := by
  induction hab generalizing t with
  | refl =>
    obtain ⟨_, r, u, hru, _, hu⟩ := (mem_links_iff h hp).mp hq
    exact (h.coherent hru hu hs).2.trans (h.coherent hru hu ht).1
  | tail _ hstep ih =>
    obtain ⟨_, r, u, hru, hr, hu⟩ := (mem_links_iff h hp).mp hstep
    exact (ih hr).trans (.head hru (h.coherent hru hu ht).1)

theorem acyclic_of_condensed (h : graph.Condensed leaves edges) (hp : p.Over graph seeds ids) :
    p.Acyclic := by
  intro a hcycle
  obtain ⟨c, hac, hca⟩ := Relation.TransGen.tail'_iff.mp hcycle
  obtain ⟨d, had, hda⟩ := Relation.TransGen.head'_iff.mp hcycle
  obtain ⟨hne, s, t, hst, hs, ht⟩ := (mem_links_iff h hp).mp had
  have hback : Reaches edges t s := reaches_of_links h hp had hda ht hs
  exact hne (h.separate hs ht ⟨.single hst, hback⟩)

/-- Sets are passed on along the edges. -/
theorem computedOf_subset_of_edge (h : graph.Condensed leaves edges)
    (hp : p.Over graph seeds ids) (hsteady : p.Steady) (ha : p.AllActive) {s t a b x : String}
    (hst : (s, t) ∈ edges) (hs : graph.LeafIn s a) (ht : graph.LeafIn t b)
    (hx : x ∈ p.computedOf a) : x ∈ p.computedOf b := by
  by_cases hab : a = b
  · exact hab ▸ hx
  · have hl : (a, b) ∈ p.links := (mem_links_iff h hp).mpr ⟨hab, s, t, hst, hs, ht⟩
    exact (mem_computedOf_iff hsteady.current ha (hsteady.wired.target_mem _ hl)).mpr (.inr ⟨a, hl, hx⟩)

theorem seedOf_subset (hsteady : p.Steady) (ha : p.AllActive) {b x : String} (hb : b ∈ p.order)
    (hx : x ∈ p.seedOf b) : x ∈ p.computedOf b :=
  (mem_computedOf_iff hsteady.current ha hb).mpr (.inl hx)

/-- What holds of the seeds and is passed on along the edges holds of the sets. -/
theorem of_mem_computedOf_leaf (h : graph.Condensed leaves edges) (hp : p.Over graph seeds ids)
    (hsteady : p.Steady) (ha : p.AllActive) {motive : String → String → Prop}
    (seed : ∀ {label b x}, graph.LeafIn label b → x ∈ p.seedOf b → motive label x)
    (edge : ∀ {s t x}, (s, t) ∈ edges → motive s x → motive t x) {label b x : String}
    (hl : graph.LeafIn label b) (hx : x ∈ p.computedOf b) : motive label x := by
  have hb : b ∈ p.order := by
    rw [hp.order_eq]
    exact (h.mem_leaves hl).2
  refine of_mem_computedOf (motive := fun b x => ∀ label, graph.LeafIn label b → motive label x)
    hsteady.current ha (acyclic_of_condensed h hp) ?_ ?_ hb hx label hl
  · exact fun b _ x hx label hl => seed hl hx
  · intro a b x hab hall label hl
    obtain ⟨_, s, t, hst, hs, ht⟩ := (mem_links_iff h hp).mp hab
    -- the set reaches one leaf of the group directly and the others from there
    have hway : Reaches edges t label := (h.coherent hst ht hl).1
    have hpass : ∀ {u}, Reaches edges t u → motive u x := by
      intro u hu
      induction hu with
      | refl => exact edge hst (hall s hs)
      | tail _ hstep ih => exact edge hstep ih
    exact hpass hway

end Lookahead.Propagation
