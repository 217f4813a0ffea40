import Lookahead.Proofs.Graph.Comparison
import Lookahead.Proofs.Graph.Spelling

/-!
# Views of drawings

Data either has the shape of a drawing or is refused. The view of a drawing can be formed if
its labels can be spelled, and it can be compared unless a label, or a name that counts, is a
list or an object.
-/

namespace Lookahead

/-- A list or an object; these cannot be collected. -/
def Json.Composite (v : Json) : Prop := (∃ items, v = .list items) ∨ ∃ fields, v = .object fields

theorem Json.composite_iff {v : Json} : v.Composite ↔ v.scalar? = none := by
  cases v <;> simp [Json.Composite, Json.scalar?]

theorem NodeView.key?_eq_none_iff {n : NodeView} :
    n.key? = none ↔ n.label.Composite ∨ n.parent.Composite := by
  rw [Json.composite_iff, Json.composite_iff, NodeView.key?]
  cases n.label.scalar? with
  | none => simp
  | some label => cases n.parent.scalar? <;> simp

/-- The key of a node holds its label. -/
theorem NodeView.scalar?_label {n : NodeView} {key : NodeKey} (h : n.key? = some key) :
    n.label.scalar? = some key.label := by
  simp only [NodeView.key?, Option.bind_eq_bind, Option.bind_eq_some_iff] at h
  obtain ⟨label, hlabel, parent, -, he⟩ := h
  rw [hlabel, ← Option.some.inj he]

/-- A label, or a name that stands for an edge, has a property. -/
def Drawing.Exhibits (Q : Json → Prop) (d : Drawing) : Prop :=
  (∃ n ∈ d.nodes, Q n.label) ∨ ∃ e ∈ d.edges, e.name.truthy = true ∧ Q e.name

def Graph.Exhibits (Q : Json → Prop) (g : Graph) : Prop := ∃ n ∈ g.nodes, Q n.label

/-- A label that cannot be compared, or a name that stands for an edge and cannot be. -/
def Drawing.Unsuitable (d : Drawing) : Prop := d.Exhibits Json.Composite

def Graph.Unsuitable (g : Graph) : Prop := g.Exhibits Json.Composite

namespace View

theorem not_composite_null : ¬Json.Composite .null := by
  simp [Json.Composite]

/-- The nodes of a drawing can be compared exactly if all its labels can. -/
theorem allKeyed_ofDrawing_iff {d : Drawing} :
    AllKeyed NodeView.key? (ofDrawing d).nodes ↔ ∀ n ∈ d.nodes, ¬n.label.Composite := by
  constructor
  · intro h n hn hlabel
    exact h _ (List.mem_map_of_mem hn) (NodeView.key?_eq_none_iff.mpr (.inl hlabel))
  · intro h v hv hkey
    obtain ⟨n, hn, rfl⟩ := List.mem_map.mp hv
    rcases NodeView.key?_eq_none_iff.mp hkey with hlabel | hparent
    · exact h n hn hlabel
    · cases hp : n.parent with
      | none =>
        rw [hp] at hparent
        exact not_composite_null hparent
      | some parent =>
        rw [hp, Option.elim_some] at hparent
        rcases labelOf_cases d.nodes parent with he | ⟨m, hm, he⟩
        · exact not_composite_null (he ▸ hparent)
        · exact h m hm (he ▸ hparent)

theorem allKeyed_edges_ofDrawing {d : Drawing}
    (h : ∀ e ∈ d.edges, e.name.truthy = true → ¬e.name.Composite) :
    AllKeyed Json.scalar? (ofDrawing d).edges := by
  intro name hname hkey
  obtain ⟨e, he, rfl⟩ := List.mem_map.mp hname
  rw [edgeNameOf] at hkey
  split at hkey
  · rename_i htruthy
    exact h e he htruthy (Json.composite_iff.mpr hkey)
  · cases hkey

theorem comparable_ofDrawing {d : Drawing} (h : ¬d.Unsuitable) : (ofDrawing d).Comparable := by
  rw [Drawing.Unsuitable, Drawing.Exhibits, not_or] at h
  refine ⟨allKeyed_ofDrawing_iff.mpr fun n hn hlabel => h.1 ⟨n, hn, hlabel⟩,
    allKeyed_edges_ofDrawing fun e he htruthy hname => h.2 ⟨e, he, htruthy, hname⟩⟩

theorem comparable_ofGraph {g : Graph} (h : ¬g.Unsuitable) : (ofGraph g).Comparable := by
  constructor
  · intro v hv hkey
    obtain ⟨n, hn, rfl⟩ := List.mem_map.mp hv
    rcases NodeView.key?_eq_none_iff.mp hkey with hlabel | hparent
    · exact h ⟨n, hn, hlabel⟩
    · cases hp : g.parentLabel? n with
      | none =>
        rw [hp] at hparent
        exact not_composite_null hparent
      | some label =>
        rw [hp, Option.getD_some] at hparent
        obtain ⟨id, -, hid⟩ := Option.bind_eq_some_iff.mp hp
        obtain ⟨parent, hparent', he⟩ := Option.bind_eq_some_iff.mp hid
        rw [← Option.some.inj he] at hparent
        exact h ⟨parent, List.mem_of_find?_eq_some hparent', hparent⟩
  · intro name hname hkey
    obtain ⟨text, -, rfl⟩ := List.mem_map.mp hname
    cases hkey

/-! ### What a verdict can name -/

/-- A property that the name of an edge takes over from the labels at its ends. -/
structure Inherited (Q : Json → Prop) : Prop where
  null : ¬Q .null
  empty : ¬Q (.string "")
  join : ∀ {v w : Json}, Q (.string (v.spelling ++ "->" ++ w.spelling)) → Q v ∨ Q w

variable {Q : Json → Prop} {name : Json}

theorem Inherited.exhibits_of_ofGraph (hQ : Inherited Q) {g : Graph} (h : Q name)
    (hname : (∃ n ∈ (ofGraph g).nodes, n.label = name) ∨ name ∈ (ofGraph g).edges) :
    g.Exhibits Q := by
  have hend (id : String) (hid : Q ((g.node? id).elim (.string "") Node.label)) : g.Exhibits Q := by
    cases hn : g.node? id with
    | none =>
      rw [hn] at hid
      exact absurd hid hQ.empty
    | some n =>
      rw [hn] at hid
      exact ⟨n, List.mem_of_find?_eq_some hn, hid⟩
  have hspelling (id : String) :
      ((g.node? id).elim (.string "") Node.label).spelling = g.labelSpelling id := by
    rw [Graph.labelSpelling]
    cases g.node? id <;> rfl
  rcases hname with ⟨v, hv, rfl⟩ | hname
  · obtain ⟨n, hn, rfl⟩ := List.mem_map.mp hv
    exact ⟨n, hn, h⟩
  · obtain ⟨e, -, rfl⟩ := List.mem_map.mp hname
    rw [Graph.edgeSpelling, ← hspelling, ← hspelling] at h
    exact (hQ.join h).elim (hend _) (hend _)

theorem Inherited.exhibits_of_ofDrawing (hQ : Inherited Q) {d : Drawing} (h : Q name)
    (hname : (∃ n ∈ (ofDrawing d).nodes, n.label = name) ∨ name ∈ (ofDrawing d).edges) :
    d.Exhibits Q := by
  have hend (id : Json) (hid : Q (labelOf d.nodes id)) : d.Exhibits Q := by
    rcases labelOf_cases d.nodes id with he | ⟨n, hn, he⟩
    · exact absurd (he ▸ hid) hQ.null
    · exact .inl ⟨n, hn, he ▸ hid⟩
  rcases hname with ⟨v, hv, rfl⟩ | hname
  · obtain ⟨n, hn, rfl⟩ := List.mem_map.mp hv
    exact .inl ⟨n, hn, h⟩
  · obtain ⟨e, he, rfl⟩ := List.mem_map.mp hname
    rw [edgeNameOf] at h
    split at h
    · rename_i htruthy
      exact .inr ⟨e, he, htruthy, h⟩
    · exact (hQ.join h).elim (hend _) (hend _)

/-- What a verdict names has a property only if something that is shown has it. -/
theorem Inherited.exhibits_of_diagnosis (hQ : Inherited Q) {g : Graph} {d : Drawing}
    {δ : Discrepancy} (h : Diagnosis (ofGraph g) (ofDrawing d) δ) (hname : Q δ.name) :
    g.Exhibits Q ∨ d.Exhibits Q := by
  obtain ⟨v, rfl | rfl, hv⟩ := h.exists_name
  · exact .inl (hQ.exhibits_of_ofGraph hname hv)
  · exact .inr (hQ.exhibits_of_ofDrawing hname hv)

end View

namespace Graph

/-- A graph is made of data, or the refusal of the data is handed on. -/
theorem ofJson_cases (u : Json) (phase : String) (limits : Json.Limits) :
    (∃ g, ofJson u phase limits = .ok g) ∨
      ∃ f, ofJson u phase limits = .error f ∧ Fault.OfData (¬u.Fits limits) f := by
  cases hd : Drawing.ofJson u limits with
  | ok d => exact .inl ⟨_, ofJson_eq hd phase⟩
  | error f => exact .inr ⟨f, by rw [ofJson, hd], Drawing.refuses_ofJson u limits f hd⟩

/-- Some label of the graph, or a part of the data, is beyond the bounds of spelling. -/
def Beyond (limits : Json.Limits) (canonical : Graph) (u : Json) : Prop :=
  canonical.Exhibits (¬·.Fits limits) ∨ ¬u.Fits limits

theorem check_eq (canonical : Graph) (u : Json) (limits : Json.Limits) :
    canonical.check u limits = (do
      canonical.spelledLabels.forM (Json.spellable limits)
      let d ← Drawing.ofJson u limits
      (View.spelledLabels d).forM (Json.spellable limits)
      (View.ofGraph canonical).compare (View.ofDrawing d)) := by
  simp only [check, GraphLike.check, GraphLike.view, View.ofJson, bind_assoc, pure_bind]

/-- The views are compared, unless the data is refused or a label cannot be spelled. -/
theorem check_view (canonical : Graph) (u : Json) (limits : Json.Limits) :
    (∃ d, Drawing.ofJson u limits = .ok d ∧
        canonical.check u limits = (View.ofGraph canonical).compare (View.ofDrawing d)) ∨
      (∃ f, Drawing.ofJson u limits = .error f ∧ canonical.check u limits = .error f) ∨
        Beyond limits canonical u ∧ ∃ e, canonical.check u limits = .error (.unspellable e) := by
  rw [check_eq]
  cases hcanonical : canonical.spelledLabels.forM (Json.spellable limits) with
  | error f =>
    obtain ⟨⟨v, hv, hfits⟩, e, rfl⟩ := Json.forM_spellable_eq_error hcanonical
    obtain ⟨n, hn, rfl⟩ := exists_of_mem_spelledLabels hv
    exact .inr (.inr ⟨.inl ⟨n, hn, hfits⟩, e, rfl⟩)
  | ok =>
    rw [Outcome.ok_bind]
    cases hd : Drawing.ofJson u limits with
    | error f => exact .inr (.inl ⟨f, rfl, rfl⟩)
    | ok d =>
      rw [Outcome.ok_bind]
      cases hlabels : (View.spelledLabels d).forM (Json.spellable limits) with
      | error f =>
        obtain ⟨⟨v, hv, hfits⟩, e, rfl⟩ := Json.forM_spellable_eq_error hlabels
        refine .inr (.inr ⟨.inr fun hu => hfits ?_, e, rfl⟩)
        exact View.fits_spelledLabels (Drawing.fits_label hd hu) v hv
      | ok => exact .inl ⟨d, rfl, rfl⟩

/-- Why a comparison with a canonical graph is given up. -/
inductive Hindered (limits : Json.Limits) (canonical : Graph) (u : Json) : Fault → Prop
  /-- A label, or a name that stands for an edge, is a list or an object. -/
  | unsuitable (h : canonical.Unsuitable ∨ ∃ d, Drawing.ofJson u limits = .ok d ∧ d.Unsuitable) :
      Hindered limits canonical u .unsuitableValue
  | unspellable (h : Beyond limits canonical u) (e : Json.Excess) :
      Hindered limits canonical u (.unspellable e)

/-- A comparison gives a verdict, or the format is refused, or the comparison is given up. -/
theorem check_cases (canonical : Graph) (u : Json) (limits : Json.Limits) :
    (∃ verdict, canonical.check u limits = .ok verdict) ∨
      (∃ f, canonical.check u limits = .error (.format f)) ∨
        ∃ f, canonical.check u limits = .error f ∧ Hindered limits canonical u f := by
  rcases check_view canonical u limits with ⟨d, hd, hrun⟩ | ⟨f, hf, hrun⟩ | ⟨hbeyond, e, hrun⟩
  · rcases View.compare_spec (View.ofGraph canonical) (View.ofDrawing d) with
      ⟨hcompare, hnot⟩ | ⟨verdict, hcompare, -⟩
    · refine .inr (.inr ⟨_, hrun.trans hcompare, .unsuitable ?_⟩)
      by_contra hsuitable
      rw [not_or] at hsuitable
      exact hnot ⟨View.comparable_ofGraph hsuitable.1,
        View.comparable_ofDrawing fun h => hsuitable.2 ⟨d, hd, h⟩⟩
    · exact .inl ⟨verdict, hrun.trans hcompare⟩
  · cases Drawing.refuses_ofJson u limits f hf with
    | format f => exact .inr (.inl ⟨f, hrun⟩)
    | unspellable h e => exact .inr (.inr ⟨_, hrun, .unspellable (.inr h) e⟩)
  · exact .inr (.inr ⟨_, hrun, .unspellable hbeyond e⟩)

/-- A verdict is that on the views. -/
theorem judged_of_check {canonical : Graph} {u : Json} {limits : Json.Limits} {verdict : Verdict}
    (h : canonical.check u limits = .ok verdict) : ∃ d, Drawing.ofJson u limits = .ok d ∧
      View.Judged (View.ofGraph canonical) (View.ofDrawing d) verdict := by
  rcases check_view canonical u limits with ⟨d, hd, hrun⟩ | ⟨f, -, hrun⟩ | ⟨-, e, hrun⟩
  · exact ⟨d, hd, View.judged_of_compare (hrun.symm.trans h)⟩
  · cases h.symm.trans hrun
  · cases h.symm.trans hrun

/-- The labels of a drawing are collected before anything is compared, so a list or an object among
them is enough for the comparison to be given up. -/
theorem check_of_composite_label {canonical : Graph} {u : Json} {d : Drawing}
    {limits : Json.Limits} (hd : Drawing.ofJson u limits = .ok d)
    (h : ∃ n ∈ d.nodes, n.label.Composite) :
    ∃ f, canonical.check u limits = .error f ∧ Hindered limits canonical u f := by
  rcases check_view canonical u limits with ⟨d', hd', hrun⟩ | ⟨f, hf, -⟩ | ⟨hbeyond, e, hrun⟩
  · cases hd.symm.trans hd'
    refine ⟨_, hrun.trans ?_, .unsuitable (.inr ⟨d, hd, .inl h⟩)⟩
    obtain ⟨n, hn, hlabel⟩ := h
    rw [View.compare]
    rcases View.keyed_spec NodeView.key? (View.ofDrawing d).nodes with ⟨hkeyed, -⟩ | ⟨-, hkeyed⟩
    · rw [hkeyed]
      rfl
    · exact absurd hlabel (View.allKeyed_ofDrawing_iff.mp hkeyed n hn)
  · cases hd.symm.trans hf
  · exact ⟨_, hrun, .unspellable hbeyond e⟩

/-! Without bounds the views are always formed. -/

theorem view_graph (g : Graph) : (GraphLike.graph g).view = .ok (View.ofGraph g) := by
  rw [GraphLike.view, Json.forM_spellable fun v _ => v.fits_unlimited]
  rfl

theorem view_data {u : Json} {d : Drawing} (h : Drawing.ofJson u = .ok d) :
    (GraphLike.data u).view = .ok (View.ofDrawing d) := by
  rw [GraphLike.view, View.ofJson, h, Outcome.ok_bind,
    Json.forM_spellable fun v _ => v.fits_unlimited]
  rfl

theorem check_of_graph (canonical g : Graph) : GraphLike.check (.graph canonical) (.graph g) =
    (View.ofGraph canonical).compare (View.ofGraph g) := by
  rw [GraphLike.check, view_graph, view_graph]
  rfl

theorem check_of_drawing {canonical : Graph} {u : Json} {d : Drawing}
    (h : Drawing.ofJson u = .ok d) :
    canonical.check u = (View.ofGraph canonical).compare (View.ofDrawing d) := by
  rw [check, GraphLike.check, view_graph, view_data h]
  rfl

end Graph

end Lookahead
