import Lookahead.Graph.Comparison
import Lookahead.Proofs.Graph.Reading

/-!
# Spelling what is drawn

A graph given as data is refused over its format, or over a value that cannot be spelled.
The second happens only to data beyond the bounds of spelling, since whatever is spelled
of a drawing lies in the data that it was read from.
-/

namespace Lookahead

open Outcome (Refuses)

/-- A refusal over the format, or over a value that is beyond the bounds of spelling. -/
inductive Fault.OfData (beyond : Prop) : Fault → Prop
  | format (f : FormatFault) : OfData beyond (.format f)
  | unspellable (h : beyond) (e : Json.Excess) : OfData beyond (.unspellable e)

open Fault (OfData)

variable {limits : Json.Limits} {beyond : Prop}

namespace Json

theorem refuses_spellable {v : Json} (hv : ¬v.Fits limits → beyond) :
    Refuses (OfData beyond) (v.spellable limits) := by
  intro f hf
  obtain ⟨hfits, e, rfl⟩ := spellable_eq_error hf
  exact .unspellable (hv hfits) e

/-- Without bounds everything can be spelled. -/
theorem spellable_unlimited (v : Json) : v.spellable {} = .ok () :=
  spellable_eq_ok.mpr v.fits_unlimited

theorem beyond_of_field? {v w : Json} {name : String} (hv : ¬v.Fits limits → beyond)
    (hw : v.field? name = some w) : ¬w.Fits limits → beyond :=
  fun hfits => hv fun h => hfits (h.of_field? hw)

theorem forM_spellable {values : List Json} (h : ∀ v ∈ values, v.Fits limits) :
    values.forM (Json.spellable limits) = .ok () := by
  induction values with
  | nil => rfl
  | cons v values ih =>
    obtain ⟨hv, hvalues⟩ := List.forall_mem_cons.mp h
    rw [List.forM_eq_forM, List.forM_cons, (spellable_eq_ok (a := ())).mpr hv]
    exact ih hvalues

theorem forM_spellable_eq_error {values : List Json} {f : Fault}
    (h : values.forM (Json.spellable limits) = .error f) :
    (∃ v ∈ values, ¬v.Fits limits) ∧ ∃ e, f = .unspellable e := by
  induction values with
  | nil => cases h
  | cons v values ih =>
    rw [List.forM_eq_forM, List.forM_cons] at h
    cases hv : v.spellable limits with
    | error g =>
      rw [hv] at h
      cases h
      obtain ⟨hfits, he⟩ := spellable_eq_error hv
      exact ⟨⟨v, List.mem_cons_self .., hfits⟩, he⟩
    | ok =>
      rw [hv] at h
      obtain ⟨⟨w, hw, hfits⟩, he⟩ := ih h
      exact ⟨⟨w, List.mem_cons_of_mem _ hw, hfits⟩, he⟩

end Json

/-! ### Refusals of data -/

namespace Drawing

theorem refuses_require (v : Json) (field : String) (f : FormatFault) :
    Refuses (OfData beyond) (require v field f) := by
  rw [require]
  split
  · exact .ok _
  · exact .error (.format f)

theorem refuses_readNode {v : Json} (hv : ¬v.Fits limits → beyond) (index : Nat) :
    Refuses (OfData beyond) (readNode limits index v) := by
  refine .guard (.format _) <| .bind (refuses_require _ _ _) fun id hid =>
    .bind (refuses_require _ _ _) fun kind hkind => .bind (refuses_require _ _ _) fun label _ => ?_
  have hid := Json.beyond_of_field? hv (require_eq_ok.mp hid)
  have hkind := Json.beyond_of_field? hv (require_eq_ok.mp hkind)
  refine .bind (Json.refuses_spellable hid) fun _ _ => ?_
  split
  · exact .bind (Json.refuses_spellable hkind) fun _ _ => .error (.format _)
  · exact .ok _

theorem refuses_readNodes {items : List Json} (h : ∀ v ∈ items, ¬v.Fits limits → beyond)
    (index : Nat) (seen : List Text.Loose) :
    Refuses (OfData beyond) (readNodes limits index seen items) := by
  induction items generalizing index seen with
  | nil => exact .ok _
  | cons v items ih =>
    obtain ⟨hv, hitems⟩ := List.forall_mem_cons.mp h
    exact .bind (refuses_readNode hv index) fun n _ => .guard (.format _) <|
      .bind (ih hitems _ _) fun _ _ => .ok _

theorem refuses_checkParents {nodes : List DrawnNode}
    (h : ∀ n ∈ nodes, ∀ parent, n.parent = some parent → ¬parent.Fits limits → beyond)
    (groups : List Text.Loose) : Refuses (OfData beyond) (checkParents limits groups nodes) := by
  induction nodes with
  | nil => exact .ok _
  | cons n nodes ih =>
    obtain ⟨hn, hnodes⟩ := List.forall_mem_cons.mp h
    rw [checkParents]
    split
    · exact ih hnodes
    · rename_i parent hp
      exact .bind (Json.refuses_spellable (hn parent hp)) fun _ _ =>
        .guard (.format _) (ih hnodes)

theorem refuses_readEdge {v : Json} (hv : ¬v.Fits limits → beyond) (index : Nat) :
    Refuses (OfData beyond) (readEdge limits index v) := by
  refine .guard (.format _) <| .bind (refuses_require _ _ _) fun id hid =>
    .bind (refuses_require _ _ _) fun _ _ => .bind (refuses_require _ _ _) fun _ _ => ?_
  have hid := Json.beyond_of_field? hv (require_eq_ok.mp hid)
  exact .bind (Json.refuses_spellable hid) fun _ _ => .ok _

theorem refuses_checkEnd {id : Json} (hid : ¬id.Fits limits → beyond) (nodes : List Text.Loose)
    (e : DrawnEdge) : Refuses (OfData beyond) (checkEnd limits nodes e id) := by
  refine .bind (Json.refuses_spellable hid) fun _ _ => ?_
  split
  · exact .error (.format _)
  · exact .ok _

theorem refuses_readEdges {items : List Json} (h : ∀ v ∈ items, ¬v.Fits limits → beyond)
    (nodes : List Text.Loose) (index : Nat) (seen : List Text.Loose) :
    Refuses (OfData beyond) (readEdges limits nodes index seen items) := by
  induction items generalizing index seen with
  | nil => exact .ok _
  | cons v items ih =>
    obtain ⟨hv, hitems⟩ := List.forall_mem_cons.mp h
    refine .bind (refuses_readEdge hv index) fun e he => .guard (.format _) ?_
    have hsource := Json.beyond_of_field? hv (readEdge_readFrom he).source
    have htarget := Json.beyond_of_field? hv (readEdge_readFrom he).target
    exact .bind (refuses_checkEnd hsource _ _) fun _ _ => .bind (refuses_checkEnd htarget _ _)
      fun _ _ => .bind (ih hitems _ _) fun _ _ => .ok _

theorem refuses_listField (v : Json) (field : String) :
    Refuses (OfData beyond) (listField v field) := by
  rw [listField]
  split
  · exact .ok _
  · exact .ok _
  · exact .error (.format _)

theorem fits_of_listField {v : Json} {field : String} {items : List Json}
    (h : listField v field = .ok items) (hv : v.Fits limits) : ∀ w ∈ items, w.Fits limits := by
  intro w hw
  rcases listField_eq_ok.mp h with hitems | ⟨-, rfl⟩
  · exact (Json.fits_list.mp (hv.of_field? hitems) w hw).fits
  · cases hw

/-- Only data beyond the bounds of spelling is refused for another reason than its format. -/
theorem refuses_ofJson (u : Json) (limits : Json.Limits) :
    Refuses (OfData ¬u.Fits limits) (ofJson u limits) := by
  refine .guard (.format _) <| .bind (refuses_listField _ _) fun rawNodes hnodes =>
    .bind (refuses_listField _ _) fun rawEdges hedges => ?_
  have hitems {field : String} {items : List Json} (hlist : listField u field = .ok items) :
      ∀ v ∈ items, ¬v.Fits limits → ¬u.Fits limits :=
    fun v hv hfits hu => hfits (fits_of_listField hlist hu v hv)
  refine .bind (refuses_readNodes (hitems hnodes) _ _) fun nodes hread => ?_
  have hparents : ∀ n ∈ nodes, ∀ parent, n.parent = some parent →
      ¬parent.Fits limits → ¬u.Fits limits := by
    intro n hn parent hp
    obtain ⟨-, v, hv, hfrom⟩ := (readNodes_spec hread).2 n hn
    exact Json.beyond_of_field? (hitems hnodes v hv) (hfrom.parent parent hp).1
  exact .bind (refuses_checkParents hparents _) fun _ _ =>
    .bind (refuses_readEdges (hitems hedges) _ _ _) fun _ _ => .ok _

/-! ### Labels and names -/

/-- The labels of a drawing can be spelled if the data can. -/
theorem fits_label {u : Json} {d : Drawing} (h : ofJson u limits = .ok d) (hu : u.Fits limits) :
    ∀ n ∈ d.nodes, n.label.Fits limits := by
  simp only [ofJson, Outcome.bind_eq_ok, Outcome.guard_eq_ok, Outcome.pure_eq_ok] at h
  obtain ⟨-, rawNodes, hraw, rawEdges, -, nodes, hnodes, -, -, edges, -, rfl⟩ := h
  intro n hn
  obtain ⟨-, v, hv, hfrom⟩ := (readNodes_spec hnodes).2 n hn
  exact (fits_of_listField hraw hu v hv).of_field? hfrom.label

/-- The names on the edges of a drawing can be spelled if the data can. -/
theorem fits_name {u : Json} {d : Drawing} (h : ofJson u limits = .ok d) (hu : u.Fits limits) :
    ∀ e ∈ d.edges, e.name.Fits limits := by
  simp only [ofJson, Outcome.bind_eq_ok, Outcome.guard_eq_ok, Outcome.pure_eq_ok] at h
  obtain ⟨-, rawNodes, -, rawEdges, hraw, nodes, -, -, -, edges, hedges, rfl⟩ := h
  intro e he
  obtain ⟨-, -, v, hv, hfrom⟩ := (readEdges_spec hedges).2 e he
  rcases hfrom.name with hnull | hname
  · rw [hnull]
    rfl
  · exact (fits_of_listField hraw hu v hv).of_field? hname

end Drawing

namespace View

theorem labelOf_cases (nodes : List DrawnNode) (id : Json) :
    labelOf nodes id = .null ∨ ∃ n ∈ nodes, labelOf nodes id = n.label := by
  rw [labelOf]
  cases hf : nodes.find? fun n => n.id.spelling = id.spelling with
  | none => exact .inl rfl
  | some n => exact .inr ⟨n, List.mem_of_find?_eq_some hf, rfl⟩

theorem fits_labelOf {nodes : List DrawnNode} (h : ∀ n ∈ nodes, n.label.Fits limits) (id : Json) :
    (labelOf nodes id).Fits limits := by
  rcases labelOf_cases nodes id with he | ⟨n, hn, he⟩
  · rw [he]
    rfl
  · rw [he]
    exact h n hn

theorem fits_spelledLabels {d : Drawing} (h : ∀ n ∈ d.nodes, n.label.Fits limits) :
    ∀ v ∈ spelledLabels d, v.Fits limits := by
  intro v hv
  obtain ⟨e, -, hv⟩ := List.mem_flatMap.mp hv
  rcases List.mem_pair.mp hv with rfl | rfl
  · exact fits_labelOf h _
  · exact fits_labelOf h _

end View

/-- A label of a spelled edge is a label of a node. -/
theorem Graph.exists_of_mem_spelledLabels {g : Graph} {v : Json} (h : v ∈ g.spelledLabels) :
    ∃ n ∈ g.nodes, n.label = v := by
  obtain ⟨e, -, h⟩ := List.mem_flatMap.mp h
  obtain ⟨n, hn, rfl⟩ := List.mem_map.mp h
  obtain ⟨id, -, hid⟩ := List.mem_filterMap.mp hn
  exact ⟨n, List.mem_of_find?_eq_some hid, rfl⟩

end Lookahead
