import Lookahead.Graph.Canonical
import Lookahead.Graph.Seeds
import Lookahead.Proofs.Outcome
import Lookahead.Propagation.Basic

/-!
# Refused graphs

A graph, its seeds and its propagation can be refused for any grammar that does not fit the
step before. None of these refusals is a mistake of the user.
-/

namespace Lookahead

/-- A fault that blames what the user did. -/
def Fault.IsMistake (f : Fault) : Prop := ∃ m, f = .mistake m

@[simp]
theorem Fault.not_isMistake_breach (b : Breach) : ¬(Fault.breach b).IsMistake := by
  rintro ⟨_, ⟨⟩⟩

@[simp]
theorem Fault.not_isMistake_unsuitableValue : ¬Fault.unsuitableValue.IsMistake := by
  rintro ⟨_, ⟨⟩⟩

/-- A computation whose refusals never blame the user. -/
def Unblaming {α : Type} (x : Except Fault α) : Prop := Outcome.Refuses (¬·.IsMistake) x

namespace Graph

/-- An edit whose refusals never blame the user. -/
def Edit.Unblaming {α : Type} (edit : Edit α) : Prop :=
  ∀ g f g', edit g = .error f g' → ¬f.IsMistake

namespace Edit.Unblaming

variable {α β : Type} {edit : Edit α}

theorem pure (a : α) : Edit.Unblaming (Pure.pure a) := by
  intro g f g' h
  cases h

theorem throw {f : Fault} (hf : ¬f.IsMistake) : Edit.Unblaming (throw f : Edit α) := by
  intro g f' g' h
  cases h
  exact hf

theorem get : Edit.Unblaming MonadState.get := by
  intro g f g' h
  cases h

theorem set (g : Graph) : Edit.Unblaming (MonadStateOf.set g) := by
  intro g f g' h
  cases h

theorem modify (change : Graph → Graph) : Edit.Unblaming (modify change) := by
  intro g f g' h
  cases h

theorem bind {rest : α → Edit β} (h : edit.Unblaming) (hrest : ∀ a, (rest a).Unblaming) :
    Edit.Unblaming (edit >>= rest) := by
  intro g f g' hrun
  rcases Outcome.run_bind_eq_error.mp hrun with hrun | ⟨a, mid, -, hrun⟩
  · exact h g f g' hrun
  · exact hrest a mid f g' hrun

theorem guard {c : Prop} [Decidable c] {f : Fault} {refused : β → Edit α} (hf : ¬f.IsMistake)
    (h : edit.Unblaming) :
    Edit.Unblaming (if c then MonadExcept.throw f >>= refused else edit) := by
  split
  · intro g f' g' hrun
    rcases Outcome.run_bind_eq_error.mp hrun with hrun | ⟨a, mid, hrun, -⟩
    · exact throw hf g f' g' hrun
    · exact (Outcome.run_throw_eq_ok.mp hrun).elim
  · exact h

end Edit.Unblaming

theorem unblaming_result {α : Type} {edit : Edit α} (h : edit.Unblaming) (g : Graph) :
    Unblaming (edit.result g) := by
  rw [Edit.result]
  cases hrun : edit g with
  | ok a g' => exact .ok g'
  | error f g' => exact .error (h g f g' hrun)

/-! ### Edits -/

theorem unblaming_requireGroup (b : Breach) (id : Option String) :
    Edit.Unblaming (requireGroup b id) := by
  cases id with
  | none => exact .pure _
  | some id =>
    refine .bind .get fun g => ?_
    cases g.node? id with
    | none => exact .throw (by simp)
    | some n =>
      dsimp only
      split
      · exact .pure _
      · exact .throw (by simp)

theorem unblaming_requireNode (id : String) : Edit.Unblaming (requireNode id) := by
  refine .bind .get fun g => ?_
  split
  · exact .throw (by simp)
  · exact .pure _

theorem unblaming_addNode (kind : NodeKind) (label : Json) (group id : Option String) :
    Edit.Unblaming (addNode kind label group id) := by
  have hid : Edit.Unblaming (chooseNodeId id) := by
    cases id with
    | none => exact .bind .get fun g => .bind (.set _) fun _ => .pure _
    | some id => exact .pure _
  exact .bind (unblaming_requireGroup _ _) fun _ => .bind hid fun _ => .bind .get fun g =>
    .guard (by simp) <| .bind (.set _) fun _ => .pure _

theorem unblaming_addEdge (source target : String) (isGroupEdge : Bool) (id : Option String) :
    Edit.Unblaming (addEdge source target isGroupEdge id) := by
  have hid : Edit.Unblaming (chooseEdgeId id) := by
    cases id with
    | none => exact .bind .get fun g => .bind (.set _) fun _ => .pure _
    | some id => exact .pure _
  exact .bind (unblaming_requireNode _) fun _ => .bind (unblaming_requireNode _) fun _ =>
    .bind hid fun _ => .bind .get fun g =>
    .guard (by simp) <| .bind (.set _) fun _ => .pure _

theorem unblaming_setGroups (group : String) (ids : List String) :
    Edit.Unblaming (setGroups group ids) := by
  induction ids with
  | nil => exact .pure _
  | cons id ids ih =>
    refine .bind ?_ fun _ => ih
    exact .bind (unblaming_requireNode id) fun _ => .bind (unblaming_requireGroup _ _) fun _ =>
      .modify _

/-! ### Condensing -/

theorem unblaming_innerNames (labels : List Json) :
    Unblaming (Naming.innerNames labels) := by
  induction labels with
  | nil => exact .ok _
  | cons label labels ih =>
    cases label with
    | string name => exact ih.map
    | _ => exact .error (by simp)

theorem unblaming_addGroup (kind : NodeKind) (ids : List String) :
    Edit.Unblaming (addGroup kind ids) := by
  refine .bind .get fun g => ?_
  cases hname : Naming.group kind (ids.filterMap g.node?) with
  | error f => exact .throw ((unblaming_innerNames _).map f hname)
  | ok name =>
    exact .bind (unblaming_addNode _ _ _ _) fun group =>
      .bind (unblaming_setGroups group.id ids) fun _ => .pure _

theorem unblaming_addGroups (kind : NodeKind) (components : List (List String)) :
    Edit.Unblaming (addGroups kind components) := by
  induction components with
  | nil => exact .pure _
  | cons ids components ih =>
    exact .bind (unblaming_addGroup kind ids) fun _ => .bind ih fun _ => .pure _

theorem unblaming_joinGroups (touched : List String) (joined : List (String × String))
    (edges : List Edge) : Edit.Unblaming (joinGroups touched joined edges) := by
  induction edges generalizing joined with
  | nil => exact .pure _
  | cons e edges ih =>
    refine .bind .get fun g => ?_
    split
    · exact ih joined
    split
    · split
      · exact ih joined
      split
      · split
        · exact ih joined
        · exact .bind (unblaming_addEdge _ _ _ _) fun _ => ih _
      · exact .throw (by simp)
    · exact .throw (by simp)
    · exact .throw (by simp)

theorem unblaming_condense (kind : NodeKind) : Edit.Unblaming (condense kind) := by
  refine .bind .get fun g => ?_
  dsimp only
  split
  · exact .pure _
  · exact .bind (unblaming_addGroups _ _) fun _ => .bind .get fun g =>
      .bind (unblaming_joinGroups _ _ _) fun _ => .pure _

/-! ### The follow step -/

theorem unblaming_link (kind : NodeKind) (seen : List String) (links : List (String × String))
    (g : Graph) : Unblaming (link kind seen links g) := by
  induction links generalizing seen g with
  | nil => exact .ok g
  | cons pair links ih =>
    obtain ⟨source, target⟩ := pair
    rw [link]
    split
    · exact ih seen g
    split
    · exact ih _ _
    · exact .error (by simp)

theorem unblaming_carryLeaves (ids : Assoc String String) (leaves : List Node) (g : Graph) :
    Unblaming (carryLeaves ids leaves g) := by
  induction leaves generalizing g with
  | nil => exact .ok g
  | cons n leaves ih =>
    rw [carryLeaves]
    split
    · exact .error (by simp)
    · exact ih _

theorem unblaming_follow (grammar : Grammar) (first : Graph) :
    Unblaming (Graph.follow grammar first) := by
  refine .bind (unblaming_carryLeaves _ _ _) fun g _ => ?_
  dsimp only
  split
  · exact .error (Fault.not_isMistake_breach _)
  · exact .bind (unblaming_link _ _ _ _) fun g _ => unblaming_result (unblaming_condense .follow) g

theorem unblaming_carriedSeeds (sets : Assoc String NameSet) (follow : Graph)
    (groups : List Node) : Unblaming (carriedSeeds sets follow groups) := by
  induction groups with
  | nil => exact .ok _
  | cons n groups ih =>
    rw [carriedSeeds]
    split
    · exact .error (by simp)
    · exact .bind ih fun _ _ => .ok _

theorem unblaming_followSeeds (first : Graph) (sets : Assoc String NameSet) (follow : Graph) :
    Unblaming (followSeeds first sets follow) := by
  refine .guard (by simp) <| .bind (unblaming_carriedSeeds _ _ _) fun _ _ => ?_
  split
  · exact .error (by simp)
  · exact .ok _

end Graph

namespace Propagation

theorem unblaming_readLinks (graph : Graph) (order : List String)
    (links : List (String × String)) (edges : List Edge) :
    Unblaming (readLinks graph order links edges) := by
  induction edges generalizing links with
  | nil => exact .ok links
  | cons e edges ih =>
    rw [readLinks]
    split
    · exact ih links
    split
    · exact .error (by simp)
    split
    · exact ih links
    · exact ih _

theorem unblaming_start (graph : Graph) (seeds : Assoc String NameSet) (active : List String) :
    Unblaming (start graph seeds active) := by
  refine .bind (unblaming_readLinks _ _ _ _) fun links _ => ?_
  split
  · exact .error (by simp)
  split
  · exact .error (by simp)
  · exact .ok _

end Propagation

end Lookahead
