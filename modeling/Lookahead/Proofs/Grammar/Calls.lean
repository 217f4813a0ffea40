import Lookahead.Proofs.Grammar.Rereading
import Lookahead.Proofs.Grammar.Undoing
import Lookahead.Tutor.History

/-!
# What calls lead to

Reading a text or single lines is a row of calls: the production of a line can as well be
added by its name. So every grammar that is given to a tutor is one that calls lead to. No
call gives a symbol a label of its own, so such a grammar shows its symbols by their names.
-/

namespace Lookahead.Grammar

variable {g g' : Grammar} {p : Production}

/-! ### Texts are calls -/

theorem Change.left_eq {c : Change} (h : c.perform g = .ok () g') : c.left g = g' := by
  rw [Change.left, h]

/-- A rule is added by its name as from any text with its sides. -/
theorem addText_name (hp : p.RuleForm) {text : ProductionText} (hsides : p.sides = text.sides) :
    addText p.name = addParsed text := by
  rw [addText, hp.parse_name 1]
  exact addParsed_congr hsides

theorem Reached.addParsed (h : Reached g) {text : ProductionText} (ht : text.Plain)
    (hadd : addParsed text g = .ok p g') : Reached g' := by
  rcases addParsed_cases h.consistent.toMade ht hadd with rfl | ⟨-, hform, hsides, -⟩
  · exact h
  · have hperform : (Change.add p.name).perform g = .ok () g' := by
      apply Outcome.run_bind_eq_ok.mpr
      rw [addText_name hform hsides]
      exact ⟨p, g', hadd, rfl⟩
    rw [← Change.left_eq hperform]
    exact h.step (.add p.name) trivial

theorem Reached.addAll {texts : List ProductionText} (h : Reached g)
    (ht : ∀ text ∈ texts, text.Plain) (hadd : addAll texts g = .ok () g') : Reached g' := by
  induction texts generalizing g with
  | nil =>
    obtain ⟨-, rfl⟩ := Outcome.run_pure_eq_ok.mp hadd
    exact h
  | cons text texts ih =>
    obtain ⟨htext, htexts⟩ := List.forall_mem_cons.mp ht
    obtain ⟨p, mid, hp, hadd⟩ := Outcome.run_bind_eq_ok.mp hadd
    exact ih (h.addParsed htext hp) htexts hadd

theorem Reached.addLines {texts : List String} {line : Nat} {left : Option String}
    (h : Reached g) (hadd : addLines line texts g = .ok left g') : Reached g' := by
  induction texts generalizing g line left with
  | nil =>
    obtain ⟨-, rfl⟩ := Outcome.run_pure_eq_ok.mp hadd
    exact h
  | cons text texts ih =>
    rw [Grammar.addLines] at hadd
    cases hparse : ProductionText.parse text line with
    | error f =>
      rw [hparse] at hadd
      exact (Outcome.run_throw_eq_ok.mp hadd).elim
    | ok t =>
      rw [hparse] at hadd
      obtain ⟨q, mid, hq, hadd⟩ := Outcome.run_bind_eq_ok.mp hadd
      obtain ⟨rest, last, hrest, hlast⟩ := Outcome.run_bind_eq_ok.mp hadd
      obtain ⟨-, rfl⟩ := Outcome.run_pure_eq_ok.mp hlast
      exact ih (h.addParsed (ProductionText.plain_parse hparse) hq) hrest

theorem Reached.setStart {name : String} (h : Reached g) (hset : setStart name g = .ok p g') :
    Reached g' := by
  have hperform : (Change.setStart name).perform g = .ok () g' :=
    Outcome.run_bind_eq_ok.mpr ⟨p, g', hset, rfl⟩
  rw [← Change.left_eq hperform]
  exact h.step (.setStart name) trivial

theorem reached_ofText {text : String} (h : ofText text = .ok g) : Reached g := by
  obtain ⟨source, mid, p, hsource, hall, -, hset⟩ := ofText_eq_ok.mp h
  have hmid : Reached mid := Reached.empty.addAll (GrammarSource.plain_parse hsource) hall
  exact hmid.setStart hset

theorem consistent_ofText {text : String} (h : ofText text = .ok g) : g.Consistent :=
  (reached_ofText h).consistent

theorem reached_ofLines {texts : List String} {start : Option String}
    (h : ofLines texts start = .ok g) : Reached g := by
  rw [ofLines, build_eq_ok, Outcome.run_bind_eq_ok] at h
  obtain ⟨left, mid, hadd, h⟩ := h
  have hmid : Reached mid := Reached.empty.addLines hadd
  have hunset (hrun : (pure () : Edit Unit) mid = .ok () g) : Reached g :=
    (Outcome.run_pure_eq_ok.mp hrun).2 ▸ hmid
  have hset {name : String} (hrun : (do let _ ← setStart name : Edit Unit) mid = .ok () g) :
      Reached g := by
    obtain ⟨p, last, hset, hlast⟩ := Outcome.run_bind_eq_ok.mp hrun
    exact (Outcome.run_pure_eq_ok.mp hlast).2 ▸ hmid.setStart hset
  -- the first left side counts if no name is given or an empty one
  have hleft : (∃ name, start = some name ∧ name ≠ "") ∨ (start = none ∨ start = some "") := by
    cases start with
    | none => exact .inr (.inl rfl)
    | some name => by_cases hn : name = "" <;> simp [hn]
  rcases hleft with ⟨name, rfl, hn⟩ | hstart
  · simp only [hn, if_false] at h
    exact hset h
  · cases left with
    | none => rcases hstart with rfl | rfl <;> exact hunset h
    | some name => rcases hstart with rfl | rfl <;> exact hset h

theorem Given.reached (h : g.Given) : Reached g := by
  cases h with
  | called before => exact before
  | text read => exact reached_ofText read
  | lines read => exact reached_ofLines read

theorem Given.consistent (h : g.Given) : g.Consistent := h.reached.consistent

/-! ### Labels -/

theorem labels_release (g : Grammar) (s : Symbol) : (g.release s).labels = g.labels := by
  unfold release
  dsimp only
  split
  · unfold unregister
    split <;> rfl
  · rfl

theorem labels_foldl {α : Type} {step : Grammar → α → Grammar}
    (hstep : ∀ g a, (step g a).labels = g.labels) (as : List α) (g : Grammar) :
    (as.foldl step g).labels = g.labels := by
  induction as generalizing g with
  | nil => rfl
  | cons a as ih => exact (ih (step g a)).trans (hstep g a)

theorem labels_detach (g : Grammar) (p : Production) : (g.detach p).labels = g.labels := by
  obtain ⟨g', ⟨⟨_, rfl⟩, -⟩, -, heq⟩ := exists_detach_eq g p
  rw [heq, labels_foldl labels_release]

theorem labels_add {q : Production} (h : add p g = .ok q g') : g'.labels = g.labels := by
  obtain ⟨-, -, rfl⟩ := add_eq_ok.mp h
  exact labels_attach p

theorem labels_addParsed {text : ProductionText} (h : addParsed text g = .ok p g') :
    g'.labels = g.labels := by
  rw [addParsed, Outcome.run_get_bind] at h
  cases hlisted : g.productions.get? text.name with
  | some q =>
    rw [hlisted] at h
    obtain ⟨-, rfl⟩ := Outcome.run_pure_eq_ok.mp h
    rfl
  | none =>
    rw [hlisted] at h
    simp only [Outcome.run_bind_eq_ok, Outcome.run_set_eq_ok] at h
    obtain ⟨-, _, rfl, hadd⟩ := h
    exact (labels_add hadd).trans rfl

theorem labels_addText {text : String} (h : addText text g = .ok p g') : g'.labels = g.labels := by
  rw [addText] at h
  cases hparse : ProductionText.parse text with
  | error f =>
    rw [hparse] at h
    exact (Outcome.run_throw_eq_ok.mp h).elim
  | ok t =>
    rw [hparse] at h
    exact labels_addParsed h

theorem labels_remove {u : Unit} (h : remove p g = .ok u g') : g'.labels = g.labels := by
  rw [remove_eq_ok h]
  exact labels_detach g p

theorem labels_removeAll {removed : List Production} {u : Unit}
    (h : removeAll removed g = .ok u g') : g'.labels = g.labels := by
  induction removed generalizing g with
  | nil =>
    obtain ⟨-, rfl⟩ := Outcome.run_pure_eq_ok.mp h
    rfl
  | cons p removed ih =>
    obtain ⟨_, mid, hmid, h⟩ := Outcome.run_bind_eq_ok.mp h
    rw [ih h, labels_remove hmid]

theorem labels_addStart {name : String} (h : addStart name g = .ok p g') :
    g'.labels = g.labels := by
  rw [addStart, Outcome.run_get_bind] at h
  obtain ⟨_, mid, hmid, hadd⟩ := Outcome.run_bind_eq_ok.mp h
  rw [labels_add hadd, ← Outcome.run_set_eq_ok.mp hmid]
  rfl

theorem labels_setStart {name : String} (h : setStart name g = .ok p g') :
    g'.labels = g.labels := by
  rw [setStart, Outcome.run_get_bind] at h
  cases htarget : g.nonterminals.get? name with
  | none =>
    rw [htarget] at h
    exact (Outcome.run_throw_eq_ok.mp h).elim
  | some target =>
    rw [htarget] at h
    obtain ⟨-, h⟩ := Outcome.run_guard_eq_ok.mp h
    cases hold : g.startProduction? with
    | none =>
      rw [hold] at h
      exact labels_addStart (orRestore_eq_ok.mp h)
    | some old =>
      rw [hold] at h
      cases hright : old.right with
      | nil =>
        simp only [hright] at h
        exact (Outcome.run_throw_eq_ok.mp h).elim
      | cons s rest =>
        simp only [hright] at h
        split at h
        · obtain ⟨-, rfl⟩ := Outcome.run_pure_eq_ok.mp h
          rfl
        · obtain ⟨_, mid, hremove, hadd⟩ := Outcome.run_bind_eq_ok.mp (orRestore_eq_ok.mp h)
          rw [labels_addStart hadd, labels_remove hremove]

theorem Change.labels_perform {c : Change} (h : c.perform g = .ok () g') :
    g'.labels = g.labels := by
  cases c with
  | add text =>
    obtain ⟨p, mid, hadd, hlast⟩ := Outcome.run_bind_eq_ok.mp h
    obtain ⟨-, rfl⟩ := Outcome.run_pure_eq_ok.mp hlast
    exact labels_addText hadd
  | remove p => exact labels_remove h
  | setStart name =>
    obtain ⟨p, mid, hset, hlast⟩ := Outcome.run_bind_eq_ok.mp h
    obtain ⟨-, rfl⟩ := Outcome.run_pure_eq_ok.mp hlast
    exact labels_setStart hset
  | reduce =>
    obtain ⟨removed, mid, hreduce, hlast⟩ := Outcome.run_bind_eq_ok.mp h
    obtain ⟨-, rfl⟩ := Outcome.run_pure_eq_ok.mp hlast
    obtain ⟨-, -, -, hremove⟩ := reduce_eq_ok.mp hreduce
    exact labels_removeAll hremove
  | sort =>
    obtain rfl := Outcome.run_modify_eq_ok.mp h
    rfl
  | resetAnalysis =>
    obtain rfl := Outcome.run_modify_eq_ok.mp h
    obtain ⟨_, _, hvaries⟩ := varies_resetAnalysis g
    rw [hvaries]

/-- No symbol is shown by anything but its name. -/
theorem Reached.labels (h : Reached g) : g.labels = {} := by
  induction h with
  | empty => rfl
  | @step g c before allowed ih =>
    rcases before.consistent.perform allowed with ⟨g', hrun, -⟩ | ⟨f, -, hrun⟩
    · rw [Change.left_eq hrun, Change.labels_perform hrun, ih]
    · rw [Change.left, hrun]
      exact ih

end Lookahead.Grammar
