import Lookahead.Proofs.Grammar.Calls
import Lookahead.Proofs.Grammar.Findings
import Lookahead.Proofs.Graph.Laying
import Lookahead.Proofs.Nullability
import Lookahead.Proofs.Propagation.Replay
import Lookahead.Proofs.Tutor.Commit
import Lookahead.Proofs.Tutor.Operations

/-!
# What a tutor keeps in the course of its history

An action of a tutor writes findings to the grammar and nothing else, and on the propagations
of its steps it acts by starts and clicks, whether or not it is refused. So the grammar of a
tutor stays consistent while operations and changes from outside take turns, even where the
steps no longer fit it. And every propagation was started over groups without circles, those
that were active from the beginning have no senders, and all that came after are clicks on it.
-/

namespace Lookahead

open Propagation (Founded)

variable {g : Grammar}

theorem Propagation.founded_of_first {graph : Graph} (h : Graph.first g = .ok graph) :
    Founded graph [] :=
  have ⟨hnodup, hacyclic⟩ := Graph.acyclic_of_first h
  ⟨hnodup, hacyclic, by simp⟩

/-- The groups of the first step that are active from the beginning have no senders in the follow
step. -/
theorem Propagation.founded_of_follow {first graph : Graph} {sets : Assoc String NameSet}
    {start : Graph.FollowSeeds} (h : Graph.follow g first = .ok graph)
    (hstart : Graph.followSeeds first sets graph = .ok start) : Founded graph start.active := by
  obtain ⟨hnodup, hacyclic, hsourceless⟩ := Graph.acyclic_of_follow h
  refine ⟨hnodup, hacyclic, fun id hid a => ?_⟩
  obtain ⟨n, hn, rfl, l, hl⟩ := Graph.carriedGroup_of_mem_active hstart id hid
  exact hsourceless n hn l hl a

/-- Clicks led to it from a start over groups without circles, of which those that were active from
the beginning have no senders. -/
def Propagation.Replayable (p : Propagation) : Prop :=
  ∃ graph seeds ids first, Founded graph ids ∧ start graph seeds ids = .ok first ∧ first.Reached p

theorem Propagation.Replayable.clicked {p q : Propagation} (h : p.Replayable) {c : Click}
    (hq : p.clicked c = .ok q) : q.Replayable := by
  obtain ⟨graph, seeds, ids, first, hfounded, hstart, hreached⟩ := h
  exact ⟨graph, seeds, ids, first, hfounded, hstart, hreached.click c hq⟩

theorem Propagation.replayable_of_start {graph : Graph} {seeds : Assoc String NameSet}
    {ids : List String} {p : Propagation} (h : Founded graph ids)
    (hstart : start graph seeds ids = .ok p) : p.Replayable :=
  ⟨graph, seeds, ids, p, h, hstart, .start⟩

namespace Tutor

variable {t t' : Tutor}

/-! ### Writing follow sets -/

/-- A tutor that differs in follow sets only, each of them kept or one of the given sets. -/
structure Refollowed (sets : List NameSet) (t t' : Tutor) : Prop where
  nullability : t'.nullability = t.nullability
  first : t'.first = t.first
  follow : t'.follow = t.follow
  grammar : FollowsSet t.grammar t'.grammar
  written : ∀ s, t'.grammar.follow s = t.grammar.follow s ∨ t'.grammar.follow s ∈ sets

namespace Refollowed

variable {sets : List NameSet}

theorem refl (sets : List NameSet) (t : Tutor) : Refollowed sets t t :=
  ⟨rfl, rfl, rfl, .refl _, fun _ => .inl rfl⟩

theorem trans {t'' : Tutor} (h : Refollowed sets t t') (h' : Refollowed sets t' t'') :
    Refollowed sets t t'' where
  nullability := h'.nullability.trans h.nullability
  first := h'.first.trans h.first
  follow := h'.follow.trans h.follow
  grammar := h.grammar.trans h'.grammar
  written s := by
    rcases h'.written s with he | hmem
    · rw [he]
      exact h.written s
    · exact .inr hmem

theorem setFollow (t : Tutor) (s : Symbol) {names : NameSet} (hnames : names ∈ sets) :
    Refollowed sets t { t with grammar := t.grammar.setFollow s names } where
  nullability := rfl
  first := rfl
  follow := rfl
  grammar := ⟨Grammar.sameMarks_setFollow _ s names, Grammar.first_setFollow⟩
  written r := by
    rw [Grammar.follow_setFollow]
    split
    · exact .inr hnames
    · exact .inl rfl

end Refollowed

/-- Writing the follow sets of a step goes through, or it stops at a leaf that names no nonterminal
of the grammar; what was written before stays. -/
def Writes (sets : List NameSet) (act : Action Unit) (t : Tutor) : Prop :=
  ∃ t', Refollowed sets t t' ∧
    (act t = .ok () t' ∨ ∃ label, act t = .error (.breach (.leafNotNonterminal label)) t')

namespace Writes

variable {sets : List NameSet}

theorem nothing : Writes sets (pure ()) t := ⟨t, .refl _ t, .inl rfl⟩

theorem bind {act : Action Unit} {rest : Unit → Action Unit} (h : Writes sets act t)
    (hrest : ∀ t', Writes sets (rest ()) t') : Writes sets (act >>= rest) t := by
  obtain ⟨t₁, h₁, hok | ⟨label, herror⟩⟩ := h
  · obtain ⟨t₂, h₂, hok' | ⟨label, herror⟩⟩ := hrest t₁
    · exact ⟨t₂, h₁.trans h₂, .inl (Outcome.run_bind_eq_ok.mpr ⟨(), t₁, hok, hok'⟩)⟩
    · exact ⟨t₂, h₁.trans h₂,
        .inr ⟨label, Outcome.run_bind_eq_error.mpr (.inr ⟨(), t₁, hok, herror⟩)⟩⟩
  · exact ⟨t₁, h₁, .inr ⟨label, Outcome.run_bind_eq_error.mpr (.inl herror)⟩⟩

theorem commitFollowLeaves {names : NameSet} (hnames : names ∈ sets) (leaves : List Node)
    (t : Tutor) : Writes sets (commitFollowLeaves names leaves) t := by
  induction leaves generalizing t with
  | nil => exact nothing
  | cons leaf leaves ih =>
    rw [Tutor.commitFollowLeaves, Writes, Outcome.run_get_bind]
    cases t.grammar.nonterminals.get? (Naming.innerName leaf.label.text) with
    | none => exact ⟨t, .refl _ t, .inr ⟨leaf.label, rfl⟩⟩
    | some s => exact bind ⟨_, .setFollow t s hnames, .inl rfl⟩ ih

theorem commitFollow {p : Propagation} (groups : List Node)
    (hsets : ∀ n ∈ groups, p.computedOf n.id ∈ sets) (t : Tutor) :
    Writes sets (commitFollow p groups) t := by
  induction groups generalizing t with
  | nil => exact nothing
  | cons n groups ih =>
    have hrest := ih fun m hm => hsets m (List.mem_cons_of_mem _ hm)
    rw [Tutor.commitFollow]
    split
    · exact bind (commitFollowLeaves (hsets n (List.mem_cons_self ..)) _ t) hrest
    · exact hrest t

end Writes

/-- The sets that a step has found for its groups. -/
def setsOf (p : Propagation) : List NameSet := p.graph.groups.map fun n => p.computedOf n.id

theorem writes_commit (p : Propagation) (t : Tutor) : Writes (setsOf p) (commit .follow p) t :=
  .commitFollow p.graph.groups
    (fun n hn => List.mem_map.mpr ⟨n, hn, rfl⟩ : ∀ n ∈ p.graph.groups, p.computedOf n.id ∈ setsOf p) t

theorem refollowed_commit (p : Propagation) (t : Tutor) :
    Refollowed (setsOf p) t (left (commit .follow p) t) := by
  obtain ⟨t', hwritten, hok | ⟨label, herror⟩⟩ := writes_commit p t
  · rwa [left_of_ok hok]
  · rwa [left_of_error herror]

/-! ### What actions keep -/

/-- The propagations of the steps that are there. -/
structure Replayable (t : Tutor) : Prop where
  first : ∀ p, t.first = some p → p.Replayable
  follow : ∀ p, t.follow = some p → p.Replayable

theorem Replayable.setStep (h : t.Replayable) (kind : SetKind) {p : Propagation}
    (hp : t.setStep kind = some p) : p.Replayable := by
  cases kind with
  | first => exact h.first p hp
  | follow => exact h.follow p hp

/-- Of the grammar only findings are changed, and the propagations are replayable. -/
structure Evolves (t t' : Tutor) : Prop where
  grammar : t.grammar.Varies t'.grammar
  replayable : t'.Replayable

theorem Evolves.refl (h : t.Replayable) : Evolves t t := ⟨.refl _, h⟩

theorem Evolves.trans {t'' : Tutor} (h : Evolves t t') (h' : Evolves t' t'') : Evolves t t'' :=
  ⟨Grammar.Varies.trans h.grammar h'.grammar, h'.replayable⟩

theorem Replayable.annotate (h : t.Replayable) {g : Grammar} (hg : t.grammar.Varies g) :
    Evolves t { t with grammar := g } :=
  ⟨hg, h.first, h.follow⟩

theorem grammar_putSetStep (t : Tutor) (kind : SetKind) (p : Propagation) :
    (t.putSetStep kind p).grammar = t.grammar := by
  cases kind <;> rfl

theorem Replayable.putSetStep (h : t.Replayable) (kind : SetKind) {p : Propagation}
    (hp : p.Replayable) : Evolves t (t.putSetStep kind p) where
  grammar := by
    rw [grammar_putSetStep]
    exact .refl _
  replayable := by
    cases kind with
    | first => exact ⟨fun _ hq => Option.some.inj hq ▸ hp, h.follow⟩
    | follow => exact ⟨h.first, fun _ hq => Option.some.inj hq ▸ hp⟩

/-- An action leaves a tutor that evolved from the one it was called in, refused or not, and what
it gives is as told. -/
def Keeps {α : Type} (post : α → Prop) (act : Action α) (t : Tutor) : Prop :=
  Evolves t (left act t) ∧ ∀ a t', act t = .ok a t' → post a

namespace Keeps

variable {α β : Type} {P : α → Prop} {Q : β → Prop} {act : Action α} {rest : α → Action β}

theorem pure {a : α} (h : t.Replayable) (ha : P a) : Keeps P (Pure.pure a) t :=
  ⟨.refl h, fun _ _ hrun => (Outcome.run_pure_eq_ok.mp hrun).1 ▸ ha⟩

theorem throw {f : Fault} (h : t.Replayable) : Keeps P (throw f : Action α) t :=
  ⟨.refl h, fun _ _ hrun => (Outcome.run_throw_eq_ok.mp hrun).elim⟩

theorem forget (h : Keeps P act t) : Keeps (fun _ => True) act t := ⟨h.1, fun _ _ _ => trivial⟩

theorem ofExcept {x : Except Fault α} (h : t.Replayable) :
    Keeps (x = .ok ·) (Tutor.ofExcept x) t := by
  cases x with
  | ok a => exact .pure h rfl
  | error f => exact .throw h

theorem get {act : Tutor → Action α} (h : Keeps P (act t) t) :
    Keeps P (MonadState.get >>= act) t := h

theorem modify {change : Tutor → Tutor} (h : Evolves t (change t)) :
    Keeps (fun _ => True) (modify change) t :=
  ⟨h, fun _ _ _ => trivial⟩

theorem bind (h : Keeps P act t)
    (hrest : ∀ a t', t'.Replayable → P a → Keeps Q (rest a) t') :
    Keeps Q (act >>= rest) t := by
  cases hact : act t with
  | ok a t' =>
    have hrun : (act >>= rest) t = rest a t' := by simp only [Bind.bind, EStateM.bind, hact]
    have hkept := h.1
    rw [left_of_ok hact] at hkept
    obtain ⟨hleft, hpost⟩ := hrest a t' hkept.replayable (h.2 a t' hact)
    exact ⟨hkept.trans (by simpa only [left, hrun] using hleft),
      fun b t'' hok => hpost b t'' (hrun.symm.trans hok)⟩
  | error f t' =>
    have hrun : (act >>= rest) t = .error f t' := by simp only [Bind.bind, EStateM.bind, hact]
    have hkept := h.1
    rw [left_of_error hact] at hkept
    exact ⟨by rwa [left_of_error hrun], fun b t'' hok => by cases hrun.symm.trans hok⟩

theorem guard {γ : Type} {c : Prop} [Decidable c] {f : Fault} {refused : γ → Action α}
    (h : t.Replayable) (hact : Keeps P act t) :
    Keeps P (if c then MonadExcept.throw f >>= refused else act) t := by
  by_cases hc : c
  · rw [if_pos hc]
    exact bind (P := fun _ => False) (.throw h) fun _ _ _ hno => hno.elim
  · rwa [if_neg hc]

theorem discard (h : Keeps P act t) : Keeps (fun _ => True) (do let _ ← act) t :=
  h.bind fun _ _ ht _ => .pure ht trivial

theorem onRounds {act : NullabilityStep → Action α} (h : t.Replayable)
    (hact : ∀ step, Keeps P (act step) t) : Keeps (fun _ => True) (Tutor.onRounds act) t := by
  refine .get ?_
  cases t.nullability with
  | none => exact .pure h trivial
  | some step => exact (hact step).discard

theorem onSets {kind : SetKind} {act : Propagation → Action α} (h : t.Replayable)
    (hact : ∀ p, p.Replayable → Keeps P (act p) t) :
    Keeps (fun _ => True) (Tutor.onSets kind act) t := by
  refine .get ?_
  cases hp : t.setStep kind with
  | none => exact .pure h trivial
  | some p => exact (hact p (h.setStep kind hp)).discard

end Keeps

/-! ### Operations -/

section Operations

variable (h : t.Replayable)
include h

theorem keeps_startNullability : Keeps (fun _ => True) startNullability t :=
  .bind (.modify (h.annotate (Grammar.varies_resetAnalysis _))) fun _ _ h _ => .get <|
    .bind (.modify (h.annotate (Nullability.varies_clear _))) fun _ _ h _ =>
    .bind (.ofExcept h) fun _ _ _ _ =>
    .bind (.modify ⟨.refl _, by simp, by simp⟩) fun _ _ h _ => .pure h trivial

theorem keeps_startFirst : Keeps Propagation.Replayable startFirst t :=
  .get <| .guard h <| .bind (.modify (h.annotate (sameMarks_clearFirst _).varies)) fun _ _ h _ =>
    .get <|
    .bind (.ofExcept h) fun _ _ h hgraph => .bind (.ofExcept h) fun _ _ h _ =>
    .bind (.ofExcept h) fun _ _ _ hstart =>
    have hp := Propagation.replayable_of_start (Propagation.founded_of_first hgraph) hstart
    .bind (.modify ⟨.refl _, fun _ hq => Option.some.inj hq ▸ hp, by simp⟩) fun _ _ h _ =>
    .pure h hp

theorem keeps_startFollow : Keeps Propagation.Replayable startFollow t := by
  refine .get ?_
  cases t.first with
  | none => exact .throw h
  | some first =>
    exact .guard h <| .bind (.modify (h.annotate (sameMarks_clearFollow _).varies)) fun _ _ h _ =>
      .get <|
      .bind (.ofExcept h) fun _ _ h hgraph => .bind (.ofExcept h) fun _ _ h hseeds =>
      .bind (.ofExcept h) fun _ _ h hstart =>
      have hfounded := Propagation.founded_of_follow hgraph hseeds
      have hp := Propagation.replayable_of_start hfounded hstart
      .bind (.modify ⟨.refl _, h.first, fun _ hq => Option.some.inj hq ▸ hp⟩) fun _ _ h _ =>
      .pure h hp

theorem keeps_advanceRound (step : NullabilityStep) :
    Keeps (fun _ => True) (advanceRound step) t := by
  refine .guard h ?_
  split
  · exact .bind (.modify ⟨.refl _, h.first, h.follow⟩) fun _ _ h _ => .pure h trivial
  · exact .get <| .bind (.modify ⟨Nullability.varies_advance _ _, h.first, h.follow⟩)
      fun _ _ h _ => .pure h trivial

theorem keeps_solveNullability (step : NullabilityStep) :
    Keeps (fun _ => True) (solveNullability step) t :=
  .get <| .bind (.modify ⟨Nullability.varies_solve _ _, h.first, h.follow⟩) fun _ _ h _ =>
    .pure h trivial

theorem keeps_resetNullability (step : NullabilityStep) :
    Keeps (fun _ => True) (resetNullability step) t :=
  .get <| .modify ⟨Nullability.varies_clear _, h.first, h.follow⟩

theorem keeps_commit (kind : SetKind) (p : Propagation) :
    Keeps (fun _ => True) (commit kind p) t := by
  cases kind with
  | first => exact .modify (h.annotate (sameMarks_commitFirst p _).varies)
  | follow =>
    have hwritten := refollowed_commit p t
    exact ⟨⟨hwritten.grammar.marks.varies, hwritten.first ▸ h.first, hwritten.follow ▸ h.follow⟩,
      fun _ _ _ => trivial⟩

theorem keeps_table : Keeps (fun _ => True) table t :=
  .get <| .guard h <| .forget <| .ofExcept h

theorem keeps_requireCorrect (kind : SetKind) (verdict : Verdict) :
    Keeps (fun _ => True) (requireCorrect kind verdict) t := by
  cases verdict with
  | correct => exact .pure h trivial
  | wrong d => exact .throw h

variable (kind : SetKind) {p : Propagation} (hp : p.Replayable)
include hp

/-- A check that finds the step correct ends it, which is a click as well. -/
theorem keeps_checkSets : Keeps (fun _ => True) (checkSets kind p) t := by
  refine .bind (.ofExcept h) fun verdict t' h hverdict => ?_
  split
  next hcorrect =>
    simp only [Bool.and_eq_true, Verdict.ok_iff] at hcorrect
    have hfinish : p.clicked .finish = .ok { p with finished := true } :=
      Propagation.finish_eq_ok.mpr ⟨hcorrect.1 ▸ hverdict, rfl⟩
    exact .bind (keeps_commit h kind p) fun _ _ h _ =>
      .bind (.modify (h.putSetStep kind (hp.clicked hfinish))) fun _ _ h _ => .pure h trivial
  next => exact .pure h trivial

theorem keeps_settleSets : Keeps (fun _ => True) (settleSets kind p) t :=
  have hsolved := hp.clicked (c := .solve) rfl
  .bind (.modify (h.putSetStep kind hsolved)) fun _ _ h _ => keeps_checkSets h kind hsolved

theorem keeps_solveSets : Keeps (fun _ => True) (solveSets kind p) t :=
  .bind (.modify (h.putSetStep kind (hp.clicked (c := .solve) rfl))) fun _ _ h _ => .pure h trivial

theorem keeps_resetSets : Keeps (fun _ => True) (resetSets kind p) t :=
  .modify (h.putSetStep kind (hp.clicked (c := .reset) rfl))

theorem keeps_click {click : Propagation → Except Fault Propagation} {c : Propagation.Click}
    (hc : p.clicked c = click p) : Keeps (fun _ => True) (Tutor.click kind p click) t :=
  .bind (.ofExcept h) fun _ _ h hq => .modify (h.putSetStep kind (hp.clicked (hc.trans hq)))

end Operations

theorem keeps_solveAll (h : t.Replayable) : Keeps (fun _ => True) solveAll t :=
  .bind (keeps_startNullability h) fun step _ h _ =>
  .bind (keeps_solveNullability h step) fun _ _ h _ =>
  .bind (keeps_startFirst h) fun _ _ h hfirst =>
  .bind (keeps_settleSets h .first hfirst) fun verdict _ h _ =>
  .bind (keeps_requireCorrect h .first verdict) fun _ _ h _ =>
  .bind (keeps_startFollow h) fun _ _ h hfollow =>
  .bind (keeps_settleSets h .follow hfollow) fun verdict _ h _ =>
  .bind (keeps_requireCorrect h .follow verdict) fun _ _ h _ => keeps_table h

theorem keeps_ensureNullability (h : t.Replayable) : Keeps (fun _ => True) ensureNullability t := by
  refine .get ?_
  split
  · exact .bind (keeps_startNullability h) fun step _ h _ => (keeps_solveNullability h step).discard
  · exact .pure h trivial

theorem keeps_emptyGraph (h : t.Replayable) : Keeps (fun _ => True) emptyGraph t := by
  refine .get ?_
  cases t.nullability with
  | none => exact .bind (keeps_startNullability h) fun _ _ h _ => .pure h trivial
  | some step => exact .pure h trivial

theorem keeps_firstGraph (h : t.Replayable) : Keeps (fun _ => True) firstGraph t := by
  refine .get ?_
  cases t.first with
  | none => exact .bind (keeps_startFirst h) fun _ _ h _ => .pure h trivial
  | some p => exact .pure h trivial

theorem keeps_followGraph (h : t.Replayable) : Keeps (fun _ => True) followGraph t := by
  refine .get ?_
  split
  · refine .bind (keeps_startFirst h) fun _ _ h hfirst =>
      .bind (keeps_settleSets h .first hfirst) fun _ _ h _ => .get ?_
    split
    · exact .pure h trivial
    · exact .bind (keeps_startFollow h) fun _ _ h _ => .pure h trivial
  · refine .get ?_
    split
    · exact .pure h trivial
    · exact .bind (keeps_startFollow h) fun _ _ h _ => .pure h trivial

theorem keeps_phaseGraph (h : t.Replayable) (name : String) :
    Keeps (fun _ => True) (phaseGraph name) t := by
  rw [phaseGraph]
  cases GraphPhase.ofName? (Text.lower name) with
  | none => exact .bind (keeps_ensureNullability h) fun _ _ h _ => .throw h
  | some phase =>
    cases phase with
    | empty => exact keeps_emptyGraph h
    | first => exact .bind (keeps_ensureNullability h) fun _ _ h _ => keeps_firstGraph h
    | follow => exact .bind (keeps_ensureNullability h) fun _ _ h _ => keeps_followGraph h

/-- The step lemma: every operation writes findings only, and it acts on the propagations by starts
and clicks. -/
theorem keeps_perform (h : t.Replayable) (op : Operation) :
    Keeps (fun _ => True) (perform op) t := by
  cases op with
  | startNullability => exact (keeps_startNullability h).discard
  | startFirst => exact (keeps_startFirst h).discard
  | startFollow => exact (keeps_startFollow h).discard
  | phaseGraph name => exact (keeps_phaseGraph h name).discard
  | solveAll => exact (keeps_solveAll h).discard
  | table => exact (keeps_table h).discard
  | advanceRound => exact .onRounds h (keeps_advanceRound h)
  | solveRounds => exact .onRounds h (keeps_solveNullability h)
  | resetRounds => exact .onRounds h (keeps_resetNullability h)
  | checkRound marks fixpoint =>
    exact .onRounds (P := fun _ => True) h fun _ => .get <| .pure h trivial
  | activate kind id => exact .onSets h fun _ hp => keeps_click h kind hp (c := .activate id) rfl
  | deactivate kind id =>
    exact .onSets h fun _ hp => keeps_click h kind hp (c := .deactivate id) rfl
  | solve kind => exact .onSets h fun _ hp => keeps_solveSets h kind hp
  | reset kind => exact .onSets h fun _ hp => keeps_resetSets h kind hp
  | check kind => exact .onSets h fun _ hp => keeps_checkSets h kind hp

/-! ### Histories -/

theorem Reached.run (h : Reached t) (ops : List Operation) : Reached (t.run ops) := by
  induction ops generalizing t with
  | nil => exact h
  | cons op ops ih => exact ih (h.operate op)

theorem left_edit (c : Grammar.Change) (t : Tutor) :
    left (edit c.perform) t = { t with grammar := c.left t.grammar } := by
  rw [left, edit, Grammar.Change.left]
  cases c.perform t.grammar <;> rfl

theorem grammar_ofGrammar {g : Grammar} (h : ofGrammar g = .ok t) : t.grammar = g := by
  rw [ofGrammar] at h
  simp only [Outcome.guard_eq_ok, Outcome.bind_eq_ok, Outcome.pure_eq_ok] at h
  obtain ⟨-, _, -, rfl⟩ := h
  rfl

/-- The run lemma for the propagations. -/
theorem Reached.replayable (h : Reached t) : t.Replayable := by
  induction h with
  | new given made =>
    simp only [ofGrammar, Outcome.guard_eq_ok, Outcome.bind_eq_ok, Outcome.pure_eq_ok] at made
    obtain ⟨-, _, -, rfl⟩ := made
    exact ⟨by simp, by simp⟩
  | operate op _ ih => exact (keeps_perform ih op).1.replayable
  | change c _ _ ih =>
    rw [left_edit]
    exact ⟨ih.first, ih.follow⟩

/-- The run lemma for the grammar: it is always consistent. -/
theorem Reached.consistent (h : Reached t) : t.grammar.Consistent := by
  induction h with
  | new given made =>
    rw [grammar_ofGrammar made]
    exact given.consistent
  | operate op h ih => exact Grammar.Varies.consistent (keeps_perform h.replayable op).1.grammar ih
  | change c _ allowed ih =>
    rw [left_edit]
    exact ih.left allowed

end Tutor

end Lookahead
