import Lookahead.Command.Run
import Lookahead.Proofs.Graph.Drawing
import Lookahead.Proofs.Json.Reading

/-!
# Answers to drawings

Whatever value is handed in as a drawing, it is read as a graph or refused over its
format, and the comparison with a canonical graph gives a verdict or refuses the format.
It is given up over a list or an object where a label or a name should be, and over a value
beyond the bounds of spelling. The command that compares a drawing answers with an exit code
for it, unless the comparison is given up or the verdict cannot be printed. The bytes of a
file are its drawing if they are a text and keep to the bounds of reading.
-/

namespace Lookahead

/-- The whole spelling is characters. -/
def Json.Printable (v : Json) : Prop := v.spelling.tail = []

open Text.Loose (tail_append_eq_nil)
open View (Inherited)

theorem inherited_not_fits (limits : Json.Limits) : Inherited (¬·.Fits limits) where
  null h := h rfl
  empty h := h rfl
  join h := absurd rfl h

theorem inherited_not_printable : Inherited (¬·.Printable) where
  null h := h rfl
  empty h := h rfl
  join {v w} h := by
    by_contra hnot
    rw [not_or, not_not, not_not] at hnot
    obtain ⟨hv, hw⟩ := hnot
    exact h (tail_append_eq_nil.mpr ⟨tail_append_eq_nil.mpr ⟨hv, rfl⟩, hw⟩)

theorem Discrepancy.tail_wording {d : Discrepancy} (h : d.name.Printable) :
    d.wording.tail = [] := by
  have hbefore (s : String) : ((s : Text.Loose) ++ d.name.spelling).tail = [] :=
    tail_append_eq_nil.mpr ⟨rfl, h⟩
  have haround (s t : Text.Loose) (hs : s.tail = []) (ht : t.tail = []) :
      (s ++ d.name.spelling ++ t).tail = [] :=
    tail_append_eq_nil.mpr ⟨tail_append_eq_nil.mpr ⟨hs, h⟩, ht⟩
  rw [wording]
  cases d.kind with
  | missingNode | missingEdge | extraNode | extraEdge => exact hbefore _
  | wrongNullability | inactiveNode | staleSet => exact haround _ _ rfl rfl
  | fixpointMismatch =>
    dsimp only
    split <;> rfl

namespace Command

variable {m : Type → Type} [Monad m] [LawfulMonad m] {α β : Type}

/-! ### Steps of a session -/

theorem run_bind {x : Session m α} {f : α → Session m β} {a : α} {s s' : Transcript}
    (h : x.run.run s = pure (.ok a, s')) : (x >>= f).run.run s = (f a).run.run s' := by
  simp [ExceptT.run_bind, StateT.run_bind, h]

theorem run_bind_error {x : Session m α} {f : α → Session m β} {e : Failure} {s s' : Transcript}
    (h : x.run.run s = pure (.error e, s')) : (x >>= f).run.run s = pure (.error e, s') := by
  simp [ExceptT.run_bind, StateT.run_bind, h]

/-- What follows a step that only asks the outside for something depends on the answer. -/
theorem run_bind_map {γ : Type} {x : Session m α} {f : α → Session m β} {s : Transcript} {y : m γ}
    {g : γ → Except Failure α × Transcript} (h : x.run.run s = g <$> y) :
    (x >>= f).run.run s = y >>= fun c => match g c with
      | (.ok a, s') => (f a).run.run s'
      | (.error e, s') => pure (.error e, s') := by
  simp only [ExceptT.run_bind, StateT.run_bind, h, map_eq_pure_bind, bind_assoc, pure_bind]
  congr 1
  funext c
  rcases g c with ⟨⟨⟩, s'⟩ <;> rfl

theorem run_note (line : String) (s : Transcript) : (note line : Session m Unit).run.run s =
    pure (.ok (), { s with noted := s.noted ++ [line] }) := by
  change (Except.ok <$> (modify _ : StateT Transcript m Unit)).run s = _
  simp

theorem run_print (line : Text.Loose) (s : Transcript) :
    (print line : Session m Unit).run.run s =
      pure (match s.print line with
        | .ok t => (.ok (), t)
        | .error f => (.error f, s)) := by
  have hget : (get : Session m Transcript).run.run s = pure (.ok s, s) := by
    change (Except.ok <$> (get : StateT Transcript m Transcript)).run s = _
    simp
  have hset (t : Transcript) : (set t : Session m Unit).run.run s = pure (.ok (), t) := by
    change (Except.ok <$> (set t : StateT Transcript m PUnit)).run s = _
    simp
  rw [print, run_bind hget]
  cases s.print line with
  | ok t => rw [run_bind (a := t) rfl, hset]
  | error f => exact run_bind_error rfl

/-- A line is printed before a command comes to its end, unless it holds halves. -/
theorem run_print_code (line : Text.Loose) (code : Nat) (s : Transcript) :
    ∃ outcome, (do print line; return code : Session m Nat).run.run s = pure outcome ∧
      (outcome.1 = .ok code ∨ line.tail ≠ [] ∧ outcome.1 = .error (.unprintable line)) := by
  have hprint := run_print (m := m) line s
  cases htail : line.tail with
  | nil =>
    rw [Transcript.print, htail] at hprint
    exact ⟨_, run_bind hprint, .inl rfl⟩
  | cons half rest =>
    rw [Transcript.print, htail] at hprint
    exact ⟨_, run_bind_error hprint, .inr ⟨List.cons_ne_nil _ _, rfl⟩⟩

/-! ### Answers -/

/-- The command ends with one of the exit codes for a drawing that can be read or not. -/
def Answered (outcome : Except Failure Nat × Transcript) : Prop :=
  outcome.1 = .ok success ∨ outcome.1 = .ok mistaken ∨
    ∃ f, outcome.1 = .error f ∧ (conclude outcome.2 f).1 = .exit unreadable

/-- Why a drawing that was read gets no answer. -/
inductive Unjudged (canonical : Graph) (u : Json) : Failure → Prop
  /-- A label, or a name that stands for an edge, is a list or an object. -/
  | unsuitable (h : canonical.Unsuitable ∨
        ∃ d, Drawing.ofJson u Json.readingLimits = .ok d ∧ d.Unsuitable) :
      Unjudged canonical u (.fault .unsuitableValue)
  /-- A label of the canonical graph is beyond the bounds; no part of the drawing is. -/
  | unspellable (h : canonical.Exhibits (¬·.Fits Json.readingLimits)) (e : Json.Excess) :
      Unjudged canonical u (.fault (.unspellable e))
  /-- The verdict names something with half of a surrogate pair in it. -/
  | unprintable (h : canonical.Exhibits (¬·.Printable) ∨
        ∃ d, Drawing.ofJson u Json.readingLimits = .ok d ∧ d.Exhibits (¬·.Printable))
      (line : Text.Loose) : Unjudged canonical u (.unprintable line)

/-- Why the bytes of a file get no answer. -/
inductive Unanswered (canonical : Graph) (bytes : ByteArray) : Failure → Prop
  | notText (h : String.fromUTF8? bytes = none) : Unanswered canonical bytes .notText
  /-- A number is too long, or lists and objects lie too deep inside each other. -/
  | beyond {source : List Char} {f : Json.ReadFault} (hsource : textOf bytes = .ok source)
      (hread : Json.read source = .error f) (hf : f = .tooDeep ∨ ∃ digits, f = .tooLong digits) :
      Unanswered canonical bytes (.notJson source f)
  | unjudged {u : Json} {f : Failure} (hu : drawingOf bytes = .ok u)
      (h : Unjudged canonical u f) : Unanswered canonical bytes f

/-- A verdict that names something unsuitable for a line is about a label or a name that is. -/
theorem exhibits_of_check {Q : Json → Prop} (hQ : Inherited Q) {canonical : Graph} {u : Json}
    {limits : Json.Limits} {d : Discrepancy} (h : canonical.check u limits = .ok (.wrong d))
    (hname : Q d.name) :
    canonical.Exhibits Q ∨ ∃ d, Drawing.ofJson u limits = .ok d ∧ d.Exhibits Q := by
  obtain ⟨drawing, hdrawing, hjudged⟩ := Graph.judged_of_check h
  cases hjudged with
  | wrong hdiagnosis =>
    exact (hQ.exhibits_of_diagnosis hdiagnosis hname).imp_right fun h => ⟨drawing, hdrawing, h⟩

/-- A comparison that gives no verdict either refuses the format, which is answered, or is given up.
A drawing within the bounds of reading is never the reason that something cannot be spelled. -/
theorem answered_or_unjudged {canonical : Graph} {u : Json} (hu : u.Fits Json.readingLimits)
    {f : Fault} (hcheck : canonical.check u Json.readingLimits = .error f) (before : Transcript) :
    Answered (.error (.fault f), before) ∨ Unjudged canonical u (.fault f) := by
  rcases Graph.check_cases canonical u Json.readingLimits with
    ⟨verdict, hrun⟩ | ⟨g, hrun⟩ | ⟨g, hrun, hhindered⟩
  · cases hcheck.symm.trans hrun
  · cases hcheck.symm.trans hrun
    exact .inl (.inr (.inr ⟨_, rfl, rfl⟩))
  · cases hcheck.symm.trans hrun
    cases hhindered with
    | unsuitable h => exact .inr (.unsuitable h)
    | unspellable h e => exact .inr (.unspellable (h.resolve_right (not_not_intro hu)) e)

/-- A verdict is told, unless the line for it cannot be spelled or printed. -/
theorem run_announce (phase : GraphPhase) {canonical : Graph} {u : Json}
    (hu : u.Fits Json.readingLimits) {verdict : Verdict}
    (hcheck : canonical.check u Json.readingLimits = .ok verdict) (s : Transcript) :
    ∃ outcome, (announce phase verdict : Session m Nat).run.run s = pure outcome ∧
      (Answered outcome ∨ ∃ f, outcome.1 = .error f ∧ Unjudged canonical u f) := by
  cases verdict with
  | correct =>
    obtain ⟨outcome, hrun, hok | ⟨htail, -⟩⟩ := run_print_code (m := m)
      ("[CHECK OK] phase=" ++ phase.name ++ " " ++ Verdict.correct.message) success s
    · exact ⟨outcome, hrun, .inl (.inl hok)⟩
    · exact absurd rfl htail
  | wrong d =>
    rw [announce]
    cases hspellable : d.name.spellable Json.readingLimits with
    | error f =>
      refine ⟨_, run_bind_error rfl, .inr ⟨_, rfl, ?_⟩⟩
      obtain ⟨hfits, e, rfl⟩ := Json.spellable_eq_error hspellable
      rcases exhibits_of_check (inherited_not_fits _) hcheck hfits with h | ⟨drawing, hdrawing, h⟩
      · exact .unspellable h e
      · rcases h with ⟨n, hn, hlabel⟩ | ⟨edge, hedge, -, hname⟩
        · exact absurd (Drawing.fits_label hdrawing hu n hn) hlabel
        · exact absurd (Drawing.fits_name hdrawing hu edge hedge) hname
    | ok =>
      obtain ⟨outcome, hrun, houtcome⟩ :=
        run_print_code (m := m) ("[MISTAKE] " ++ d.wording) mistaken s
      refine ⟨outcome, (run_bind (a := ()) rfl).trans hrun, ?_⟩
      rcases houtcome with hok | ⟨htail, herror⟩
      · exact .inl (.inr (.inl hok))
      · have hname : ¬d.name.Printable :=
          fun h => htail (tail_append_eq_nil.mpr ⟨rfl, d.tail_wording h⟩)
        have hshown := exhibits_of_check inherited_not_printable hcheck hname
        exact .inr ⟨_, herror, .unprintable hshown _⟩

/-- A drawing that keeps to the bounds of reading is judged, or there is a reason. -/
theorem run_judge (c : Command) (phase : GraphPhase) (canonical : Graph) {u : Json}
    (hu : u.Fits Json.readingLimits) (before : Transcript) :
    ∃ outcome, (judge c phase canonical u : Session m Nat).run.run before = pure outcome ∧
      (Answered outcome ∨ ∃ f, outcome.1 = .error f ∧ Unjudged canonical u f) := by
  rw [judge]
  cases hcheck : canonical.check u Json.readingLimits with
  | error f =>
    refine ⟨(.error (.fault f), before), run_bind_error rfl, ?_⟩
    exact (answered_or_unjudged hu hcheck before).imp_right fun h => ⟨_, rfl, h⟩
  | ok verdict =>
    rw [run_bind (a := verdict) rfl]
    dsimp only
    split
    · rw [run_bind (run_note ..)]
      exact run_announce phase hu hcheck _
    · exact run_announce phase hu hcheck _

/-! ### Files -/

/-- What the answer of the file system stands for. -/
def drawingFrom (answer : Except Files.Fault ByteArray) : Except Failure Json :=
  answer.mapError .file >>= drawingOf

theorem run_readBytes (files : Files.Access m) (path : String) (s : Transcript) :
    (readBytes files path).run.run s =
      (fun answer => (answer.mapError Failure.file, s)) <$> files.read (.ofString path) := by
  have hlift : (ExceptT.lift (StateT.lift (files.read (.ofString path))) :
      Session m (Except Files.Fault ByteArray)).run.run s =
        (fun answer => (.ok answer, s)) <$> files.read (.ofString path) := by
    simp
  rw [readBytes, run_bind_map hlift, map_eq_pure_bind]
  congr 1
  funext answer
  cases answer <;> rfl

theorem run_readDrawing (files : Files.Access m) (path : String) (s : Transcript) :
    (readDrawing files (some path)).run.run s =
      (fun answer => (drawingFrom answer, s)) <$> files.read (.ofString path) := by
  rw [readDrawing, run_bind_map (run_readBytes files path s), map_eq_pure_bind]
  congr 1
  funext answer
  cases answer with
  | error f => rfl
  | ok bytes =>
    change (MonadExcept.ofExcept (drawingOf bytes) : Session m Json).run.run s =
      pure (drawingOf bytes, s)
    cases drawingOf bytes <;> rfl

/-- The bytes of a file are read as a drawing, or they are answered as malformed, or they are out of
reach. -/
theorem drawingOf_cases (canonical : Graph) (bytes : ByteArray) (before : Transcript) :
    (∃ u, drawingOf bytes = .ok u ∧ u.Fits Json.readingLimits) ∨
      ∃ f, drawingOf bytes = .error f ∧
        (Answered (.error f, before) ∨ Unanswered canonical bytes f) := by
  rw [drawingOf]
  cases hsource : textOf bytes with
  | error f =>
    refine .inr ⟨f, rfl, .inr ?_⟩
    rw [textOf] at hsource
    split at hsource
    · rename_i htext
      cases hsource
      exact .notText htext
    · cases hsource
  | ok source =>
    rw [Outcome.ok_bind]
    cases hread : Json.read source with
    | ok u => exact .inl ⟨u, rfl, Json.fits_of_read hread⟩
    | error f =>
      refine .inr ⟨.notJson source f, rfl, ?_⟩
      cases f with
      | malformed kind position => exact .inl (.inr (.inr ⟨_, rfl, rfl⟩))
      | tooLong digits => exact .inr (.beyond hsource hread (.inr ⟨digits, rfl⟩))
      | tooDeep => exact .inr (.beyond hsource hread (.inl rfl))

theorem run_verify (files : Files.Access m) (c : Command) {phase : GraphPhase} (path : String)
    {t t' : Tutor} {canonical : Graph} (hgraph : Tutor.graphOf phase t = .ok canonical t')
    (before : Transcript) :
    ∃ outcome : Except Files.Fault ByteArray → Except Failure Nat × Transcript,
      (verify files c phase (some path) t).run.run before =
          outcome <$> files.read (.ofString path) ∧
        ∀ bytes, Answered (outcome (.ok bytes)) ∨
          ∃ f, (outcome (.ok bytes)).1 = .error f ∧ Unanswered canonical bytes f := by
  have hanswer (answer : Except Files.Fault ByteArray) :
      ∃ outcome, (match drawingFrom answer with
          | .ok u => (judge c phase canonical u : Session m Nat).run.run before
          | .error f => pure (.error f, before)) = pure outcome ∧
        ∀ bytes, answer = .ok bytes →
          Answered outcome ∨ ∃ f, outcome.1 = .error f ∧ Unanswered canonical bytes f := by
    cases answer with
    | error f => exact ⟨_, rfl, nofun⟩
    | ok bytes =>
      rw [show drawingFrom (.ok bytes) = drawingOf bytes from rfl]
      rcases drawingOf_cases canonical bytes before with ⟨u, hu, hfits⟩ | ⟨f, hf, hcases⟩
      · rw [hu]
        obtain ⟨outcome, hrun, houtcome⟩ := run_judge (m := m) c phase canonical hfits before
        refine ⟨outcome, hrun, ?_⟩
        rintro _ ⟨⟩
        exact houtcome.imp_right fun ⟨f, hf, h⟩ => ⟨f, hf, .unjudged hu h⟩
      · rw [hf]
        refine ⟨_, rfl, ?_⟩
        rintro _ ⟨⟩
        exact hcases.imp_right fun h => ⟨f, rfl, h⟩
  choose outcome hrun houtcome using hanswer
  refine ⟨outcome, ?_, fun bytes => houtcome _ bytes rfl⟩
  rw [verify, hgraph, run_bind (a := (canonical, t')) rfl,
    run_bind_map (run_readDrawing files path before), map_eq_pure_bind]
  congr 1
  funext answer
  rw [← hrun answer]
  cases drawingFrom answer <;> rfl

/-! ### Every value is answered -/

/-- Every value is a graph or is refused over its format, unless a part of it is beyond the bounds
of spelling. Every comparison gives a verdict, refuses the format or is given up over an unsuitable
label or name, which a node with such a label makes sure of, or over something beyond the bounds.
The command answers every file with 0, 1 or 2 unless its bytes are no text or go beyond the bounds
of reading, or its comparison is given up, or its verdict names something that cannot be printed. -/
theorem answers_to_drawings :
    (∀ (u : Json) (phase : String) (limits : Json.Limits),
      (∃ g, Graph.ofJson u phase limits = .ok g) ∨
        (∃ f, Graph.ofJson u phase limits = .error (.format f)) ∨
          ¬u.Fits limits ∧ ∃ e, Graph.ofJson u phase limits = .error (.unspellable e)) ∧
    (∀ (canonical : Graph) (u : Json) (limits : Json.Limits),
      (∃ verdict, canonical.check u limits = .ok verdict) ∨
        (∃ f, canonical.check u limits = .error (.format f)) ∨
          ∃ f, canonical.check u limits = .error f ∧ Graph.Hindered limits canonical u f) ∧
    (∀ (canonical : Graph) (u : Json) (limits : Json.Limits) (d : Drawing),
      Drawing.ofJson u limits = .ok d → (∃ n ∈ d.nodes, n.label.Composite) →
        ∃ f, canonical.check u limits = .error f ∧ Graph.Hindered limits canonical u f) ∧
    ∀ (files : Files.Access m) (c : Command) (phase : GraphPhase) (path : String) (t t' : Tutor)
      (canonical : Graph) (before : Transcript),
      Tutor.graphOf phase t = .ok canonical t' →
      ∃ outcome : Except Files.Fault ByteArray → Except Failure Nat × Transcript,
        (verify files c phase (some path) t).run.run before =
            outcome <$> files.read (.ofString path) ∧
          ∀ bytes, Answered (outcome (.ok bytes)) ∨
            ∃ f, (outcome (.ok bytes)).1 = .error f ∧ Unanswered canonical bytes f := by
  refine ⟨fun u phase limits => ?_, Graph.check_cases,
    fun _ _ _ _ => Graph.check_of_composite_label,
    fun files c phase path t t' canonical before hgraph => run_verify files c path hgraph before⟩
  rcases Graph.ofJson_cases u phase limits with hg | ⟨f, hrun, hf⟩
  · exact .inl hg
  · cases hf with
    | format f => exact .inr (.inl ⟨f, hrun⟩)
    | unspellable h e => exact .inr (.inr ⟨h, e, hrun⟩)

namespace Sample

/-- Every file holds the same text. -/
def files (text : String) : Files.Access Id where
  read := fun _ => .ok text.toUTF8
  write := fun _ _ => .ok ()

def command : Command := { grammarPath := "g", task := .verify (some .empty) (some "d") }

end Sample

open Sample

/-- A list is no graph: the drawing `[]` is answered without a comparison that is given up. -/
theorem answers_to_drawings_sample : ∃ outcome,
    (verify (files "[]") command .empty (some "d") { grammar := {} }).run.run {} = outcome ∧
      Answered outcome := by
  have hgraph : ∃ g t, Tutor.graphOf .empty { grammar := {} } = .ok g t ∧ g.nodes = [] := by
    have hrun : (match Tutor.graphOf .empty { grammar := {} } with
        | .ok g _ => decide (g.nodes = [])
        | .error _ _ => false) = true := by
      decide +kernel
    cases hg : Tutor.graphOf .empty { grammar := {} } with
    | ok g t => exact ⟨g, t, rfl, by simpa [hg] using hrun⟩
    | error f t => simp [hg] at hrun
  have htext : String.fromUTF8? "[]".toUTF8 = some "[]" := by decide +kernel
  have hends : Text.unifyLineEnds "[]".toList = "[]".toList := by decide +kernel
  have hsource : textOf "[]".toUTF8 = .ok "[]".toList := by
    rw [textOf, htext]
    exact congrArg Except.ok hends
  have hread : Json.read "[]".toList = .ok (.list []) :=
    Outcome.eq_ok_of_toOption (by decide +kernel)
  have hdrawing : drawingOf "[]".toUTF8 = .ok (.list []) := by
    rw [drawingOf, hsource, Outcome.ok_bind, hread]
    rfl
  obtain ⟨g, t, hg, hnodes⟩ := hgraph
  obtain ⟨outcome, hrun, houtcome⟩ :=
    (answers_to_drawings (m := Id)).2.2.2 (files "[]") command .empty "d" _ _ _ {} hg
  refine ⟨outcome (.ok "[]".toUTF8), hrun, ?_⟩
  rcases houtcome "[]".toUTF8 with h | ⟨f, -, hf⟩
  · exact h
  exfalso
  have hexhibits (Q : Json → Prop) : ¬g.Exhibits Q := by
    rintro ⟨n, hn, -⟩
    rw [hnodes] at hn
    cases hn
  cases hf with
  | notText h => cases htext.symm.trans h
  | beyond hsource' hread' hf =>
    cases hsource.symm.trans hsource'
    cases hread.symm.trans hread'
  | unjudged hu h =>
    cases hdrawing.symm.trans hu
    cases h with
    | unsuitable h =>
      rcases h with h | ⟨d, hd, -⟩
      · exact hexhibits _ h
      · cases hd
    | unspellable h e => exact hexhibits _ h
    | unprintable h line =>
      rcases h with h | ⟨d, hd, -⟩
      · exact hexhibits _ h
      · cases hd

/-- A node labelled with an empty list is enough: the drawing has its shape, but it gets neither a
verdict nor a complaint about its format, and no exit code. -/
theorem check_unsuitable : ∃ u d, Drawing.ofJson u = .ok d ∧
    Graph.check { phase := "Empty" } u = .error .unsuitableValue ∧
      ∀ s code, (conclude s (.fault .unsuitableValue)).1 ≠ .exit code := by
  let u : Json := .ofFields [("nodes", .list [.ofFields [("id", .string "0"),
    ("type", .string "empty"), ("symbolName", .list [])]])]
  exact ⟨u, ⟨[⟨.string "0", .empty, .list [], none⟩], []⟩, rfl, rfl, fun s code => nofun⟩

end Command

end Lookahead
