import Lookahead.Proofs.Grammar.Rereading

/-!
# Where a text is wrong

A text is refused at its first line that is not well formed. If a token of the line is to blame,
the message names the line, shows it and puts a caret under one of its columns. For the sides of
a production this is the column at which the token begins. The argument of a directive is looked
for in the whole line instead, so its column is that of the first place where the same characters
stand; they may stand in the word of the directive already.
-/

namespace Lookahead

open Text (isSpace isBlank isInline isWordCharacter trim trimStart trimEnd lines)

/-! ### Blanks -/

theorem isSpace_of_isInline {c : Char} (h : isInline c = true) : isSpace c = true := by
  simp only [isInline, Bool.or_eq_true, beq_iff_eq] at h
  rcases h with (rfl | rfl) | rfl <;> rfl

/-- Around the only character that trimming leaves stand blanks. -/
theorem exists_of_trim_eq {s : List Char} {c : Char} (h : trim s = [c]) :
    isBlank c = false ∧
      ∃ pad gap, s = pad ++ c :: gap ∧ ∀ d ∈ pad ++ gap, isBlank d = true := by
  have hend : (trimStart s).reverse.dropWhile isBlank = [c] := by
    rw [trim, trimEnd, List.reverse_eq_iff] at h
    exact h
  have hsplit : trimStart s = c :: ((trimStart s).reverse.takeWhile isBlank).reverse := by
    apply List.reverse_injective
    rw [List.reverse_cons, List.reverse_reverse, ← hend, List.takeWhile_append_dropWhile]
  have hblank := List.head?_dropWhile_not isBlank (trimStart s).reverse
  rw [hend] at hblank
  refine ⟨hblank, s.takeWhile isBlank, ((trimStart s).reverse.takeWhile isBlank).reverse, ?_, ?_⟩
  · rw [← hsplit, trimStart, List.takeWhile_append_dropWhile]
  · intro d hd
    rw [List.mem_append, List.mem_reverse] at hd
    rcases hd with hd | hd <;> exact List.mem_takeWhile_imp hd

theorem trimStart_append {pad s : List Char} (h : ∀ d ∈ pad, isBlank d = true) {c : Char}
    (hc : isBlank c = false) : trimStart (pad ++ c :: s) = c :: s := by
  rw [trimStart, List.dropWhile_append_of_pos h, List.dropWhile_cons_of_neg (by simp [hc])]

namespace ProductionText

theorem eq_of_splitArrow? {s before after : List Char} (h : splitArrow? s = some (before, after)) :
    s = before ++ '-' :: '>' :: after ∧ splitArrow? before = none := by
  fun_induction splitArrow? s generalizing before with
  | case1 => cases h
  | case2 rest =>
    obtain ⟨rfl, rfl⟩ := Prod.mk.inj (Option.some.inj h)
    exact ⟨rfl, rfl⟩
  | case3 c rest hno ih =>
    obtain ⟨⟨left, right⟩, hsplit, he⟩ := Option.map_eq_some_iff.mp h
    obtain ⟨rfl, rfl⟩ := Prod.mk.inj he
    obtain ⟨rfl, hnone⟩ := ih hsplit
    refine ⟨rfl, ?_⟩
    rw [Naming.splitArrow?_cons, hnone]
    · rfl
    · rintro more hc rfl
      exact hno _ hc rfl

/-- A right side is read, or refused for its first character that is neither a blank nor a symbol. -/
theorem symbols_cases (text : String) (line : Int) (column : Nat) (body : List Char) :
    (∃ names, symbols text line column body = .ok names ∧
        ∀ d ∈ body, isSpace d = true ∨ isAllowed d = true) ∨
      ∃ pre c post, body = pre ++ c :: post ∧
        (∀ d ∈ pre, isSpace d = true ∨ isAllowed d = true) ∧
        isSpace c = false ∧ isAllowed c = false ∧
        symbols text line column body =
          .error (.symbolNotAllowed line (column + pre.length) c text) := by
  induction body generalizing column with
  | nil => exact .inl ⟨[], rfl, by simp⟩
  | cons c body ih =>
    by_cases hc : isSpace c = true ∨ isAllowed c = true
    · have hstep : symbols text line column (c :: body) =
          (symbols text line (column + 1) body).map fun names =>
            if isSpace c then names else String.singleton c :: names := by
        rw [symbols]
        cases hs : isSpace c with
        | true => cases symbols text line (column + 1) body <;> rfl
        | false => simp only [hc.resolve_left (by simp [hs]), Bool.false_eq_true, if_false, if_true]
      rcases ih (column + 1) with ⟨names, hrun, hall⟩ | ⟨pre, d, post, rfl, hpre, hd, hd', hrun⟩
      · exact .inl ⟨_, by rw [hstep, hrun]; rfl, List.forall_mem_cons.mpr ⟨hc, hall⟩⟩
      · refine .inr ⟨c :: pre, d, post, rfl, List.forall_mem_cons.mpr ⟨hc, hpre⟩, hd, hd', ?_⟩
        rw [hstep, hrun, List.length_cons, Nat.add_right_comm]
        rfl
    · rw [not_or, Bool.not_eq_true, Bool.not_eq_true] at hc
      refine .inr ⟨[], c, body, rfl, by simp, hc.1, hc.2, ?_⟩
      rw [symbols, if_neg (by simp [hc.1]), if_neg (by simp [hc.2])]
      rfl

/-! ### Columns -/

/-- The column, counted from 1, of the first place in a line where a part stands. -/
structure FirstPlace (part line : List Char) (column : Nat) : Prop where
  found : ∃ earlier, earlier ++ part <+: line ∧ column = earlier.length + 1
  first : ∀ earlier, earlier ++ part <+: line → column ≤ earlier.length + 1

theorem firstPlace_columnOf {part line start : List Char} (h : start ++ part <+: line) :
    FirstPlace part line (columnOf part line) := by
  induction line generalizing start with
  | nil =>
    obtain ⟨rfl, rfl⟩ := List.append_eq_nil_iff.mp (List.prefix_nil.mp h)
    exact ⟨⟨[], List.prefix_rfl, rfl⟩, fun _ _ => Nat.le_add_left ..⟩
  | cons c line ih =>
    rw [columnOf]
    split
    · rename_i hpart
      exact ⟨⟨[], List.isPrefixOf_iff_prefix.mp hpart, rfl⟩, fun _ _ => Nat.le_add_left ..⟩
    · rename_i hpart
      -- so the part stands behind the first character only
      have hbehind {earlier : List Char} (he : earlier ++ part <+: c :: line) :
          ∃ more, earlier = c :: more ∧ more ++ part <+: line := by
        cases earlier with
        | nil => exact absurd (List.isPrefixOf_iff_prefix.mpr he) hpart
        | cons d more =>
          obtain ⟨rfl, hmore⟩ := List.cons_prefix_cons.mp he
          exact ⟨more, rfl, hmore⟩
      obtain ⟨_, -, hmore⟩ := hbehind h
      obtain ⟨⟨earlier, hfound, hcolumn⟩, hfirst⟩ := ih hmore
      refine ⟨⟨c :: earlier, List.cons_prefix_cons.mpr ⟨rfl, hfound⟩, ?_⟩, fun other ho => ?_⟩
      · rw [hcolumn, List.length_cons]
      · obtain ⟨more, rfl, hmore⟩ := hbehind ho
        exact Nat.succ_le_succ (hfirst more hmore)

/-- The reported column is right iff the part stands nowhere before. -/
theorem FirstPlace.eq_iff {part line start : List Char} {column : Nat}
    (h : FirstPlace part line column) (hstart : start ++ part <+: line) :
    column = start.length + 1 ↔
      ∀ earlier, earlier ++ part <+: line → start.length ≤ earlier.length := by
  obtain ⟨first, hfound, hcolumn⟩ := h.found
  constructor
  · intro he earlier hearlier
    have hle := h.first earlier hearlier
    omega
  · intro hall
    have hle := h.first start hstart
    have hge := hall first hfound
    omega

/-- Behind blanks a character that is none is found where it stands. -/
theorem columnOf_singleton {pad rest : List Char} {c : Char} (h : c ∉ pad) :
    columnOf [c] (pad ++ c :: rest) = pad.length + 1 := by
  induction pad with
  | nil =>
    rw [List.nil_append, columnOf, if_pos (by simp [List.isPrefixOf])]
    rfl
  | cons d pad ih =>
    rw [List.mem_cons, not_or] at h
    rw [List.cons_append, columnOf, if_neg (by simp [List.isPrefixOf, h.1]), ih h.2,
      List.length_cons]

end ProductionText

/-- The tokens that a fault can name. -/
inductive TokenKind where
  | leftSide
  | symbol (c : Char)
  | startName

/-- The token that a fault names, with the line and the column that it reports and the text that
it shows. -/
def TextFault.named? : TextFault → Option (TokenKind × Int × Nat × String)
  | leftNotNonterminal line column text => some (.leftSide, line, column, text)
  | symbolNotAllowed line column c text => some (.symbol c, line, column, text)
  | startNotNonterminal line column text => some (.startName, line, column, text)
  | _ => none

theorem TextFault.message_named {f : TextFault} {kind : TokenKind} {line : Int} {column : Nat}
    {text : String} (h : f.named? = some (kind, line, column, text)) :
    ∃ what, f.message = what ++ placeText line column ++ "\n" ++ text ++ "\n" ++
      String.ofList (List.replicate (column - 1) ' ') ++ "^" := by
  have hcaret (what : String) : what ++ placeText line column ++ "\n" ++ caretLine text column =
      what ++ placeText line column ++ "\n" ++ text ++ "\n" ++
        String.ofList (List.replicate (column - 1) ' ') ++ "^" := by
    simp only [caretLine, String.append_assoc]
  cases f <;> cases h <;> exact ⟨_, hcaret _⟩

namespace GrammarSource

open ProductionText (splitArrow? isAllowed columnOf symbols_cases FirstPlace)

variable {source : GrammarSource} {line : List Char} {number : Nat} {f : TextFault}

/-! ### Directives -/

/-- A directive with its argument and the blanks around it. -/
structure DirectiveForm (line pad gap name tail : List Char) : Prop where
  shape : line = pad ++ directive ++ gap ++ name ++ tail
  inline : ∀ c ∈ pad ++ gap ++ tail, isInline c = true
  apart : (gap ++ name).head?.any isWordCharacter = false
  ne_nil : name ≠ []
  solid : ∀ c ∈ name, isSpace c = false

/-- Behind the word of a directive stand a gap, the argument and the rest of the line. -/
theorem directiveForm_of_rest {rest name tail : List Char}
    (hrest : directive ++ rest = line.dropWhile isInline)
    (hname : (rest.dropWhile isInline).takeWhile (fun c => !isSpace c) = name)
    (htail : (rest.dropWhile isInline).dropWhile (fun c => !isSpace c) = tail)
    (hapart : rest.head?.any isWordCharacter = false) (hne : name ≠ [])
    (hinline : ∀ c ∈ tail, isInline c = true) :
    DirectiveForm line (line.takeWhile isInline) (rest.takeWhile isInline) name tail := by
  have hparts : rest.takeWhile isInline ++ name ++ tail = rest := by
    rw [← hname, ← htail, List.append_assoc, List.takeWhile_append_dropWhile,
      List.takeWhile_append_dropWhile]
  refine ⟨?_, ?_, ?_, hne, ?_⟩
  · rw [List.append_assoc, List.append_assoc, ← List.append_assoc (rest.takeWhile _), hparts,
      List.append_assoc, hrest, List.takeWhile_append_dropWhile]
  · intro c hc
    rw [List.mem_append, List.mem_append] at hc
    rcases hc with (hc | hc) | hc
    · exact List.mem_takeWhile_imp hc
    · exact List.mem_takeWhile_imp hc
    · exact hinline c hc
  · rw [← hparts, List.head?_append_of_ne_nil] at hapart
    · exact hapart
    · exact List.append_ne_nil_of_right_ne_nil _ hne
  · intro c hc
    rw [← hname] at hc
    simpa using List.mem_takeWhile_imp hc

theorem exists_form_of_directiveName? {name : List Char} (h : directiveName? line = some name) :
    ∃ pad gap tail, DirectiveForm line pad gap name tail := by
  simp only [directiveName?] at h
  split at h
  · cases h
  rename_i hprefix
  split at h
  · cases h
  rename_i hapart
  split at h
  · rename_i hform
    obtain ⟨htail, hne⟩ := Bool.and_eq_true_iff.mp hform
    obtain ⟨rest, hrest⟩ : directive <+: line.dropWhile isInline := by simpa using hprefix
    have hdrop : (line.dropWhile isInline).drop directive.length = rest := by
      rw [← hrest, List.drop_left]
    rw [hdrop] at h htail hne hapart
    obtain rfl := Option.some.inj h
    exact ⟨_, _, _, directiveForm_of_rest hrest rfl rfl (by simpa using hapart) (by simpa using hne)
      (List.all_eq_true.mp htail)⟩
  · cases h

theorem DirectiveForm.isDirective {pad gap name tail : List Char}
    (h : DirectiveForm line pad gap name tail) : isDirective line = true := by
  have hpad : ∀ c ∈ pad, isBlank c = true := fun c hc =>
    Text.isBlank_of_isSpace (isSpace_of_isInline (h.inline c (by simp [hc])))
  have hstart : trimStart line = directive ++ (gap ++ (name ++ tail)) := by
    rw [h.shape, directive_eq, List.append_assoc, List.append_assoc, List.append_assoc]
    exact trimStart_append (c := '%') hpad (by decide)
  rw [GrammarSource.isDirective, hstart, List.isPrefixOf_iff_prefix]
  exact List.prefix_append ..

/-! ### Lines that are well formed -/

/-- A line that is skipped, or a directive or a production without a fault. -/
inductive WellFormed (line : List Char) : Prop
  | blank (empty : trim line = [])
  | comment (slashes : isComment line = true)
  | directive {name : List Char} (form : directiveName? line = some name)
      (nonterminal : Symbol.isNonterminalName (String.ofList name) = true)
  | production {left right : List Char} {c : Char} (shape : line = left ++ '-' :: '>' :: right)
      (single : trim left = [c])
      (nonterminal : Symbol.isNonterminalName (String.singleton c) = true)
      (allowed : trim right = Symbol.epsilon.name.toList ∨
        ∀ d ∈ right, isSpace d = true ∨ isAllowed d = true)

/-- The left side of a production in which no arrow stands. -/
theorem splitArrow?_of_nonterminal {left right : List Char} {c : Char} (hsingle : trim left = [c])
    (hc : Symbol.isNonterminalName (String.singleton c) = true) :
    splitArrow? (left ++ '-' :: '>' :: right) = some (left, right) := by
  refine Naming.splitArrow?_arrow (Naming.splitArrow?_eq_none fun hmem => ?_)
  have htrim := mem_trim (by decide) hmem
  rw [hsingle, List.mem_singleton] at htrim
  exact ne_of_isNonterminalName hc (by decide) htrim

theorem isDirective_of_nonterminal {left rest : List Char} {c : Char} (hsingle : trim left = [c])
    (hc : Symbol.isNonterminalName (String.singleton c) = true) :
    isDirective (left ++ rest) = false := by
  obtain ⟨hblank, pad, gap, rfl, hblanks⟩ := exists_of_trim_eq hsingle
  have hpercent : '%' ≠ c := ne_of_isNonterminalName hc (by decide)
  rw [isDirective, List.append_assoc, List.cons_append,
    trimStart_append (fun d hd => hblanks d (List.mem_append_left _ hd)) hblank]
  simp [directive_eq, List.isPrefixOf, hpercent]

/-- A well formed line is read, unless it names the start symbol once more. -/
theorem WellFormed.addLine (h : WellFormed line) (source : GrammarSource) (number : Nat) :
    (∃ next, source.addLine number line = .ok next) ∨
      ∃ first text, source.addLine number line = .error (.startRepeated number first text) := by
  rw [GrammarSource.addLine]
  split
  · exact .inl ⟨_, rfl⟩
  rename_i hskip
  rw [Bool.or_eq_true, not_or, Bool.not_eq_true, Bool.not_eq_true] at hskip
  cases h with
  | blank empty => simp [empty] at hskip
  | comment slashes => simp [slashes] at hskip
  | directive form nonterminal =>
    obtain ⟨pad, gap, tail, hform⟩ := exists_form_of_directiveName? form
    rw [if_pos hform.isDirective]
    split
    · exact .inr ⟨_, _, rfl⟩
    · simp only [parseDirective, form, nonterminal, if_true]
      exact .inl ⟨_, rfl⟩
  | @production left right c shape single nonterminal allowed =>
    rw [shape, if_neg (by simp [isDirective_of_nonterminal single nonterminal]), ← shape]
    have hempty : (trim line).isEmpty = false := hskip.1
    have hsplit : splitArrow? line = some (left, right) :=
      shape ▸ splitArrow?_of_nonterminal single nonterminal
    simp only [ProductionText.parse, String.toList_ofList, hempty, hsplit, single, nonterminal,
      Bool.not_true, Bool.false_eq_true, if_false]
    split
    · exact .inl ⟨_, rfl⟩
    rename_i hepsilon
    have hall := allowed.resolve_left hepsilon
    rcases symbols_cases (String.ofList line) number (left.length + 3) right with
      ⟨names, hrun, -⟩ | ⟨pre, d, post, rfl, -, hd, hd', -⟩
    · rw [hrun]
      exact .inl ⟨_, rfl⟩
    · rcases hall d (by simp) with hno | hno
      · rw [hd] at hno
        cases hno
      · rw [hd'] at hno
        cases hno

/-! ### Lines that are refused for a token -/

/-- A token that makes a line faulty, and what stands before it: a left side that is no
nonterminal, the first character of a right side that is no symbol, or the argument of a directive
that is no nonterminal. -/
inductive Culprit : (kind : TokenKind) → (line start token : List Char) → Prop
  | left {line pad gap right : List Char} {c : Char}
      (shape : line = pad ++ c :: gap ++ '-' :: '>' :: right)
      (blank : ∀ d ∈ pad ++ gap, isBlank d = true) (filled : isBlank c = false)
      (wrong : Symbol.isNonterminalName (String.singleton c) = false) :
      Culprit .leftSide line pad [c]
  | symbol {line left pre post : List Char} {c : Char}
      (shape : line = left ++ '-' :: '>' :: (pre ++ c :: post)) (arrow : splitArrow? left = none)
      (before : ∀ d ∈ pre, isSpace d = true ∨ isAllowed d = true)
      (filled : isSpace c = false) (wrong : isAllowed c = false) :
      Culprit (.symbol c) line (left ++ '-' :: '>' :: pre) [c]
  | start {line pad gap name tail : List Char} (form : DirectiveForm line pad gap name tail)
      (wrong : Symbol.isNonterminalName (String.ofList name) = false) :
      Culprit .startName line (pad ++ directive ++ gap) name

/-- The column that is reported for a token: the one at which it begins, except that the argument of
a directive may stand earlier in the line as a part of something else. -/
structure Points (kind : TokenKind) (line start token : List Char) (column : Nat) : Prop where
  first : kind = .startName → FirstPlace token line column
  exact : column = start.length + 1 ↔ (kind = .startName →
    ∀ earlier, earlier ++ token <+: line → start.length ≤ earlier.length)

theorem points_of_eq {kind : TokenKind} (hkind : kind ≠ .startName) {start token : List Char}
    {column : Nat} (h : column = start.length + 1) : Points kind line start token column :=
  ⟨fun hk => absurd hk hkind, iff_of_true h fun hk => absurd hk hkind⟩

/-- What a fault that names a token says about the line. -/
def Blames (f : TextFault) (number : Int) (line : List Char) : Prop :=
  ∀ kind reported column shown, f.named? = some (kind, reported, column, shown) →
    reported = number ∧ shown = String.ofList line ∧
      ∃ start token, Culprit kind line start token ∧ Points kind line start token column

theorem blames_of_named?_eq_none {number : Int} (h : f.named? = none) : Blames f number line := by
  intro kind reported column shown hnamed
  rw [h] at hnamed
  cases hnamed

theorem Culprit.blames {kind : TokenKind} {start token : List Char} {number : Int} {column : Nat}
    (h : Culprit kind line start token) (hp : Points kind line start token column)
    (hf : f.named? = some (kind, number, column, String.ofList line)) : Blames f number line := by
  intro kind' reported column' shown hnamed
  rw [hf] at hnamed
  cases hnamed
  exact ⟨rfl, rfl, start, token, h, hp⟩

/-- A production is read if it is well formed, and otherwise refused. -/
theorem parse_cases (line : List Char) (number : Int) :
    (∃ p, ProductionText.parse (String.ofList line) number = .ok p ∧ WellFormed line) ∨
      ∃ f, ProductionText.parse (String.ofList line) number = .error f ∧ Blames f number line := by
  simp only [ProductionText.parse, String.toList_ofList]
  split
  · exact .inr ⟨_, rfl, blames_of_named?_eq_none rfl⟩
  split
  · exact .inr ⟨_, rfl, blames_of_named?_eq_none rfl⟩
  rename_i before after hsplit
  obtain ⟨hshape, harrow⟩ := ProductionText.eq_of_splitArrow? hsplit
  split
  case h_2 => exact .inr ⟨_, rfl, blames_of_named?_eq_none rfl⟩
  rename_i c hsingle
  split
  · rename_i hleft
    have hwrong : Symbol.isNonterminalName (String.singleton c) = false := by simpa using hleft
    obtain ⟨hfilled, pad, gap, rfl, hblank⟩ := exists_of_trim_eq hsingle
    have hpad : c ∉ pad := fun hc => by
      rw [hblank c (List.mem_append_left _ hc)] at hfilled
      cases hfilled
    have hcolumn : columnOf [c] line = pad.length + 1 := by
      rw [hshape, List.append_assoc, List.cons_append]
      exact ProductionText.columnOf_singleton hpad
    exact .inr ⟨_, rfl, (Culprit.left hshape hblank hfilled hwrong).blames
      (points_of_eq (by simp) hcolumn) rfl⟩
  rename_i hleft
  have hnonterminal : Symbol.isNonterminalName (String.singleton c) = true := by simpa using hleft
  split
  · rename_i hepsilon
    exact .inl ⟨_, rfl, .production hshape hsingle hnonterminal (.inl hepsilon)⟩
  rcases symbols_cases (String.ofList line) number (before.length + 3) after with
    ⟨names, hrun, hall⟩ | ⟨pre, d, post, rfl, hpre, hfilled, hwrong, hrun⟩
  · rw [hrun]
    exact .inl ⟨_, rfl, .production hshape hsingle hnonterminal (.inr hall)⟩
  · rw [hrun]
    refine .inr ⟨_, rfl, (Culprit.symbol hshape harrow hpre hfilled hwrong).blames
      (points_of_eq (by simp) ?_) rfl⟩
    simp only [List.length_append, List.length_cons]
    omega

theorem parseDirective_cases (line : List Char) (number : Nat) :
    (∃ name, parseDirective line number = .ok name ∧ WellFormed line) ∨
      ∃ f, parseDirective line number = .error f ∧ Blames f number line := by
  simp only [parseDirective]
  split
  · exact .inr ⟨_, rfl, blames_of_named?_eq_none rfl⟩
  rename_i name hform
  split
  · rename_i hname
    exact .inl ⟨_, rfl, .directive hform hname⟩
  rename_i hname
  obtain ⟨pad, gap, tail, hparts⟩ := exists_form_of_directiveName? hform
  have hstart : pad ++ directive ++ gap ++ name <+: line := by
    rw [hparts.shape]
    exact List.prefix_append ..
  have hfirst := ProductionText.firstPlace_columnOf hstart
  exact .inr ⟨_, rfl, (Culprit.start hparts (by simpa using hname)).blames
    ⟨fun _ => hfirst, (hfirst.eq_iff hstart).trans (by simp)⟩ rfl⟩

theorem addLine_cases (source : GrammarSource) (number : Nat) (line : List Char) :
    (∃ next, source.addLine number line = .ok next ∧ WellFormed line) ∨
      ∃ f, source.addLine number line = .error f ∧ Blames f number line := by
  rw [addLine]
  split
  · rename_i hskip
    refine .inl ⟨_, rfl, ?_⟩
    rcases Bool.or_eq_true_iff.mp hskip with hempty | hcomment
    · exact .blank (List.isEmpty_iff.mp hempty)
    · exact .comment hcomment
  split
  · split
    · exact .inr ⟨_, rfl, blames_of_named?_eq_none rfl⟩
    rcases parseDirective_cases line number with ⟨name, hrun, hline⟩ | ⟨f, hrun, hblames⟩
    · exact .inl ⟨_, by rw [hrun]; rfl, hline⟩
    · exact .inr ⟨f, by rw [hrun]; rfl, hblames⟩
  · rcases parse_cases line number with ⟨p, hrun, hline⟩ | ⟨f, hrun, hblames⟩
    · exact .inl ⟨_, by rw [hrun]; rfl, hline⟩
    · exact .inr ⟨f, by rw [hrun]; rfl, hblames⟩

/-! ### Texts that are refused -/

/-- Lines are refused at the first one that is, and those before it are well formed. -/
theorem exists_refused {texts : List (List Char)} (h : source.addLines number texts = .error f) :
    ∃ before line after reached, texts = before ++ line :: after ∧
      (∀ text ∈ before, WellFormed text) ∧
      addLine reached (number + before.length) line = .error f := by
  induction texts generalizing source number with
  | nil => cases h
  | cons text texts ih =>
    rw [addLines] at h
    rcases addLine_cases source number text with ⟨next, hrun, htext⟩ | ⟨f', hrun, -⟩
    · rw [hrun] at h
      obtain ⟨before, line, after, reached, rfl, hbefore, hline⟩ := ih h
      refine ⟨text :: before, line, after, reached, rfl, List.forall_mem_cons.mpr ⟨htext, hbefore⟩,
        ?_⟩
      rw [List.length_cons, Nat.add_comm before.length, ← Nat.add_assoc]
      exact hline
    · rw [hrun] at h
      exact ⟨[], text, texts, source, rfl, by simp, hrun.trans h⟩

/-- A text that is refused for a token is refused at its first line that is not well formed. The
fault reports the number of this line and shows it, and its message ends with a caret under the
reported column. The token begins at this column, unless it is the argument of a directive and
the same characters stand in the line before; then the column is that of their first place. -/
theorem exists_culprit {text : String} {kind : TokenKind} {reported : Int} {column : Nat}
    {shown : String} (h : parse text = .error f)
    (hf : f.named? = some (kind, reported, column, shown)) :
    ∃ before line after start token, lines text.toList = before ++ line :: after ∧
      (∀ earlier ∈ before, WellFormed earlier) ∧ ¬WellFormed line ∧
      Culprit kind line start token ∧
      reported = before.length + 1 ∧ shown = String.ofList line ∧
      (∃ what, f.message = what ++ placeText reported column ++ "\n" ++ shown ++ "\n" ++
        String.ofList (List.replicate (column - 1) ' ') ++ "^") ∧
      (column = start.length + 1 ↔ (kind = .startName →
        ∀ earlier, earlier ++ token <+: line → start.length ≤ earlier.length)) ∧
      (kind = .startName → FirstPlace token line column) := by
  have hlines : addLines {} 1 (lines text.toList) = .error f := by
    rw [parse] at h
    split at h
    · rename_i hrun
      cases h
      exact hrun
    · split at h <;> cases h
      cases hf
  obtain ⟨before, line, after, reached, hsplit, hbefore, hline⟩ := exists_refused hlines
  have hfaulty : ¬WellFormed line := by
    intro hline'
    rcases hline'.addLine reached (1 + before.length) with ⟨next, hrun⟩ | ⟨first, text, hrun⟩
    · rw [hrun] at hline
      cases hline
    · rw [hrun] at hline
      cases hline
      cases hf
  rcases addLine_cases reached (1 + before.length) line with ⟨next, hrun, -⟩ | ⟨f', hrun, hblames⟩
  · rw [hrun] at hline
    cases hline
  obtain rfl := Except.error.inj (hrun.symm.trans hline)
  obtain ⟨hreported, hshown, start, token, hculprit, hpoints⟩ := hblames _ _ _ _ hf
  refine ⟨before, line, after, start, token, hsplit, hbefore, hfaulty, hculprit, ?_, hshown,
    TextFault.message_named hf, hpoints.exact, hpoints.first⟩
  rw [hreported]
  push_cast
  exact Int.add_comm ..

theorem exists_culprit_sample : parse "S -> a\nA -> b$" = .error (.symbolNotAllowed 2 7 '$' "A -> b$") ∧
    ∃ before line after start token, lines "S -> a\nA -> b$".toList = before ++ line :: after ∧
      before.length = 1 ∧ ¬WellFormed line ∧ Culprit (.symbol '$') line start token ∧
      start.length = 6 := by
  have hparse : parse "S -> a\nA -> b$" = .error (.symbolNotAllowed 2 7 '$' "A -> b$") := by rfl
  obtain ⟨before, line, after, start, token, hsplit, -, hfaulty, hculprit, hnumber, -, -, hcolumn, -⟩ :=
    exists_culprit hparse rfl
  have hstart : 7 = start.length + 1 := hcolumn.mpr (by simp)
  exact ⟨hparse, before, line, after, start, token, hsplit, by omega, hfaulty, hculprit, by omega⟩

/-- The argument `s` begins at column 8, but the word of the directive has the same character at
column 2. -/
theorem startName_pointed_early :
    parse "%start s\nA -> a" = .error (.startNotNonterminal 1 2 "%start s") ∧
      Culprit .startName "%start s".toList "%start ".toList "s".toList ∧
      "%start ".toList.length + 1 = 8 ∧
      (TextFault.startNotNonterminal 1 2 "%start s").message =
        "The start symbol must be a nonterminal! at 1:2\n%start s\n ^" := by
  have hform : DirectiveForm "%start s".toList [] [' '] ['s'] [] :=
    ⟨rfl, by simp [isInline], by decide, by decide, by simp [isSpace]⟩
  exact ⟨by rfl, .start hform (by decide), by decide, by decide⟩

end GrammarSource

end Lookahead
