import Lookahead.Proofs.Grammar.History
import Lookahead.Proofs.Graph.Names

/-!
# Grammars read again

A production is shown as a line that is read as the same production: the left side is one
character, so the first arrow is the one behind it, and the blanks between the symbols are
skipped. No such line is taken for a comment or a directive. So a grammar that was read
from a text comes back from the lines that it shows, headed by the directive for its start
symbol; what a text repeats adds nothing and is not missed.
-/

namespace Lookahead

open Text (isSpace isBlank trim trimStart trimEnd)

/-! ### Reading what is shown -/

/-- The names on the right side; none for the empty word. -/
def Production.rightNames (p : Production) : List String :=
  if p.isEpsilon then [] else p.right.map Symbol.name

/-- What a production has of a text, whatever the line. -/
def Production.sides (p : Production) : String × List String := (p.left.name, p.rightNames)

def ProductionText.sides (p : ProductionText) : String × List String := (p.left, p.right)

theorem not_isBlank_of_isAllowed {c : Char} (h : ProductionText.isAllowed c = true) :
    isBlank c = false := by
  simp only [ProductionText.isAllowed, Bool.and_eq_true, decide_eq_true_eq] at h
  simp only [isBlank, isSpace, Bool.or_eq_false_iff, Bool.and_eq_false_iff, decide_eq_false_iff_not,
    beq_eq_false_iff_ne]
  omega

theorem isSpace_eq_false {c : Char} (h : isBlank c = false) : isSpace c = false := by
  rw [isBlank, Bool.or_eq_false_iff] at h
  exact h.1

theorem Grammar.kindOfName_eq_nonterminal_iff {name : String} :
    Grammar.kindOfName name = .nonterminal ↔ Symbol.isNonterminalName name = true := by
  rw [Grammar.kindOfName]
  split <;> simp_all

theorem isInline_eq_false {c : Char} (h : isBlank c = false) : Text.isInline c = false := by
  rw [← Bool.not_eq_true, Text.isInline]
  intro hinline
  simp only [Bool.or_eq_true, beq_iff_eq] at hinline
  rcases hinline with (rfl | rfl) | rfl <;> cases h

/-- A name of one character that stands for a nonterminal. -/
theorem isAllowed_of_isNonterminalName {c : Char}
    (h : Symbol.isNonterminalName (String.singleton c) = true) :
    ProductionText.isAllowed c = true := by
  obtain ⟨d, hd, he⟩ := IsSymbolName.exists_char (.inl h)
  obtain rfl : c = d := by simpa using congrArg String.toList he
  exact hd

/-- The characters with a meaning in a text are no names of nonterminals. -/
theorem ne_of_isNonterminalName {c d : Char}
    (hc : Symbol.isNonterminalName (String.singleton c) = true) (hd : d ∈ ['>', '\n', '/', '%']) :
    d ≠ c := by
  rintro rfl
  have hnone : ∀ d ∈ ['>', '\n', '/', '%'],
      Symbol.isNonterminalName (String.singleton d) = false := by
    simp [Symbol.isNonterminalName]
  rw [hnone d hd] at hc
  cases hc

theorem mem_of_mem_trim {c : Char} {s : List Char} (h : c ∈ trim s) : c ∈ s := by
  rw [trim, trimEnd, List.mem_reverse] at h
  have hstart := (List.dropWhile_sublist _).subset h
  rw [List.mem_reverse] at hstart
  exact (List.dropWhile_sublist _).subset hstart

/-- A character that is not blank survives trimming. -/
theorem mem_trim {c : Char} {s : List Char} (hc : isBlank c = false) (h : c ∈ s) : c ∈ trim s := by
  have hkept {t : List Char} (ht : c ∈ t) : c ∈ t.dropWhile isBlank := by
    rw [← List.takeWhile_append_dropWhile (p := isBlank) (l := t), List.mem_append] at ht
    refine ht.resolve_left fun hblank => ?_
    rw [List.mem_takeWhile_imp hblank] at hc
    cases hc
  rw [trim, trimEnd, List.mem_reverse]
  exact hkept (List.mem_reverse.mpr (hkept h))

namespace ProductionText

/-- Reading a right side drops the blanks. -/
theorem symbols_eq_ok {text : String} {line : Int} {column : Nat} {body : List Char}
    (h : ∀ c ∈ body, c = ' ' ∨ isAllowed c = true) :
    symbols text line column body = .ok ((body.filter (· ≠ ' ')).map String.singleton) := by
  induction body generalizing column with
  | nil => rfl
  | cons c body ih =>
    obtain ⟨hc, hbody⟩ := List.forall_mem_cons.mp h
    rw [symbols]
    rcases hc with rfl | hc
    · exact ih hbody
    · have hspace : isSpace c = false := isSpace_eq_false (not_isBlank_of_isAllowed hc)
      have hne : c ≠ ' ' := by
        rintro rfl
        cases hspace
      simp only [hspace, hc, ih hbody, Bool.false_eq_true, if_false, if_true, Except.map,
        List.filter_cons, hne, ne_eq, not_false_eq_true, decide_true, List.map_cons]

theorem not_mem_intercalate {mark d : Char} {texts : List (List Char)} (hd : d ≠ mark)
    (h : ∀ text ∈ texts, d ∉ text) : d ∉ [mark].intercalate texts := by
  induction texts with
  | nil => simp
  | cons text texts ih =>
    obtain ⟨htext, htexts⟩ := List.forall_mem_cons.mp h
    cases texts with
    | nil => simpa [List.intercalate] using htext
    | cons next more =>
      rw [List.intercalate_cons_cons]
      simp [htext, hd, ih htexts]

theorem filter_intercalate {cs : List Char} (h : ' ' ∉ cs) :
    ([' '].intercalate (cs.map fun c => [c])).filter (· ≠ ' ') = cs := by
  induction cs with
  | nil => rfl
  | cons c cs ih =>
    rw [List.mem_cons, not_or] at h
    cases cs with
    | nil => simp [List.intercalate, Ne.symm h.1]
    | cons d cs =>
      rw [List.map_cons, List.map_cons, List.intercalate_cons_cons, List.filter_append,
        ← List.map_cons (f := fun c => [c]), ih h.2]
      simp [Ne.symm h.1]

/-- The left side of a written production ends at the first arrow. -/
theorem parse_arrow {c : Char} (hc : Symbol.isNonterminalName (String.singleton c) = true)
    {gap : List Char} (hgap : gap = [] ∨ gap = [' ']) (body : List Char) (line : Int) :
    parse (String.ofList (c :: gap ++ '-' :: '>' :: body)) line =
      if trim body = Symbol.epsilon.name.toList then .ok ⟨String.singleton c, [], line⟩
      else (symbols (String.ofList (c :: gap ++ '-' :: '>' :: body)) line (gap.length + 4) body).map
        fun right => ⟨String.singleton c, right, line⟩ := by
  have hblank := not_isBlank_of_isAllowed (isAllowed_of_isNonterminalName hc)
  have hne : '>' ≠ c := ne_of_isNonterminalName hc (by decide)
  have hsplit : splitArrow? (c :: gap ++ '-' :: '>' :: body) = some (c :: gap, body) := by
    refine Naming.splitArrow?_arrow (Naming.splitArrow?_eq_none ?_)
    rcases hgap with rfl | rfl <;> simp [hne]
  have htrim : trim (c :: gap) = [c] := by
    have hspace : isBlank ' ' = true := by decide
    rcases hgap with rfl | rfl <;> simp [trim, trimStart, trimEnd, hblank, hspace]
  have hsome : (trim (c :: gap ++ '-' :: '>' :: body)).isEmpty = false :=
    List.isEmpty_eq_false_iff.mpr (List.ne_nil_of_mem (mem_trim hblank (by simp)))
  simp only [parse, String.toList_ofList, hsome, hsplit, htrim, hc, Bool.not_true,
    Bool.false_eq_true, if_false, List.length_cons]

end ProductionText

namespace Production

variable {p : Production}

theorem RuleForm.exists_left (h : p.RuleForm) : ∃ c, p.left.name = String.singleton c ∧
    Symbol.isNonterminalName (String.singleton c) = true := by
  obtain ⟨c, -, hname⟩ := h.1.1.1.exists_char
  refine ⟨c, hname, ?_⟩
  rw [← hname, ← Grammar.kindOfName_eq_nonterminal_iff, ← h.1.1.2, h.1.2]

/-- The right side of a rule marks the empty word or is a row of symbols. -/
theorem RuleForm.right_cases (h : p.RuleForm) :
    p.right = [Symbol.epsilon] ∧ p.rightNames = [] ∨
      p.right ≠ [] ∧ (∀ s ∈ p.right, s.Plain) ∧ p.rightNames = p.right.map Symbol.name := by
  rcases h.2 with hright | ⟨hne, hright⟩
  · exact .inl ⟨hright, by rw [rightNames, isEpsilon, hright]; rfl⟩
  · refine .inr ⟨hne, hright, ?_⟩
    rw [rightNames, isEpsilon]
    split
    · rename_i s hs
      have hplain := hright s (by simp [hs])
      have hkind : s.kind ≠ .epsilon := by
        rcases hplain.proper.tabled with hk | hk <;> simp [hk]
      simp [Symbol.isEpsilon, hkind]
    · rfl

/-- The characters of a right side that is a row of symbols. -/
theorem exists_chars {symbols : List Symbol} (h : ∀ s ∈ symbols, s.Plain) :
    ∃ cs : List Char, symbols.map Symbol.name = cs.map String.singleton ∧
      ∀ c ∈ cs, ProductionText.isAllowed c = true := by
  induction symbols with
  | nil => exact ⟨[], rfl, by simp⟩
  | cons s symbols ih =>
    obtain ⟨hs, hsymbols⟩ := List.forall_mem_cons.mp h
    obtain ⟨c, hc, hname⟩ := hs.1.exists_char
    obtain ⟨cs, hcs, hall⟩ := ih hsymbols
    exact ⟨c :: cs, congrArg₂ List.cons hname hcs, List.forall_mem_cons.mpr ⟨hc, hall⟩⟩

/-- With or without blanks around the arrow, a written rule is read as what it is. -/
theorem RuleForm.parse_written (h : p.RuleForm) {gap : String} (hgap : gap = "" ∨ gap = " ")
    (line : Int) :
    ProductionText.parse (p.left.name ++ (gap ++ "->" ++ gap) ++
      String.intercalate " " (p.right.map Symbol.name)) line =
        .ok ⟨p.left.name, p.rightNames, line⟩ := by
  obtain ⟨c, hname, hc⟩ := h.exists_left
  have hgap' : gap.toList = [] ∨ gap.toList = [' '] := by
    rcases hgap with rfl | rfl <;> simp
  have htext : p.left.name ++ (gap ++ "->" ++ gap) ++
      String.intercalate " " (p.right.map Symbol.name) =
        String.ofList (c :: gap.toList ++ '-' :: '>' :: (gap.toList ++
          (String.intercalate " " (p.right.map Symbol.name)).toList)) := by
    rw [← String.toList_inj]
    simp [hname]
  rw [htext, ProductionText.parse_arrow hc hgap', hname]
  rcases h.right_cases with ⟨hright, hnames⟩ | ⟨hne, hplain, hnames⟩
  · rw [hright, hnames]
    rcases hgap' with hg | hg <;> rw [hg] <;> rfl
  · obtain ⟨cs, hcs, hallowed⟩ := exists_chars hplain
    have hspace : ' ' ∉ cs := fun hmem => absurd (hallowed ' ' hmem) (by decide)
    have hbody : (String.intercalate " " (p.right.map Symbol.name)).toList =
        [' '].intercalate (cs.map fun c => [c]) := by
      rw [String.toList_intercalate, hcs, List.map_map]
      congr 1
      exact List.map_congr_left fun c _ => String.toList_singleton c
    have hchars : (gap.toList ++ [' '].intercalate (cs.map fun c => [c])).filter (· ≠ ' ') = cs := by
      rw [List.filter_append, ProductionText.filter_intercalate hspace]
      rcases hgap' with hg | hg <;> simp [hg]
    have hmem {d : Char} (hd : d ∈ gap.toList ++ [' '].intercalate (cs.map fun c => [c]))
        (hd' : d ≠ ' ') : ProductionText.isAllowed d = true :=
      hallowed d (hchars ▸ List.mem_filter.mpr ⟨hd, by simpa using hd'⟩)
    rw [hbody, if_neg fun htrim => ?_, ProductionText.symbols_eq_ok fun d hd => ?_, hchars, hnames,
      hcs]
    · rfl
    · exact (eq_or_ne d ' ').imp_right (hmem hd)
    · have hepsilon : 'ε' ∈ gap.toList ++ [' '].intercalate (cs.map fun c => [c]) :=
        mem_of_mem_trim (by simp [htrim, Symbol.epsilon])
      exact absurd (hmem hepsilon (by decide)) (by decide)

theorem RuleForm.parse_name (h : p.RuleForm) (line : Int) :
    ProductionText.parse p.name line = .ok ⟨p.left.name, p.rightNames, line⟩ :=
  h.parse_written (.inl rfl) line

/-- Where no symbol has a label of its own, a production is shown by names. -/
theorem shown_eq {g : Grammar} (hlabels : g.labels = {}) (p : Production) :
    g.shown p = p.left.name ++ " -> " ++ String.intercalate " " (p.right.map Symbol.name) := by
  have hlabel (s : Symbol) : g.label s = s.name := by
    rw [Grammar.label, hlabels]
    rfl
  rw [Grammar.shown, hlabel, List.map_congr_left fun s _ => hlabel s]

theorem RuleForm.parse_shown {g : Grammar} (hlabels : g.labels = {}) (h : p.RuleForm) (line : Int) :
    ProductionText.parse (g.shown p) line = .ok ⟨p.left.name, p.rightNames, line⟩ :=
  shown_eq hlabels p ▸ h.parse_written (.inr rfl) line

/-- A shown rule begins with a capital letter and is one line. -/
theorem RuleForm.toList_shown {g : Grammar} (hlabels : g.labels = {}) (h : p.RuleForm) :
    (∃ c rest, (g.shown p).toList = c :: rest ∧
      Symbol.isNonterminalName (String.singleton c) = true) ∧ '\n' ∉ (g.shown p).toList := by
  obtain ⟨c, hname, hc⟩ := h.exists_left
  rw [shown_eq hlabels, hname, String.toList_append, String.toList_append,
    String.toList_singleton]
  refine ⟨⟨c, _, rfl, hc⟩, ?_⟩
  have hne : '\n' ≠ c := ne_of_isNonterminalName hc (by decide)
  have hnames : ∀ text ∈ (p.right.map Symbol.name).map String.toList, '\n' ∉ text := by
    simp only [List.map_map, List.forall_mem_map]
    intro s hs
    rcases Formed.of_mem_right (.inr h) hs with ⟨rfl, -⟩ | hplain
    · simp [Symbol.epsilon]
    · obtain ⟨d, hd, hs⟩ := hplain.1.exists_char
      simp only [Function.comp_apply, hs, String.toList_singleton, List.mem_singleton]
      rintro rfl
      exact absurd hd (by decide)
  have hspace : '\n' ≠ ' ' := by decide
  have hright := ProductionText.not_mem_intercalate hspace hnames
  rw [String.toList_intercalate, List.mem_append, List.mem_append, List.mem_singleton]
  rintro ((hleft | harrow) | hmem)
  · exact hne hleft
  · simp at harrow
  · exact hright hmem

end Production

/-! ### Lines -/

namespace GrammarSource

theorem directive_eq : directive = ['%', 's', 't', 'a', 'r', 't'] := rfl

variable {c : Char} (hc : Symbol.isNonterminalName (String.singleton c) = true)
include hc

/-- A line that begins with a capital letter is a production. -/
theorem addLine_production (source : GrammarSource) (line : Nat) (rest : List Char) :
    source.addLine line (c :: rest) =
      (ProductionText.parse (String.ofList (c :: rest)) line).map fun p =>
        { source with productions := source.productions ++ [p] } := by
  have hblank := not_isBlank_of_isAllowed (isAllowed_of_isNonterminalName hc)
  have hslash : '/' ≠ c := ne_of_isNonterminalName hc (by decide)
  have hpercent : '%' ≠ c := ne_of_isNonterminalName hc (by decide)
  have htrim : (trim (c :: rest)).isEmpty = false :=
    List.isEmpty_eq_false_iff.mpr (List.ne_nil_of_mem (mem_trim hblank (by simp)))
  have hcomment : isComment (c :: rest) = false := by
    simp [isComment, isInline_eq_false hblank, List.isPrefixOf, hslash]
  have hdirective : isDirective (c :: rest) = false := by
    simp [isDirective, trimStart, hblank, directive_eq, List.isPrefixOf, hpercent]
  simp only [addLine, htrim, hcomment, hdirective, Bool.or_false, Bool.false_eq_true, if_false]

/-- The directive for a start symbol is read. -/
theorem addLine_directive (line : Nat) :
    addLine {} line ("%start ".toList ++ [c]) =
      .ok { start := some (String.singleton c), startLine := line } := by
  have hblank := not_isBlank_of_isAllowed (isAllowed_of_isNonterminalName hc)
  have hspace := isSpace_eq_false hblank
  have hinline := isInline_eq_false hblank
  have hname : directiveName? ("%start ".toList ++ [c]) = some [c] := by
    have hword : Text.isWordCharacter ' ' = false := by decide
    have hblanks : Text.isInline ' ' = true ∧ Text.isInline '%' = false := by decide
    simp [directiveName?, directive_eq, List.isPrefixOf, hword, hblanks, hinline, hspace]
  have htrim : (trim ("%start ".toList ++ [c])).isEmpty = false :=
    List.isEmpty_eq_false_iff.mpr (List.ne_nil_of_mem (mem_trim hblank (by simp)))
  have hcomment : isComment ("%start ".toList ++ [c]) = false := by
    have hpercent : Text.isInline '%' = false := by decide
    simp [isComment, hpercent, List.isPrefixOf]
  have hdirective : isDirective ("%start ".toList ++ [c]) = true := by
    have hpercent : isBlank '%' = false := by decide
    simp [isDirective, trimStart, directive_eq, hpercent, List.isPrefixOf]
  have hparse : parseDirective ("%start ".toList ++ [c]) line = .ok (String.singleton c) := by
    have hsingle : String.ofList [c] = String.singleton c := by simp
    simp only [parseDirective, hname, hsingle, hc, if_true]
  simp only [addLine, htrim, hcomment, hdirective, hparse, Bool.or_false, Bool.false_eq_true,
    if_false, if_true, Option.isSome_none, Except.map]

omit hc

/-- Shown rules are read, line by line, as productions with their sides. -/
theorem addLines_shown {g : Grammar} (hlabels : g.labels = {}) {rules : List Production}
    (h : ∀ p ∈ rules, p.RuleForm) (source : GrammarSource) (line : Nat) :
    ∃ texts, texts.map ProductionText.sides = rules.map Production.sides ∧
      source.addLines line (rules.map fun p => (g.shown p).toList) =
        .ok { source with productions := source.productions ++ texts } := by
  induction rules generalizing source line with
  | nil => exact ⟨[], rfl, by simp [addLines]⟩
  | cons p rules ih =>
    obtain ⟨hp, hrules⟩ := List.forall_mem_cons.mp h
    obtain ⟨⟨c, rest, hshown, hc⟩, -⟩ := hp.toList_shown hlabels
    have hread : source.addLine line (g.shown p).toList =
        .ok { source with
          productions := source.productions ++ [⟨p.left.name, p.rightNames, line⟩] } := by
      rw [hshown, addLine_production hc, ← hshown, String.ofList_toList, hp.parse_shown hlabels]
      rfl
    obtain ⟨texts, hsides, hadd⟩ := ih hrules
      { source with productions := source.productions ++ [⟨p.left.name, p.rightNames, line⟩] }
      (line + 1)
    refine ⟨⟨p.left.name, p.rightNames, line⟩ :: texts, congrArg (p.sides :: ·) hsides, ?_⟩
    rw [List.map_cons, addLines, hread]
    simpa using hadd

end GrammarSource

namespace Grammar

variable {g g' : Grammar}

/-- The productions that come from a text. -/
def rules (g : Grammar) : List Production := g.productionList.filter fun p => p.left ≠ Symbol.start

/-- The rules as they are shown, a line each, below the directive for a start symbol. -/
def written (g : Grammar) (start : Symbol) : String :=
  String.intercalate "\n" (("%start " ++ start.name) :: g.rules.map g.shown)

/-- A written grammar is read as its rules and its start symbol. -/
theorem parse_written (hlabels : g.labels = {}) (h : ∀ p ∈ g.rules, p.RuleForm)
    (hne : g.rules ≠ []) {start : Symbol} (hstart : Symbol.isNonterminalName start.name = true) :
    ∃ texts, texts.map ProductionText.sides = g.rules.map Production.sides ∧
      GrammarSource.parse (g.written start) =
        .ok { productions := texts, start := some start.name, startLine := 1 } := by
  obtain ⟨c, -, hname⟩ := IsSymbolName.exists_char (.inl hstart)
  rw [hname] at hstart
  obtain ⟨texts, hsides, hadd⟩ := GrammarSource.addLines_shown hlabels h
    { start := some start.name, startLine := 1 } 2
  refine ⟨texts, hsides, ?_⟩
  have hlines : Text.lines (g.written start).toList =
      ("%start ".toList ++ [c]) :: g.rules.map fun p => (g.shown p).toList := by
    have htoList : (g.written start).toList =
        ['\n'].intercalate (("%start ".toList ++ [c]) :: g.rules.map fun p => (g.shown p).toList) := by
      rw [written, hname, String.toList_intercalate, List.map_cons, List.map_map,
        String.toList_append, String.toList_singleton]
      rfl
    rw [htoList, Text.lines, Text.pieces_intercalate (List.cons_ne_nil _ _)]
    refine List.forall_mem_cons.mpr ⟨?_, List.forall_mem_map.mpr fun p hp =>
      ((h p hp).toList_shown hlabels).2⟩
    have hfeed : '\n' ≠ c := ne_of_isNonterminalName hstart (by decide)
    rw [List.mem_append, List.mem_singleton, not_or]
    exact ⟨by simp, hfeed⟩
  have htexts : texts ≠ [] := by
    rintro rfl
    exact hne (List.map_eq_nil_iff.mp hsides.symm)
  rw [GrammarSource.parse, hlines, GrammarSource.addLines, GrammarSource.addLine_directive hstart 1,
    ← hname]
  simp [hadd, htexts]

/-! ### The same grammar again -/

/-- Only the sides of a text count when it is added. -/
theorem addParsed_congr {text text' : ProductionText} (h : text.sides = text'.sides) :
    addParsed text = addParsed text' := by
  obtain ⟨left, right, line⟩ := text
  obtain ⟨left', right', line'⟩ := text'
  obtain ⟨rfl, rfl⟩ := Prod.mk.inj h
  rfl

theorem addAll_append (texts : List ProductionText) (text : ProductionText) :
    addAll (texts ++ [text]) g = .ok () g' ↔
      ∃ p mid, addAll texts g = .ok () mid ∧ addParsed text mid = .ok p g' := by
  induction texts generalizing g with
  | nil =>
    simp only [List.nil_append, addAll, Outcome.run_bind_eq_ok, Outcome.run_pure_eq_ok]
    constructor
    · rintro ⟨p, mid, hp, -, rfl⟩
      exact ⟨p, g, ⟨trivial, rfl⟩, hp⟩
    · rintro ⟨p, mid, ⟨-, rfl⟩, hp⟩
      exact ⟨p, g', hp, trivial, rfl⟩
  | cons first texts ih =>
    simp only [List.cons_append, addAll, Outcome.run_bind_eq_ok, ih]
    constructor
    · rintro ⟨q, next, hq, p, mid, hmid, hp⟩
      exact ⟨p, mid, ⟨q, next, hq, hmid⟩, hp⟩
    · rintro ⟨p, mid, ⟨q, next, hq, hmid⟩, hp⟩
      exact ⟨q, next, hq, p, mid, hmid, hp⟩

/-- What holds while a text is read: so far the grammar comes from its own rules, however often the
text has repeated them. -/
structure Replayed (g : Grammar) : Prop extends g.Consistent where
  noStart : ∀ p ∈ g.productionList, p.left ≠ Symbol.start
  labels : g.labels = {}
  replay : ∀ texts, texts.map ProductionText.sides = g.productionList.map Production.sides →
    addAll texts {} = .ok () g

theorem replayed_empty : Replayed {} where
  toConsistent := consistent_empty
  noStart := growing_empty.noStart
  labels := rfl
  replay := fun texts h => by
    obtain rfl := List.map_eq_nil_iff.mp h
    rfl

/-- The production of a text has its sides. -/
theorem production_sides (h : g.Made) {text : ProductionText} (ht : text.Plain) :
    (g.production text).1.sides = text.sides := by
  obtain ⟨hform, -, -⟩ := production_stands h ht
  refine Prod.ext (production_spec h ht).1 ?_
  cases hempty : text.right.isEmpty with
  | true =>
    have hright : (g.production text).1.right = [Symbol.epsilon] := by simp [production, hempty]
    have hnone : text.right = [] := List.isEmpty_iff.mp hempty
    simp only [Production.sides, ProductionText.sides, hnone, Production.rightNames,
      Production.isEpsilon, hright]
    rfl
  | false =>
    have hleft : IsSymbolName text.left := .inl ht.1
    have hfresh : Interned {} := by simp [Interned]
    have hspec := intern_spec h hleft hfresh
    rw [kindOfName_of_isNonterminalName ht.1] at hspec
    obtain ⟨hnames, hall, -⟩ := internAll_stands h ht.2 hspec.2
    have hright := right_production (g := g) hempty
    rcases hform.right_cases with ⟨hepsilon, -⟩ | ⟨-, -, hrow⟩
    · -- the mark of the empty word is no symbol of a text
      have hplain := (hall Symbol.epsilon (by rw [← hright, hepsilon]; simp)).plain
      rcases hplain.proper.tabled with hk | hk <;> cases hk
    · exact hrow.trans ((congrArg _ hright).trans hnames)

theorem labels_attach (p : Production) : (g.attach p).labels = g.labels := by
  have hacquire (g : Grammar) (s : Symbol) : (g.acquire s).labels = g.labels := by
    rw [acquire, addReferences, Grammar.setUsage]
    split
    · rw [register]
      split <;> rfl
    · rfl
  have hfoldl (symbols : List Symbol) (g : Grammar) : (symbols.foldl acquire g).labels = g.labels := by
    induction symbols generalizing g with
    | nil => rfl
    | cons s symbols ih => exact (ih (g.acquire s)).trans (hacquire g s)
  exact hfoldl p.symbols g

/-- Adding the production of a text leaves the grammar as it is, or lists one more production. -/
theorem addParsed_cases (h : g.Made) {text : ProductionText} (ht : text.Plain) {p : Production}
    (hadd : addParsed text g = .ok p g') :
    g' = g ∨ g'.productionList = g.productionList ++ [p] ∧ p.RuleForm ∧ p.sides = text.sides ∧
      g'.labels = g.labels := by
  rw [addParsed, Outcome.run_get_bind] at hadd
  cases hlisted : g.productions.get? text.name with
  | some q =>
    rw [hlisted] at hadd
    exact .inl (Outcome.run_pure_eq_ok.mp hadd).2.symm
  | none =>
    rw [hlisted] at hadd
    obtain ⟨-, -, -, hissued⟩ := production_spec h ht
    obtain ⟨hform, hname, -⟩ := production_stands h ht
    simp only [Outcome.run_bind_eq_ok, Outcome.run_set_eq_ok] at hadd
    obtain ⟨-, _, rfl, hadd⟩ := hadd
    obtain ⟨rfl, -, rfl⟩ := add_eq_ok.mp hadd
    rw [hissued]
    exact .inr ⟨productionList_attach_of_new (hname ▸ hlisted), hform, production_sides h ht,
      labels_attach _⟩

theorem Replayed.addParsed (h : g.Replayed) {text : ProductionText} (ht : text.Plain)
    {p : Production} (hadd : addParsed text g = .ok p g') : g'.Replayed := by
  rcases addParsed_cases h.toMade ht hadd with rfl | ⟨hlist, hform, hsides, hlabels⟩
  · exact h
  obtain ⟨q, after, hrun, hafter⟩ := h.toConsistent.addParsed ht
  obtain ⟨rfl, rfl⟩ := EStateM.Result.ok.inj (hrun.symm.trans hadd)
  refine ⟨hafter, fun r hr => ?_, hlabels.trans h.labels, fun texts htexts => ?_⟩
  · rw [hlist, List.mem_append, List.mem_singleton] at hr
    rcases hr with hr | rfl
    · exact h.noStart r hr
    · exact hform.1.1.ne_start
  · rw [hlist, List.map_append] at htexts
    obtain ⟨before, last, rfl, hbefore, hlast⟩ := List.map_eq_append_iff.mp htexts
    obtain ⟨text', rfl, htext⟩ := List.map_eq_singleton_iff.mp hlast
    refine (addAll_append before text').mpr ⟨q, g, h.replay before hbefore, ?_⟩
    rw [addParsed_congr (htext.trans hsides), hadd]

theorem Replayed.addAll (h : g.Replayed) {texts : List ProductionText}
    (ht : ∀ text ∈ texts, text.Plain) (hadd : addAll texts g = .ok () g') : g'.Replayed := by
  induction texts generalizing g with
  | nil =>
    obtain ⟨-, rfl⟩ := Outcome.run_pure_eq_ok.mp hadd
    exact h
  | cons text texts ih =>
    obtain ⟨htext, htexts⟩ := List.forall_mem_cons.mp ht
    rw [Grammar.addAll, Outcome.run_bind_eq_ok] at hadd
    obtain ⟨p, mid, hp, hadd⟩ := hadd
    exact ih (h.addParsed htext hp) htexts hadd

theorem Replayed.growing (h : g.Replayed) : g.Growing :=
  ⟨h.toMade, h.toTidy.valid, h.stamped, h.noStart⟩

/-- The start production comes after the rules. -/
theorem Replayed.setStart (h : g.Replayed) {name : String} {p : Production}
    (hset : setStart name g = .ok p g') :
    ∃ target, target.name = name ∧ target.Plain ∧ target.kind = .nonterminal ∧
      target ∈ g.occurrences ∧ p.left = Symbol.start ∧ p.right = [target] ∧
      g'.productionList = g.productionList ++ [p] ∧ g'.labels = g.labels := by
  obtain ⟨target, htarget, hne, hadd⟩ := h.growing.exists_of_setStart hset
  obtain ⟨hname, hkind, hproper⟩ := h.of_get?_nonterminals htarget
  simp only [addStart, Outcome.run_get_bind, h.intern_eq htarget hne, Outcome.run_bind_eq_ok,
    Outcome.run_set_eq_ok] at hadd
  obtain ⟨_, _, rfl, hadd⟩ := hadd
  obtain ⟨rfl, -, rfl⟩ := add_eq_ok.mp hadd
  refine ⟨target, hname, hproper.plain hne, hkind, ?_, rfl, rfl, ?_, labels_attach _⟩
  · exact (h.toTidy.mem_nonterminalList.mp (h.mem_nonterminalList_iff.mpr (hname ▸ htarget))).2
  · have hnew : g.productions.get?
        (Production.name ⟨g.issued + 1, Symbol.start, [target], -1⟩) = none := by
      rw [Option.eq_none_iff_forall_ne_some]
      intro q hq
      obtain ⟨hmem, hqname⟩ := h.toTidy.mem_of_get? hq
      exact h.noStart q hmem ((h.formed q hmem).left_eq_start_of_name_eq rfl hqname)
    exact productionList_attach_of_new hnew

/-- Shown rules are added, line by line, as productions with their sides. -/
theorem addLines_shown (hlabels : g.labels = {}) {rules : List Production}
    (h : ∀ p ∈ rules, p.RuleForm) (line : Nat) :
    ∃ texts, texts.map ProductionText.sides = rules.map Production.sides ∧
      ∀ before after, addAll texts before = .ok () after →
        ∃ left, addLines line (rules.map g.shown) before = .ok left after := by
  induction rules generalizing line with
  | nil =>
    refine ⟨[], rfl, fun before after hadd => ⟨none, ?_⟩⟩
    obtain ⟨-, rfl⟩ := Outcome.run_pure_eq_ok.mp hadd
    rfl
  | cons p rules ih =>
    obtain ⟨hp, hrules⟩ := List.forall_mem_cons.mp h
    obtain ⟨texts, hsides, hlines⟩ := ih hrules (line + 1)
    refine ⟨⟨p.left.name, p.rightNames, line⟩ :: texts, congrArg (p.sides :: ·) hsides,
      fun before after hadd => ?_⟩
    obtain ⟨q, mid, hq, hadd⟩ := Outcome.run_bind_eq_ok.mp hadd
    obtain ⟨left, hrest⟩ := hlines mid after hadd
    refine ⟨some q.left.name, ?_⟩
    rw [List.map_cons, addLines, hp.parse_shown hlabels]
    simp only [Outcome.run_bind_eq_ok, Outcome.run_pure_eq_ok]
    exact ⟨q, mid, hq, left, after, hrest, rfl, rfl⟩

/-- A grammar that was read from a text comes back from the rules that it shows: from a text that
names its start symbol and lists them, and from the single lines. Every rule is read back from its
line and from its name, whatever its number in the text. -/
theorem ofText_written {text : String} (h : ofText text = .ok g) :
    ∃ start, g.userStart? = .ok (some start) ∧
      ofText (g.written start) = .ok g ∧
      ofLines (g.rules.map g.shown) (some start.name) = .ok g ∧
      ∀ p ∈ g.rules, ∀ line,
        ProductionText.parse (g.shown p) line = .ok ⟨p.left.name, p.rightNames, line⟩ ∧
        ProductionText.parse p.name line = .ok ⟨p.left.name, p.rightNames, line⟩ := by
  obtain ⟨source, mid, last, hsource, hall, hknown, hset⟩ := ofText_eq_ok.mp h
  have hmid := replayed_empty.addAll (GrammarSource.plain_parse hsource) hall
  obtain ⟨start, hname, hplain, hkind, hused, hleft, hright, hlist, hlabels⟩ := hmid.setStart hset
  rw [← hname] at hknown hset
  have hrules : g.rules = mid.productionList := by
    have hkept : mid.productionList.filter (fun p => p.left ≠ Symbol.start) = mid.productionList :=
      List.filter_eq_self.mpr fun p hp => by simpa using hmid.noStart p hp
    rw [rules, hlist, List.filter_append, hkept]
    simp [hleft]
  have hform : ∀ p ∈ g.rules, p.RuleForm := fun p hp => by
    rw [hrules] at hp
    exact (hmid.formed p hp).resolve_left fun hstart => hmid.noStart p hp hstart.1
  have hunlabelled : g.labels = {} := hlabels.trans hmid.labels
  have hne : g.rules ≠ [] := by
    rintro hnone
    rw [occurrences, ← hrules, hnone] at hused
    simp at hused
  have hletter : Symbol.isNonterminalName start.name = true :=
    kindOfName_eq_nonterminal_iff.mp (hplain.2.symm.trans hkind)
  refine ⟨start, ?_, ?_, ?_, fun p hp line =>
    ⟨(hform p hp).parse_shown hunlabelled line, (hform p hp).parse_name line⟩⟩
  · have hfind : g.startProduction? = some last := by
      rw [startProduction?, hlist, List.find?_append,
        List.find?_eq_none.mpr fun p hp => by simpa using hmid.noStart p hp]
      simp [hleft]
    rw [userStart?, hfind]
    simp only [hright]
  · obtain ⟨texts, hsides, hparse⟩ := parse_written hunlabelled hform hne hletter
    exact ofText_eq_ok.mpr ⟨_, mid, last, hparse, hmid.replay texts (hrules ▸ hsides), hknown, hset⟩
  · obtain ⟨texts, hsides, hlines⟩ := addLines_shown hunlabelled hform 1
    obtain ⟨left, hadd⟩ := hlines {} mid (hmid.replay texts (hrules ▸ hsides))
    have hsome : start.name ≠ "" := by
      intro hempty
      rw [hempty] at hletter
      cases hletter
    rw [ofLines, build_eq_ok, Outcome.run_bind_eq_ok]
    refine ⟨left, mid, hadd, ?_⟩
    simp only [if_neg hsome, Outcome.run_bind_eq_ok, Outcome.run_pure_eq_ok]
    exact ⟨last, g, hset, trivial, rfl⟩

/-! Symbols that look like an arrow, a comment or a directive, and one production twice. -/

namespace Sample

def tricky : String := "// signs\nA -> - > %\nS -> A / /\nA ->\nA->->%\n%start S"

def shownTricky : String := "%start S\nA -> - > %\nS -> A / /\nA -> ε"

end Sample

theorem ofText_written_sample : ∃ g start, ofText Sample.tricky = .ok g ∧
    g.userStart? = .ok (some start) ∧ g.written start = Sample.shownTricky ∧
      ofText Sample.shownTricky = .ok g ∧
      ∀ p ∈ g.rules, ProductionText.parse p.name 7 = .ok ⟨p.left.name, p.rightNames, 7⟩ := by
  obtain ⟨g, hg⟩ : ∃ g, ofText Sample.tricky = .ok g :=
    ⟨_, Outcome.eq_ok_of_toOption (Option.some_get (by decide +kernel)).symm⟩
  obtain ⟨start, hstart, hagain, -, hparse⟩ := ofText_written hg
  have hwritten : (ofText Sample.tricky).toOption.all (fun g =>
      g.userStart?.toOption.all fun start => start.all fun start =>
        g.written start = Sample.shownTricky) = true := by
    decide +kernel
  have hshown : g.written start = Sample.shownTricky := by
    simpa [hg, hstart, Except.toOption] using hwritten
  exact ⟨g, start, hg, hstart, hshown, hshown ▸ hagain, fun p hp => (hparse p hp 7).2⟩

end Grammar

end Lookahead
