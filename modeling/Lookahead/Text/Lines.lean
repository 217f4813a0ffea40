/-!
# Lines

A text is split at every occurrence of a mark; joining the pieces with the mark gives
the text back. Lines are the pieces between line feeds.
-/

namespace Lookahead.Text

/-- The pieces of a text between the marks; there is always at least one. -/
def pieces (mark : Char) : List Char → List (List Char)
  | [] => [[]]
  | c :: rest =>
    if c = mark then [] :: pieces mark rest
    else match pieces mark rest with
      | [] => [[c]]
      | piece :: more => (c :: piece) :: more

def lines : List Char → List (List Char) := pieces '\n'

/-- The text without a line feed at its end. -/
def dropLineFeed (s : List Char) : List Char :=
  if s.getLast? = some '\n' then s.dropLast else s

/-- The text with every line end, whether one character or two, turned into a line feed. -/
def unifyLineEnds : List Char → List Char
  | [] => []
  | '\r' :: '\n' :: rest => '\n' :: unifyLineEnds rest
  | c :: rest => (if c = '\r' then '\n' else c) :: unifyLineEnds rest

/-- Pieces that hold no mark are found again between the marks. -/
theorem pieces_intercalate {mark : Char} {texts : List (List Char)} (hne : texts ≠ [])
    (h : ∀ text ∈ texts, mark ∉ text) : pieces mark ([mark].intercalate texts) = texts := by
  have hsingle {text : List Char} (ht : mark ∉ text) : pieces mark text = [text] := by
    induction text with
    | nil => rfl
    | cons c rest ih =>
      rw [List.mem_cons, not_or] at ht
      rw [pieces, if_neg (Ne.symm ht.1), ih ht.2]
  have happend {text rest : List Char} (ht : mark ∉ text) :
      pieces mark (text ++ mark :: rest) = text :: pieces mark rest := by
    induction text with
    | nil => rw [List.nil_append, pieces, if_pos rfl]
    | cons c text ih =>
      rw [List.mem_cons, not_or] at ht
      rw [List.cons_append, pieces, if_neg (Ne.symm ht.1), ih ht.2]
  induction texts with
  | nil => exact absurd rfl hne
  | cons text texts ih =>
    obtain ⟨ht, hrest⟩ := List.forall_mem_cons.mp h
    cases texts with
    | nil => simpa [List.intercalate] using hsingle ht
    | cons next more =>
      rw [List.intercalate_cons_cons, List.append_assoc, List.singleton_append, happend ht,
        ih (List.cons_ne_nil _ _) hrest]

end Lookahead.Text
