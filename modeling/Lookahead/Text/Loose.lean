/-!
# Loose texts

Some formats spell the halves of surrogate pairs one by one, so that what they spell
may hold a half without its other half, which is no character. A loose text is kept as
a text, followed by such halves, each with the text behind it. A text is a loose text
without halves.
-/

namespace Lookahead.Text

/-- One half of a surrogate pair. -/
structure Half where
  unit : Nat
  isHalf : 0xD800 ≤ unit ∧ unit ≤ 0xDFFF
  deriving DecidableEq, Repr

instance : Inhabited Half := ⟨⟨0xD800, by decide⟩⟩

structure Loose where
  head : String
  /-- The halves that stand alone, each with the text behind it. -/
  tail : List (Half × String) := []
  deriving DecidableEq, Repr, Inhabited

namespace Loose

@[coe] def ofString (s : String) : Loose := ⟨s, []⟩

instance : Coe String Loose := ⟨ofString⟩

/-- What comes before some characters and before halves, with the characters behind each. -/
def prepend (rest : List Char × List (Half × String)) : Half ⊕ Char →
    List Char × List (Half × String)
  | .inl half => ([], (half, String.ofList rest.1) :: rest.2)
  | .inr c => (c :: rest.1, rest.2)

/-- The loose text of halves and characters that are given from the last to the first. -/
def ofReversed (units : List (Half ⊕ Char)) : Loose :=
  let (head, tail) := units.foldl prepend ([], [])
  ⟨String.ofList head, tail⟩

def isEmpty (s : Loose) : Bool := s.head = "" && s.tail.isEmpty

/-- One text behind the other. Halves that meet stay apart. -/
def append (s t : Loose) : Loose :=
  match s.tail.getLast? with
  | none => ⟨s.head ++ t.head, t.tail⟩
  | some (half, last) => ⟨s.head, s.tail.dropLast ++ (half, last ++ t.head) :: t.tail⟩

instance : Append Loose := ⟨append⟩

/-- The text with the replacement character in the place of every half. -/
def text (s : Loose) : String :=
  s.tail.foldl (fun text part => text ++ "\uFFFD" ++ part.2) s.head

@[simp] theorem ofString_inj {s t : String} : ofString s = ofString t ↔ s = t := by
  simp [ofString]

@[simp] theorem text_ofString (s : String) : (ofString s).text = s := rfl

/-- There are halves in two texts together if there are some in one of them. -/
theorem tail_append_eq_nil {s t : Loose} : (s ++ t).tail = [] ↔ s.tail = [] ∧ t.tail = [] := by
  change (append s t).tail = [] ↔ _
  rw [append]
  split
  · next h =>
    have hs : s.tail = [] := List.getLast?_eq_none_iff.mp h
    simp [hs]
  · next half last h =>
    have hs : s.tail ≠ [] := by
      rintro hs
      simp [hs] at h
    simp [hs]

theorem text_append (s t : Loose) : (s ++ t).text = s.text ++ t.text := by
  have hfoldl (a b : String) (tail : List (Half × String)) :
      tail.foldl (fun text part => text ++ "\uFFFD" ++ part.2) (a ++ b) =
        a ++ tail.foldl (fun text part => text ++ "\uFFFD" ++ part.2) b := by
    induction tail generalizing b with
    | nil => rfl
    | cons part tail ih =>
      rw [List.foldl_cons, List.foldl_cons, String.append_assoc, String.append_assoc, ih,
        String.append_assoc]
  show (append s t).text = _
  unfold append
  split
  · next h =>
    have ht : s.tail = [] := List.getLast?_eq_none_iff.mp h
    simp only [text, ht, List.foldl_nil, hfoldl]
  · next half last h =>
    obtain ⟨before, hb⟩ := List.getLast?_eq_some_iff.mp h
    simp only [text, hb, List.dropLast_concat, List.foldl_append, List.foldl_cons, List.foldl_nil,
      ← String.append_assoc, hfoldl]

end Loose

end Lookahead.Text
