/-!
# Blank characters

Two classes of blanks occur in grammar texts. `isSpace` is the Unicode property
White_Space; such a character never stands for a symbol. `isBlank` adds the four
information separators; trimming removes these characters.
-/

namespace Lookahead.Text

/-- The Unicode property White_Space. -/
def isSpace (c : Char) : Bool :=
  let n := c.toNat
  (0x09 ≤ n && n ≤ 0x0D) || n == 0x20 || n == 0x85 || n == 0xA0 || n == 0x1680 ||
    (0x2000 ≤ n && n ≤ 0x200A) || n == 0x2028 || n == 0x2029 || n == 0x202F ||
    n == 0x205F || n == 0x3000

/-- Characters that trimming removes: the spaces and the information separators. -/
def isBlank (c : Char) : Bool :=
  isSpace c || (0x1C ≤ c.toNat && c.toNat ≤ 0x1F)

/-- Space, tab and form feed, the blanks allowed around a directive. -/
def isInline (c : Char) : Bool :=
  c == ' ' || c == '\t' || c == '\x0c'

theorem isBlank_of_isSpace {c : Char} (h : isSpace c = true) : isBlank c = true := by
  simp [isBlank, h]

def trimStart (s : List Char) : List Char := s.dropWhile isBlank

def trimEnd (s : List Char) : List Char := (s.reverse.dropWhile isBlank).reverse

def trim (s : List Char) : List Char := trimEnd (trimStart s)

end Lookahead.Text
