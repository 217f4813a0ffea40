import Lookahead.Text.Loose
import Lookahead.Text.Printable

/-!
# Quoted text

Messages show a text between quotes. Single quotes are used unless the text holds
a single quote and no double quote. Whatever cannot be shown is written as an
escape, so a quoted text stays on one line.
-/

namespace Lookahead.Text

/-- The low `width` hexadecimal digits of a number. -/
def hexDigits : (width : Nat) → Nat → List Char
  | 0, _ => []
  | width + 1, n => hexDigits width (n / 16) ++ [Nat.digitChar (n % 16)]

def quoteMark (s : List Char) : Char :=
  if s.contains '\'' && !s.contains '"' then '"' else '\''

def quoteChar (mark c : Char) : List Char :=
  if c = mark ∨ c = '\\' then ['\\', c]
  else if c = '\t' then ['\\', 't']
  else if c = '\n' then ['\\', 'n']
  else if c = '\r' then ['\\', 'r']
  else if isPrintable c then [c]
  else if c.toNat < 0x100 then '\\' :: 'x' :: hexDigits 2 c.toNat
  else if c.toNat < 0x10000 then '\\' :: 'u' :: hexDigits 4 c.toNat
  else '\\' :: 'U' :: hexDigits 8 c.toNat

def quoteChars (s : List Char) : List Char :=
  let mark := quoteMark s
  mark :: s.flatMap (quoteChar mark) ++ [mark]

/-- The text between quotes, with escapes. -/
def quote (s : String) : String := String.ofList (quoteChars s.toList)

def quoteHalf (h : Half) : List Char := '\\' :: 'u' :: hexDigits 4 h.unit

/-- A loose text between quotes; its halves are written as escapes. -/
def quoteLoose (s : Loose) : String :=
  let mark := quoteMark s.text.toList
  let body (t : String) : List Char := t.toList.flatMap (quoteChar mark)
  let tail := s.tail.flatMap fun part => quoteHalf part.1 ++ body part.2
  String.ofList (mark :: body s.head ++ tail ++ [mark])

end Lookahead.Text
