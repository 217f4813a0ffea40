import Lookahead.Assoc
import Lookahead.Json.Limits

/-!
# Reading JSON

`Json.read` accepts one value between blanks. Besides the standard form it knows
the names of the infinities and of the value that is not a number. A refusal names
the first character that cannot continue a value. Whole numbers may have a limited
number of digits, and lists and objects may be nested to a limited depth.
-/

namespace Lookahead

open Decimal (Binary64)

namespace Json

inductive ReadFaultKind where
  | value
  | name
  | comma
  | colon
  | extra
  | unterminated
  | control
  | escape
  | unicodeEscape
  | byteOrderMark
  deriving DecidableEq, Repr

/-- The most digits that a whole number may have. -/
def maxDigits : Nat := 4300

/-- The most lists and objects that may lie inside each other. -/
def maxNesting : Nat := 988

/-- The bounds that reading keeps to. -/
def readingLimits : Limits := { digits := some maxDigits, nesting := some maxNesting }

inductive ReadFault where
  /-- The text is no value, with the number of characters before the place of the fault. -/
  | malformed (kind : ReadFaultKind) (position : Nat)
  /-- A whole number has too many digits. -/
  | tooLong (digits : Nat)
  | tooDeep
  deriving DecidableEq, Repr

def ReadFaultKind.message : ReadFaultKind → String
  | value => "Expecting value"
  | name => "Expecting property name enclosed in double quotes"
  | comma => "Expecting ',' delimiter"
  | colon => "Expecting ':' delimiter"
  | extra => "Extra data"
  | unterminated => "Unterminated string starting at"
  | control => "Invalid control character at"
  | escape => "Invalid \\escape"
  | unicodeEscape => "Invalid \\uXXXX escape"
  | byteOrderMark => "Unexpected UTF-8 BOM (decode using utf-8-sig)"

/-- The line, the column and the offset of a place in a source. -/
def placeIn (source : List Char) (position : Nat) : String :=
  let before := source.take position
  let line := before.count '\n' + 1
  let column := (before.reverse.takeWhile (· ≠ '\n')).length + 1
  "line " ++ toString line ++ " column " ++ toString column ++ " (char " ++ toString position ++ ")"

def ReadFault.message (source : List Char) : ReadFault → String
  | malformed kind position => kind.message ++ ": " ++ placeIn source position
  | tooLong digits =>
    "Exceeds the limit (" ++ toString maxDigits ++
      " digits) for integer string conversion: value has " ++ toString digits ++
      " digits; use sys.set_int_max_str_digits() to increase the limit"
  | tooDeep => "Too many lists and objects lie inside each other"

/-- What is left to read and how many characters stand before it. -/
structure Cursor where
  position : Nat
  rest : List Char

def isJsonBlank (c : Char) : Bool := c == ' ' || c == '\t' || c == '\n' || c == '\r'

def skipBlanks : Nat → List Char → Cursor
  | n, [] => ⟨n, []⟩
  | n, c :: rest => if isJsonBlank c then skipBlanks (n + 1) rest else ⟨n, c :: rest⟩

def hexValue? (c : Char) : Option Nat :=
  if '0' ≤ c ∧ c ≤ '9' then some (c.toNat - '0'.toNat)
  else if 'a' ≤ c ∧ c ≤ 'f' then some (c.toNat - 'a'.toNat + 10)
  else if 'A' ≤ c ∧ c ≤ 'F' then some (c.toNat - 'A'.toNat + 10)
  else none

/-- The unit written by the first four characters. -/
def hexUnit? : List Char → Option Nat
  | a :: b :: c :: d :: _ => do
    let a ← hexValue? a
    let b ← hexValue? b
    let c ← hexValue? c
    let d ← hexValue? d
    return ((a * 16 + b) * 16 + c) * 16 + d
  | _ => none

def isHighUnit (n : Nat) : Bool := 0xD800 ≤ n && n ≤ 0xDBFF

def isLowUnit (n : Nat) : Bool := 0xDC00 ≤ n && n ≤ 0xDFFF

/-- What a single unit spells. -/
def unitPart (n : Nat) : Text.Half ⊕ Char :=
  if h : 0xD800 ≤ n ∧ n ≤ 0xDFFF then .inl ⟨n, h⟩ else .inr (Char.ofNat n)

def pairChar (high low : Nat) : Char :=
  Char.ofNat ((high - 0xD800) * 0x400 + (low - 0xDC00) + 0x10000)

def simpleEscape? (c : Char) : Option Char :=
  if c = '"' ∨ c = '\\' ∨ c = '/' then some c
  else if c = 'b' then some '\x08'
  else if c = 'f' then some '\x0c'
  else if c = 'n' then some '\n'
  else if c = 'r' then some '\r'
  else if c = 't' then some '\t'
  else none

/-- The text of a string up to its closing quote; `start` is the place of the opening one. -/
def stringBody (start : Nat) (n : Nat) (text : List Char) (done : List (Text.Half ⊕ Char)) :
    Except ReadFault (Text.Loose × Cursor) :=
  match text with
  | [] => .error (.malformed .unterminated start)
  | '"' :: rest => .ok (.ofReversed done, ⟨n + 1, rest⟩)
  | '\\' :: 'u' :: rest =>
    if rest.length ≤ 4 then .error (.malformed .unicodeEscape (n + 1))
    else match hexUnit? rest with
      | none => .error (.malformed .unicodeEscape (n + 1))
      | some high =>
        let next := rest.drop 4
        if isHighUnit high && 7 ≤ next.length && next.take 2 == ['\\', 'u'] then
          match hexUnit? (next.drop 2) with
          | none => .error (.malformed .unicodeEscape (n + 7))
          | some low =>
            if isLowUnit low then
              stringBody start (n + 12) (rest.drop 10) (.inr (pairChar high low) :: done)
            else
              stringBody start (n + 6) (rest.drop 4) (unitPart high :: done)
        else
          stringBody start (n + 6) (rest.drop 4) (unitPart high :: done)
  | ['\\'] => .error (.malformed .unterminated start)
  | '\\' :: c :: rest =>
    match simpleEscape? c with
    | none => .error (.malformed .escape n)
    | some c => stringBody start (n + 2) rest (.inr c :: done)
  | c :: rest =>
    if c.toNat < 0x20 then .error (.malformed .control n)
    else stringBody start (n + 1) rest (.inr c :: done)
termination_by text.length
decreasing_by all_goals (simp only [List.length_drop, List.length_cons]; omega)

def digitsValue (digits : List Char) : Nat :=
  digits.foldl (fun v c => v * 10 + (c.toNat - '0'.toNat)) 0

/-- Whether a minus sign comes first, and what comes without it. -/
def signed : List Char → Bool × List Char
  | '-' :: more => (true, more)
  | text => (false, text)

/-- The digits that a number begins with; a zero in front stands alone. -/
def wholeDigits : List Char → List Char
  | '0' :: _ => ['0']
  | text => text.takeWhile Char.isDigit

/-- The digits after a decimal point, if the text goes on with a point and a digit. -/
def fractionDigits : List Char → List Char
  | '.' :: rest => rest.takeWhile Char.isDigit
  | _ => []

/-- The sign and digits of an exponent and the length of its text, if there is one. -/
def exponentPart? (text : List Char) : Option (Int × Nat) :=
  match text with
  | e :: rest =>
    if e = 'e' ∨ e = 'E' then
      let (negative, signed, body) := match rest with
        | '-' :: more => (true, 1, more)
        | '+' :: more => (false, 1, more)
        | more => (false, 0, more)
      let digits := body.takeWhile Char.isDigit
      if digits.isEmpty then none
      else
        let size : Int := digitsValue digits
        some (if negative then -size else size, 1 + signed + digits.length)
    else none
  | [] => none

/-- A number; one with a fraction or an exponent is a floating-point number. -/
def number (start : Nat) (text : List Char) : Except ReadFault (Json × Cursor) :=
  let (negative, body) := signed text
  let whole := wholeDigits body
  if whole.isEmpty then .error (.malformed .value start)
  else
    let afterWhole := body.drop whole.length
    let fraction := fractionDigits afterWhole
    let afterFraction :=
      if fraction.isEmpty then afterWhole else afterWhole.drop (fraction.length + 1)
    let exponent := exponentPart? afterFraction
    let rest := afterFraction.drop (exponent.elim 0 Prod.snd)
    let cursor : Cursor := ⟨start + (text.length - rest.length), rest⟩
    if fraction.isEmpty ∧ exponent.isNone then
      let size : Int := digitsValue whole
      if maxDigits < whole.length then .error (.tooLong whole.length)
      else .ok (.int (if negative then -size else size), cursor)
    else
      let scale := exponent.elim 0 Prod.fst - fraction.length
      .ok (.double (Binary64.ofDecimal negative (digitsValue (whole ++ fraction)) scale), cursor)

/-- The values that are written as a word. -/
def words : List (List Char × Json) :=
  [("null".toList, .null), ("true".toList, .bool true), ("false".toList, .bool false),
    ("NaN".toList, .double .notANumber), ("Infinity".toList, .double .positiveInfinity),
    ("-Infinity".toList, .double .negativeInfinity)]

mutual

/-- One value that starts at the cursor, with room for a number of lists and objects inside each
other. `steps` bounds the number of steps still to take. -/
def value : (steps : Nat) → (room : Nat) → Nat → List Char → Except ReadFault (Json × Cursor)
  | 0, _, n, _ => .error (.malformed .value n)
  | steps + 1, room, n, text =>
    match text with
    | '"' :: rest => do
      let (s, cursor) ← stringBody n (n + 1) rest []
      return (.string s, cursor)
    | '\x7b' :: rest =>
      match room with
      | 0 => .error .tooDeep
      | room + 1 =>
        let cursor := skipBlanks (n + 1) rest
        match cursor.rest with
        | '\x7d' :: more => .ok (.object [], ⟨cursor.position + 1, more⟩)
        | _ => fields steps room cursor.position cursor.rest []
    | '[' :: rest =>
      match room with
      | 0 => .error .tooDeep
      | room + 1 =>
        let cursor := skipBlanks (n + 1) rest
        match cursor.rest with
        | ']' :: more => .ok (.list [], ⟨cursor.position + 1, more⟩)
        | _ => items steps room cursor.position cursor.rest []
    | _ =>
      match words.find? (fun w => w.1.isPrefixOf text) with
      | some (w, v) => .ok (v, ⟨n + w.length, text.drop w.length⟩)
      | none => number n text

/-- The values of a list up to its closing bracket. -/
def items : (steps : Nat) → (room : Nat) → Nat → List Char → List Json →
    Except ReadFault (Json × Cursor)
  | 0, _, n, _, _ => .error (.malformed .value n)
  | steps + 1, room, n, text, done => do
    let (v, cursor) ← value steps room n text
    let cursor := skipBlanks cursor.position cursor.rest
    match cursor.rest with
    | ']' :: more => return (.list (v :: done).reverse, ⟨cursor.position + 1, more⟩)
    | ',' :: more =>
      let cursor := skipBlanks (cursor.position + 1) more
      items steps room cursor.position cursor.rest (v :: done)
    | _ => throw (.malformed .comma cursor.position)

/-- The fields of an object up to its closing brace. -/
def fields : (steps : Nat) → (room : Nat) → Nat → List Char → List (Text.Loose × Json) →
    Except ReadFault (Json × Cursor)
  | 0, _, n, _, _ => .error (.malformed .name n)
  | steps + 1, room, n, text, done =>
    match text with
    | '"' :: rest => do
      let (key, cursor) ← stringBody n (n + 1) rest []
      let cursor := skipBlanks cursor.position cursor.rest
      match cursor.rest with
      | ':' :: more =>
        let cursor := skipBlanks (cursor.position + 1) more
        let (v, cursor) ← value steps room cursor.position cursor.rest
        let done := Assoc.putEntry key v done
        let cursor := skipBlanks cursor.position cursor.rest
        match cursor.rest with
        | '\x7d' :: more => return (.object done, ⟨cursor.position + 1, more⟩)
        | ',' :: more =>
          let cursor := skipBlanks (cursor.position + 1) more
          fields steps room cursor.position cursor.rest done
        | _ => throw (.malformed .comma cursor.position)
      | _ => throw (.malformed .colon cursor.position)
    | _ => .error (.malformed .name n)

end

/-- The value that a text holds, with nothing but blanks around it. -/
def read (text : List Char) : Except ReadFault Json :=
  if text.head? = some '\uFEFF' then .error (.malformed .byteOrderMark 0)
  else do
    let cursor := skipBlanks 0 text
    let (v, cursor) ← value (2 * text.length + 2) maxNesting cursor.position cursor.rest
    let cursor := skipBlanks cursor.position cursor.rest
    if cursor.rest.isEmpty then return v else throw (.malformed .extra cursor.position)

end Json

end Lookahead
