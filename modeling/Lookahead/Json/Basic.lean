import Lookahead.Decimal.Binary64
import Lookahead.Text.Loose

/-!
# Values of the exchange format

Graphs drawn by a user arrive as values of JSON, whose fields may be missing or of
any shape. Whole numbers and floating-point numbers are kept apart. Texts may hold
halves of surrogate pairs. The fields of an object keep the order in which their names
first occur.

Two values are the `same` if they are equal as numbers or, for lists and objects,
part by part. Only scalars can be collected and counted; `Json.scalar?` gives the
normal form under which equal scalars coincide.
-/

namespace Lookahead

open Decimal (Binary64)

inductive Json where
  | null
  | bool (b : Bool)
  | int (n : Int)
  | double (x : Binary64)
  | string (s : Text.Loose)
  | list (items : List Json)
  | object (fields : List (Text.Loose × Json))
  deriving Inhabited

/-- The normal form of a value that can be collected: truth values count as 0 and 1, and a
floating-point number that is whole counts as that whole number. -/
inductive Scalar where
  | null
  | number (n : Int)
  | fraction (x : Binary64)
  | text (s : Text.Loose)
  deriving DecidableEq, Repr, Inhabited

namespace Json

mutual

def decideEq : (a b : Json) → Decidable (a = b)
  | .null, b => by
    cases b
    case null => exact isTrue rfl
    all_goals exact isFalse (by simp)
  | .bool x, b => by
    cases b
    case bool y => exact decidable_of_iff (x = y) (by simp)
    all_goals exact isFalse (by simp)
  | .int x, b => by
    cases b
    case int y => exact decidable_of_iff (x = y) (by simp)
    all_goals exact isFalse (by simp)
  | .double x, b => by
    cases b
    case double y => exact decidable_of_iff (x = y) (by simp)
    all_goals exact isFalse (by simp)
  | .string x, b => by
    cases b
    case string y => exact decidable_of_iff (x = y) (by simp)
    all_goals exact isFalse (by simp)
  | .list xs, b => by
    cases b
    case list ys =>
      have := decideEqList xs ys
      exact decidable_of_iff (xs = ys) (by simp)
    all_goals exact isFalse (by simp)
  | .object xs, b => by
    cases b
    case object ys =>
      have := decideEqFields xs ys
      exact decidable_of_iff (xs = ys) (by simp)
    all_goals exact isFalse (by simp)

def decideEqList : (a b : List Json) → Decidable (a = b)
  | [], [] => isTrue rfl
  | [], _ :: _ => isFalse (by simp)
  | _ :: _, [] => isFalse (by simp)
  | x :: xs, y :: ys =>
    have := decideEq x y
    have := decideEqList xs ys
    decidable_of_iff (x = y ∧ xs = ys) (by simp)

def decideEqFields : (a b : List (Text.Loose × Json)) → Decidable (a = b)
  | [], [] => isTrue rfl
  | [], _ :: _ => isFalse (by simp)
  | _ :: _, [] => isFalse (by simp)
  | (k, x) :: xs, (l, y) :: ys =>
    have := decideEq x y
    have := decideEqFields xs ys
    decidable_of_iff (k = l ∧ x = y ∧ xs = ys) (by simp [and_assoc])

end

instance : DecidableEq Json := decideEq

def scalar? : Json → Option Scalar
  | .null => some .null
  | .bool b => some (.number (if b then 1 else 0))
  | .int n => some (.number n)
  | .double x => some (match x.toInt? with
    | some n => .number n
    | none => .fraction x)
  | .string s => some (.text s)
  | .list _ => none
  | .object _ => none

/-- Whether a value counts as true: zero, the null value and empty values do not. -/
def truthy : Json → Bool
  | .null => false
  | .bool b => b
  | .int n => n ≠ 0
  | .double x => !x.isZero
  | .string s => !s.isEmpty
  | .list items => !items.isEmpty
  | .object fields => !fields.isEmpty

mutual

/-- Equality of values: numbers by value, lists in order, objects whatever the order. -/
def same : Json → Json → Bool
  | .list xs, b => match b with
    | .list ys => sameItems xs ys
    | _ => false
  | .object xs, b => match b with
    | .object ys => xs.length == ys.length && sameFields xs ys
    | _ => false
  | .null, b => b.scalar? == some .null
  | .bool x, b => b.scalar? == scalar? (.bool x)
  | .int n, b => b.scalar? == scalar? (.int n)
  | .double x, b => b.scalar? == scalar? (.double x)
  | .string s, b => b.scalar? == scalar? (.string s)

def sameItems : List Json → List Json → Bool
  | [], [] => true
  | x :: xs, y :: ys => same x y && sameItems xs ys
  | _, _ => false

def sameFields : List (Text.Loose × Json) → List (Text.Loose × Json) → Bool
  | [], _ => true
  | (k, x) :: xs, ys => (match ys.lookup k with
    | some y => same x y
    | none => false) && sameFields xs ys

end

/-- The field of an object, if the value is an object and has it. -/
def field? (v : Json) (name : String) : Option Json :=
  match v with
  | .object fields => fields.lookup (name : Text.Loose)
  | _ => none

/-- An object whose field names are texts without lone halves. -/
def ofFields (fields : List (String × Json)) : Json :=
  .object (fields.map fun field => (field.1, field.2))

/-- The text of a value that is a text, as it can be shown. -/
def string? : Json → Option String
  | .string s => some s.text
  | _ => none

@[simp] theorem field?_ofFields (fields : List (String × Json)) (name : String) :
    (ofFields fields).field? name = fields.lookup name := by
  simp only [field?, ofFields]
  induction fields with
  | nil => rfl
  | cons field rest ih =>
    obtain ⟨key, value⟩ := field
    have h : ((name : Text.Loose) == (key : Text.Loose)) = (name == key) := by
      rw [Bool.eq_iff_iff]; simp
    simp only [List.map_cons, List.lookup_cons, h, ih]

@[simp] theorem scalar?_string (s : Text.Loose) : (Json.string s).scalar? = some (.text s) := rfl

@[simp] theorem same_string (s t : Text.Loose) : same (.string s) (.string t) = (t == s) := by
  rw [same.eq_def]
  by_cases h : t = s
  · simp [h]
  · have hne : Scalar.text t ≠ Scalar.text s := fun he => h (Scalar.text.inj he)
    simp [beq_eq_false_iff_ne.mpr h, beq_eq_false_iff_ne.mpr hne]

/-- A value that is the same as a text is that text. -/
theorem eq_string_of_same {v : Json} {s : Text.Loose} (h : same v (.string s) = true) :
    v = .string s := by
  cases v <;> rw [same.eq_def] at h <;> simp [scalar?] at h
  · rename_i x
    cases hx : x.toInt? <;> simp [hx] at h
  · rw [h]

end Json

end Lookahead
