import Lookahead.Json.Basic

/-!
# Limits of spelling

A value can be spelled if its whole numbers have not too many digits and if not too many
lists and objects lie around any part of it. How many are too many is for the machine to
say; where it names no bound, every value can be spelled. `Json.excess` is what stands in
the way, found as the value is spelled from left to right.
-/

namespace Lookahead.Json

/-- The bounds that a value has to keep so that it can be spelled. -/
structure Limits where
  /-- The most digits of a whole number. -/
  digits : Option Nat := none
  /-- The most lists and objects around a part of the value. -/
  nesting : Option Nat := none
  deriving DecidableEq, Repr, Inhabited

/-- What keeps a value from being spelled. -/
inductive Excess where
  /-- A whole number has more digits than the bound. -/
  | tooLong (bound : Nat)
  | tooDeep
  deriving DecidableEq, Repr, Inhabited

def Excess.message : Excess → String
  | tooLong bound =>
    "Exceeds the limit (" ++ toString bound ++ " digits) for integer string conversion; " ++
      "use sys.set_int_max_str_digits() to increase the limit"
  | tooDeep => "Too many lists and objects lie inside each other"

namespace Limits

/-- The bounds for the parts of a list or an object, if there is room for parts. -/
def inner? (limits : Limits) : Option Limits :=
  match limits.nesting with
  | none => some limits
  | some 0 => none
  | some (room + 1) => some { limits with nesting := some room }

/-- The sign of a number does not count. -/
def excessOfInt (limits : Limits) (n : Int) : Option Excess :=
  match limits.digits with
  | none => none
  | some bound => if n.natAbs < Nat.pow 10 bound then none else some (.tooLong bound)

end Limits

mutual

/-- What is met first that goes beyond the bounds. -/
def excess (limits : Limits) : Json → Option Excess
  | .null => none
  | .bool _ => none
  | .int n => limits.excessOfInt n
  | .double _ => none
  | .string _ => none
  | .list items => excessOfItems limits items
  | .object fields => excessOfFields limits fields

def excessOfItems (limits : Limits) : List Json → Option Excess
  | [] => none
  | v :: rest =>
    match limits.inner? with
    | none => some .tooDeep
    | some inner => (excess inner v).or (excessOfItems limits rest)

def excessOfFields (limits : Limits) : List (Text.Loose × Json) → Option Excess
  | [] => none
  | (_, v) :: rest =>
    match limits.inner? with
    | none => some .tooDeep
    | some inner => (excess inner v).or (excessOfFields limits rest)

end

/-- The value can be spelled. -/
def Fits (limits : Limits) (v : Json) : Prop := v.excess limits = none

instance (limits : Limits) (v : Json) : Decidable (v.Fits limits) :=
  inferInstanceAs (Decidable (_ = _))

/-- A value has a property that lists and objects take over from their parts. -/
@[elab_as_elim]
theorem induction_on {P : Json → Prop} (scalar : ∀ v, v.scalar? ≠ none → P v)
    (list : ∀ items, (∀ v ∈ items, P v) → P (.list items))
    (object : ∀ fields, (∀ field ∈ fields, P field.2) → P (.object fields)) (v : Json) : P v :=
  match v with
  | .null => scalar _ nofun
  | .bool _ => scalar _ nofun
  | .int _ => scalar _ nofun
  | .double _ => scalar _ nofun
  | .string _ => scalar _ nofun
  | .list items => list items fun v _ => induction_on scalar list object v
  | .object fields => object fields fun field _ => induction_on scalar list object field.2
termination_by sizeOf v
decreasing_by
  · have := List.sizeOf_lt_of_mem ‹v ∈ items›
    simp only [Json.list.sizeOf_spec]
    omega
  · have := List.sizeOf_lt_of_mem ‹field ∈ fields›
    have : sizeOf field.2 < sizeOf field := by
      cases field
      simp only [Prod.mk.sizeOf_spec]
      omega
    simp only [Json.object.sizeOf_spec]
    omega

section Fits

variable {limits inner : Limits}

/-- The bounds for parts are kept. -/
def Limits.Within (limits : Limits) (v : Json) : Prop :=
  ∃ inner, limits.inner? = some inner ∧ v.Fits inner

theorem fits_list {items : List Json} :
    (Json.list items).Fits limits ↔ ∀ v ∈ items, limits.Within v := by
  induction items with
  | nil => simp [Fits, excess, excessOfItems]
  | cons v items ih =>
    rw [List.forall_mem_cons, ← ih]
    cases hi : limits.inner? <;>
      simp [Fits, excess, excessOfItems, Limits.Within, hi, Option.or_eq_none_iff]

theorem fits_object {fields : List (Text.Loose × Json)} :
    (Json.object fields).Fits limits ↔ ∀ field ∈ fields, limits.Within field.2 := by
  induction fields with
  | nil => simp [Fits, excess, excessOfFields]
  | cons field fields ih =>
    rw [List.forall_mem_cons, ← ih]
    cases hi : limits.inner? <;>
      simp [Fits, excess, excessOfFields, Limits.Within, hi, Option.or_eq_none_iff]

/-- A scalar has no parts, so the room for parts does not matter. -/
theorem fits_inner_iff_of_scalar {v : Json} (hv : v.scalar? ≠ none)
    (hi : limits.inner? = some inner) : v.Fits inner ↔ v.Fits limits := by
  have hdigits : inner.digits = limits.digits := by
    rw [Limits.inner?] at hi
    split at hi <;> cases hi <;> rfl
  cases v with
  | int n => simp only [Fits, excess, Limits.excessOfInt, hdigits]
  | list items => exact absurd rfl hv
  | object fields => exact absurd rfl hv
  | null | bool | double | string => exact Iff.rfl

/-- What can be spelled as a part can be spelled by itself. -/
theorem Fits.of_inner {v : Json} (h : v.Fits inner) (hi : limits.inner? = some inner) :
    v.Fits limits := by
  induction v using induction_on generalizing limits inner with
  | scalar v hv => exact (fits_inner_iff_of_scalar hv hi).mp h
  | list items ih =>
    refine fits_list.mpr fun v hv => ?_
    obtain ⟨_, hinner, hfits⟩ := fits_list.mp h v hv
    exact ⟨inner, hi, ih v hv hfits hinner⟩
  | object fields ih =>
    refine fits_object.mpr fun field hfield => ?_
    obtain ⟨_, hinner, hfits⟩ := fits_object.mp h field hfield
    exact ⟨inner, hi, ih field hfield hfits hinner⟩

theorem Limits.Within.fits {v : Json} (h : limits.Within v) : v.Fits limits := by
  obtain ⟨inner, hi, hv⟩ := h
  exact hv.of_inner hi

/-- The fields of a value that can be spelled can be spelled. -/
theorem Fits.of_field? {v w : Json} {name : String} (h : v.Fits limits)
    (hw : v.field? name = some w) : w.Fits limits := by
  cases v with
  | object fields =>
    obtain ⟨before, after, rfl, -⟩ := List.lookup_eq_some_iff.mp hw
    exact (fits_object.mp h (name, w) (by simp)).fits
  | null | bool | int | double | string | list => cases hw

/-- Without bounds everything can be spelled. -/
@[simp] theorem fits_unlimited (v : Json) : v.Fits {} := by
  induction v using induction_on with
  | scalar v hv =>
    cases v with
    | list items => exact absurd rfl hv
    | object fields => exact absurd rfl hv
    | null | bool | int | double | string => rfl
  | list items ih => exact fits_list.mpr fun v hv => ⟨{}, rfl, ih v hv⟩
  | object fields ih => exact fits_object.mpr fun field hfield => ⟨{}, rfl, ih field hfield⟩

end Fits

end Lookahead.Json
