import Lookahead.Json.Reader
import Lookahead.Proofs.Outcome
import Mathlib.Algebra.Group.Nat.Defs
import Mathlib.Logic.Basic

/-!
# Bounds of what is read

A value that was read keeps to the bounds of reading: its whole numbers have no more digits
than the text that they were read from, and each list and each object took some of the room
that was left for the parts of the value.
-/

namespace Lookahead.Json

/-! ### Whole numbers -/

theorem digitsValue_lt {digits : List Char} {bound : Nat} (h : ∀ c ∈ digits, c.isDigit = true)
    (hlength : digits.length ≤ bound) : digitsValue digits < 10 ^ bound := by
  have hfoldl (digits : List Char) (v : Nat) (h : ∀ c ∈ digits, c.isDigit = true) :
      digits.foldl (fun v c => v * 10 + (c.toNat - '0'.toNat)) v <
        (v + 1) * 10 ^ digits.length := by
    induction digits generalizing v with
    | nil => simp
    | cons c digits ih =>
      obtain ⟨hc, hdigits⟩ := List.forall_mem_cons.mp h
      have hdigit : c.toNat - '0'.toNat ≤ 9 := by
        have hle := (Char.isDigit_iff_toNat.mp hc).2
        simpa using hle
      calc digits.foldl _ (v * 10 + (c.toNat - '0'.toNat))
          < (v * 10 + (c.toNat - '0'.toNat) + 1) * 10 ^ digits.length := ih _ hdigits
        _ ≤ (v + 1) * 10 * 10 ^ digits.length := Nat.mul_le_mul_right _ (by omega)
        _ = (v + 1) * 10 ^ (digits.length + 1) := by rw [Nat.pow_succ', Nat.mul_assoc]
  calc digitsValue digits < 10 ^ digits.length := by simpa [digitsValue] using hfoldl digits 0 h
    _ ≤ 10 ^ bound := Nat.pow_le_pow_right (by decide) hlength

/-- The bounds of reading where some room is left for parts. -/
def limitsFor (room : Nat) : Limits := { readingLimits with nesting := some room }

theorem fits_int {limits : Limits} {bound : Nat} (hbound : limits.digits = some bound) {n : Int}
    (h : n.natAbs < 10 ^ bound) : (Json.int n).Fits limits := by
  rw [Fits, excess, Limits.excessOfInt, hbound]
  exact if_pos h

theorem isDigit_of_mem_wholeDigits {text : List Char} {c : Char} (h : c ∈ wholeDigits text) :
    c.isDigit = true := by
  rw [wholeDigits.eq_def] at h
  split at h
  · rw [List.mem_singleton.mp h]
    rfl
  · exact List.all_eq_true.mp List.all_takeWhile c h

theorem fits_of_number {start room : Nat} {text : List Char} {v : Json} {cursor : Cursor}
    (h : number start text = .ok (v, cursor)) : v.Fits (limitsFor room) := by
  rw [number] at h
  generalize signed text = given at h
  obtain ⟨negative, body⟩ := given
  rcases ite_eq_iff.mp h with ⟨-, h⟩ | ⟨-, h⟩
  · cases h
  rcases ite_eq_iff.mp h with ⟨-, h⟩ | ⟨-, h⟩
  · rcases ite_eq_iff.mp h with ⟨-, h⟩ | ⟨hlength, h⟩
    · cases h
    · cases h
      have hlt : digitsValue (wholeDigits body) < 10 ^ maxDigits :=
        digitsValue_lt (fun c => isDigit_of_mem_wholeDigits) (Nat.le_of_not_lt hlength)
      refine fits_int rfl ?_
      split
      · rwa [Int.natAbs_neg]
      · exact hlt
  · cases h
    rfl

theorem fits_of_words {w : List Char × Json} (h : w ∈ words) (limits : Limits) :
    w.2.Fits limits := by
  simp only [words, List.mem_cons, List.not_mem_nil, or_false] at h
  rcases h with rfl | rfl | rfl | rfl | rfl | rfl <;> rfl

/-! ### Values -/

/-- What is read in some steps keeps to the bounds for the room there is. A list or an object whose
opening was read before has taken one place of it. -/
structure Bounded (steps : Nat) : Prop where
  value : ∀ {room n text v cursor}, value steps room n text = .ok (v, cursor) →
    v.Fits (limitsFor room)
  items : ∀ {room n text done v cursor}, items steps room n text done = .ok (v, cursor) →
    (∀ w ∈ done, w.Fits (limitsFor room)) → v.Fits (limitsFor (room + 1))
  fields : ∀ {room n text done v cursor}, fields steps room n text done = .ok (v, cursor) →
    (∀ field ∈ done, field.2.Fits (limitsFor room)) → v.Fits (limitsFor (room + 1))

section Step

variable {steps room n : Nat} {text : List Char} {v : Json} {cursor : Cursor}

theorem fits_list_of_parts {done : List Json} (h : ∀ w ∈ done, w.Fits (limitsFor room)) :
    (Json.list done).Fits (limitsFor (room + 1)) :=
  fits_list.mpr fun w hw => ⟨limitsFor room, rfl, h w hw⟩

theorem fits_object_of_parts {done : List (Text.Loose × Json)}
    (h : ∀ field ∈ done, field.2.Fits (limitsFor room)) :
    (Json.object done).Fits (limitsFor (room + 1)) :=
  fits_object.mpr fun field hfield => ⟨limitsFor room, rfl, h field hfield⟩

theorem Bounded.value_succ (ih : Bounded steps)
    (h : Json.value (steps + 1) room n text = .ok (v, cursor)) : v.Fits (limitsFor room) := by
  unfold Json.value at h
  split at h
  · -- a string
    obtain ⟨_, -, h⟩ := Outcome.bind_eq_ok.mp h
    cases h
    rfl
  · -- an object
    split at h
    · cases h
    dsimp only at h
    split at h
    · cases h
      exact fits_object_of_parts (List.forall_mem_nil _)
    · exact ih.fields h (List.forall_mem_nil _)
  · -- a list
    split at h
    · cases h
    dsimp only at h
    split at h
    · cases h
      exact fits_list_of_parts (List.forall_mem_nil _)
    · exact ih.items h (List.forall_mem_nil _)
  · split at h
    · rename_i hword
      cases h
      exact fits_of_words (List.mem_of_find?_eq_some hword) _
    · exact fits_of_number h

theorem Bounded.items_succ (ih : Bounded steps) {done : List Json}
    (h : Json.items (steps + 1) room n text done = .ok (v, cursor))
    (hdone : ∀ w ∈ done, w.Fits (limitsFor room)) : v.Fits (limitsFor (room + 1)) := by
  rw [Json.items] at h
  obtain ⟨⟨w, next⟩, hw, h⟩ := Outcome.bind_eq_ok.mp h
  have hdone := List.forall_mem_cons.mpr ⟨ih.value hw, hdone⟩
  dsimp only at h
  split at h
  · cases h
    exact fits_list_of_parts fun w hw => hdone w (List.mem_reverse.mp hw)
  · exact ih.items h hdone
  · cases h

theorem Bounded.fields_succ (ih : Bounded steps) {done : List (Text.Loose × Json)}
    (h : Json.fields (steps + 1) room n text done = .ok (v, cursor))
    (hdone : ∀ field ∈ done, field.2.Fits (limitsFor room)) : v.Fits (limitsFor (room + 1)) := by
  rw [Json.fields.eq_def] at h
  dsimp only at h
  split at h
  · obtain ⟨⟨key, afterKey⟩, -, h⟩ := Outcome.bind_eq_ok.mp h
    dsimp only at h
    split at h
    · obtain ⟨⟨w, next⟩, hw, h⟩ := Outcome.bind_eq_ok.mp h
      have hput : ∀ field ∈ Assoc.putEntry key w done, field.2.Fits (limitsFor room) := by
        intro field hfield
        rcases Assoc.mem_entries_put (m := ⟨done⟩) hfield with rfl | hfield
        · exact ih.value hw
        · exact hdone field hfield
      dsimp only at h
      split at h
      · cases h
        exact fits_object_of_parts hput
      · exact ih.fields h hput
      · cases h
    · cases h
  · cases h

end Step

theorem bounded (steps : Nat) : Bounded steps := by
  induction steps with
  | zero =>
    refine ⟨fun h => ?_, fun h => ?_, fun h => ?_⟩
    · rw [Json.value] at h
      cases h
    · rw [Json.items] at h
      cases h
    · rw [Json.fields] at h
      cases h
  | succ steps ih => exact ⟨ih.value_succ, ih.items_succ, ih.fields_succ⟩

/-- What was read can be spelled. -/
theorem fits_of_read {text : List Char} {v : Json} (h : read text = .ok v) :
    v.Fits readingLimits := by
  rw [read] at h
  split at h
  · cases h
  · obtain ⟨⟨w, cursor⟩, hw, h⟩ := Outcome.bind_eq_ok.mp h
    dsimp only at h
    split at h
    · cases h
      exact (bounded _).value hw
    · cases h

end Lookahead.Json
