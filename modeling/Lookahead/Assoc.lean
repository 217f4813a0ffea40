/-!
# Ordered association lists

Entries keep the order in which their keys were first put. Putting a key again
replaces its value and leaves its place, so the keys stay distinct.
-/

namespace Lookahead

universe u v w

structure Assoc (κ : Type u) (α : Type v) where
  entries : List (κ × α) := []
  deriving DecidableEq, Repr, Inhabited

namespace Assoc

variable {κ : Type u} {α : Type v}

def keys (m : Assoc κ α) : List κ := m.entries.map Prod.fst

def values (m : Assoc κ α) : List α := m.entries.map Prod.snd

def size (m : Assoc κ α) : Nat := m.entries.length

def mapValues {β : Type w} (f : α → β) (m : Assoc κ α) : Assoc κ β :=
  ⟨m.entries.map fun e => (e.1, f e.2)⟩

variable [DecidableEq κ]

/-- Replaces the value in the first entry of a key, or adds an entry at the end. -/
def putEntry (k : κ) (a : α) : List (κ × α) → List (κ × α)
  | [] => [(k, a)]
  | e :: rest => if e.1 = k then (k, a) :: rest else e :: putEntry k a rest

def lookupIn (k : κ) : List (κ × α) → Option α
  | [] => none
  | e :: rest => if e.1 = k then some e.2 else lookupIn k rest

def get? (m : Assoc κ α) (k : κ) : Option α := lookupIn k m.entries

def contains (m : Assoc κ α) (k : κ) : Bool := (m.get? k).isSome

def put (m : Assoc κ α) (k : κ) (a : α) : Assoc κ α := ⟨putEntry k a m.entries⟩

def erase (m : Assoc κ α) (k : κ) : Assoc κ α := ⟨m.entries.filter fun e => e.1 ≠ k⟩

def ofList (entries : List (κ × α)) : Assoc κ α :=
  entries.foldl (fun (m : Assoc κ α) e => m.put e.1 e.2) {}

theorem get?_empty (k : κ) : ({} : Assoc κ α).get? k = none := rfl

theorem lookupIn_putEntry (k l : κ) (a : α) (entries : List (κ × α)) :
    lookupIn l (putEntry k a entries) = if k = l then some a else lookupIn l entries := by
  induction entries with
  | nil => simp [putEntry, lookupIn]
  | cons e rest ih =>
    by_cases he : e.1 = k
    · subst he
      by_cases hl : e.1 = l <;> simp [putEntry, lookupIn, hl]
    · by_cases hl : e.1 = l
      · subst hl
        have : ¬k = e.1 := fun h => he h.symm
        simp [putEntry, lookupIn, he, this]
      · simp [putEntry, lookupIn, he, hl, ih]

theorem get?_put (m : Assoc κ α) (k l : κ) (a : α) :
    (m.put k a).get? l = if k = l then some a else m.get? l :=
  lookupIn_putEntry k l a m.entries

@[simp] theorem get?_put_self (m : Assoc κ α) (k : κ) (a : α) : (m.put k a).get? k = some a := by
  simp [get?_put]

theorem get?_put_of_ne (m : Assoc κ α) {k l : κ} (a : α) (h : k ≠ l) :
    (m.put k a).get? l = m.get? l := by
  simp [get?_put, h]

theorem lookupIn_filter (k l : κ) (entries : List (κ × α)) :
    lookupIn l (entries.filter fun e => e.1 ≠ k) =
      if k = l then none else lookupIn l entries := by
  induction entries with
  | nil => simp [lookupIn]
  | cons e rest ih =>
    by_cases he : e.1 = k
    · subst he
      by_cases hl : e.1 = l <;> simp_all [lookupIn]
    · by_cases hl : e.1 = l
      · subst hl
        have : ¬k = e.1 := fun h => he h.symm
        simp [lookupIn, he, this]
      · simpa [lookupIn, he, hl] using ih

theorem get?_erase (m : Assoc κ α) (k l : κ) :
    (m.erase k).get? l = if k = l then none else m.get? l :=
  lookupIn_filter k l m.entries

/-- Putting a key adds it at the end unless it is there. -/
theorem keys_put (m : Assoc κ α) (k : κ) (a : α) :
    (m.put k a).keys = if k ∈ m.keys then m.keys else m.keys ++ [k] := by
  obtain ⟨entries⟩ := m
  simp only [put, keys]
  induction entries with
  | nil => simp [putEntry]
  | cons e rest ih =>
    by_cases he : e.1 = k
    · subst he
      simp [putEntry]
    · have : ¬k = e.1 := fun h => he h.symm
      simp only [putEntry, he, if_false, List.map_cons, ih, List.mem_cons, this, false_or]
      by_cases hk : k ∈ rest.map Prod.fst <;> simp only [hk, if_true, if_false, List.cons_append]

theorem nodup_keys_put {m : Assoc κ α} (h : m.keys.Nodup) (k : κ) (a : α) :
    (m.put k a).keys.Nodup := by
  rw [keys_put]
  split
  · exact h
  · rename_i hk
    rw [List.nodup_append]
    exact ⟨h, by simp, fun x hx y hy hxy => hk (by simp at hy; rw [← hy, ← hxy]; exact hx)⟩

theorem putEntry_of_not_mem {k : κ} {entries : List (κ × α)} (a : α)
    (h : k ∉ entries.map Prod.fst) : putEntry k a entries = entries ++ [(k, a)] := by
  induction entries with
  | nil => rfl
  | cons e rest ih =>
    simp only [List.map_cons, List.mem_cons, not_or] at h
    rw [putEntry, if_neg (fun he => h.1 he.symm), ih h.2]
    rfl

theorem put_of_not_mem {m : Assoc κ α} {k : κ} (a : α) (h : k ∉ m.keys) :
    m.put k a = ⟨m.entries ++ [(k, a)]⟩ := by
  rw [put, putEntry_of_not_mem a h]

theorem keys_put_of_mem {m : Assoc κ α} {k : κ} (a : α) (h : k ∈ m.keys) :
    (m.put k a).keys = m.keys := by
  rw [keys_put, if_pos h]

theorem get?_eq_some_of_lookupIn {m : Assoc κ α} {k : κ} {a : α} (h : m.get? k = some a) :
    (k, a) ∈ m.entries := by
  obtain ⟨entries⟩ := m
  simp only [get?] at h
  induction entries with
  | nil => simp [lookupIn] at h
  | cons e rest ih =>
    rw [lookupIn] at h
    split at h
    · rename_i he
      obtain rfl := Option.some.inj h
      exact he ▸ List.mem_cons_self ..
    · exact List.mem_cons_of_mem _ (ih h)

/-- With distinct keys every entry is found. -/
theorem get?_eq_some_iff {m : Assoc κ α} (hm : m.keys.Nodup) {k : κ} {a : α} :
    m.get? k = some a ↔ (k, a) ∈ m.entries := by
  refine ⟨get?_eq_some_of_lookupIn, fun h => ?_⟩
  obtain ⟨entries⟩ := m
  simp only [get?, keys] at h hm ⊢
  induction entries with
  | nil => exact absurd h List.not_mem_nil
  | cons e rest ih =>
    simp only [List.map_cons, List.nodup_cons] at hm
    rw [lookupIn]
    rcases List.mem_cons.mp h with he | h
    · subst he
      simp
    · have hne : e.1 ≠ k := fun he => hm.1 (he ▸ List.mem_map_of_mem h)
      rw [if_neg hne]
      exact ih hm.2 h

theorem isSome_get?_iff {m : Assoc κ α} {k : κ} : (m.get? k).isSome = true ↔ k ∈ m.keys := by
  obtain ⟨entries⟩ := m
  simp only [get?, keys]
  induction entries with
  | nil => simp [lookupIn]
  | cons e rest ih =>
    rw [lookupIn]
    by_cases he : e.1 = k
    · simp [he]
    · have : ¬k = e.1 := fun h => he h.symm
      simpa [he, this] using ih

theorem get?_eq_none_iff {m : Assoc κ α} {k : κ} : m.get? k = none ↔ k ∉ m.keys := by
  rw [← isSome_get?_iff]
  simp

theorem exists_get?_of_mem_keys {m : Assoc κ α} {k : κ} (h : k ∈ m.keys) :
    ∃ a, m.get? k = some a :=
  Option.isSome_iff_exists.mp (isSome_get?_iff.mpr h)

theorem mem_keys_of_get? {m : Assoc κ α} {k : κ} {a : α} (h : m.get? k = some a) : k ∈ m.keys :=
  isSome_get?_iff.mp (by simp [h])

theorem mem_values_of_get? {m : Assoc κ α} {k : κ} {a : α} (h : m.get? k = some a) :
    a ∈ m.values :=
  List.mem_map.mpr ⟨(k, a), get?_eq_some_of_lookupIn h, rfl⟩

theorem exists_get?_of_mem_values {m : Assoc κ α} (hm : m.keys.Nodup) {a : α}
    (h : a ∈ m.values) : ∃ k, m.get? k = some a := by
  obtain ⟨e, he, rfl⟩ := List.mem_map.mp h
  exact ⟨e.1, (get?_eq_some_iff hm).mpr he⟩

theorem mem_entries_put {m : Assoc κ α} {k : κ} {a : α} {e : κ × α}
    (h : e ∈ (m.put k a).entries) : e = (k, a) ∨ e ∈ m.entries := by
  obtain ⟨entries⟩ := m
  simp only [put] at h ⊢
  induction entries with
  | nil => exact .inl (by simpa [putEntry] using h)
  | cons d rest ih =>
    rw [putEntry] at h
    split at h
    · rcases List.mem_cons.mp h with h | h
      · exact .inl h
      · exact .inr (List.mem_cons_of_mem _ h)
    · rcases List.mem_cons.mp h with h | h
      · exact .inr (h ▸ List.mem_cons_self ..)
      · exact (ih h).imp_right (List.mem_cons_of_mem _)

theorem mem_values_put {m : Assoc κ α} {k : κ} {a b : α} (h : b ∈ (m.put k a).values) :
    b = a ∨ b ∈ m.values := by
  obtain ⟨e, he, rfl⟩ := List.mem_map.mp h
  rcases mem_entries_put he with rfl | he
  · exact .inl rfl
  · exact .inr (List.mem_map_of_mem he)

/-- Putting a value with a new mark keeps the marks of the values distinct. -/
theorem nodup_map_values_put {β : Type w} {f : α → β} {m : Assoc κ α} {k : κ} {a : α}
    (h : (m.values.map f).Nodup) (ha : f a ∉ m.values.map f) :
    ((m.put k a).values.map f).Nodup := by
  obtain ⟨entries⟩ := m
  simp only [put, values] at h ha ⊢
  induction entries with
  | nil => simp [putEntry]
  | cons e rest ih =>
    simp only [List.map_cons, List.nodup_cons, List.mem_cons, not_or] at h ha
    rw [putEntry]
    split
    · exact List.nodup_cons.mpr ⟨ha.2, h.2⟩
    · refine List.nodup_cons.mpr ⟨fun he => ?_, ih h.2 ha.2⟩
      obtain ⟨b, hb, hbe⟩ := List.mem_map.mp he
      rcases mem_values_put (m := ⟨rest⟩) hb with rfl | hb
      · exact ha.1 hbe
      · exact h.1 (hbe ▸ List.mem_map_of_mem hb)

/-- What the old and the new value of a key have in common stays in its place. -/
theorem map_values_put {β : Type w} {f : α → β} {m : Assoc κ α} {k : κ} {a b : α}
    (h : m.get? k = some b) (hf : f a = f b) : (m.put k a).values.map f = m.values.map f := by
  obtain ⟨entries⟩ := m
  simp only [get?, put, values] at h ⊢
  induction entries with
  | nil => cases h
  | cons e rest ih =>
    rw [lookupIn] at h
    rw [putEntry]
    by_cases he : e.1 = k
    · rw [if_pos he] at h ⊢
      obtain rfl := Option.some.inj h
      simp [hf]
    · rw [if_neg he] at h ⊢
      simp only [List.map_cons, ih h]

theorem keys_erase (m : Assoc κ α) (k : κ) : (m.erase k).keys = m.keys.filter fun l => l ≠ k := by
  rw [keys, keys, erase, List.filter_map]
  rfl

/-- Erasing takes back what was put under a new key. -/
theorem erase_put_of_not_mem {m : Assoc κ α} {k : κ} (a : α) (h : k ∉ m.keys) :
    (m.put k a).erase k = m := by
  have hkept : m.entries.filter (fun e => e.1 ≠ k) = m.entries := by
    apply List.filter_eq_self.mpr
    intro e he
    apply decide_eq_true
    intro hk
    exact h (hk ▸ List.mem_map_of_mem he)
  rw [put_of_not_mem a h, erase, List.filter_append, hkept]
  simp

theorem nodup_keys_erase {m : Assoc κ α} (h : m.keys.Nodup) (k : κ) : (m.erase k).keys.Nodup :=
  h.sublist (List.filter_sublist.map Prod.fst)

theorem mem_entries_of_erase {m : Assoc κ α} {k : κ} {e : κ × α} (h : e ∈ (m.erase k).entries) :
    e ∈ m.entries :=
  (List.mem_filter.mp h).1

/-- Erasing a key takes out the value that was found under it. -/
theorem perm_values_erase {m : Assoc κ α} (hm : m.keys.Nodup) {k : κ} {a : α}
    (h : m.get? k = some a) : m.values.Perm (a :: (m.erase k).values) := by
  obtain ⟨entries⟩ := m
  simp only [get?, keys, values, erase] at h hm ⊢
  induction entries with
  | nil => cases h
  | cons e rest ih =>
    simp only [List.map_cons, List.nodup_cons] at hm
    rw [lookupIn] at h
    by_cases he : e.1 = k
    · rw [if_pos he] at h
      obtain rfl := Option.some.inj h
      have hrest : rest.filter (fun e => decide (e.1 ≠ k)) = rest :=
        List.filter_eq_self.mpr fun d hd => decide_eq_true fun hdk =>
          hm.1 (he.trans hdk.symm ▸ List.mem_map_of_mem hd)
      rw [List.filter_cons_of_neg (by simp [he]), hrest, List.map_cons]
    · rw [if_neg he] at h
      rw [List.filter_cons_of_pos (by simp [he]), List.map_cons, List.map_cons]
      exact ((ih hm.2 h).cons e.2).trans (.swap ..)

/-- Tables with the same keys in the same order and the same values are the same. -/
theorem ext_get? {m m' : Assoc κ α} (hm : m.keys.Nodup) (hkeys : m.keys = m'.keys)
    (h : ∀ k ∈ m.keys, m.get? k = m'.get? k) : m = m' := by
  obtain ⟨entries⟩ := m
  obtain ⟨entries'⟩ := m'
  rw [mk.injEq]
  simp only [get?, keys] at hm hkeys h
  induction entries generalizing entries' with
  | nil => exact (List.map_eq_nil_iff.mp hkeys.symm).symm
  | cons e rest ih =>
    obtain ⟨e', rest', rfl⟩ := List.exists_cons_of_ne_nil (l := entries') (by rintro rfl; cases hkeys)
    simp only [List.map_cons, List.nodup_cons, List.cons.injEq] at hm hkeys
    obtain ⟨hk, hrest⟩ := hkeys
    have hhead := h e.1 (List.mem_cons_self ..)
    simp only [lookupIn, hk, if_true, Option.some.injEq] at hhead
    refine List.cons_eq_cons.mpr ⟨Prod.ext hk hhead, ih hm.2 rest' hrest fun k hmem => ?_⟩
    have hne : e.1 ≠ k := fun he => hm.1 (he ▸ hmem)
    have htail := h k (List.mem_cons_of_mem _ hmem)
    rwa [lookupIn, if_neg hne, lookupIn, if_neg (hk ▸ hne)] at htail

/-- A table that gives every key of a list its value. -/
theorem get?_mk_map (ks : List κ) (f : κ → α) (k : κ) :
    (⟨ks.map fun k => (k, f k)⟩ : Assoc κ α).get? k = if k ∈ ks then some (f k) else none := by
  simp only [get?]
  induction ks with
  | nil => simp [lookupIn]
  | cons l ks ih =>
    rw [List.map_cons, lookupIn]
    by_cases hl : l = k
    · simp [hl]
    · have : ¬k = l := fun h => hl h.symm
      simp [hl, this, ih]

/-- Putting entries one by one lists them in order if their keys are distinct. -/
theorem foldl_put_eq {entries : List (κ × α)} {m : Assoc κ α}
    (h : (m.keys ++ entries.map Prod.fst).Nodup) :
    entries.foldl (fun (m : Assoc κ α) e => m.put e.1 e.2) m = ⟨m.entries ++ entries⟩ := by
  induction entries generalizing m with
  | nil => simp
  | cons e rest ih =>
    have hk : e.1 ∉ m.keys := by
      intro hk
      rw [List.nodup_append] at h
      exact h.2.2 e.1 hk e.1 (by simp) rfl
    rw [List.foldl_cons, put_of_not_mem _ hk, ih]
    · simp
    · simpa [keys] using h

theorem ofList_eq {entries : List (κ × α)} (h : (entries.map Prod.fst).Nodup) :
    ofList entries = ⟨entries⟩ := by
  rw [ofList, foldl_put_eq (by simpa [keys] using h)]
  rfl

theorem get?_foldl_put_of_not_mem {entries : List (κ × α)} {m : Assoc κ α} {k : κ}
    (h : ∀ e ∈ entries, e.1 ≠ k) :
    (entries.foldl (fun (m : Assoc κ α) e => m.put e.1 e.2) m).get? k = m.get? k := by
  induction entries generalizing m with
  | nil => rfl
  | cons e rest ih =>
    rw [List.foldl_cons, ih fun d hd => h d (List.mem_cons_of_mem _ hd),
      get?_put_of_ne _ _ (h e (List.mem_cons_self ..))]

/-- A key whose entries all have the same value gets this value. -/
theorem get?_foldl_put {entries : List (κ × α)} {m : Assoc κ α} {k : κ} {a : α}
    (h : ∀ e ∈ entries, e.1 = k → e.2 = a) (hk : m.get? k = some a ∨ ∃ e ∈ entries, e.1 = k) :
    (entries.foldl (fun (m : Assoc κ α) e => m.put e.1 e.2) m).get? k = some a := by
  induction entries generalizing m with
  | nil => simpa using hk
  | cons e rest ih =>
    rw [List.foldl_cons]
    refine ih (fun d hd => h d (List.mem_cons_of_mem _ hd)) ?_
    by_cases he : e.1 = k
    · refine .inl ?_
      rw [he, get?_put_self, h e (List.mem_cons_self ..) he]
    · refine hk.imp (fun hm => ?_) fun ⟨d, hd, hdk⟩ => ⟨d, ?_, hdk⟩
      · rwa [get?_put_of_ne _ _ he]
      · refine (List.mem_cons.mp hd).resolve_left ?_
        rintro rfl
        exact he hdk

end Assoc

end Lookahead
