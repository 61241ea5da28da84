/-!
# `NameMap` — values by name

Entries are kept in the order of their names, character by character, and a name occurs once. Putting in a
name again replaces its value, so listing a map shows names in order and a later entry wins.

## Contents

* `NameMap`, `NameMap.get?`, `NameMap.insert`, `NameMap.erase`, `NameMap.ofList`;
* `get?_insert_self`, `get?_insert_of_ne`, `get?_erase_self`, `get?_erase_of_ne`: what looking up after a change gives.
-/

namespace FlightScript

/-- Values by name, in the order of names. -/
structure NameMap (α : Type) where
  entries : List (String × α)
  sorted : entries.Pairwise fun a b => a.1 < b.1

namespace NameMap

variable {α : Type}

/-- A map with nothing in it. -/
def empty : NameMap α := ⟨[], .nil⟩

instance : Inhabited (NameMap α) := ⟨empty⟩

/-- Maps with the same entries are equal. -/
theorem ext_entries {m n : NameMap α} (h : m.entries = n.entries) : m = n := by
  cases m; cases n; cases h; rfl

/-- The value of a name. -/
def get? (m : NameMap α) (name : String) : Option α :=
  (m.entries.find? fun e => e.1 == name).map Prod.snd

/-- Whether a name has a value. -/
def contains (m : NameMap α) (name : String) : Bool := (m.get? name).isSome

/-- The names in order. -/
def names (m : NameMap α) : List String := m.entries.map Prod.fst

/-- The values in the order of their names. -/
def values (m : NameMap α) : List α := m.entries.map Prod.snd

/-- Entries with one more, at its place in the order or instead of the entry with its name. -/
def insertEntry (name : String) (value : α) : List (String × α) → List (String × α)
  | [] => [(name, value)]
  | e :: es =>
    if name < e.1 then (name, value) :: e :: es
    else if name = e.1 then (name, value) :: es
    else e :: insertEntry name value es

/-- The entries after an insertion are the new one and old ones. -/
theorem mem_insertEntry {name : String} {value : α} {es : List (String × α)} {x : String × α}
    (h : x ∈ insertEntry name value es) : x = (name, value) ∨ x ∈ es := by
  induction es with
  | nil => exact .inl (by simpa [insertEntry] using h)
  | cons e es ih =>
    unfold insertEntry at h
    split at h
    · exact (List.mem_cons.mp h).imp_right fun h => h
    · split at h
      · exact (List.mem_cons.mp h).imp_right fun h => List.mem_cons_of_mem _ h
      · rcases List.mem_cons.mp h with h | h
        · exact .inr (h ▸ List.mem_cons_self)
        · exact (ih h).imp_right fun h => List.mem_cons_of_mem _ h

/-- An insertion keeps the order. -/
theorem pairwise_insertEntry (name : String) (value : α) {es : List (String × α)}
    (h : es.Pairwise fun a b => a.1 < b.1) :
    (insertEntry name value es).Pairwise fun a b => a.1 < b.1 := by
  induction es with
  | nil => exact .cons (by simp) .nil
  | cons e es ih =>
    have hs := List.pairwise_cons.mp h
    unfold insertEntry
    split
    · rename_i hlt
      refine .cons (fun x hx => ?_) h
      rcases List.mem_cons.mp hx with rfl | hx
      · exact hlt
      · exact String.lt_trans hlt (hs.1 x hx)
    · rename_i hnlt
      split
      · rename_i heq
        exact .cons (fun x hx => heq ▸ hs.1 x hx) hs.2
      · rename_i hne
        refine .cons (fun x hx => ?_) (ih hs.2)
        rcases mem_insertEntry hx with rfl | hx
        · exact Std.lt_of_le_of_ne (String.not_lt.mp hnlt) (fun h => hne h.symm)
        · exact hs.1 x hx

/-- The map with a value for one more name, or a new value for a name it has. -/
def insert (m : NameMap α) (name : String) (value : α) : NameMap α :=
  ⟨insertEntry name value m.entries, pairwise_insertEntry name value m.sorted⟩

/-- The map without a name. -/
def erase (m : NameMap α) (name : String) : NameMap α :=
  ⟨m.entries.filter fun e => e.1 != name, m.sorted.filter _⟩

/-- The map of a list of entries; of two with one name the later counts. -/
def ofList (es : List (String × α)) : NameMap α := es.foldl (fun m e => m.insert e.1 e.2) empty

/-- A name just put in has its new value. -/
theorem get?_insert_self (m : NameMap α) (name : String) (value : α) :
    (m.insert name value).get? name = some value := by
  show ((insertEntry name value m.entries).find? _).map _ = _
  induction m.entries with
  | nil => simp [insertEntry]
  | cons e es ih =>
    unfold insertEntry
    split
    · simp
    · split
      · simp
      · rename_i hne
        simpa [List.find?_cons, show (e.1 == name) = false by simpa using fun h => hne h.symm] using ih

/-- Other names keep their values. -/
theorem get?_insert_of_ne (m : NameMap α) {name other : String} (value : α) (h : other ≠ name) :
    (m.insert name value).get? other = m.get? other := by
  have hb : (name == other) = false := by simpa using fun e => h e.symm
  show ((insertEntry name value m.entries).find? _).map _ = (m.entries.find? _).map _
  induction m.entries with
  | nil => simp [insertEntry, hb]
  | cons e es ih =>
    unfold insertEntry
    split
    · simp [List.find?_cons, hb]
    · split
      · rename_i heq
        simp [hb, ← heq]
      · by_cases he : e.1 = other
        · simp [he]
        · simpa [List.find?_cons, he] using ih

/-- A name just taken out has no value. -/
@[simp] theorem get?_erase_self (m : NameMap α) (name : String) : (m.erase name).get? name = none := by
  show ((m.entries.filter _).find? _).map _ = _
  rw [List.find?_filter, Option.map_eq_none_iff, List.find?_eq_none]
  intro e _
  simp

/-- Other names keep their values. -/
theorem get?_erase_of_ne (m : NameMap α) {name other : String} (h : other ≠ name) :
    (m.erase name).get? other = m.get? other := by
  show ((m.entries.filter _).find? _).map _ = (m.entries.find? _).map _
  rw [List.find?_filter]
  congr 2
  funext e
  by_cases he : e.1 = other
  · simp [he, h]
  · simp [he]

end NameMap

end FlightScript
