/-!
# Values under names

An ordered map keeps values under names, in the order in which the names came in. What
uses one may rely on the laws of `LawfulOrderedMap` and on nothing else. A registry is the
ordered map at hand: a list of names with their values.
-/

namespace LiveDocument

/-- The operations of a map `μ` from names to values. -/
class OrderedMap (μ : Type) (α : outParam Type) where
  empty : μ
  names : μ → List String
  find? : μ → String → Option α
  /-- Puts a value under a name, in place of the one that was there. -/
  insert : μ → String → α → μ
  /-- Takes out a name and its value, and closes the gap. -/
  erase : μ → String → μ

/-- The laws of a map that lists its names in the order in which they came in. -/
class LawfulOrderedMap (μ : Type) (α : outParam Type) [OrderedMap μ α] : Prop where
  names_empty : OrderedMap.names (OrderedMap.empty : μ) = []
  find?_eq_none_iff (map : μ) (name : String) :
    OrderedMap.find? map name = none ↔ name ∉ OrderedMap.names map
  /-- A known name keeps its place, a new one comes last. -/
  names_insert (map : μ) (name : String) (value : α) :
    OrderedMap.names (OrderedMap.insert map name value) =
      if name ∈ OrderedMap.names map then OrderedMap.names map
      else OrderedMap.names map ++ [name]
  names_erase (map : μ) (name : String) :
    OrderedMap.names (OrderedMap.erase map name) = (OrderedMap.names map).erase name
  find?_insert (map : μ) (name other : String) (value : α) :
    OrderedMap.find? (OrderedMap.insert map name value) other =
      if name = other then some value else OrderedMap.find? map other
  /-- Without repeated names, erasing one hides its value and no other. -/
  find?_erase {map : μ} (nodup : (OrderedMap.names map).Nodup) (name other : String) :
    OrderedMap.find? (OrderedMap.erase map name) other =
      if name = other then none else OrderedMap.find? map other

/-! ## Registries -/

/-- Values under names, in the order in which the names came in. -/
abbrev Registry (α : Type) := List (String × α)

namespace Registry

variable {α : Type}

def names (registry : Registry α) : List String := registry.map Prod.fst

def find? : Registry α → String → Option α
  | [], _ => none
  | (name, value) :: rest, wanted => if name = wanted then some value else find? rest wanted

/-- Puts `value` under `name`: in the place of the value that was there, or at the
end for a new name. -/
def insert : Registry α → String → α → Registry α
  | [], name, value => [(name, value)]
  | entry :: rest, name, value =>
      if entry.1 = name then (name, value) :: rest else entry :: insert rest name value

def erase : Registry α → String → Registry α
  | [], _ => []
  | entry :: rest, name => if entry.1 = name then rest else entry :: erase rest name

theorem find?_insert (registry : Registry α) (name other : String) (value : α) :
    find? (registry.insert name value) other =
      if name = other then some value else find? registry other := by
  induction registry with
  | nil => rfl
  | cons entry rest ih =>
      rw [insert]
      by_cases here : entry.1 = name
      · rw [if_pos here, find?]
        by_cases wanted : name = other
        · rw [if_pos wanted, if_pos wanted]
        · rw [if_neg wanted, if_neg wanted, find?, if_neg (here ▸ wanted)]
      · rw [if_neg here, find?, find?, ih]
        by_cases wanted : entry.1 = other
        · rw [if_pos wanted, if_pos wanted, if_neg fun same => here (wanted.trans same.symm)]
        · rw [if_neg wanted, if_neg wanted]

/-- A known name keeps its place, a new one comes last. -/
theorem names_insert (registry : Registry α) (name : String) (value : α) :
    (registry.insert name value).names =
      if name ∈ registry.names then registry.names else registry.names ++ [name] := by
  induction registry with
  | nil => rfl
  | cons entry rest ih =>
      rw [insert]
      by_cases here : entry.1 = name
      · simp [names, here]
      · have elsewhere : ¬ name = entry.1 := fun same => here same.symm
        rw [if_neg here]
        simp only [names, List.map_cons, List.mem_cons, elsewhere, false_or] at ih ⊢
        rw [ih]
        by_cases known : name ∈ List.map Prod.fst rest <;> simp [known]

theorem names_erase (registry : Registry α) (name : String) :
    (registry.erase name).names = registry.names.erase name := by
  induction registry with
  | nil => rfl
  | cons entry rest ih =>
      rw [erase]
      by_cases here : entry.1 = name
      · simp [names, here]
      · simp only [if_neg here, names, List.map_cons] at ih ⊢
        rw [List.erase_cons_tail (by simpa using here), ih]

theorem find?_eq_none_iff (registry : Registry α) (name : String) :
    registry.find? name = none ↔ name ∉ registry.names := by
  induction registry with
  | nil => simp [find?, names]
  | cons entry rest ih =>
      rw [find?, names, List.map_cons, List.mem_cons]
      by_cases here : entry.1 = name
      · simp [here]
      · have elsewhere : ¬ name = entry.1 := fun same => here same.symm
        simp only [if_neg here, elsewhere, false_or]
        exact ih

/-- Without repeated names, erasing one hides its value and no other. -/
theorem find?_erase {registry : Registry α} (nodup : registry.names.Nodup)
    (name other : String) :
    find? (registry.erase name) other =
      if name = other then none else find? registry other := by
  induction registry with
  | nil => simp [erase, find?]
  | cons entry rest ih =>
      obtain ⟨entryNew, restNodup⟩ := List.nodup_cons.1 nodup
      rw [erase]
      by_cases here : entry.1 = name
      · rw [if_pos here]
        by_cases wanted : name = other
        · rw [if_pos wanted, find?_eq_none_iff, ← wanted, ← here]
          exact entryNew
        · rw [if_neg wanted, find?, if_neg (here ▸ wanted)]
      · rw [if_neg here, find?, find?, ih restNodup]
        by_cases wanted : entry.1 = other
        · rw [if_pos wanted, if_pos wanted, if_neg fun same => here (wanted.trans same.symm)]
        · rw [if_neg wanted, if_neg wanted]

instance : OrderedMap (Registry α) α := ⟨[], names, find?, insert, erase⟩

instance : LawfulOrderedMap (Registry α) α where
  names_empty := rfl
  find?_eq_none_iff := find?_eq_none_iff
  names_insert := names_insert
  names_erase := names_erase
  find?_insert := find?_insert
  find?_erase := find?_erase

end Registry

end LiveDocument
