import Mundart.Text.Basic

/-!
# Dictionaries in order of first write

A dictionary is the list of its entries. Writing a new key appends an entry, writing a known key
replaces its value in place, so the keys stand in the order of their first write and no key
stands twice. Associative arrays, the variables and functions of a scope and the tables of the
script store are all kept this way.
-/

namespace Mundart

/-- Entries in order of first write. -/
abbrev Dict (α : Type) := List (Text × α)

namespace Dict

variable {α β : Type}

/-- The value of a key. -/
def get? (d : Dict α) (key : Text) : Option α :=
  match d with
  | [] => none
  | (k, v) :: d => if k = key then some v else get? d key

/-- Writes a key: in place when it is known, at the end otherwise. -/
def set (d : Dict α) (key : Text) (value : α) : Dict α :=
  match d with
  | [] => [(key, value)]
  | (k, v) :: d => if k = key then (k, value) :: d else (k, v) :: set d key value

/-- The dictionary without a key. -/
def erase (d : Dict α) (key : Text) : Dict α := d.filter fun e => e.1 ≠ key

def has (d : Dict α) (key : Text) : Bool := (d.get? key).isSome

/-- The keys in order of first write. -/
def keys (d : Dict α) : List Text := d.map Prod.fst

/-- The values in the order of their keys. -/
def values (d : Dict α) : List α := d.map Prod.snd

/-- The dictionary that a list of writes leaves behind. -/
def ofWrites (writes : List (Text × α)) : Dict α := writes.foldl (fun d e => d.set e.1 e.2) []

/-- The entries in ascending byte order of their keys. -/
def byKey (d : Dict α) : Dict α := d.mergeSort fun a b => !Text.before b.1 a.1

/-! ### Reading after writing

Writing a key changes what is read under it and nothing else, and a new key is put behind the others. A
dictionary that is only written to has no key twice. -/

theorem get?_set (d : Dict α) (key other : Text) (value : α) :
    (d.set key value).get? other = if key = other then some value else d.get? other := by
  induction d with
  | nil => simp [set, get?]
  | cons e d ih =>
    obtain ⟨k, v⟩ := e
    by_cases hk : k = key
    · subst hk; by_cases ho : k = other <;> simp [set, get?, ho]
    · by_cases ho : k = other
      · subst ho; simp [set, get?, hk, Ne.symm hk]
      · simp [set, get?, hk, ho, ih]

@[simp] theorem keys_nil : keys ([] : Dict α) = [] := rfl

@[simp] theorem keys_cons (e : Text × α) (d : Dict α) : keys (e :: d) = e.1 :: keys d := rfl

theorem keys_set (d : Dict α) (key : Text) (value : α) :
    (d.set key value).keys = if key ∈ d.keys then d.keys else d.keys ++ [key] := by
  induction d with
  | nil => simp [set]
  | cons e d ih =>
    obtain ⟨k, v⟩ := e
    by_cases hk : k = key
    · subst hk; simp [set]
    · by_cases hd : key ∈ keys d <;> simp [set, hk, ih, Ne.symm hk, hd]

theorem nodup_keys_set {d : Dict α} (h : d.keys.Nodup) (key : Text) (value : α) :
    (d.set key value).keys.Nodup := by
  rw [keys_set]
  split
  · exact h
  · rename_i hk
    rw [List.nodup_append]
    refine ⟨h, by simp, ?_⟩
    rintro a ha b hb rfl
    exact hk (by simpa using (List.mem_singleton.1 hb) ▸ ha)

theorem get?_eq_none_iff (d : Dict α) (key : Text) : d.get? key = none ↔ key ∉ d.keys := by
  induction d with
  | nil => simp [get?]
  | cons e d ih =>
    obtain ⟨k, v⟩ := e
    by_cases hk : k = key
    · simp [get?, hk]
    · simp [get?, hk, ih, Ne.symm hk]

end Dict

end Mundart
