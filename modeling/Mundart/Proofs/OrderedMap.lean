import Mundart.OrderedMap
import Mundart.Proofs.Dict

/-!
# Keys and table in step

A map of keys and a table is in step if its keys are distinct and are exactly those that the table has. The
empty map is, and every write keeps it so, because it looks into the table before it touches the list. A map
in step can then be told from a dictionary by nothing that it answers: the same keys in the same order, and
for each key a value that belongs to the dictionary's.

* **`InStep`**, **`InStep.set`** — the invariant and the write that keeps it;
* **`InStep.values`** — the values are the keys mapped through reading;
* **`Mirrors`**, **`Mirrors.set`** — a map that shows a dictionary still does after both were written to;
* **`mirrors_ofWrites`** — the writes that lead to a dictionary lead to a map that answers the same.
-/

namespace Mundart.OrderedMap

variable {α β : Type} {m : OrderedMap α}

/-- The list and the table have the same keys, and the list has each of them once. -/
structure InStep (m : OrderedMap α) : Prop where
  nodup : m.keys.Nodup
  mem_keys : ∀ key, key ∈ m.keys ↔ ∃ a, m.get? key = some a

/-! ## Reading and writing

Reading asks the table alone, so that it does not depend on the list. These hold of all maps, whether in
step or not. -/

/-- Nothing is in an empty map. -/
@[simp] theorem get?_empty (key : Text) : ({} : OrderedMap α).get? key = none := by
  simp [get?]

/-- A written key is read as what was written, every other one as before. -/
theorem get?_set (m : OrderedMap α) (key other : Text) (a : α) :
    (m.set key a).get? other = if key = other then some a else m.get? other := by
  show (m.table.insert key a)[other]? = _
  rw [Std.HashMap.getElem?_insert]
  by_cases hkey : key = other
  · rw [if_pos (beq_iff_eq.mpr hkey), if_pos hkey]
  · rw [if_neg (by simpa using hkey), if_neg hkey]
    rfl

/-- A key is in the table exactly if it has a value. -/
theorem contains_iff_get? (m : OrderedMap α) (key : Text) :
    m.table.contains key = true ↔ ∃ a, m.get? key = some a := by
  show _ ↔ ∃ a, m.table[key]? = some a
  rw [← Option.isSome_iff_exists, Std.HashMap.isSome_getElem?_eq_contains]

/-- The value of a key that is there is found without asking for it. -/
theorem getD_of_get? [Inhabited α] {key : Text} {a : α} (h : m.get? key = some a) :
    m.table.getD key default = a := by
  have htable : m.table[key]? = some a := h
  rw [Std.HashMap.getD_eq_getD_getElem?, htable]
  rfl

/-! ## The invariant

A write asks the table whether the key is new, and then changes the list. If the two were not in step, a key
would be listed twice or not at all, and the values would be told of keys that have none. -/

/-- An empty map is in step. -/
theorem inStep_empty : ({} : OrderedMap α).InStep := by
  refine ⟨List.nodup_nil, fun key => ?_⟩
  simp

/-- As long as list and table are in step, it does not matter which of them a write asks about the key. -/
theorem InStep.keys_set (h : m.InStep) (key : Text) (a : α) :
    (m.set key a).keys = if key ∈ m.keys then m.keys else m.keys ++ [key] := by
  have hasked : m.table.contains key = true ↔ key ∈ m.keys :=
    (contains_iff_get? m key).trans (h.mem_keys key).symm
  show (if m.table.contains key then m.keys else m.keys ++ [key]) = _
  simp only [hasked]

/-- A write keeps list and table in step. -/
theorem InStep.set (h : m.InStep) (key : Text) (a : α) : (m.set key a).InStep := by
  have hkeys := h.keys_set key a
  refine ⟨?_, fun other => ?_⟩
  · rw [hkeys]
    split
    · exact h.nodup
    · next hnew =>
      refine List.Nodup.append h.nodup (List.nodup_singleton key) ?_
      exact List.disjoint_singleton.mpr hnew
  · rw [hkeys, get?_set]
    by_cases hother : key = other
    -- The written key is in the list, whether it was there or is put at its end.
    · subst hother
      rw [if_pos rfl]
      split
      · next hknown => simp [hknown]
      · simp
    · rw [if_neg hother, ← h.mem_keys other]
      split
      · rfl
      · simp [Ne.symm hother]

/-- The keys without a value are those that are not listed. -/
theorem InStep.get?_eq_none_iff (h : m.InStep) (key : Text) : m.get? key = none ↔ key ∉ m.keys := by
  rw [h.mem_keys key, Option.eq_none_iff_forall_ne_some, not_exists]

/-- No value is made up: every key of the list has one in the table. -/
theorem InStep.values [Inhabited α] (h : m.InStep) : m.values.map some = m.keys.map m.get? := by
  unfold OrderedMap.values
  rw [List.map_map]
  apply List.map_congr_left
  intro key hkey
  obtain ⟨a, ha⟩ := (h.mem_keys key).mp hkey
  show some (m.table.getD key default) = m.get? key
  rw [getD_of_get? ha, ha]

/-! ## Maps and dictionaries

What is held in a map need not be what the dictionary has: the values are related by a relation, so that a
map of addresses can show a dictionary of values. -/

/-- A map shows a dictionary: it has the same keys in the same order, and the values of each key belong
together. -/
structure Mirrors (R : α → β → Prop) (m : OrderedMap α) (d : Dict β) : Prop where
  inStep : m.InStep
  keys : m.keys = d.keys
  values : ∀ key a b, m.get? key = some a → d.get? key = some b → R a b

variable {R S : α → β → Prop} {d : Dict β}

/-- An empty map shows an empty dictionary. -/
theorem mirrors_empty (R : α → β → Prop) : Mirrors R {} ([] : Dict β) :=
  ⟨inStep_empty, rfl, nofun⟩

/-- The values may be related by less. -/
theorem Mirrors.imp (h : Mirrors R m d) (himp : ∀ a b, R a b → S a b) : Mirrors S m d :=
  ⟨h.inStep, h.keys, fun key a b ha hb => himp a b (h.values key a b ha hb)⟩

/-- To write the same key in both keeps them together. -/
theorem Mirrors.set (h : Mirrors R m d) (key : Text) {a : α} {b : β} (hab : R a b) :
    Mirrors R (m.set key a) (d.set key b) := by
  refine ⟨h.inStep.set key a, ?_, fun other a' b' ha' hb' => ?_⟩
  · rw [h.inStep.keys_set, Dict.keys_set, h.keys]
  · rw [get?_set] at ha'
    rw [Dict.get?_set] at hb'
    split at ha'
    · next heq =>
      rw [if_pos heq] at hb'
      rw [← Option.some.inj ha', ← Option.some.inj hb']
      exact hab
    · next hne =>
      rw [if_neg hne] at hb'
      exact h.values other a' b' ha' hb'

/-- A key has a value in the map exactly if it has one in the dictionary. -/
theorem Mirrors.exists_value (h : Mirrors R m d) {key : Text} {a : α} (ha : m.get? key = some a) :
    ∃ b, d.get? key = some b := by
  have hkey : key ∈ m.keys := (h.inStep.mem_keys key).mpr ⟨a, ha⟩
  rw [h.keys] at hkey
  exact Dict.mem_keys_iff_get?.mp hkey

/-- What has a value in the dictionary has one in the map. -/
theorem Mirrors.exists_held (h : Mirrors R m d) {key : Text} {b : β} (hb : d.get? key = some b) :
    ∃ a, m.get? key = some a := by
  have hkey : key ∈ d.keys := Dict.mem_keys_iff_get?.mpr ⟨b, hb⟩
  rw [← h.keys] at hkey
  exact (h.inStep.mem_keys key).mp hkey

/-- A map and a dictionary with the same values answer alike. -/
theorem Mirrors.get?_eq {d : Dict α} (h : Mirrors Eq m d) (key : Text) : m.get? key = d.get? key := by
  cases hm : m.get? key with
  | none =>
    rw [h.inStep.get?_eq_none_iff, h.keys] at hm
    exact ((Dict.get?_eq_none_iff d key).mpr hm).symm
  | some a =>
    obtain ⟨b, hb⟩ := h.exists_value hm
    rw [hb, h.values key a b hm hb]

/-- The map that some writes lead to answers like the dictionary that they lead to. -/
theorem mirrors_ofWrites (writes : List (Text × α)) :
    Mirrors Eq (writes.foldl (fun m w => m.set w.1 w.2) {}) (Dict.ofWrites writes) := by
  -- From any two that answer alike, since a write is added at the end.
  have hfrom : ∀ (m : OrderedMap α) (d : Dict α), Mirrors Eq m d →
      Mirrors Eq (writes.foldl (fun m w => m.set w.1 w.2) m) (writes.foldl (fun d w => d.set w.1 w.2) d) := by
    induction writes with
    | nil => exact fun m d h => h
    | cons w ws ih => exact fun m d h => ih _ _ (h.set w.1 rfl)
  exact hfrom {} [] (mirrors_empty Eq)

end Mundart.OrderedMap
