import Mathlib.Data.List.Lex
import Mathlib.Data.List.Nodup
import Mundart.Dict

/-!
# Entries of a dictionary

What writing and removing a key does to the entries, next to what it does to reading.

* **`get?_erase`** — a removed key has no value, every other key keeps its own;
* **`mem_of_mem_set`**, **`mem_erase_iff`** — the entries after a write and after a removal;
* **`mem_keys_set`**, **`mem_keys_erase`** — the same for the keys alone;
* **`byKey_perm`**, **`ascending_byKey`** — the entries in the order of their keys;
* **`mapValues_ofWrites`**, **`mapValues_byKey`** — changing every value keeps the entries in their places.
-/

namespace Mundart

/-- The byte order on texts is the lexicographic one. -/
theorem Text.before_iff (s t : Text) :
    Text.before s t = true ↔ s.map UInt8.toNat < t.map UInt8.toNat := by
  induction s generalizing t with
  | nil => cases t <;> simp [Text.before, Text.compare]
  | cons a s ih =>
    cases t with
    | nil => simp [Text.before, Text.compare]
    | cons b t =>
      have hcompare := ih t
      unfold Text.before at hcompare ⊢
      rw [Text.compare, List.map_cons, List.map_cons, List.cons_lt_cons_iff]
      split
      · next hlt =>
        have hnat : a.toNat < b.toNat := hlt
        simp [hnat]
      split
      · next hlt =>
        have hnat : b.toNat < a.toNat := hlt
        simp [Nat.lt_asymm hnat, Nat.ne_of_gt hnat]
      -- neither byte is below the other, so that they are one
      · next hle hge =>
        have hnat : a.toNat = b.toNat := Nat.le_antisymm (Nat.not_lt.mp hge) (Nat.not_lt.mp hle)
        rw [hcompare, hnat]
        simp

/-- What is sorted by different texts ascends strictly in them. -/
theorem Text.ascending_mergeSort {α : Type} (key : α → Text) {l : List α} (hl : (l.map key).Nodup) :
    (l.mergeSort fun a b => !Text.before (key b) (key a)).Pairwise fun a b =>
      Text.before (key a) (key b) = true := by
  have hsorted : (l.mergeSort fun a b => !Text.before (key b) (key a)).Pairwise fun a b =>
      (!Text.before (key b) (key a)) = true := by
    refine List.pairwise_mergeSort (fun a b c hab hbc => ?_) (fun a b => ?_) l
    · simp only [Bool.not_eq_true', ← Bool.not_eq_true, Text.before_iff, not_lt] at hab hbc ⊢
      exact hab.trans hbc
    · rw [Bool.or_eq_true]
      simp only [Bool.not_eq_true', ← Bool.not_eq_true, Text.before_iff, not_lt]
      exact le_total _ _
  -- Sorting keeps the keys apart, so that no two of them are equal in a row.
  have hdistinct : (l.mergeSort fun a b => !Text.before (key b) (key a)).Pairwise fun a b =>
      key a ≠ key b :=
    List.pairwise_map.mp (((List.mergeSort_perm l _).map key).nodup_iff.mpr hl)
  apply (hsorted.and hdistinct).imp
  rintro a b ⟨hle, hne⟩
  simp only [Bool.not_eq_true', ← Bool.not_eq_true, Text.before_iff, not_lt] at hle ⊢
  refine lt_of_le_of_ne hle fun h => hne ?_
  exact List.map_injective_iff.mpr (fun _ _ => UInt8.toNat_inj.mp) h

namespace Dict

variable {α β : Type}

/-! ## Writing and removing

By induction on the entries throughout, as both go through them from the front. A write changes the first
entry with its key, or adds one behind all others; a removal takes out every entry with its key. -/

/-- Of two writes to one key the second one stays. -/
theorem set_set (d : Dict α) (key : Text) (v w : α) : (d.set key v).set key w = d.set key w := by
  induction d with
  | nil => simp [set]
  | cons e d ih =>
    obtain ⟨k, u⟩ := e
    by_cases hk : k = key
    · simp [set, hk]
    · simp [set, hk, ih]

/-- A removed key has no value, and every other key keeps its own. -/
theorem get?_erase (d : Dict α) (key other : Text) :
    (d.erase key).get? other = if key = other then none else d.get? other := by
  induction d with
  | nil => simp [erase, get?]
  | cons e d ih =>
    obtain ⟨k, v⟩ := e
    unfold erase at ih ⊢
    -- An entry that goes is passed over by the reading as well, since its key is not the other one.
    by_cases hk : k = key
    · subst hk
      by_cases ho : k = other
      · subst ho
        simpa [get?] using ih
      · simpa [get?, ho] using ih
    · by_cases ho : k = other
      · subst ho
        simp [get?, hk, Ne.symm hk]
      · simpa [get?, hk, ho] using ih

/-- What a key is read as is an entry. -/
theorem mem_of_get? {d : Dict α} {key : Text} {v : α} (h : d.get? key = some v) : (key, v) ∈ d := by
  induction d with
  | nil => exact nomatch h
  | cons e d ih =>
    obtain ⟨k, w⟩ := e
    rw [get?] at h
    split at h
    · next hk =>
      obtain rfl := Option.some.inj h
      exact hk ▸ List.mem_cons_self
    · exact List.mem_cons_of_mem _ (ih h)

/-- Where no key stands twice, an entry is what its key is read as. -/
theorem get?_of_mem {d : Dict α} {e : Text × α} (hd : d.keys.Nodup) (h : e ∈ d) :
    d.get? e.1 = some e.2 := by
  induction d with
  | nil => exact nomatch h
  | cons e' d ih =>
    obtain ⟨hnew, hd⟩ := List.nodup_cons.mp hd
    rw [get?]
    obtain rfl | h := List.mem_cons.mp h
    · rw [if_pos rfl]
    · have hne : e'.1 ≠ e.1 := fun heq => hnew (heq ▸ List.mem_map_of_mem h)
      rw [if_neg hne]
      exact ih hd h

/-- The entries after a write were there before, but for the one that was written. -/
theorem mem_of_mem_set {d : Dict α} {key : Text} {v : α} {e : Text × α} (h : e ∈ d.set key v) :
    e = (key, v) ∨ e ∈ d := by
  induction d with
  | nil => exact .inl (List.mem_singleton.mp h)
  | cons e' d ih =>
    obtain ⟨k, w⟩ := e'
    rw [set] at h
    split at h
    · next hk =>
      obtain rfl | h := List.mem_cons.mp h
      · exact .inl (by rw [hk])
      · exact .inr (List.mem_cons_of_mem _ h)
    · obtain rfl | h := List.mem_cons.mp h
      · exact .inr List.mem_cons_self
      · exact (ih h).imp_right (List.mem_cons_of_mem _)

/-- A new key is written behind the others. -/
theorem set_of_notMem {d : Dict α} {key : Text} (h : key ∉ d.keys) (v : α) :
    d.set key v = d ++ [(key, v)] := by
  induction d with
  | nil => rfl
  | cons e d ih =>
    obtain ⟨k, w⟩ := e
    rw [keys_cons, List.mem_cons, not_or] at h
    rw [set, if_neg fun heq => h.1 heq.symm, ih h.2, List.cons_append]

/-- Writes to different keys leave the entries as they were written. -/
theorem foldl_set_of_nodup (writes : Dict α) : ∀ d : Dict α, (d ++ writes : Dict α).keys.Nodup →
    writes.foldl (fun d e => d.set e.1 e.2) d = d ++ writes := by
  induction writes with
  | nil =>
    intro d _
    exact (List.append_nil d).symm
  | cons e writes ih =>
    intro d hd
    have hassoc : d ++ e :: writes = (d ++ [e]) ++ writes := List.append_cons d e writes
    have hnew : e.1 ∉ d.keys := by
      rw [keys, List.map_append, List.map_cons] at hd
      exact fun h => (List.nodup_append.mp hd).2.2 _ h _ List.mem_cons_self rfl
    rw [List.foldl_cons, set_of_notMem hnew, ih _ (hassoc ▸ hd), ← hassoc]

/-- So a dictionary written from different keys is what was written. -/
theorem ofWrites_of_nodup {writes : Dict α} (h : writes.keys.Nodup) : ofWrites writes = writes :=
  foldl_set_of_nodup writes [] h

/-- The entries after a removal are those with other keys. -/
theorem mem_erase_iff {d : Dict α} {key : Text} {e : Text × α} :
    e ∈ d.erase key ↔ e ∈ d ∧ e.1 ≠ key := by
  simp [erase]

/-! ### Keys

Keys without their values, which are what most invariants are about. -/

/-- The keys after a write are those before and the one that was written. -/
theorem mem_keys_set {d : Dict α} {key other : Text} {v : α} :
    other ∈ (d.set key v).keys ↔ other = key ∨ other ∈ d.keys := by
  rw [keys_set]
  split
  · next hk => exact ⟨.inr, fun h => h.elim (fun h => h ▸ hk) id⟩
  · simp [or_comm]

/-- The keys after a removal, in the order in which they were. -/
theorem keys_erase (d : Dict α) (key : Text) : (d.erase key).keys = d.keys.filter (· ≠ key) := by
  induction d with
  | nil => rfl
  | cons e d ih =>
    unfold erase at ih ⊢
    by_cases hk : e.1 = key
    · simpa [hk] using ih
    · simpa [hk] using ih

/-- A removed key is gone, all others stay. -/
theorem mem_keys_erase {d : Dict α} {key other : Text} :
    other ∈ (d.erase key).keys ↔ other ∈ d.keys ∧ other ≠ key := by
  simp [keys_erase]

/-- Removing a key makes none stand twice. -/
theorem nodup_keys_erase {d : Dict α} (h : d.keys.Nodup) (key : Text) : (d.erase key).keys.Nodup := by
  rw [keys_erase]
  exact h.filter _

/-- The keys are what has a value. -/
theorem mem_keys_iff_get? {d : Dict α} {key : Text} : key ∈ d.keys ↔ ∃ v, d.get? key = some v := by
  rw [← Option.isSome_iff_exists, ← Option.ne_none_iff_isSome, ne_eq, get?_eq_none_iff, not_not]

/-! ### Key order

What is listed by key is sorted by it. Sorting moves entries and changes none. -/

/-- The entries in the order of their keys are the entries. -/
theorem byKey_perm (d : Dict α) : d.byKey.Perm d := List.mergeSort_perm ..

/-- The keys of the ordered entries ascend, if no key stands twice. -/
theorem ascending_byKey {d : Dict α} (hd : d.keys.Nodup) :
    d.byKey.keys.Pairwise fun a b => Text.before a b = true :=
  List.pairwise_map.mpr (Text.ascending_mergeSort Prod.fst hd)

/-! ### Changing every value

Nothing above looks at the values, so that changing all of them goes through reading, writing and sorting.
-/

/-- The dictionary with every value changed and the keys left in their places. -/
def mapValues (f : α → β) (d : Dict α) : Dict β := d.map fun e => (e.1, f e.2)

/-- The values of a dictionary are mapped through a write. -/
theorem mapValues_set (f : α → β) (d : Dict α) (key : Text) (v : α) :
    (d.set key v).mapValues f = (d.mapValues f).set key (f v) := by
  induction d with
  | nil => rfl
  | cons e d ih =>
    unfold mapValues at ih ⊢
    rw [List.map_cons, set, set]
    split
    · rfl
    · rw [List.map_cons, ih]

/-- The values of a dictionary are mapped through writes one after the other. -/
theorem mapValues_foldl_set (f : α → β) (writes : Dict α) : ∀ d : Dict α,
    mapValues f (writes.foldl (fun d e => d.set e.1 e.2) d) =
      (writes.mapValues f).foldl (fun d e => d.set e.1 e.2) (d.mapValues f) := by
  induction writes with
  | nil => exact fun d => rfl
  | cons e writes ih =>
    intro d
    rw [List.foldl_cons, ih, mapValues_set]
    rfl

/-- Mapping values commutes with writing a dictionary from nothing. -/
theorem mapValues_ofWrites (f : α → β) (writes : Dict α) :
    (ofWrites writes).mapValues f = ofWrites (writes.mapValues f) :=
  mapValues_foldl_set f writes []

/-- Mapping values commutes with sorting by keys, which looks at no value. -/
theorem mapValues_byKey (f : α → β) (d : Dict α) : d.byKey.mapValues f = (d.mapValues f).byKey :=
  List.map_mergeSort fun _ _ _ _ => rfl

end Dict

end Mundart
