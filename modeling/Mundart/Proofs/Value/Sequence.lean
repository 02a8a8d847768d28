import Mundart.Method
import Mundart.Proofs.Text.Utf8
import Mundart.Value.Arithmetic

/-!
# Length, index and slice

A text is a sequence of characters and a list one of items. Three operations look at a sequence, and each
of them takes a text apart by itself: they have to find the same parts in it, whatever its bytes are.

* **`HasParts`** — the parts that a sequence is made of;
* **`HasParts.length`**, **`HasParts.itemAt_eq_ok`**, **`HasParts.slice`** — each operation by the parts;
* **`Coherent`** — how the three operations go together;
* **`coherent_sequences`** — they do so for every text and list, and the parts in front of a place with
  what is left from there make up the whole.
-/

namespace Mundart.Value

/-- The parts of a sequence: the characters of a text, each as a text of its own, or the items of a list. -/
inductive HasParts : Value → List Value → Prop where
  | text (t : Text) : HasParts (.text t) (t.chars.map fun c => .text (Text.ofChars [c]))
  | array (items : List Value) : HasParts (.array items) items

/-! ## The operations by the parts

Each operation takes a sequence apart on its own: `umfang` counts runes, an index decodes the text to
characters, a slice decodes it and encodes what is left. Here each of them is brought down to the list of
parts, and the two sorts of sequences are forgotten. -/

section

variable {v : Value} {parts : List Value} {i : Int64}

/-- `umfang` counts the parts. -/
theorem HasParts.length (h : HasParts v parts) (random : Random) :
    Method.length.invoke v none random = (.ok (.int (Int64.ofNat parts.length)), random) := by
  cases h with
  | text t =>
    rw [List.length_map, Text.chars, List.length_map]
    rfl
  | array items => rfl

/-- Positions are integers, so that they are below a bound that sequences may exceed. -/
theorem toNat_toInt_lt (i : Int64) : i.toInt.toNat < Nat.pow 2 63 := by
  have hlt := i.toInt_lt
  show i.toInt.toNat < 9223372036854775808
  omega

/-- A position within a sequence is found. -/
theorem positionIn_eq_ok {n : Nat} (hi : 0 ≤ i.toInt) (hn : i.toInt < n) :
    positionIn (.int i) n = .ok i.toInt.toNat := by
  have hrange : 0 ≤ i.toInt ∧ i.toInt < n := ⟨hi, hn⟩
  exact if_pos hrange

/-- A position outside of a sequence is missed. -/
theorem positionIn_outside {n : Nat} (h : ¬ (0 ≤ i.toInt ∧ i.toInt < n)) :
    positionIn (.int i) n = .error (.missed (.position i.toInt (n - 1))) := if_neg h

/-- The item of a text is one of its characters, as a text. -/
theorem itemAt_text (t : Text) (index : Value) : (Value.text t).itemAt index = (do
    let i ← positionIn index t.chars.length
    let c ← Trusted.item t.chars i
    .ok (.text (Text.ofChars [c]))) := rfl

/-- The item of a list is one of its items. -/
theorem itemAt_array (items : List Value) (index : Value) : (Value.array items).itemAt index = (do
    let i ← positionIn index items.length
    Trusted.item items i) := rfl

/-- An item that is there is found. -/
theorem item_eq_ok {α : Type} {xs : List α} {n : Nat} {x : α} (h : xs[n]? = some x) :
    Trusted.item xs n = .ok x := by
  rw [Trusted.item, h]

/-- An index finds the part in its place. -/
theorem HasParts.itemAt_eq_ok (h : HasParts v parts) (hi : 0 ≤ i.toInt) {part : Value}
    (hpart : parts[i.toInt.toNat]? = some part) : v.itemAt (.int i) = .ok part := by
  have hlt : i.toInt < parts.length := by
    have hn := (List.getElem?_eq_some_iff.mp hpart).1
    omega
  -- A character of a text has to be encoded again, an item is there as it is.
  cases h with
  | text t =>
    rw [List.getElem?_map, Option.map_eq_some_iff] at hpart
    obtain ⟨c, hc, rfl⟩ := hpart
    rw [List.length_map] at hlt
    rw [itemAt_text, positionIn_eq_ok hi hlt]
    show (Trusted.item t.chars i.toInt.toNat >>= _) = _
    rw [item_eq_ok hc]
    rfl
  | array =>
    rw [itemAt_array, positionIn_eq_ok hi hlt]
    exact item_eq_ok hpart

/-- An index outside of the parts fails with the range that it misses. -/
theorem HasParts.itemAt_outside (h : HasParts v parts) (hi : ¬ (0 ≤ i.toInt ∧ i.toInt < parts.length)) :
    v.itemAt (.int i) = .error (.missed (.position i.toInt (parts.length - 1))) := by
  cases h with
  | text t =>
    rw [List.length_map] at hi ⊢
    rw [itemAt_text, positionIn_outside hi]
    rfl
  | array =>
    rw [itemAt_array, positionIn_outside hi]
    rfl

/-- A slice from a negative place fails. -/
theorem HasParts.slice_negative (h : HasParts v parts) (hi : i.toInt < 0) (random : Random) :
    Method.sliceFrom.invoke v (some (.int i)) random = (.error (.missed (.negative i.toInt)), random) := by
  have hneg : i < 0 := Int64.lt_iff_toInt_lt.mpr hi
  cases h with
  | text t => exact congrArg (fun x => (x, random)) (if_pos hneg)
  | array => exact congrArg (fun x => (x, random)) (if_pos hneg)

/-- What is left from a place within a list on. -/
theorem rest_eq_ok {α : Type} {xs : List α} {n : Nat} (h : n ≤ xs.length) :
    Trusted.rest xs n = .ok (xs.drop n) := by
  rw [Trusted.rest, if_pos h]

/-- What is cut off by a slice, for any kind of sequence: nothing is left from its end on. -/
theorem slice_rest {α : Type} (f : List α → Value) (xs : List α) :
    (if xs.length ≤ i.toInt then .ok (f []) else do
      let rest ← Trusted.rest xs i.toInt.toNat
      .ok (f rest)) = (.ok (f (xs.drop i.toInt.toNat)) : Except Failure Value) := by
  -- past the end, where nothing is cut off, and within the sequence
  split
  · next hend => rw [List.drop_eq_nil_of_le (by omega)]
  · next hend =>
    rw [rest_eq_ok (by omega)]
    rfl

/-- The check of a slice is made on integers of 64 bits. -/
theorem not_lt_zero (hi : 0 ≤ i.toInt) : ¬ i < 0 := fun h =>
  Int.not_lt.mpr hi (Int64.lt_iff_toInt_lt.mp h)

/-- The slice of a text is encoded again. -/
theorem invoke_slice_text (t : Text) (hi : 0 ≤ i.toInt) (random : Random) :
    Method.sliceFrom.invoke (.text t) (some (.int i)) random =
      (.ok (.text (Text.ofChars (t.chars.drop i.toInt.toNat))), random) := by
  have hslice : Method.slice (.int i) (.text t) = _ := if_neg (not_lt_zero hi)
  show (Method.slice (.int i) (.text t), random) = _
  rw [hslice]
  exact congrArg (·, random) (slice_rest (fun cs => .text (Text.ofChars cs)) t.chars)

/-- The slice of a list is what is left of it. -/
theorem invoke_slice_array (items : List Value) (hi : 0 ≤ i.toInt) (random : Random) :
    Method.sliceFrom.invoke (.array items) (some (.int i)) random =
      (.ok (.array (items.drop i.toInt.toNat)), random) := by
  have hslice : Method.slice (.int i) (.array items) = _ := if_neg (not_lt_zero hi)
  show (Method.slice (.int i) (.array items), random) = _
  rw [hslice]
  exact congrArg (·, random) (slice_rest .array items)

/-- A slice is the sequence of the parts that are left. -/
theorem HasParts.slice (h : HasParts v parts) (hi : 0 ≤ i.toInt) :
    ∃ w, (∀ random, Method.sliceFrom.invoke v (some (.int i)) random = (.ok w, random)) ∧
      HasParts w (parts.drop i.toInt.toNat) := by
  cases h with
  | text t =>
    refine ⟨_, invoke_slice_text t hi, ?_⟩
    have hparts := HasParts.text (Text.ofChars (t.chars.drop i.toInt.toNat))
    rwa [Text.chars_ofChars, List.map_drop] at hparts
  | array => exact ⟨_, invoke_slice_array parts hi, .array _⟩

end

/-! ## How they go together

From here on a sequence is its list of parts. Sequences of more than `2 ^ 63` parts are not left out: their
length is an integer of 64 bits, but index and slice do not look at it. -/

/-- `umfang` answers a number of parts. Every number that an integer has room for is told as it is. -/
def Counts (v : Value) (size : Nat) : Prop :=
  ∃ n : Int64, (∀ random, Method.length.invoke v none random = (.ok (.int n), random)) ∧
    (size < Nat.pow 2 63 → n.toInt = size)

/-- Length, index and slice of a sequence with a number of parts. -/
structure Coherent (v : Value) (size : Nat) : Prop where
  counts : v.Counts size
  index : ∀ i : Int64, (∃ part, v.itemAt (.int i) = .ok part) ↔ 0 ≤ i.toInt ∧ i.toInt < size
  missed : ∀ (i : Int64) (f : Failure), v.itemAt (.int i) = .error f → f.kind? = some .indexOutOfRange
  sliced : ∀ (i : Int64) (random : Random),
    (∃ w, Method.sliceFrom.invoke v (some (.int i)) random = (.ok w, random)) ↔ 0 ≤ i.toInt
  /-- What is left from `i` on has `size - i` parts, none if that is negative, and its part `j` is the part
  `k = i + j` of the whole. -/
  rest : ∀ (i : Int64) (random : Random) (w : Value),
    Method.sliceFrom.invoke v (some (.int i)) random = (.ok w, random) →
    w.Counts (size - i.toInt.toNat) ∧
    ∀ j k : Int64, 0 ≤ j.toInt → k.toInt = i.toInt + j.toInt → k.toInt < size →
      ∃ part, w.itemAt (.int j) = .ok part ∧ v.itemAt (.int k) = .ok part

section

variable {v : Value} {parts : List Value}

/-- The length is the number of parts, up to what integers have room for. -/
theorem HasParts.counts (h : HasParts v parts) : v.Counts parts.length :=
  ⟨_, h.length, fun hsize => Int64.toInt_ofNat_of_lt hsize⟩

/-- By the parts the three operations go together. -/
theorem HasParts.coherent (h : HasParts v parts) : v.Coherent parts.length where
  counts := h.counts
  index i := by
    constructor
    · rintro ⟨part, hpart⟩
      by_contra hi
      rw [h.itemAt_outside hi] at hpart
      exact nomatch hpart
    · rintro ⟨hi, hsize⟩
      have hlt : i.toInt.toNat < parts.length := by omega
      exact ⟨_, h.itemAt_eq_ok hi (List.getElem?_eq_getElem hlt)⟩
  missed i f hf := by
    by_cases hi : 0 ≤ i.toInt ∧ i.toInt < parts.length
    · have hlt : i.toInt.toNat < parts.length := by omega
      rw [h.itemAt_eq_ok hi.1 (List.getElem?_eq_getElem hlt)] at hf
      exact nomatch hf
    · rw [h.itemAt_outside hi] at hf
      obtain rfl := Except.error.inj hf
      rfl
  sliced i random := by
    constructor
    · rintro ⟨w, hw⟩
      by_contra hi
      rw [h.slice_negative (Int.not_le.mp hi)] at hw
      exact nomatch hw
    · intro hi
      obtain ⟨w, hw, -⟩ := h.slice hi
      exact ⟨w, hw random⟩
  rest i random w hw := by
    by_cases hi : 0 ≤ i.toInt
    · obtain ⟨w', hw', hparts⟩ := h.slice hi
      rw [hw' random] at hw
      cases hw
      -- The parts of a slice are the parts that are left, so a part of it is one of the whole, counted from
      -- its start.
      refine ⟨List.length_drop ▸ hparts.counts, fun j k hj hk hsize => ?_⟩
      have hlt : k.toInt.toNat < parts.length := by omega
      refine ⟨_, hparts.itemAt_eq_ok hj ?_, h.itemAt_eq_ok (by omega) (List.getElem?_eq_getElem hlt)⟩
      rw [List.getElem?_drop, ← Int.toNat_add hi hj, ← hk, List.getElem?_eq_getElem hlt]
    · rw [h.slice_negative (Int.not_le.mp hi)] at hw
      exact nomatch hw

end

/-! ## The whole of the parts

Reading a sequence item by item and joining what was read gives the sequence again. For texts it takes
well-formed ones, since a stray byte is read as a replacement character. -/

/-- `v[j] plus rest` -/
def itemPlus (v : Value) (j : Nat) (rest : Value) : Except Failure Value := do
  let part ← v.itemAt (.int (Int64.ofNat j))
  arithmetic "plus" part rest

/-- `[v[0], …, v[n - 1]]` -/
def itemsBefore (v : Value) (n : Nat) : Except Failure (List Value) :=
  (List.range n).mapM fun j => v.itemAt (.int (Int64.ofNat j))

/-- The parts by their numbers. -/
theorem HasParts.itemAt_ofNat {v part : Value} {parts : List Value} (h : HasParts v parts) {n : Nat}
    (hn : n < Nat.pow 2 63) (hpart : parts[n]? = some part) :
    v.itemAt (.int (Int64.ofNat n)) = .ok part := by
  have hint : (Int64.ofNat n).toInt = n := Int64.toInt_ofNat_of_lt hn
  refine h.itemAt_eq_ok (by omega) ?_
  rw [hint]
  exact hpart

/-- The characters in front of a place and what is left from there make up the whole text. -/
theorem foldrM_itemPlus (t : Text) {n : Nat} (hn : n ≤ t.chars.length) (hbound : n < Nat.pow 2 63) :
    (List.range n).foldrM (itemPlus (.text t)) (.text (Text.ofChars (t.chars.drop n))) =
      .ok (.text (Text.ofChars t.chars)) := by
  -- One character less stands in front, and it comes first in what is left.
  induction n with
  | zero => rfl
  | succ n ih =>
    have hlt : n < t.chars.length := hn
    have hitem : (Value.text t).itemAt (.int (Int64.ofNat n)) = .ok (.text (Text.ofChars [t.chars[n]])) := by
      refine (HasParts.text t).itemAt_ofNat (by omega) ?_
      rw [List.getElem?_map, List.getElem?_eq_getElem hlt]
      rfl
    have hlast : itemPlus (.text t) n (.text (Text.ofChars (t.chars.drop (n + 1)))) =
        .ok (.text (Text.ofChars (t.chars.drop n))) := by
      have hjoin : Text.ofChars (t.chars.drop n) =
          Text.ofChars [t.chars[n]] ++ Text.ofChars (t.chars.drop (n + 1)) := by
        rw [List.drop_eq_getElem_cons hlt, ← List.singleton_append]
        exact List.flatMap_append
      rw [hjoin, itemPlus, hitem]
      rfl
    rw [List.range_succ, List.foldrM_append, List.foldrM_cons, List.foldrM_nil, pure_bind, hlast]
    exact ih (by omega) (by omega)

/-- The items in front of a place, read one by one. -/
theorem itemsBefore_array (items : List Value) {n : Nat} (hn : n ≤ items.length)
    (hbound : n < Nat.pow 2 63) : itemsBefore (.array items) n = .ok (items.take n) := by
  induction n with
  | zero => rfl
  | succ n ih =>
    have hlt : n < items.length := hn
    have hitem := (HasParts.array items).itemAt_ofNat (by omega) (List.getElem?_eq_getElem hlt)
    have hbefore : (List.range n).mapM (fun j => (Value.array items).itemAt (.int (Int64.ofNat j))) =
        .ok (items.take n) := ih (by omega) (by omega)
    rw [itemsBefore, List.range_succ, List.mapM_append, hbefore, List.mapM_cons, hitem,
      List.take_succ_eq_append_getElem hlt]
    rfl

/-- Length, index and slice of a text agree, whatever its bytes are, and so do those of a list. A text that
is well-formed is the characters in front of a place and what is left from there, joined by `plus`; a list
is the items in front of a place followed by those that are left. -/
theorem coherent_sequences :
    (∀ t : Text, (Value.text t).Coherent t.size ∧
      (t.isUtf8 = true → ∀ (i : Int64) (random : Random), 0 ≤ i.toInt → i.toInt ≤ t.size →
        ∃ rest, Method.sliceFrom.invoke (.text t) (some (.int i)) random = (.ok rest, random) ∧
          (List.range i.toInt.toNat).foldrM (itemPlus (.text t)) rest = .ok (.text t))) ∧
    ∀ items : List Value, (Value.array items).Coherent items.length ∧
      ∀ (i : Int64) (random : Random), 0 ≤ i.toInt → i.toInt ≤ items.length →
        ∃ front rest, itemsBefore (.array items) i.toInt.toNat = .ok front ∧
          Method.sliceFrom.invoke (.array items) (some (.int i)) random = (.ok (.array rest), random) ∧
          front ++ rest = items := by
  refine ⟨fun t => ⟨?_, ?_⟩, fun items => ⟨(HasParts.array items).coherent, ?_⟩⟩
  · have hcoherent := (HasParts.text t).coherent
    rwa [List.length_map, Text.chars, List.length_map] at hcoherent
  · intro hutf8 i random hi hsize
    have hlength : t.chars.length = t.size := List.length_map ..
    refine ⟨_, invoke_slice_text t hi random, ?_⟩
    rw [foldrM_itemPlus t (by omega) (toNat_toInt_lt i), Text.ofChars_of_isUtf8 hutf8]
  · intro i random hi hsize
    exact ⟨_, _, itemsBefore_array items (by omega) (toNat_toInt_lt i), invoke_slice_array items hi random,
      List.take_append_drop ..⟩

/-- A lone first byte of a longer character is a character. `süß` is `s` and `ü` and what is left from there,
and the first item of a list followed by the others is the list. -/
theorem coherent_sequences_letters :
    (Value.text [115, 195]).Coherent 2 ∧ (Value.text [115, 195]).itemAt (.int 1) = .ok (.text "\uFFFD") ∧
      (∃ rest, Method.sliceFrom.invoke (.text "süß") (some (.int 2)) ⟨0⟩ = (.ok rest, ⟨0⟩) ∧
        (List.range 2).foldrM (itemPlus (.text "süß")) rest = .ok (.text "süß")) ∧
      ∃ front rest, itemsBefore (.array [.bool true, .int 4]) 1 = .ok front ∧
        Method.sliceFrom.invoke (.array [.bool true, .int 4]) (some (.int 1)) ⟨0⟩ =
          (.ok (.array rest), ⟨0⟩) ∧ front ++ rest = [.bool true, .int 4] := by
  obtain ⟨htexts, hlists⟩ := coherent_sequences
  refine ⟨(htexts [115, 195]).1, rfl, ?_, ?_⟩
  · exact (htexts "süß").2 (by decide +kernel) 2 ⟨0⟩ (by decide) (by decide +kernel)
  · exact (hlists [.bool true, .int 4]).2 1 ⟨0⟩ (by decide) (by decide)

end Mundart.Value
