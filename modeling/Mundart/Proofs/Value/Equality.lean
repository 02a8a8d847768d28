import Mathlib.Data.List.Basic
import Mundart.Proofs.Number.Rounding
import Mundart.Value.Order

/-!
# Equality of values

Equality reads integers exactly where both sides are integers, and as doubles where one side is a double. So
two integers that no double tells apart are both equal to one double and yet not to each other. Apart from
such pairs, and from NaNs, which nothing equals, equality is an equivalence.

* **`equal_self_iff`** — a value equals itself unless it holds a NaN;
* **`equal_comm`** — equality is symmetric for all values;
* **`equal_trans_iff`** — values that equal the same value equal each other, unless they differ somewhere by
  two integers that are one double (`Blurred`);
* **`equal_laws`** — all of it, with the values on which equality is an equivalence.
-/

namespace Mundart.Value

/-! ## What equals a value

Read off the definition, one constructor at a time. Each lemma gives the shape of the other side, so that
the proofs below take a value apart once and never meet two values of different constructors. -/

section

attribute [local simp] equal equalItems equalEntries

/-- Absence equals only itself. -/
theorem equal_absent_iff {b : Value} : equal .absent b = true ↔ .absent = b := by
  cases b <;> simp

/-- A truth value equals itself only. -/
theorem equal_bool_iff {x : Bool} {b : Value} : equal (.bool x) b = true ↔ .bool x = b := by
  cases b <;> simp

/-- A text equals itself only. -/
theorem equal_text_iff {t : Text} {b : Value} : equal (.text t) b = true ↔ .text t = b := by
  cases b <;> simp

/-- A function, which is known by its name, equals itself only. -/
theorem equal_func_iff {t : Text} {b : Value} : equal (.func t) b = true ↔ .func t = b := by
  cases b <;> simp

/-- An integer equals itself and every double that it is rounded to. -/
theorem equal_int_iff {n : Int64} {b : Value} :
    equal (.int n) b = true ↔
      .int n = b ∨ ∃ y, .double y = b ∧ (Double.ofInt64 n == y) = true := by
  cases b <;> simp

/-- A double equals what compares equal as a double, on whichever side the integer stands. -/
theorem equal_double_iff {x : Float} {b : Value} :
    equal (.double x) b = true ↔
      (∃ n, .int n = b ∧ (x == Double.ofInt64 n) = true) ∨ ∃ y, .double y = b ∧ (x == y) = true := by
  cases b <;> simp

/-- A list equals lists only, item by item. -/
theorem equal_array_iff {as : List Value} {b : Value} :
    equal (.array as) b = true ↔ ∃ bs, .array bs = b ∧ equalItems as bs = true := by
  cases b <;> simp

/-- An associative array equals associative arrays only, entry by entry and in order. -/
theorem equal_assoc_iff {as : List (Text × Value)} {b : Value} :
    equal (.assoc as) b = true ↔ ∃ bs, .assoc bs = b ∧ equalEntries as bs = true := by
  cases b <;> simp

/-- Items are compared in pairs, so that the lists end together. -/
theorem equalItems_nil_iff {bs : List Value} : equalItems [] bs = true ↔ [] = bs := by
  cases bs <;> simp

/-- The first items are compared, then the others. -/
theorem equalItems_cons_iff {a : Value} {as bs : List Value} :
    equalItems (a :: as) bs = true ↔
      ∃ b bs', b :: bs' = bs ∧ equal a b = true ∧ equalItems as bs' = true := by
  cases bs <;> simp

/-- Entries end together, as items do. -/
theorem equalEntries_nil_iff {bs : List (Text × Value)} : equalEntries [] bs = true ↔ [] = bs := by
  cases bs <;> simp

/-- The keys of the first entries are the same and their values equal. -/
theorem equalEntries_cons_iff {k : Text} {a : Value} {as bs : List (Text × Value)} :
    equalEntries ((k, a) :: as) bs = true ↔
      ∃ b bs', (k, b) :: bs' = bs ∧ equal a b = true ∧ equalEntries as bs' = true := by
  cases bs with
  | nil => simp
  | cons e bs =>
    obtain ⟨j, b⟩ := e
    simp [and_assoc]

end

/-! ## Parts

What the laws depend on lies inside the values: NaNs, and integers that are no double. `Part` reaches every
value within another one, at any depth. -/

/-- A value is a part of another: it is this value, or a part of one of its items or entries. -/
inductive Part (p : Value) : Value → Prop
  | self : Part p p
  | item {vs : List Value} {v : Value} (hv : v ∈ vs) (h : Part p v) : Part p (.array vs)
  | entry {es : List (Text × Value)} {e : Text × Value} (he : e ∈ es) (h : Part p e.2) : Part p (.assoc es)

/-- No part of the value is a NaN. -/
def NaNFree (v : Value) : Prop := ∀ x, Part (.double x) v → x.isNaN = false

/-- Every integer in the value is a double. -/
def Short (v : Value) : Prop := ∀ n, Part (.int n) v → n.toInt.natAbs ≤ 2 ^ 53

/-- A list is free of NaNs if its items are. -/
theorem naNFree_array_iff {vs : List Value} : NaNFree (.array vs) ↔ ∀ v ∈ vs, NaNFree v := by
  constructor
  · intro h v hv x hx
    exact h x (.item hv hx)
  -- A list is no double itself, so that a part of it is a part of an item.
  · intro h x hx
    cases hx with
    | item hv hx => exact h _ hv x hx

/-- An associative array is free of NaNs if its values are. -/
theorem naNFree_assoc_iff {es : List (Text × Value)} : NaNFree (.assoc es) ↔ ∀ e ∈ es, NaNFree e.2 := by
  constructor
  · intro h e he x hx
    exact h x (.entry he hx)
  · intro h x hx
    cases hx with
    | entry he hx => exact h _ he x hx

/-! ## Reflexivity

By recursion on the value, together with its items and its entries. Only a double can fail to equal itself.
-/

mutual

/-- A value equals itself unless it holds a NaN. -/
theorem equal_self_iff : ∀ v : Value, equal v v = true ↔ v.NaNFree
  | .absent | .bool _ | .int _ | .text _ | .func _ => by
    refine iff_of_true (by simp [equal]) fun x hx => ?_
    -- none of these has a double as a part
    cases hx
  | .double x => by
    rw [equal, Double.beq_self_iff]
    constructor
    · intro h y hy
      cases hy with
      | self => exact h
    · intro h
      exact h x .self
  | .array vs => by rw [equal, naNFree_array_iff, equalItems_self_iff vs]
  | .assoc es => by rw [equal, naNFree_assoc_iff, equalEntries_self_iff es]

/-- Items equal themselves if there is no NaN in any of them. -/
theorem equalItems_self_iff : ∀ vs : List Value, equalItems vs vs = true ↔ ∀ v ∈ vs, NaNFree v
  | [] => by simp [equalItems]
  | v :: vs => by
    rw [equalItems, Bool.and_eq_true, equal_self_iff v, equalItems_self_iff vs, List.forall_mem_cons]

/-- Entries equal themselves if there is no NaN in any of their values. Their keys equal themselves in any
case. -/
theorem equalEntries_self_iff : ∀ es : List (Text × Value),
    equalEntries es es = true ↔ ∀ e ∈ es, NaNFree e.2
  | [] => by simp [equalEntries]
  | (k, v) :: es => by
    rw [equalEntries, beq_self_eq_true, Bool.true_and, Bool.and_eq_true, equal_self_iff v,
      equalEntries_self_iff es, List.forall_mem_cons]

end

/-! ## Symmetry

The recursion follows the left value. It fixes the shape of the right one, up to the two numbers that an
integer and a double can meet. -/

mutual

/-- Equality holds in both directions. -/
theorem equal_symm : ∀ {a b : Value}, equal a b = true → equal b a = true
  | .absent, b, h => by
    obtain rfl := equal_absent_iff.mp h
    exact h
  | .bool x, b, h => by
    obtain rfl := equal_bool_iff.mp h
    exact h
  | .text t, b, h => by
    obtain rfl := equal_text_iff.mp h
    exact h
  | .func t, b, h => by
    obtain rfl := equal_func_iff.mp h
    exact h
  | .int n, b, h => by
    -- two integers, or an integer that is compared as a double
    obtain rfl | ⟨y, rfl, hy⟩ := equal_int_iff.mp h
    · exact h
    · exact Double.beq_symm hy
  | .double x, b, h => by
    obtain ⟨n, rfl, hn⟩ | ⟨y, rfl, hy⟩ := equal_double_iff.mp h
    · exact Double.beq_symm hn
    · exact Double.beq_symm hy
  | .array as, b, h => by
    obtain ⟨bs, rfl, hbs⟩ := equal_array_iff.mp h
    exact equalItems_symm hbs
  | .assoc as, b, h => by
    obtain ⟨bs, rfl, hbs⟩ := equal_assoc_iff.mp h
    exact equalEntries_symm hbs

/-- Equality of items holds in both directions. -/
theorem equalItems_symm : ∀ {as bs : List Value}, equalItems as bs = true → equalItems bs as = true
  | [], bs, h => by
    obtain rfl := equalItems_nil_iff.mp h
    exact h
  | a :: as, bs, h => by
    obtain ⟨b, bs', rfl, hb, hbs⟩ := equalItems_cons_iff.mp h
    exact equalItems_cons_iff.mpr ⟨a, as, rfl, equal_symm hb, equalItems_symm hbs⟩

/-- Equality of entries holds in both directions: they have the same keys in the same places. -/
theorem equalEntries_symm : ∀ {as bs : List (Text × Value)},
    equalEntries as bs = true → equalEntries bs as = true
  | [], bs, h => by
    obtain rfl := equalEntries_nil_iff.mp h
    exact h
  | (k, a) :: as, bs, h => by
    obtain ⟨b, bs', rfl, hb, hbs⟩ := equalEntries_cons_iff.mp h
    exact equalEntries_cons_iff.mpr ⟨a, as, rfl, equal_symm hb, equalEntries_symm hbs⟩

end

/-- Equality is symmetric, as a test that answers yes or no. -/
theorem equal_comm (a b : Value) : equal a b = equal b a :=
  Bool.eq_iff_iff.mpr ⟨equal_symm, equal_symm⟩

/-! ## Transitivity

A chain of two equalities fails to close only where integers stand at both ends and a double between them.
`Blurred` finds such places: everything else is carried through the chain by the recursion. -/

/-- Two values differ in some place by two integers that are one double. -/
inductive Blurred : Value → Value → Prop
  | int {m n : Int64} (hne : m ≠ n) (hsame : Double.rounded m.toInt = Double.rounded n.toInt) :
      Blurred (.int m) (.int n)
  | item {as bs : List Value} {p : Value × Value} (hp : p ∈ as.zip bs) (h : Blurred p.1 p.2) :
      Blurred (.array as) (.array bs)
  | entry {as bs : List (Text × Value)} {p : (Text × Value) × (Text × Value)} (hp : p ∈ as.zip bs)
      (h : Blurred p.1.2 p.2.2) : Blurred (.assoc as) (.assoc bs)

/-- Lists are blurred if two of their items are. -/
theorem blurred_array_iff {as bs : List Value} :
    Blurred (.array as) (.array bs) ↔ ∃ p ∈ as.zip bs, Blurred p.1 p.2 := by
  constructor
  · intro h
    cases h with
    | item hp h => exact ⟨_, hp, h⟩
  · rintro ⟨p, hp, h⟩
    exact .item hp h

/-- Associative arrays are blurred if two of their values are. -/
theorem blurred_assoc_iff {as bs : List (Text × Value)} :
    Blurred (.assoc as) (.assoc bs) ↔ ∃ p ∈ as.zip bs, Blurred p.1.2 p.2.2 := by
  constructor
  · intro h
    cases h with
    | entry hp h => exact ⟨_, hp, h⟩
  · rintro ⟨p, hp, h⟩
    exact .entry hp h

/-- Two integers that equal the same double. -/
theorem equal_int_int_iff {m n : Int64} (h : (Double.ofInt64 m == Double.ofInt64 n) = true) :
    equal (.int m) (.int n) = true ↔ ¬ Blurred (.int m) (.int n) := by
  rw [Double.ofInt64_beq_iff] at h
  rw [equal, beq_iff_eq]
  -- They are one double by assumption, so that being blurred only asks whether they differ.
  constructor
  · intro heq hblurred
    cases hblurred with
    | int hne hsame => exact hne heq
  · intro hblurred
    by_contra hne
    exact hblurred (.int hne h)

mutual

/-- Values that equal the same value equal each other unless they are blurred. -/
theorem equal_trans_iff : ∀ {a b c : Value}, equal a b = true → equal b c = true →
    (equal a c = true ↔ ¬ Blurred a c)
  | .absent, b, c, hab, hbc => by
    obtain rfl := equal_absent_iff.mp hab
    exact iff_of_true hbc fun h => nomatch h
  | .bool x, b, c, hab, hbc => by
    obtain rfl := equal_bool_iff.mp hab
    exact iff_of_true hbc fun h => nomatch h
  | .text t, b, c, hab, hbc => by
    obtain rfl := equal_text_iff.mp hab
    exact iff_of_true hbc fun h => nomatch h
  | .func t, b, c, hab, hbc => by
    obtain rfl := equal_func_iff.mp hab
    exact iff_of_true hbc fun h => nomatch h
  | .int m, b, c, hab, hbc => by
    obtain rfl | ⟨y, rfl, hy⟩ := equal_int_iff.mp hab
    · refine iff_of_true hbc fun h => ?_
      -- Nothing is blurred with itself, nor an integer with a double.
      obtain rfl | ⟨z, rfl, -⟩ := equal_int_iff.mp hbc
      · cases h with
        | int hne hsame => exact hne rfl
      · cases h
    -- the one case in which the chain may break: integer, double, integer
    · obtain ⟨n, rfl, hn⟩ | ⟨z, rfl, hz⟩ := equal_double_iff.mp hbc
      · exact equal_int_int_iff (Double.beq_trans hy hn)
      · exact iff_of_true (Double.beq_trans hy hz) fun h => nomatch h
  | .double x, b, c, hab, hbc => by
    -- A double at the left end is never blurred with anything.
    refine iff_of_true ?_ fun h => nomatch h
    obtain ⟨n, rfl, hn⟩ | ⟨y, rfl, hy⟩ := equal_double_iff.mp hab
    · obtain rfl | ⟨z, rfl, hz⟩ := equal_int_iff.mp hbc
      · exact hab
      · exact Double.beq_trans hn hz
    · obtain ⟨k, rfl, hk⟩ | ⟨z, rfl, hz⟩ := equal_double_iff.mp hbc
      · exact Double.beq_trans hy hk
      · exact Double.beq_trans hy hz
  | .array as, b, c, hab, hbc => by
    obtain ⟨bs, rfl, hbs⟩ := equal_array_iff.mp hab
    obtain ⟨cs, rfl, hcs⟩ := equal_array_iff.mp hbc
    rw [equal, blurred_array_iff]
    exact equalItems_trans_iff hbs hcs
  | .assoc as, b, c, hab, hbc => by
    obtain ⟨bs, rfl, hbs⟩ := equal_assoc_iff.mp hab
    obtain ⟨cs, rfl, hcs⟩ := equal_assoc_iff.mp hbc
    rw [equal, blurred_assoc_iff]
    exact equalEntries_trans_iff hbs hcs

/-- Items close the chain if no two of them are blurred. -/
theorem equalItems_trans_iff : ∀ {as bs cs : List Value}, equalItems as bs = true →
    equalItems bs cs = true → (equalItems as cs = true ↔ ¬ ∃ p ∈ as.zip cs, Blurred p.1 p.2)
  | [], bs, cs, hbs, hcs => by
    obtain rfl := equalItems_nil_iff.mp hbs
    exact iff_of_true hcs (by simp)
  | a :: as, bs, cs, hbs, hcs => by
    obtain ⟨b, bs', rfl, hb, hbs⟩ := equalItems_cons_iff.mp hbs
    obtain ⟨c, cs', rfl, hc, hcs⟩ := equalItems_cons_iff.mp hcs
    rw [equalItems, Bool.and_eq_true, equal_trans_iff hb hc, equalItems_trans_iff hbs hcs,
      List.zip_cons_cons, List.exists_mem_cons_iff, not_or]

/-- Equality of entries closes chains unless two values at the ends are blurred. The keys are the same along
the chain. -/
theorem equalEntries_trans_iff : ∀ {as bs cs : List (Text × Value)}, equalEntries as bs = true →
    equalEntries bs cs = true →
      (equalEntries as cs = true ↔ ¬ ∃ p ∈ as.zip cs, Blurred p.1.2 p.2.2)
  | [], bs, cs, hbs, hcs => by
    obtain rfl := equalEntries_nil_iff.mp hbs
    exact iff_of_true hcs (by simp)
  | (k, a) :: as, bs, cs, hbs, hcs => by
    obtain ⟨b, bs', rfl, hb, hbs⟩ := equalEntries_cons_iff.mp hbs
    obtain ⟨c, cs', rfl, hc, hcs⟩ := equalEntries_cons_iff.mp hcs
    rw [equalEntries, beq_self_eq_true, Bool.true_and, Bool.and_eq_true, equal_trans_iff hb hc,
      equalEntries_trans_iff hbs hcs, List.zip_cons_cons, List.exists_mem_cons_iff, not_or]

end

/-- Blurring takes an integer that has more than 53 bits. -/
theorem Blurred.not_short {a b : Value} (h : Blurred a b) : a.Short → ¬ b.Short := by
  induction h with
  | int hne hsame =>
    intro ha hb
    -- integers of 53 bits are their own doubles, so that they would be the same
    rw [Double.rounded_of_le (ha _ .self), Double.rounded_of_le (hb _ .self)] at hsame
    exact hne (Int64.toInt_inj.mp hsame)
  | item hp h ih =>
    intro ha hb
    have hmem := List.of_mem_zip hp
    exact ih (fun n hn => ha n (.item hmem.1 hn)) (fun n hn => hb n (.item hmem.2 hn))
  | entry hp h ih =>
    intro ha hb
    have hmem := List.of_mem_zip hp
    exact ih (fun n hn => ha n (.entry hmem.1 hn)) (fun n hn => hb n (.entry hmem.2 hn))

/-- The laws of equality: it is reflexive where there is no NaN, symmetric, and transitive but for blurred
values, of which there are none as long as integers stay within 53 bits. -/
theorem equal_laws (a b c : Value) :
    (a.equal a = true ↔ a.NaNFree) ∧
      a.equal b = b.equal a ∧
      (a.equal b = true → b.equal c = true → (a.equal c = true ↔ ¬ Blurred a c)) ∧
      (a.Short → c.Short → a.equal b = true → b.equal c = true → a.equal c = true) := by
  refine ⟨equal_self_iff a, equal_comm a b, equal_trans_iff, ?_⟩
  intro ha hc hab hbc
  rw [equal_trans_iff hab hbc]
  exact fun h => h.not_short ha hc

/-- A list with an integer in it equals the list with the double, and both equal the list again. -/
theorem equal_laws_listed :
    Short (.array [.text [65], .int 1]) ∧
      equal (.array [.text [65], .int 1]) (.array [.text [65], .double (Double.ofInt64 1)]) = true ∧
      equal (.array [.text [65], .int 1]) (.array [.text [65], .int 1]) = true := by
  have hshort : Short (.array [.text [65], .int 1]) := by
    intro n hn
    cases hn with
    | item hv h =>
      simp only [List.mem_cons, List.not_mem_nil, or_false] at hv
      obtain rfl | rfl := hv
      · cases h
      · cases h
        decide +kernel
  have hequal : equal (.array [.text [65], .int 1])
      (.array [.text [65], .double (Double.ofInt64 1)]) = true := by
    decide +kernel
  exact ⟨hshort, hequal, (equal_laws _ _ _).2.2.2 hshort hshort hequal (equal_symm hequal)⟩

/-- The first integer that is no double, its neighbour, and the double that both equal. -/
theorem equal_neighbours :
    NaNFree (.int 9007199254740993) ∧ NaNFree (.double (Double.ofInt64 9007199254740992)) ∧
      NaNFree (.int 9007199254740992) ∧
      equal (.int 9007199254740993) (.double (Double.ofInt64 9007199254740992)) = true ∧
      equal (.double (Double.ofInt64 9007199254740992)) (.int 9007199254740992) = true ∧
      equal (.int 9007199254740993) (.int 9007199254740992) = false := by
  simp only [← equal_self_iff]
  decide +kernel

end Mundart.Value
