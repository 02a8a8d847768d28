import Mundart.Proofs.Number.Rounding
import Mundart.Value.Arithmetic

/-!
# Comparison of integers

Integers are ordered as doubles and are equal as integers. Where rounding to a double keeps two integers
apart, order and equality are those of the integers; where it does not, neither integer is less, and they are
not equal either.

* **`compareDoubles_eq`** — doubles are ordered by rank;
* **`compareBy_int`** — what an ordering word says of two integers;
* **`Agree`**, **`compareBy_ints`** — order and equality agree on two integers exactly if these are the same
  or are rounded to different ones, in particular up to `2 ^ 53`.
-/

namespace Mundart.Value

open Double

/-- Doubles that are no NaN are ordered by rank. -/
theorem compareDoubles_eq {x y : Float} (hx : x.isNaN = false) (hy : y.isNaN = false) :
    compareDoubles x y = compare (rank x) (rank y) := by
  unfold compareDoubles
  simp only [lt_iff_rank hx hy, lt_iff_rank hy hx]
  rcases Int.lt_trichotomy (rank x) (rank y) with hlt | heq | hgt
  · rw [if_pos hlt, Int.compare_eq_lt.mpr hlt]
  · rw [if_neg (by omega), if_neg (by omega), Int.compare_eq_eq.mpr heq]
  · rw [if_neg (by omega), if_pos hgt, Int.compare_eq_gt.mpr hgt]

/-- Two integers are compared as the rounded integers are. -/
theorem compare?_int (a b : Int64) :
    compare? (.int a) (.int b) = some (compare (rounded a.toInt) (rounded b.toInt)) := by
  show some (compareDoubles (ofInt64 a) (ofInt64 b)) = _
  have hlt := rank_ofInt64_lt_iff a b
  have hgt := rank_ofInt64_lt_iff b a
  rw [compareDoubles_eq (rank_ofInt64 a).2 (rank_ofInt64 b).2]
  rcases Int.lt_trichotomy (rounded a.toInt) (rounded b.toInt) with h | h | h
  · rw [Int.compare_eq_lt.mpr h, Int.compare_eq_lt.mpr (hlt.mpr h)]
  · rw [Int.compare_eq_eq.mpr h, Int.compare_eq_eq.mpr (by omega)]
  · rw [Int.compare_eq_gt.mpr h, Int.compare_eq_gt.mpr (hgt.mpr h)]

/-- What an ordering word says of two integers. -/
theorem compareBy_int (word : Text) {test : Ordering → Bool} (hword : orderTest? word = some test)
    (hsame : (word == "gleich") = false) (hother : (word == "isned") = false) (a b : Int64) :
    compareBy word (.int a) (.int b) = .ok (test (compare (rounded a.toInt) (rounded b.toInt))) := by
  unfold compareBy
  rw [hsame, hother, hword, compare?_int]
  rfl

/-- Order and equality of two integers agree: exactly one of less, same and more is true, the other words
are made of these, and less is that of the integers. -/
def Agree (a b : Int64) : Prop :=
  ∃ less same more : Bool,
    compareBy "klana" (.int a) (.int b) = .ok less ∧
    compareBy "gleich" (.int a) (.int b) = .ok same ∧
    compareBy "größer" (.int a) (.int b) = .ok more ∧
    [less, same, more].count true = 1 ∧
    compareBy "klanaglei" (.int a) (.int b) = .ok (less || same) ∧
    compareBy "größerglei" (.int a) (.int b) = .ok (more || same) ∧
    compareBy "gößerglei" (.int a) (.int b) = .ok (more || same) ∧
    less = decide (a.toInt < b.toInt)

/-- Agreement asks four things of the order that the comparison gives and of equality, which compares the
integers themselves. -/
theorem agree_iff_of_compare {a b : Int64} {order : Ordering}
    (horder : compare (rounded a.toInt) (rounded b.toInt) = order) :
    Agree a b ↔
      [order == .lt, a == b, order == .gt].count true = 1 ∧
      (order != .gt) = (order == .lt || a == b) ∧
      (order != .lt) = (order == .gt || a == b) ∧
      (order == .lt) = decide (a.toInt < b.toInt) := by
  unfold Agree
  rw [compareBy_int "klana" rfl rfl rfl, compareBy_int "größer" rfl rfl rfl,
    compareBy_int "klanaglei" rfl rfl rfl, compareBy_int "größerglei" rfl rfl rfl,
    compareBy_int "gößerglei" rfl rfl rfl, horder]
  have hsame : compareBy "gleich" (.int a) (.int b) = .ok (a == b) := rfl
  rw [hsame]
  simp only [Except.ok.injEq]
  -- Each word has one answer, and what is asked of the five answers is asked of the order.
  constructor
  · rintro ⟨less, same, more, rfl, rfl, rfl, hone, hle, hge, -, hless⟩
    exact ⟨hone, hle, hge, hless⟩
  · rintro ⟨hone, hle, hge, hless⟩
    exact ⟨_, _, _, rfl, rfl, rfl, hone, hle, hge, hge, hless⟩

/-- Order and equality agree on integers that rounding keeps apart, and on no others. -/
theorem agree_iff (a b : Int64) : Agree a b ↔ a = b ∨ rounded a.toInt ≠ rounded b.toInt := by
  have hle : a.toInt ≤ b.toInt → rounded a.toInt ≤ rounded b.toInt := rounded_le_rounded
  have hge : b.toInt ≤ a.toInt → rounded b.toInt ≤ rounded a.toInt := rounded_le_rounded
  have heq : (a == b) = decide (a.toInt = b.toInt) := by
    rw [Bool.eq_iff_iff, beq_iff_eq, decide_eq_true_iff, Int64.toInt_inj]
  have hiff : a = b ↔ a.toInt = b.toInt := Int64.toInt_inj.symm
  -- Rounding keeps the order, so that integers with different doubles are in it.
  rcases Int.lt_trichotomy (rounded a.toInt) (rounded b.toInt) with h | h | h
  · rw [agree_iff_of_compare (Int.compare_eq_lt.mpr h), heq, hiff]
    have hlt : a.toInt < b.toInt := by omega
    have hne : a.toInt ≠ b.toInt := by omega
    simp [hlt, hne, h.ne]
  · rw [agree_iff_of_compare (Int.compare_eq_eq.mpr h), heq, hiff]
    simp only [h]
    -- With the same double both orders are denied, so that it must be equality that holds.
    by_cases hsame : a.toInt = b.toInt
    · simp [hsame]
    · simp [hsame]
  · rw [agree_iff_of_compare (Int.compare_eq_gt.mpr h), heq, hiff]
    have hlt : ¬ a.toInt < b.toInt := by omega
    have hne : a.toInt ≠ b.toInt := by omega
    simp [hlt, hne, h.ne']

/-- The comparison of integers. Less is never said wrongly, but of two integers that are rounded to the same
one neither is less, and they are not equal unless they are the same. -/
theorem compareBy_ints (a b : Int64) :
    (Agree a b ↔ a = b ∨ rounded a.toInt ≠ rounded b.toInt) ∧
      (a.toInt.natAbs ≤ 2 ^ 53 → b.toInt.natAbs ≤ 2 ^ 53 → Agree a b) ∧
      (compareBy "klana" (.int a) (.int b) = .ok true → a.toInt < b.toInt) ∧
      (rounded a.toInt = rounded b.toInt →
        compareBy "klana" (.int a) (.int b) = .ok false ∧
        compareBy "größer" (.int a) (.int b) = .ok false ∧
        compareBy "klanaglei" (.int a) (.int b) = .ok true ∧
        compareBy "größerglei" (.int a) (.int b) = .ok true ∧
        compareBy "gößerglei" (.int a) (.int b) = .ok true ∧
        compareBy "gleich" (.int a) (.int b) = .ok (a == b)) := by
  refine ⟨agree_iff a b, ?_, ?_, ?_⟩
  · intro ha hb
    -- Small integers are doubles, so that rounding changes nothing.
    rw [agree_iff, rounded_of_le ha, rounded_of_le hb, ← Int64.toInt_inj]
    exact Decidable.em _
  · intro h
    rw [compareBy_int "klana" rfl rfl rfl, Except.ok.injEq, beq_iff_eq, Int.compare_eq_lt] at h
    by_contra hle
    -- Rounding never turns an order around.
    have hmono : rounded b.toInt ≤ rounded a.toInt := rounded_le_rounded (by omega)
    omega
  · intro h
    rw [compareBy_int "klana" rfl rfl rfl, compareBy_int "größer" rfl rfl rfl,
      compareBy_int "klanaglei" rfl rfl rfl, compareBy_int "größerglei" rfl rfl rfl,
      compareBy_int "gößerglei" rfl rfl rfl, Int.compare_eq_eq.mpr h]
    exact ⟨rfl, rfl, rfl, rfl, rfl, rfl⟩

/-- Short integers are their own doubles. -/
theorem compareBy_ints_one_two : Agree 1 2 ∧ Agree (-5) (-5) :=
  ⟨(compareBy_ints 1 2).2.1 (by decide) (by decide), (compareBy_ints (-5) (-5)).1.mpr (.inl rfl)⟩

/-- The first integer that is no double, and its neighbour below. -/
theorem neighbours_disagree :
    ¬ Agree 9007199254740992 9007199254740993 ∧
      compareBy "klana" (.int 9007199254740992) (.int 9007199254740993) = .ok false ∧
      compareBy "gleich" (.int 9007199254740992) (.int 9007199254740993) = .ok false ∧
      compareBy "größer" (.int 9007199254740992) (.int 9007199254740993) = .ok false := by
  have hsame : rounded (9007199254740992 : Int64).toInt = rounded (9007199254740993 : Int64).toInt := by
    decide +kernel
  rw [agree_iff, compareBy_int "klana" rfl rfl rfl, compareBy_int "größer" rfl rfl rfl,
    Int.compare_eq_eq.mpr hsame]
  refine ⟨?_, rfl, rfl, rfl⟩
  rintro (h | h)
  · exact absurd h (by decide)
  · exact h hsame

end Mundart.Value
