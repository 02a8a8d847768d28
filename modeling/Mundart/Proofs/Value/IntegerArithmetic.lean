import Mundart.Proofs.Number.Rounding
import Mundart.Proofs.Value.Orderly

/-!
# Arithmetic of integers

The operators on two integers against the integers themselves. Sums, differences and products wrap around
at 64 bits. A division is exact or leaves the integers. It looks at its divisor twice: as a double, which
must not be zero, and then as an integer, by which the remainder is taken without a further question. Both
mean the same, since rounding to a double makes nothing zero that is not.

* **`ofInt64_beq_zero_iff`** — an integer is zero as a double exactly if it is zero;
* **`arithmetic_int`** — plus, minus and times on integers are those of 64 bits;
* **`arithmetic_divide`** — the three ways in which a division ends;
* **`toInt_div_mul`**, **`div_mul_back`** — an exact quotient is the quotient of the integers, but for the one
  that does not fit, and times the divisor it always gives the dividend back;
* **`divide_fails_iff`**, **`divide_gives_int_iff`** — when a division fails and when it gives an integer;
* **`arithmetic_ints`** — all of it, for every pair of integers.
-/

namespace Mundart.Value

open Double

/-! ## The divisor

Divisions test their divisor as a double. An integer is no zero there unless it is zero. -/

/-- Nothing but zero is rounded to zero. -/
theorem rounded_eq_zero_iff (n : Int) : rounded n = 0 ↔ n = 0 := by
  constructor
  · intro hzero
    by_contra hne
    have hpos := roundedNat_pos (n := n.natAbs) (by omega)
    rw [rounded] at hzero
    split at hzero
    · omega
    · omega
  · rintro rfl
    rfl

/-- Only zero is zero as a double. -/
theorem ofInt64_beq_zero_iff (b : Int64) : (ofInt64 b == 0.0) = true ↔ b = 0 := by
  constructor
  · intro hzero
    have hsame := (ofInt64_beq_iff b 0).mp (beq_trans hzero (beq_symm ofInt64_zero))
    have hint := (rounded_eq_zero_iff b.toInt).mp hsame
    exact Int64.toInt_inj.mp hint
  · rintro rfl
    exact ofInt64_zero

/-! ## Operators

Sums, differences and products wrap around at 64 bits, as the operations of the library do. -/

/-- An operator other than division on integers. -/
theorem arithmetic_int {word : Text} (op : ArithOp) (hword : ArithOp.ofWord? word = some op)
    (hop : op ≠ .divide) {a b n : Int64} (hn : op.onInts a b = .ok (some n)) :
    arithmetic word (.int a) (.int b) = .ok (.int n) := by
  have hints : op.onNumbers (.int a) (.int b) (ofInt64 a) (ofInt64 b) = .ok (.int n) := by
    simp only [ArithOp.onNumbers, hop, kind, asInt, trusted, asInt?, hn, bind, Except.bind]
    simp
  simp only [arithmetic, kind, number?, hword, hints]
  simp

/-- A division by zero is refused, an exact one has its quotient, and any other one is left to the doubles. -/
theorem arithmetic_divide (a b : Int64) :
    arithmetic "dividier" (.int a) (.int b) =
      if b = 0 then .error .divisionByZero
      else if a % b = 0 then .ok (.int (a / b))
      else .ok (.double (ofInt64 a / ofInt64 b)) := by
  show ArithOp.divide.onNumbers (.int a) (.int b) (ofInt64 a) (ofInt64 b) = _
  have hdivisor := ofInt64_beq_zero_iff b
  unfold ArithOp.onNumbers
  by_cases hzero : b = 0
  · simp [hzero, ofInt64_zero]
  · by_cases hexact : a % b = 0
    · simp [hzero, hexact, hdivisor, kind, asInt, trusted, asInt?, ArithOp.onInts, Trusted.remainder,
        Trusted.quotient, bind, Except.bind]
    · simp [hzero, hexact, hdivisor, kind, asInt, trusted, asInt?, ArithOp.onInts, Trusted.remainder,
        ArithOp.onDoubles, bind, Except.bind]

/-! ## Quotients

A quotient is exact if nothing is left over. It is one of 64 bits, but for the least integer divided by
minus one, which wraps around. -/

section

variable {a b : Int64}

/-- The remainder is truncated, but whether there is one does not depend on that. -/
theorem mod_eq_zero_iff : a % b = 0 ↔ b.toInt ∣ a.toInt := by
  rw [← Int64.toInt_inj, Int64.toInt_mod, Int.dvd_iff_tmod_eq_zero]
  rfl

/-- An exact quotient that fits in 64 bits. -/
theorem toInt_div_mul (hexact : b.toInt ∣ a.toInt) (hfits : ¬ (a = Int64.minValue ∧ b = -1)) :
    (a / b).toInt * b.toInt = a.toInt := by
  have hquotient : (a / b).toInt = a.toInt.tdiv b.toInt := by
    by_cases ha : a = Int64.minValue
    · exact Int64.toInt_div_of_ne_right a b fun hb => hfits ⟨ha, hb⟩
    · exact Int64.toInt_div_of_ne_left a b ha
  rw [hquotient]
  exact Int.tdiv_mul_cancel hexact

/-- The exact quotient, but for the one that does not fit. -/
theorem quotient_exact (hexact : b.toInt ∣ a.toInt) :
    if a = Int64.minValue ∧ b = -1 then a / b = Int64.minValue else (a / b).toInt * b.toInt = a.toInt := by
  split
  · next hmin =>
    obtain ⟨rfl, rfl⟩ := hmin
    decide
  · next hfits => exact toInt_div_mul hexact hfits

/-- The one quotient that does not fit wraps around to the dividend, and so does its product. -/
theorem div_mul_back (hexact : b.toInt ∣ a.toInt) : a / b * b = a := by
  by_cases hfits : a = Int64.minValue ∧ b = -1
  · obtain ⟨rfl, rfl⟩ := hfits
    decide
  · have hlow := a.le_toInt
    have hhigh := a.toInt_lt
    apply Int64.toInt_inj.mp
    rw [Int64.toInt_mul, toInt_div_mul hexact hfits]
    exact Int.bmod_eq_of_le (by omega) (by omega)

/-! ## Divisions

A division looks at what is left over first and takes the quotient if it is nothing. Otherwise both are
divided as doubles. -/

/-- A division fails for the divisor zero only. -/
theorem divide_fails_iff :
    (∃ e, arithmetic "dividier" (.int a) (.int b) = .error e ∧ e.kind? = some .arithmeticFailure) ↔
      b = 0 := by
  rw [arithmetic_divide]
  constructor
  · rintro ⟨e, he, -⟩
    by_contra hne
    rw [if_neg hne] at he
    split at he
    · exact nomatch he
    · exact nomatch he
  · intro hzero
    exact ⟨.divisionByZero, if_pos hzero, rfl⟩

/-- A division gives an integer exactly where nothing is left over, which is then the quotient. -/
theorem divide_gives_int_iff (q : Int64) :
    arithmetic "dividier" (.int a) (.int b) = .ok (.int q) ↔
      b ≠ 0 ∧ b.toInt ∣ a.toInt ∧ q = a / b := by
  rw [arithmetic_divide, ← mod_eq_zero_iff]
  by_cases hzero : b = 0
  · simp [hzero]
  · by_cases hexact : a % b = 0
    · simp [hzero, hexact, eq_comm]
    · simp [hzero, hexact]

end

/-! ## Every pair of integers

All four operators together, over all integers of 64 bits. -/

/-- What the operators give on two integers. Sums, differences and products are the exact ones, reduced
modulo `2 ^ 64` into the range around zero. Division fails exactly for a divisor of zero; otherwise it gives
an integer exactly if the divisor divides the dividend, namely the exact quotient, which fits but for
`-2 ^ 63` by `-1`, and in every case this times the divisor is the dividend again. A division that does not
come out even is one of doubles. -/
theorem arithmetic_ints (a b : Int64) :
    (∃ n, arithmetic "plus" (.int a) (.int b) = .ok (.int n) ∧
      n.toInt = (a.toInt + b.toInt).bmod (2 ^ 64)) ∧
    (∃ n, arithmetic "minus" (.int a) (.int b) = .ok (.int n) ∧
      n.toInt = (a.toInt - b.toInt).bmod (2 ^ 64)) ∧
    (∃ n, arithmetic "mal" (.int a) (.int b) = .ok (.int n) ∧
      n.toInt = (a.toInt * b.toInt).bmod (2 ^ 64)) ∧
    ((∃ e, arithmetic "dividier" (.int a) (.int b) = .error e ∧ e.kind? = some .arithmeticFailure) ↔
      b = 0) ∧
    (b ≠ 0 → ((∃ q, arithmetic "dividier" (.int a) (.int b) = .ok (.int q)) ↔ b.toInt ∣ a.toInt)) ∧
    (∀ q, arithmetic "dividier" (.int a) (.int b) = .ok (.int q) →
      (if a = Int64.minValue ∧ b = -1 then q = Int64.minValue else q.toInt * b.toInt = a.toInt) ∧
      arithmetic "mal" (.int q) (.int b) = .ok (.int a)) ∧
    (b ≠ 0 → ¬ b.toInt ∣ a.toInt →
      arithmetic "dividier" (.int a) (.int b) = .ok (.double (ofInt64 a / ofInt64 b))) := by
  have htimes : ∀ m n : Int64, arithmetic "mal" (.int m) (.int n) = .ok (.int (m * n)) :=
    fun m n => arithmetic_int .times rfl (by decide) rfl
  refine ⟨⟨a + b, arithmetic_int .plus rfl (by decide) rfl, Int64.toInt_add a b⟩,
    ⟨a - b, arithmetic_int .minus rfl (by decide) rfl, Int64.toInt_sub a b⟩,
    ⟨a * b, htimes a b, Int64.toInt_mul a b⟩, divide_fails_iff, ?_, ?_, ?_⟩
  · intro hne
    simp [divide_gives_int_iff, hne]
  · intro q hq
    obtain ⟨-, hexact, rfl⟩ := (divide_gives_int_iff q).mp hq
    rw [htimes, div_mul_back hexact]
    exact ⟨quotient_exact hexact, rfl⟩
  · intro hne hinexact
    rw [← mod_eq_zero_iff] at hinexact
    rw [arithmetic_divide, if_neg hne, if_neg hinexact]

/-- The least integer by minus one, a truncated remainder, and a sum that wraps around. -/
theorem arithmetic_ints_least :
    arithmetic "dividier" (.int Int64.minValue) (.int (-1)) = .ok (.int Int64.minValue) ∧
    arithmetic "dividier" (.int (-7)) (.int 2) = .ok (.double (ofInt64 (-7) / ofInt64 2)) ∧
    (∃ e, arithmetic "dividier" (.int 5) (.int 0) = .error e ∧ e.kind? = some .arithmeticFailure) ∧
    ∃ n : Int64, arithmetic "plus" (.int Int64.maxValue) (.int 1) = .ok (.int n) ∧ n.toInt = -2 ^ 63 := by
  obtain ⟨-, -, -, -, hexact, hquotient, -⟩ := arithmetic_ints Int64.minValue (-1)
  obtain ⟨-, -, -, -, -, -, hinexact⟩ := arithmetic_ints (-7) 2
  obtain ⟨-, -, -, hfails, -⟩ := arithmetic_ints 5 0
  obtain ⟨⟨n, hplus, hn⟩, -⟩ := arithmetic_ints Int64.maxValue 1
  obtain ⟨q, hq⟩ := (hexact (by decide)).mpr (by decide)
  obtain rfl : q = Int64.minValue := by simpa using (hquotient q hq).1
  exact ⟨hq, hinexact (by decide) (by decide), hfails.mpr rfl, n, hplus, hn.trans (by decide)⟩

end Mundart.Value
