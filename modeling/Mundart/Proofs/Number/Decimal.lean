import Mathlib.Data.Nat.Basic
import Mundart.Number.Reading

/-!
# Decimal numbers as text

* **`digitsValue_ofNat`**, **`digitsValue_padNat`** — the decimal digits of a number write that number,
  also with zeros in front;
* **`head?_ofNat`** — only zero is written with a zero in front;
* **`readInt64_digits`** — a run of digits is read as an integer exactly if it writes one below the
  bound of the 64-bit integers;
* **`readInt64_ofInt`** — a 64-bit integer is read off its decimal text.
-/

namespace Mundart

namespace Text

/-- A decimal digit is written as one byte with the same code. -/
theorem ascii_of_isDigit {c : Char} (h : c.isDigit = true) :
    isDigit (ascii c) = true ∧ (ascii c).toNat = c.toNat := by
  have hrange : 48 ≤ c.toNat ∧ c.toNat ≤ 57 := by
    simpa [Char.isDigit, UInt32.le_iff_toNat_le] using h
  have hbyte : (ascii c).toNat = c.toNat := by
    show c.toNat % 256 = c.toNat
    omega
  refine ⟨?_, hbyte⟩
  simp only [isDigit, Bool.and_eq_true, decide_eq_true_eq, UInt8.le_iff_toNat_le, hbyte]
  exact hrange

/-- A number is written with digits only. -/
theorem isDigit_of_mem_ofNat {n : Nat} {b : UInt8} (h : b ∈ ofNat n) : isDigit b = true := by
  obtain ⟨c, hc, rfl⟩ := List.mem_map.mp h
  exact (ascii_of_isDigit (Nat.isDigit_of_mem_toDigits (by decide) (by decide) hc)).1

/-- A number is written with at least one digit. -/
theorem ofNat_ne_nil (n : Nat) : ofNat n ≠ [] := by
  have hpos : 0 < (Nat.toDigits 10 n).length := Nat.length_toDigits_pos
  intro h
  rw [List.map_eq_nil_iff.mp h] at hpos
  exact absurd hpos (by decide)

/-- Only zero is written with a zero in front. -/
theorem head?_ofNat {n : Nat} (hn : n ≠ 0) : (ofNat n).head? ≠ some 48 := by
  induction n using Nat.strongRecOn with
  | ind n ih =>
    unfold ofNat at ih ⊢
    by_cases hlt : n < 10
    · have hdigit : ∀ n < 10, n ≠ 0 → ascii n.digitChar ≠ 48 := by decide
      rw [Nat.toDigits_of_lt_base hlt, List.map_singleton, List.head?_cons]
      exact fun h => hdigit n hlt hn (Option.some.inj h)
    · have hfront : (Nat.toDigits 10 (n / 10)).map ascii ≠ [] := ofNat_ne_nil (n / 10)
      rw [Nat.toDigits_of_base_le (by decide) (Nat.not_lt.mp hlt), List.map_append,
        List.head?_append, Option.or_of_isSome (List.isSome_head?.mpr hfront)]
      exact ih (n / 10) (by omega) (by omega)

/-- The digits of a list of characters count as the bytes they are written as. -/
theorem foldl_ascii (cs : List Char) (h : ∀ c ∈ cs, c.isDigit = true) : ∀ start : Nat,
    (cs.map ascii).foldl (fun n b => n * 10 + (b.toNat - 48)) start
      = Nat.ofDigitChars 10 cs start := by
  induction cs with
  | nil => intro start; rfl
  | cons c cs ih =>
    intro start
    rw [List.map_cons, List.foldl_cons, Nat.ofDigitChars_cons,
      (ascii_of_isDigit (h c List.mem_cons_self)).2, Nat.mul_comm start 10]
    exact ih (fun c hc => h c (List.mem_cons_of_mem _ hc)) _

/-- A written number reads back as what it is. -/
theorem digitsValue_ofNat (n : Nat) : digitsValue (ofNat n) = n := by
  have hdigits : ∀ c ∈ Nat.toDigits 10 n, c.isDigit = true := fun c hc =>
    Nat.isDigit_of_mem_toDigits (by decide) (by decide) hc
  unfold digitsValue ofNat
  rw [foldl_ascii _ hdigits 0, Nat.ofDigitChars_ten_toDigits]

/-- Zeros in front of the digits change nothing. -/
theorem digitsValue_padNat (width n : Nat) : digitsValue (padNat width n) = n := by
  have hzeros : ∀ k : Nat,
      (List.replicate k (48 : UInt8)).foldl (fun n b => n * 10 + (b.toNat - 48)) 0 = 0 := by
    intro k
    induction k with
    | zero => rfl
    | succ k ih => exact ih
  unfold digitsValue padNat
  rw [List.foldl_append, hzeros]
  exact digitsValue_ofNat n

/-- Zeros in front of a number are digits. -/
theorem isDigit_of_mem_padNat {width n : Nat} {b : UInt8} (h : b ∈ padNat width n) :
    isDigit b = true := by
  obtain h | h := List.mem_append.mp h
  · rw [List.eq_of_mem_replicate h]
    rfl
  · exact isDigit_of_mem_ofNat h

end Text

namespace Number

/-- A digit is no sign. -/
theorem takeSign_digits {t : Text} (h : ∀ b ∈ t, Text.isDigit b = true) :
    takeSign t = (false, t) := by
  unfold takeSign
  split
  · exact absurd (h 43 List.mem_cons_self) (by decide)
  · exact absurd (h 45 List.mem_cons_self) (by decide)
  · rfl

/-- Digits are read as an integer if they are not too many. -/
theorem readInt64_digits {t : Text} (hne : t ≠ []) (h : ∀ b ∈ t, Text.isDigit b = true) :
    readInt64 t = if Text.digitsValue t < Nat.pow 2 63
      then .ok (Int64.ofNat (Text.digitsValue t)) else .error .outOfRange := by
  have hall : t.all Text.isDigit = true := List.all_eq_true.mpr h
  have hempty : t.isEmpty = false := by simpa using hne
  unfold readInt64
  rw [takeSign_digits h]
  simp only [hall, hempty, Bool.not_true, Bool.or_self, Bool.false_eq_true, if_false]
  by_cases hlt : Text.digitsValue t < Nat.pow 2 63
  · have hint : (Text.digitsValue t : Int) < (Nat.pow 2 63 : Nat) := by exact_mod_cast hlt
    have hlow : -((Nat.pow 2 63 : Nat) : Int) ≤ (Text.digitsValue t : Int) := by omega
    rw [if_pos hlt, if_pos (Bool.and_eq_true_iff.mpr ⟨decide_eq_true hlow, decide_eq_true hint⟩)]
    rfl
  · have hint : ¬ (Text.digitsValue t : Int) < (Nat.pow 2 63 : Nat) := by exact_mod_cast hlt
    rw [if_neg hlt, if_neg]
    intro h
    exact hint (of_decide_eq_true (Bool.and_eq_true_iff.mp h).2)

/-- A 64-bit integer is read off its decimal text. -/
theorem readInt64_ofInt (n : Int64) : readInt64 (Text.ofInt n.toInt) = .ok n := by
  have hlow : -((Nat.pow 2 63 : Nat) : Int) ≤ n.toInt := n.minValue_le_toInt
  have hhigh : n.toInt < (Nat.pow 2 63 : Nat) := Int64.toInt_lt n
  cases hn : n.toInt with
  | ofNat k =>
    have hk : k < Nat.pow 2 63 := by
      rw [hn] at hhigh
      exact Int.ofNat_lt.mp hhigh
    have hvalue : Int64.ofNat k = n := by
      rw [← Int64.ofInt_toInt n, hn]
      rfl
    rw [Text.ofInt, readInt64_digits (Text.ofNat_ne_nil k) fun _ => Text.isDigit_of_mem_ofNat,
      Text.digitsValue_ofNat, if_pos hk, hvalue]
  | negSucc k =>
    have hall : (Text.ofNat (k + 1)).all Text.isDigit = true :=
      List.all_eq_true.mpr fun _ => Text.isDigit_of_mem_ofNat
    have hempty : (Text.ofNat (k + 1)).isEmpty = false := by simpa using Text.ofNat_ne_nil (k + 1)
    have hvalue : -((Text.digitsValue (Text.ofNat (k + 1)) : Nat) : Int) = n.toInt := by
      rw [Text.digitsValue_ofNat, hn]
      rfl
    have hsign : takeSign (Text.ofInt (.negSucc k)) = (true, Text.ofNat (k + 1)) := rfl
    unfold readInt64
    rw [hsign]
    simp only [hall, hempty, Bool.not_true, Bool.or_self, Bool.false_eq_true, if_false, if_true]
    rw [hvalue, if_pos (Bool.and_eq_true_iff.mpr ⟨decide_eq_true hlow, decide_eq_true hhigh⟩),
      Int64.ofInt_toInt]

end Number

end Mundart
