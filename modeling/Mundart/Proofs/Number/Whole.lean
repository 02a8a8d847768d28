import Mundart.Proofs.Number.Decimal
import Mundart.Proofs.Number.Rounding

/-!
# Doubles back to integers

A double at the place of an integer is that integer, rounded to 53 bits. The literal of an integer, read as
a double, has this place, so reading it and taking the integer again rounds it and does nothing else.

* **`toInt?_of_rank`** — the integer that a double at the place of an integer is;
* **`rank_ofScientific`** — the place of a double that is read from the digits of an integer;
* **`Number.readDouble_written`** — what is read from the literal of an integer.
-/

namespace Mundart.Double

open Float.Model Float.Model.UnpackedFloat

/-! ## Whole doubles

Taking the integer of a double asks whether its fraction is a whole number. At the place of an integer it
is, with the rounded integer as its value: a mantissa scaled by its exponent. -/

/-- A fraction that is a whole number. -/
theorem num_ofBinary {m n k j : Nat} {e : Int} (h : m * 2 ^ k = n * 2 ^ j) (he : e = k - j) :
    (Ratio.ofBinary m e).num = n * (Ratio.ofBinary m e).den := by
  unfold Ratio.ofBinary
  split
  -- The exponent is not negative, so that the mantissa is scaled up.
  · next hpos =>
    obtain ⟨d, rfl⟩ := Nat.exists_eq_add_of_le (show j ≤ k by omega)
    have hd : e.toNat = d := by omega
    have hscaled : m * 2 ^ d * 2 ^ j = n * 2 ^ j := by
      rw [← h, Nat.pow_add, Nat.mul_assoc, Nat.mul_comm (2 ^ d)]
    show m * 2 ^ e.toNat = n * 1
    rw [hd, Nat.eq_of_mul_eq_mul_right (Nat.two_pow_pos j) hscaled, Nat.mul_one]
  -- It is negative, and stands below the line.
  · next hneg =>
    obtain ⟨d, rfl⟩ := Nat.exists_eq_add_of_le (show k ≤ j by omega)
    have hd : (-e).toNat = d := by omega
    have hscaled : m * 2 ^ k = n * 2 ^ d * 2 ^ k := by
      rw [h, Nat.pow_add, Nat.mul_assoc, Nat.mul_comm (2 ^ k)]
    show m = n * 2 ^ (-e).toNat
    rw [hd]
    exact Nat.eq_of_mul_eq_mul_right (Nat.two_pow_pos k) hscaled

/-- Nothing scaled is nothing. -/
theorem num_ofBinary_zero (e : Int) : (Ratio.ofBinary 0 e).num = 0 := by
  unfold Ratio.ofBinary
  split
  · exact Nat.zero_mul _
  · rfl

/-- No fraction has zero below the line. -/
theorem den_ofBinary_pos (m : Nat) (e : Int) : 0 < (Ratio.ofBinary m e).den := by
  unfold Ratio.ofBinary
  split
  · exact Nat.one_pos
  · exact Nat.two_pow_pos _

/-- Infinity has the largest exponent and no fraction. -/
theorem isInf_iff (x : Float) : x.isInf = true ↔ exponentBits x = 2047 ∧ fractionBits x = 0 := by
  show x.toModel.unpack.isInf = true ↔ _
  rw [unpack_eq]
  grind [UnpackedFloat.isInf]

/-- The distance of a double from zero, in places. -/
theorem natAbs_rank (x : Float) : (rank x).natAbs = exponentBits x * 2 ^ 52 + fractionBits x := by
  rw [rank_eq_apply]
  cases signOf x with
  | negative => exact Int.natAbs_neg _
  | positive => rfl

/-- A double has the sign of its rank. -/
theorem isNegative_of_rank {x : Float} (h : rank x ≠ 0) : isNegative x = decide (rank x < 0) := by
  have hsign : rank x = (signOf x).apply ((rank x).natAbs : Nat) := by
    rw [natAbs_rank, rank_eq_apply]
    push_cast
    rfl
  unfold signOf at hsign
  cases hneg : isNegative x with
  | true =>
    rw [hneg, if_pos rfl, Sign.apply] at hsign
    exact (decide_eq_true (by omega)).symm
  | false =>
    rw [hneg, if_neg Bool.false_ne_true, Sign.apply] at hsign
    exact (decide_eq_false (by omega)).symm

/-- A double at the place of a number is that number, rounded. Where rounding carries through the whole
mantissa, the exponent is larger by one and the fraction is empty. -/
theorem num_magnitude {x : Float} {n : Nat} (h : ((rank x).natAbs : Int) = place n) :
    (magnitude x).num = roundedNat n * (magnitude x).den := by
  have hfraction := fractionBits_lt x
  rw [natAbs_rank] at h
  unfold magnitude parts
  by_cases hn : n = 0
  · rw [hn, place, if_pos rfl] at h
    have hexponent : exponentBits x = 0 := by omega
    have hnone : fractionBits x = 0 := by omega
    rw [if_pos hexponent, hnone, hn, roundedNat_zero, Nat.zero_mul]
    exact num_ofBinary_zero _
  · have hbounds := mantissa_bounds hn
    have hmul := mantissa_mul n
    rw [place, if_neg hn] at h
    push_cast at h
    rw [if_neg (by omega)]
    -- The mantissa fits into the fraction, or rounding has carried through all of it.
    rcases Nat.lt_or_eq_of_le hbounds.2 with hlt | heq
    · have hexponent : exponentBits x = n.log2 + 1023 := by omega
      have hrest : Nat.pow 2 52 + fractionBits x = mantissa n := by
        show 2 ^ 52 + _ = _
        omega
      rw [hrest, hexponent]
      exact num_ofBinary hmul (by push_cast; omega)
    · have hexponent : exponentBits x = n.log2 + 1024 := by omega
      have hnone : fractionBits x = 0 := by omega
      rw [hnone, hexponent]
      refine num_ofBinary (k := n.log2 + 1) (j := 52) ?_ (by push_cast; omega)
      rw [← hmul, heq, Nat.pow_succ']
      show 2 ^ 52 * (2 * _) = _
      rw [← Nat.mul_assoc]
      rfl

/-- An integer of 64 bits is far below infinity. -/
theorem place_lt_infinity {n : Nat} (hn : n < 2 ^ 64) : place n < 2047 * 2 ^ 52 := by
  unfold place
  split
  · omega
  · next hne =>
    have hlog := (Nat.log2_lt hne).mpr hn
    have hbounds := mantissa_bounds hne
    omega

/-- A double at the place of an integer of 64 bits is finite. -/
theorem isInf_of_rank {x : Float} {n : Nat} (hn : n < 2 ^ 64) (h : ((rank x).natAbs : Int) = place n) :
    x.isInf = false := by
  have hbelow := place_lt_infinity hn
  rw [← Bool.not_eq_true, isInf_iff]
  rintro ⟨hexponent, -⟩
  rw [natAbs_rank, hexponent] at h
  omega

/-- The integer that a double at the place of an integer is. -/
theorem toInt?_of_rank {x : Float} {k : Int} (hk : k.natAbs < 2 ^ 64)
    (hrank : rank x = if k < 0 then -place k.natAbs else place k.natAbs) (hx : x.isNaN = false) :
    toInt? x = some (rounded k) := by
  have hnonneg := place_nonneg k.natAbs
  have hplace : ((rank x).natAbs : Int) = place k.natAbs := by
    rw [hrank]
    split
    · omega
    · omega
  have hfinite := isInf_of_rank hk hplace
  have hwhole := num_magnitude hplace
  have hpos : 0 < (magnitude x).den := den_ofBinary_pos _ _
  unfold toInt?
  rw [hx, hfinite, Bool.or_self, if_neg Bool.false_ne_true]
  dsimp only
  rw [hwhole, Nat.mul_mod_left, if_pos rfl, Nat.mul_div_cancel _ hpos, rounded]
  -- The sign of zero does not matter.
  by_cases hzero : k.natAbs = 0
  · have hk0 : k = 0 := by omega
    subst hk0
    simp [roundedNat_zero]
  · have hpositive : 0 < place k.natAbs := (place_pos_iff _).mpr (roundedNat_pos hzero)
    rw [isNegative_of_rank (by omega)]
    by_cases hneg : k < 0
    · rw [if_pos hneg] at hrank ⊢
      rw [if_pos (by simpa using (by omega : rank x < 0))]
    · rw [if_neg hneg] at hrank ⊢
      rw [if_neg (by simpa using (by omega : 0 ≤ rank x))]

/-! ## Doubles that are read from digits

Digits without a point or an exponent are read as an integer and scaled by nothing. The library takes one of
two ways for this: small numbers go through an exact conversion and a product with one, all others are
rounded once. -/

/-- A larger number is put behind 53 zeros and rounded once. -/
theorem ofScientific_eq {n : Nat} (hn : n ≠ 0) :
    UnpackedFloat.ofScientific Format.binary64 n 0 =
      roundWithAccuracy Format.binary64 .positive (n * 2 ^ 53) (-(53 : Nat)) .exact := by
  have hbits : Format.binary64.mantissaBits = 53 := rfl
  have hpos : (0 : Int) < 2 ^ Format.binary64.exponentBits := by decide
  unfold UnpackedFloat.ofScientific
  rw [dif_neg hn, if_neg (by omega), if_neg (by omega), if_pos (by omega)]
  simp only [UnpackedFloat.mul, hbits, Nat.shiftLeft_eq, Int.toNat_zero, Nat.pow_zero, Nat.mul_one,
    Int.add_zero]
  rfl

/-- A mantissa of 53 bits is its own. -/
theorem mantissa_of_full {m : Nat} (hlow : 2 ^ 52 ≤ m) (hhigh : m < 2 ^ 53) :
    m.log2 = 52 ∧ mantissa m = m := by
  have hlog : m.log2 = 52 := by
    have hge := (Nat.le_log2 (by omega)).mpr hlow
    have hlt := (Nat.log2_lt (by omega)).mpr hhigh
    omega
  refine ⟨hlog, ?_⟩
  unfold mantissa spacing
  rw [hlog]
  show evenQuotient (m * 1) 1 = m
  rw [evenQuotient_one, Nat.mul_one]

/-- One as a double. -/
def one : Float := Float.ofBits 0x3FF0000000000000

/-- One as it is unpacked. -/
theorem unpack_one : one.toModel.unpack = .finite .positive (2 ^ 52) (-52) (by decide) := by
  rw [unpack_eq]
  rfl

/-- A finite double at the place of a number is positive and has all bits of its mantissa. -/
theorem full_of_placed {sign : Sign} {m n : Nat} {e : Int} {hm : 0 < m}
    (hu : Canonical (.finite sign m e hm)) (hplace : placed (.finite sign m e hm) = place n) :
    n ≠ 0 ∧ sign = .positive ∧ 2 ^ 52 ≤ m ∧ m < 2 ^ 53 := by
  have hnonneg := place_nonneg n
  have hpos := Regular.pos hu
  cases sign with
  | negative =>
    simp only [placed, Sign.apply] at hplace
    omega
  | positive =>
    simp only [placed, Sign.apply] at hplace
    have hn : n ≠ 0 := by
      rintro rfl
      rw [place, if_pos rfl] at hplace
      omega
    have hbounds := mantissa_bounds hn
    rw [place, if_neg hn] at hplace
    obtain ⟨-, ⟨he, hlt⟩ | ⟨hlow, hhigh, -⟩⟩ := hu
    · omega
    · exact ⟨hn, rfl, hlow, hhigh⟩

/-- Multiplication with one changes no double at the place of a number. -/
theorem placed_mul_one {u : UnpackedFloat} {n : Nat} (hu : Canonical u) (hplace : placed u = place n)
    (hn : n < 2 ^ 64) :
    Canonical (UnpackedFloat.mul Format.binary64 u one.toModel.unpack) ∧
      placed (UnpackedFloat.mul Format.binary64 u one.toModel.unpack) = place n := by
  rw [unpack_one]
  cases u with
  | notANumber => exact hu.elim
  | infinity sign =>
    have hnonneg := place_nonneg n
    have hbelow := place_lt_infinity hn
    cases sign with
    | negative => simp only [placed, Sign.apply] at hplace; omega
    | positive => simp only [placed, Sign.apply] at hplace; omega
  | zero sign => exact ⟨trivial, hplace⟩
  | finite sign m e hm =>
    obtain ⟨hne, rfl, hlow, hhigh⟩ := full_of_placed hu hplace
    obtain ⟨hlog2, hmantissa⟩ := mantissa_of_full hlow hhigh
    have hscaled := log2_mul_two_pow (n := m) (by omega) 52
    have hlog := (Nat.log2_lt hne).mpr hn
    have hbounds := mantissa_bounds hne
    simp only [placed, Sign.apply] at hplace
    have hfields := hplace
    rw [place, if_neg hne] at hfields
    obtain ⟨hcanonical, hplaced⟩ := canonical_roundWithAccuracy (m := m * 2 ^ 52) (e := e + -52)
      (by omega) (by omega) (by omega)
    refine ⟨hcanonical, ?_⟩
    show placed (roundWithAccuracy Format.binary64 .positive (m * 2 ^ 52) (e + -52) .exact) = _
    rw [hplaced, mantissa_mul_two_pow (by omega), hmantissa, hscaled, ← hplace]
    omega

/-- The double that is read from the digits of a number. -/
theorem rank_ofScientific {n : Nat} (h : n < 2 ^ 64) :
    rank (Float.ofScientific n false 0) = place n ∧ (Float.ofScientific n false 0).isNaN = false := by
  unfold Float.ofScientific
  split
  -- The number is converted exactly, and the product changes nothing.
  · next hsmall =>
    obtain ⟨hrank, hnumber⟩ := rank_toFloat h
    obtain ⟨hunpacked, hplaced⟩ := canonical_unpack hnumber
    obtain ⟨hcanonical, hsame⟩ := placed_mul_one hunpacked (hplaced.symm.trans hrank) h
    rw [← hsame]
    exact rank_pack hcanonical
  · next hlarge =>
    have hn : n ≠ 0 := by omega
    have hlog : n.log2 < 64 := (Nat.log2_lt hn).mpr h
    obtain ⟨hcanonical, hplaced⟩ := canonical_scaled (k := 53) hn hlog (by omega) (by omega) rfl
    rw [← ofScientific_eq hn] at hcanonical hplaced
    rw [← hplaced]
    exact rank_pack hcanonical

end Mundart.Double

namespace Mundart.Number

open Mundart.Double

/-- The literal of an integer: digits with at most a minus in front of them. -/
inductive Written : Text → Int → Prop where
  | plain {digits : Text} (hne : digits ≠ []) (hdigits : ∀ b ∈ digits, Text.isDigit b = true) :
      Written digits (Text.digitsValue digits)
  | minus {digits : Text} (hne : digits ≠ []) (hdigits : ∀ b ∈ digits, Text.isDigit b = true) :
      Written (45 :: digits) (-(Text.digitsValue digits : Int))

variable {digits t : Text} {n : Int}

/-! ## Digits

The reader of literals has many things to look for in digits: a base, separators, a point, an exponent,
names of special doubles. None of these is a digit. -/

/-- A digit has no other case. -/
theorem lowerByte_digit {b : UInt8} (hb : Text.isDigit b = true) : Text.lowerByte b = b := by
  have hupper : Text.isUpper b = false := by
    simp only [Text.isDigit, Text.isUpper, Bool.and_eq_true, decide_eq_true_eq, Bool.and_eq_false_iff,
      decide_eq_false_iff_not, UInt8.le_iff_toNat_le] at hb ⊢
    exact .inl fun h => absurd (Nat.le_trans h hb.2) (by decide)
  rw [Text.lowerByte, hupper, if_neg Bool.false_ne_true]

/-- Digits stay as they are in lower case. -/
theorem toLower_digits (h : ∀ b ∈ digits, Text.isDigit b = true) : Text.toLower digits = digits := by
  unfold Text.toLower
  rw [List.map_congr_left fun b hb => lowerByte_digit (h b hb), List.map_id']

/-- A text with something in it that is no digit is no run of digits. -/
theorem digits_ne {word : Text} (h : ∀ b ∈ digits, Text.isDigit b = true)
    (hword : word.all Text.isDigit = false) : digits ≠ word := by
  rintro rfl
  rw [List.all_eq_true.mpr h] at hword
  exact nomatch hword

/-- All digits go into the significand, and nothing is left behind them. -/
theorem readSignificand_digits (h : ∀ b ∈ digits, Text.isDigit b = true) : ∀ s : Significand,
    readSignificand 10 false s digits =
      { s with value := digits.foldl (fun n b => n * 10 + (b.toNat - 48)) s.value
               any := s.any || !digits.isEmpty, rest := [] } := by
  induction digits with
  | nil => exact fun s => by simp [readSignificand]
  | cons b t ih =>
    intro s
    obtain ⟨hb, ht⟩ := List.forall_mem_cons.mp h
    rw [readSignificand]
    simp only [hb, if_true, if_neg (show ¬ 10 = 16 by decide)]
    rw [ih ht]
    simp

/-- A decimal number without an exponent is at its place. -/
theorem rank_ofDecimal {m : Nat} (h : m < 2 ^ 64) :
    rank (ofDecimal m 0) = place m ∧ (ofDecimal m 0).isNaN = false := by
  unfold ofDecimal
  by_cases hm : m = 0
  · rw [if_pos hm, hm]
    decide +kernel
  · have hlog := (Nat.log2_lt hm).mpr h
    dsimp only
    rw [if_neg hm, if_neg (by omega), if_neg (by omega), if_pos (Int.le_refl 0)]
    exact rank_ofScientific h

/-- Digits are read as the double nearest to the number that they write. -/
theorem readLiteral_digits (hne : digits ≠ []) (h : ∀ b ∈ digits, Text.isDigit b = true)
    (hrange : Text.digitsValue digits < 2 ^ 64) :
    readLiteral digits = .ok (ofDecimal (Text.digitsValue digits) 0) := by
  -- No base is written in front, since it needs a letter.
  have hbase : ((utf8 "0x").isPrefixOf digits && decide (2 < digits.length)) = false := by
    rw [Bool.and_eq_false_iff]
    left
    by_contra hstart
    rw [Bool.not_eq_false, List.isPrefixOf_iff_prefix] at hstart
    exact absurd (h 120 (hstart.subset (by decide))) (by decide)
  have hseparator : digits.contains 95 = false := by
    rw [← Bool.not_eq_true, List.contains_iff_mem]
    exact fun hmem => absurd (h 95 hmem) (by decide)
  have hany : digits.isEmpty = false := by simpa using hne
  obtain ⟨hrank, -⟩ := rank_ofDecimal hrange
  have hfinite : (ofDecimal (Text.digitsValue digits) 0).isInf = false :=
    isInf_of_rank hrange (by rw [hrank]; exact Int.natAbs_of_nonneg (place_nonneg _))
  unfold readLiteral
  simp only [toLower_digits h, hbase, Bool.false_eq_true, if_false, readSignificand_digits h, hany,
    hseparator, Bool.not_false, Bool.or_true, Bool.true_or, Bool.not_true]
  show (if (ofDecimal (Text.digitsValue digits) 0).isInf = true then _ else _) = _
  rw [hfinite, if_neg Bool.false_ne_true]
  rfl

/-- Digits behind a sign are read as the double of the digits, negated if the sign says so. -/
theorem readDouble_digits {negative : Bool} (hsign : takeSign t = (negative, digits))
    (hne : digits ≠ []) (h : ∀ b ∈ digits, Text.isDigit b = true)
    (hrange : Text.digitsValue digits < 2 ^ 64) :
    readDouble t = .ok (if negative then -ofDecimal (Text.digitsValue digits) 0
      else ofDecimal (Text.digitsValue digits) 0) := by
  have hword : ∀ word : Text, word.all Text.isDigit = false → (digits == word) = false :=
    fun word hword => beq_eq_false_iff_ne.mpr (digits_ne h hword)
  unfold readDouble
  simp only [hsign, toLower_digits h, hword (utf8 "inf") (by decide), hword (utf8 "infinity") (by decide),
    hword (utf8 "nan") (by decide), Bool.or_self, Bool.false_and, Bool.false_eq_true, if_false,
    readLiteral_digits hne h hrange]
  rfl

/-- A double that is read from the literal of an integer is that integer, rounded. -/
theorem readDouble_written (h : Written t n) (hrange : n.natAbs < 2 ^ 64) :
    ∃ x, readDouble t = .ok x ∧ toInt? x = some (rounded n) := by
  cases h with
  | plain hne hdigits =>
    have hvalue : Text.digitsValue t < 2 ^ 64 := by omega
    obtain ⟨hrank, hnumber⟩ := rank_ofDecimal hvalue
    refine ⟨_, readDouble_digits (takeSign_digits hdigits) hne hdigits hvalue, ?_⟩
    refine toInt?_of_rank hrange ?_ hnumber
    have hnonneg : ¬ (Text.digitsValue t : Int) < 0 := by omega
    rw [if_neg hnonneg]
    exact hrank
  | @minus digits hne hdigits =>
    have hvalue : Text.digitsValue digits < 2 ^ 64 := by omega
    have hsign : takeSign (45 :: digits) = (true, digits) := rfl
    obtain ⟨hrank, hnumber⟩ := rank_ofDecimal hvalue
    obtain ⟨hneg, hnumber'⟩ := rank_neg hnumber
    refine ⟨_, readDouble_digits hsign hne hdigits hvalue, ?_⟩
    refine toInt?_of_rank hrange ?_ hnumber'
    show rank (-ofDecimal (Text.digitsValue digits) 0) = _
    rw [hneg, hrank, Int.natAbs_neg, Int.natAbs_natCast]
    split
    · rfl
    -- The negation of zero is no negative integer.
    · have hzero : Text.digitsValue digits = 0 := by omega
      rw [hzero]
      rfl

/-- Digits behind a sign are read as the integer that they write, if it fits. -/
theorem readInt64_of_sign {negative : Bool} (hsign : takeSign t = (negative, digits))
    (hne : digits ≠ []) (h : ∀ b ∈ digits, Text.isDigit b = true) (hn : n =
      if negative then -(Text.digitsValue digits : Int) else Text.digitsValue digits)
    (hlow : -2 ^ 63 ≤ n) (hhigh : n < 2 ^ 63) : readInt64 t = .ok (Int64.ofInt n) := by
  have hall : digits.all Text.isDigit = true := List.all_eq_true.mpr h
  have hempty : digits.isEmpty = false := by simpa using hne
  have hfits : (decide (-(Nat.pow 2 63 : Int) ≤ n) && decide (n < Nat.pow 2 63)) = true :=
    Bool.and_eq_true_iff.mpr ⟨decide_eq_true hlow, decide_eq_true hhigh⟩
  unfold readInt64
  simp only [hsign, hall, hempty, Bool.not_true, Bool.or_self, Bool.false_eq_true, if_false, ← hn]
  rw [if_pos hfits]

/-- The literal of an integer is read as that integer where it fits. -/
theorem readInt64_written (h : Written t n) (hlow : -2 ^ 63 ≤ n) (hhigh : n < 2 ^ 63) :
    readInt64 t = .ok (Int64.ofInt n) := by
  cases h with
  | plain hne hdigits =>
    exact readInt64_of_sign (takeSign_digits hdigits) hne hdigits rfl hlow hhigh
  | @minus digits hne hdigits =>
    have hsign : takeSign (45 :: digits) = (true, digits) := rfl
    exact readInt64_of_sign hsign hne hdigits rfl hlow hhigh

end Mundart.Number
