import Mundart.Proofs.Number.Rank

/-!
# Integers as doubles

A double has room for 53 bits of an integer. What becomes of a longer one is said without doubles first
(`rounded`), and then found again in the doubles.

* **`rounded_le_rounded`**, **`rounded_of_le`** — rounding keeps the order and changes nothing up to
  `2 ^ 53`;
* **`roundedMantissa_shift`**, **`canonical_roundWithAccuracy`** — how a mantissa is cut and rounded;
* **`rank_ofInt64_lt_iff`**, **`ofInt64_beq_iff`** — integers as doubles are ordered like the rounded integers.
-/

namespace Mundart.Double

open Float.Model Float.Model.UnpackedFloat

/-! ## Rounding of integers

Nothing here mentions a double. A number of more than 53 bits goes to the nearest multiple of its spacing,
the distance that numbers of its size have; a shorter one has spacing one and stays. -/

/-- The integer nearest to a fraction, and of two equally near ones the even one. -/
def evenQuotient (n d : Nat) : Nat :=
  if 2 * (n % d) < d then n / d
  else if d < 2 * (n % d) then n / d + 1
  else n / d + n / d % 2

/-- The distance of two neighbours among the numbers of 53 significant bits. -/
def spacing (n : Nat) : Nat := Nat.pow 2 (n.log2 - 52)

/-- The number of at most 53 significant bits that is nearest to a number. -/
def roundedNat (n : Nat) : Nat := evenQuotient n (spacing n) * spacing n

/-- The integer of at most 53 significant bits that is nearest to an integer, found by its magnitude. -/
def rounded (n : Int) : Int := if n < 0 then -(roundedNat n.natAbs) else roundedNat n.natAbs

/-- Neighbours are apart. -/
theorem spacing_pos (n : Nat) : 0 < spacing n := Nat.two_pow_pos _

/-- Nothing is left over in a division by one. -/
theorem evenQuotient_one (n : Nat) : evenQuotient n 1 = n := by
  simp [evenQuotient, Nat.mod_one]

/-- The nearest integer is the quotient -/
theorem le_evenQuotient (n d : Nat) : n / d ≤ evenQuotient n d := by
  unfold evenQuotient
  split
  · omega
  · split
    · omega
    · omega

/-- The even quotient is at most one above the quotient. -/
theorem evenQuotient_le (n d : Nat) : evenQuotient n d ≤ n / d + 1 := by
  unfold evenQuotient
  split
  · omega
  · split
    · omega
    · omega

/-- A larger numerator has no smaller quotient. Only where both quotients start alike does what is left over
decide. -/
theorem evenQuotient_le_evenQuotient {n n' : Nat} (d : Nat) (h : n ≤ n') :
    evenQuotient n d ≤ evenQuotient n' d := by
  have hquotient : n / d ≤ n' / d := Nat.div_le_div_right h
  have hn := Nat.div_add_mod n d
  have hn' := Nat.div_add_mod n' d
  -- Different quotients are a whole step apart; equal ones are told apart by what is left over.
  rcases Nat.lt_or_eq_of_le hquotient with hlt | heq
  · exact (evenQuotient_le n d).trans (Nat.le_trans hlt (le_evenQuotient n' d))
  · have hrest : n % d ≤ n' % d := by
      rw [← heq] at hn'
      omega
    unfold evenQuotient
    rw [heq]
    grind

/-! ## Mantissas

The same rounding, seen from the bits: the mantissa has 53 of them for every number, and where it belongs is
said by the size of the number. So numbers can be compared as the doubles are, first by size and then by
mantissa. -/

/-- Zeros behind a number add to its size. -/
theorem log2_mul_two_pow {n : Nat} (hn : n ≠ 0) (k : Nat) : (n * 2 ^ k).log2 = n.log2 + k := by
  have hpos : 0 < 2 ^ k := Nat.two_pow_pos k
  rw [Nat.log2_eq_iff (Nat.mul_ne_zero hn hpos.ne'), Nat.pow_add, Nat.add_right_comm, Nat.pow_add]
  constructor
  · exact Nat.mul_le_mul_right _ (Nat.log2_self_le hn)
  · exact Nat.mul_lt_mul_of_pos_right Nat.lt_log2_self hpos

/-- The 53 bits of a rounded number, or one more where rounding carries through all of them. -/
def mantissa (n : Nat) : Nat := evenQuotient (n * 2 ^ (52 - n.log2)) (spacing n)

/-- A mantissa has 53 bits, or is the first number with one more. -/
theorem mantissa_bounds {n : Nat} (hn : n ≠ 0) : 2 ^ 52 ≤ mantissa n ∧ mantissa n ≤ 2 ^ 53 := by
  have hlow : 2 ^ n.log2 ≤ n := Nat.log2_self_le hn
  have hhigh : n < 2 * 2 ^ n.log2 := by
    rw [← Nat.pow_succ']
    exact Nat.lt_log2_self
  -- Scaling brings the leading bit to the place of the 53rd, counted in spacings.
  have hscale : 2 ^ n.log2 * 2 ^ (52 - n.log2) = 2 ^ 52 * spacing n := by
    show _ = 2 ^ 52 * 2 ^ (n.log2 - 52)
    rw [← Nat.pow_add, ← Nat.pow_add]
    congr 1
    omega
  have hquotient : 2 ^ 52 ≤ n * 2 ^ (52 - n.log2) / spacing n ∧
      n * 2 ^ (52 - n.log2) / spacing n < 2 ^ 53 := by
    constructor
    · rw [Nat.le_div_iff_mul_le (spacing_pos n), ← hscale]
      exact Nat.mul_le_mul_right _ hlow
    · rw [Nat.div_lt_iff_lt_mul (spacing_pos n)]
      calc n * 2 ^ (52 - n.log2) < 2 * 2 ^ n.log2 * 2 ^ (52 - n.log2) :=
            Nat.mul_lt_mul_of_pos_right hhigh (Nat.two_pow_pos _)
        _ = 2 ^ 53 * spacing n := by
          rw [Nat.mul_assoc, hscale, ← Nat.mul_assoc]
          rfl
  have hle := le_evenQuotient (n * 2 ^ (52 - n.log2)) (spacing n)
  have hge := evenQuotient_le (n * 2 ^ (52 - n.log2)) (spacing n)
  unfold mantissa
  omega

/-- A number of up to 53 bits has them all, a longer one is cut to them. -/
theorem mantissa_mul (n : Nat) : mantissa n * 2 ^ n.log2 = roundedNat n * 2 ^ 52 := by
  unfold mantissa roundedNat
  -- A short number is moved up, with nothing cut off; a long one is not moved, and its spacing is what is
  -- cut off.
  rcases Nat.le_total n.log2 52 with hle | hle
  · have hone : spacing n = 1 := by
      show 2 ^ (n.log2 - 52) = 1
      rw [Nat.sub_eq_zero_of_le hle]
      rfl
    rw [hone, evenQuotient_one, evenQuotient_one, Nat.mul_assoc, ← Nat.pow_add, Nat.mul_one,
      Nat.sub_add_cancel hle]
  · have hsplit : 2 ^ n.log2 = spacing n * 2 ^ 52 := by
      show _ = 2 ^ (n.log2 - 52) * 2 ^ 52
      rw [← Nat.pow_add, Nat.sub_add_cancel hle]
    rw [Nat.sub_eq_zero_of_le hle, Nat.pow_zero, Nat.mul_one, hsplit, Nat.mul_assoc]

/-- A common factor changes neither the quotient nor how what is left over compares. -/
theorem evenQuotient_mul_right (n d : Nat) {c : Nat} (hc : 0 < c) :
    evenQuotient (n * c) (d * c) = evenQuotient n d := by
  have hmod : 2 * (n * c % (d * c)) = 2 * (n % d) * c := by
    rw [Nat.mul_mod_mul_right, Nat.mul_assoc]
  unfold evenQuotient
  rw [hmod, Nat.mul_div_mul_right _ _ hc]
  simp only [Nat.mul_lt_mul_right hc]

/-- Zeros behind a number change its size and not its mantissa. -/
theorem mantissa_mul_two_pow {n : Nat} (hn : n ≠ 0) (k : Nat) : mantissa (n * 2 ^ k) = mantissa n := by
  have hnum : n * 2 ^ k * 2 ^ (52 - (n.log2 + k)) =
      n * 2 ^ (52 - n.log2) * 2 ^ (n.log2 + k - 52 - (n.log2 - 52)) := by
    rw [Nat.mul_assoc, Nat.mul_assoc, ← Nat.pow_add, ← Nat.pow_add]
    congr 2
    omega
  have hden : Nat.pow 2 (n.log2 + k - 52) =
      Nat.pow 2 (n.log2 - 52) * 2 ^ (n.log2 + k - 52 - (n.log2 - 52)) := by
    show 2 ^ _ = 2 ^ _ * 2 ^ _
    rw [← Nat.pow_add]
    congr 1
    omega
  unfold mantissa spacing
  rw [log2_mul_two_pow hn, hnum, hden, evenQuotient_mul_right _ _ (Nat.two_pow_pos _)]

/-- Two mantissas at different sizes: the lower one never comes after the higher one, and they meet only
where the lower one is full and the higher one is least. -/
theorem scaled_lt_of_pos {d m m' : Nat} (hd : 0 < d) (hm : 2 ^ 52 ≤ m ∧ m ≤ 2 ^ 53)
    (hm' : 2 ^ 52 ≤ m' ∧ m' ≤ 2 ^ 53) :
    (m < d * 2 ^ 52 + m' ↔ m < m' * 2 ^ d) ∧ ¬ d * 2 ^ 52 + m < m' ∧ ¬ m * 2 ^ d < m' := by
  -- Two sizes apart, nothing can meet any more.
  rcases Nat.lt_or_eq_of_le (Nat.succ_le_of_lt hd) with hlt | rfl
  · have hpow : 2 ^ 2 ≤ 2 ^ d := Nat.pow_le_pow_right (by omega) hlt
    have hlow := Nat.mul_le_mul_left m hpow
    have hhigh := Nat.mul_le_mul_left m' hpow
    omega
  · omega

/-- Mantissas at exponents are ordered like the numbers that they stand for: a full mantissa is one step
below the next exponent. -/
theorem scaled_lt_iff {k k' m m' : Nat} (hm : 2 ^ 52 ≤ m ∧ m ≤ 2 ^ 53)
    (hm' : 2 ^ 52 ≤ m' ∧ m' ≤ 2 ^ 53) :
    k * 2 ^ 52 + m < k' * 2 ^ 52 + m' ↔ m * 2 ^ k < m' * 2 ^ k' := by
  -- The larger exponent decides, unless a full mantissa stands below it.
  rcases Nat.lt_trichotomy k k' with hlt | rfl | hlt
  · obtain ⟨d, rfl⟩ := Nat.exists_eq_add_of_le hlt.le
    have hscale : m * 2 ^ k < m' * 2 ^ (k + d) ↔ m < m' * 2 ^ d := by
      rw [Nat.add_comm k d, Nat.pow_add, ← Nat.mul_assoc, Nat.mul_lt_mul_right (Nat.two_pow_pos k)]
    rw [hscale, ← (scaled_lt_of_pos (d := d) (by omega) hm hm').1, Nat.add_mul]
    omega
  · rw [Nat.mul_lt_mul_right (Nat.two_pow_pos k)]
    omega
  · obtain ⟨d, rfl⟩ := Nat.exists_eq_add_of_le hlt.le
    have hscale : m * 2 ^ (k' + d) < m' * 2 ^ k' ↔ m * 2 ^ d < m' := by
      rw [Nat.add_comm k' d, Nat.pow_add, ← Nat.mul_assoc, Nat.mul_lt_mul_right (Nat.two_pow_pos k')]
    have hnever := (scaled_lt_of_pos (d := d) (by omega) hm hm').2
    rw [hscale, Nat.add_mul]
    omega

/-- Nothing but zero is rounded to zero. -/
theorem roundedNat_pos {n : Nat} (hn : n ≠ 0) : 0 < roundedNat n := by
  have hbounds := mantissa_bounds hn
  have hmul := mantissa_mul n
  have hpos : 0 < mantissa n * 2 ^ n.log2 := Nat.mul_pos (by omega) (Nat.two_pow_pos _)
  omega

/-- The place of a rounded number among the doubles. -/
theorem scaled_lt_iff_roundedNat {n n' : Nat} (hn : n ≠ 0) (hn' : n' ≠ 0) :
    n.log2 * 2 ^ 52 + mantissa n < n'.log2 * 2 ^ 52 + mantissa n' ↔ roundedNat n < roundedNat n' := by
  rw [scaled_lt_iff (mantissa_bounds hn) (mantissa_bounds hn'), mantissa_mul, mantissa_mul]
  omega

/-- Zero stays zero. -/
theorem roundedNat_zero : roundedNat 0 = 0 := rfl

/-- Rounding keeps the order of natural numbers. -/
theorem roundedNat_le_roundedNat {n n' : Nat} (h : n ≤ n') : roundedNat n ≤ roundedNat n' := by
  rcases Nat.eq_zero_or_pos n with rfl | hn
  · rw [roundedNat_zero]
    omega
  have hlog : n.log2 ≤ n'.log2 := by
    rw [Nat.le_log2 (by omega)]
    exact (Nat.log2_self_le (by omega)).trans h
  -- If the order changed, the sizes would agree, and then the mantissas keep the order.
  by_contra hlt
  rw [Nat.not_le, ← scaled_lt_iff_roundedNat (by omega) (by omega)] at hlt
  have hbounds := mantissa_bounds (n := n) (by omega)
  have hbounds' := mantissa_bounds (n := n') (by omega)
  have hsame : n.log2 = n'.log2 := by omega
  have hle : mantissa n ≤ mantissa n' := by
    unfold mantissa spacing
    rw [hsame]
    exact evenQuotient_le_evenQuotient _ (Nat.mul_le_mul_right _ h)
  omega

/-- Numbers of up to 53 bits stay, and so does the first one with more. -/
theorem roundedNat_of_le {n : Nat} (h : n ≤ 2 ^ 53) : roundedNat n = n := by
  rcases Nat.lt_or_eq_of_le h with hlt | rfl
  · have hone : spacing n = 1 := by
      rcases Nat.eq_zero_or_pos n with rfl | hn
      · rfl
      have hlog : n.log2 < 53 := (Nat.log2_lt (by omega)).mpr hlt
      show 2 ^ (n.log2 - 52) = 1
      rw [Nat.sub_eq_zero_of_le (by omega)]
      rfl
    rw [roundedNat, hone, evenQuotient_one, Nat.mul_one]
  · decide +kernel

/-- Rounding keeps the order. -/
theorem rounded_le_rounded {a b : Int} (h : a ≤ b) : rounded a ≤ rounded b := by
  unfold rounded
  -- by the signs of the two integers
  split
  · split
    · have hle : roundedNat b.natAbs ≤ roundedNat a.natAbs := roundedNat_le_roundedNat (by omega)
      omega
    · omega
  · split
    · omega
    · have hle : roundedNat a.natAbs ≤ roundedNat b.natAbs := roundedNat_le_roundedNat (by omega)
      omega

/-- An integer with at most 53 bits is a double. -/
theorem rounded_of_le {n : Int} (h : n.natAbs ≤ 2 ^ 53) : rounded n = n := by
  unfold rounded
  rw [roundedNat_of_le h]
  split
  · omega
  · omega

/-! ## Cutting a mantissa

The arithmetic of doubles cuts bits off one by one, and keeps of them what rounding needs. All together they
are what is left over in a division by a power of two, so that cutting and rounding is the quotient above.
-/

/-- Cutting one more bit off is cutting one bit off what was cut. -/
theorem shiftRight_succ (em : ExtendedMantissa) (k : Nat) :
    em >>> (k + 1) = (em >>> k).shiftRightOne := rfl

/-- What is left of a mantissa after bits are cut off: the first of these is kept apart, and whether any
other one was set. -/
theorem shiftRight_eq (m k : Nat) :
    (⟨m, false, false⟩ : ExtendedMantissa) >>> k =
      ⟨m / 2 ^ k, decide (2 ^ k ≤ 2 * (m % 2 ^ k)),
        decide (m % 2 ^ k ≠ 0 ∧ 2 * (m % 2 ^ k) ≠ 2 ^ k)⟩ := by
  induction k with
  | zero =>
    show (⟨m, false, false⟩ : ExtendedMantissa) = _
    simp [Nat.mod_one]
  | succ k ih =>
    have hpos : 0 < 2 ^ k := Nat.two_pow_pos k
    have hrest : m % (2 ^ k * 2) = m % 2 ^ k + 2 ^ k * (m / 2 ^ k % 2) := Nat.mod_mul
    have hlt := Nat.mod_lt m hpos
    have hbit : m / 2 ^ k % 2 = 0 ∨ m / 2 ^ k % 2 = 1 := by omega
    rw [shiftRight_succ, ih, ExtendedMantissa.shiftRightOne, Nat.pow_succ, hrest, Nat.div_div_eq_div_mul]
    -- The bit that is cut next becomes the one that is kept apart, and the old one joins the others.
    rcases hbit with hbit | hbit
    · simp only [hbit, ExtendedMantissa.mk.injEq]
      grind
    · simp only [hbit, ExtendedMantissa.mk.injEq]
      grind

/-- Cutting off bits rounds to the nearest. -/
theorem roundedMantissa_shift (m k : Nat) :
    ((⟨m, false, false⟩ : ExtendedMantissa) >>> k).roundedMantissa = evenQuotient m (2 ^ k) := by
  have hlt := Nat.mod_lt m (Nat.two_pow_pos k)
  rw [shiftRight_eq, evenQuotient, ExtendedMantissa.roundedMantissa]
  -- below the middle, in the middle, or above it
  by_cases hround : 2 ^ k ≤ 2 * (m % 2 ^ k)
  · rw [if_neg (by omega)]
    by_cases htie : 2 * (m % 2 ^ k) = 2 ^ k
    · simp [ExtendedMantissa.accuracy, Accuracy.roundToNearestEven, htie]
    · rw [if_pos (by omega)]
      have hrest : m % 2 ^ k ≠ 0 := by omega
      simp [ExtendedMantissa.accuracy, Accuracy.roundToNearestEven, hround, htie, hrest]
  · rw [if_pos (by omega)]
    by_cases hrest : m % 2 ^ k = 0
    · simp [ExtendedMantissa.accuracy, Accuracy.roundToNearestEven, hrest]
    · have htie : 2 * (m % 2 ^ k) ≠ 2 ^ k := by omega
      simp [ExtendedMantissa.accuracy, Accuracy.roundToNearestEven, hround, hrest, htie]

/-- A mantissa of 53 bits or more is cut to 53, as long as the exponent is one of normal numbers. -/
theorem shiftToTargetExponent_eq {m : Nat} {e : Int} (hm : 52 ≤ m.log2) (he : -1074 ≤ e) :
    shiftToTargetExponent Format.binary64 m e .exact =
      ((⟨m, false, false⟩ : ExtendedMantissa) >>> (m.log2 - 52), e + ↑(m.log2 - 52)) := by
  have htarget : Format.binary64.targetExponent (totalExponent m e) = e + ↑(m.log2 - 52) := by
    show max (_ - 53) (-1074) = _
    unfold totalExponent
    omega
  rw [shiftToTargetExponent, shiftToExponent, htarget]
  simp [ExtendedMantissa.ofMantissaAndAccuracy]

/-- A long mantissa is rounded to 53 bits. Where all of them carry, it is cut once more, which is the next
place all the same. -/
theorem canonical_roundWithAccuracy {m : Nat} {e : Int} (hm : 52 ≤ m.log2) (he : -1074 ≤ e)
    (htop : e + ↑(m.log2 - 52) < 971) :
    Canonical (roundWithAccuracy Format.binary64 .positive m e .exact) ∧
      placed (roundWithAccuracy Format.binary64 .positive m e .exact) =
        (e + ↑(m.log2 - 52) + 1074) * 2 ^ 52 + mantissa m := by
  have hmantissa : evenQuotient m (2 ^ (m.log2 - 52)) = mantissa m := by
    rw [mantissa, Nat.sub_eq_zero_of_le hm, Nat.pow_zero, Nat.mul_one]
    rfl
  have hbounds : 2 ^ 52 ≤ mantissa m ∧ mantissa m ≤ 2 ^ 53 := by
    apply mantissa_bounds
    rintro rfl
    exact absurd hm (by decide)
  have hlog : 52 ≤ (mantissa m).log2 := (Nat.le_log2 (by omega)).mpr hbounds.1
  -- A full mantissa is cut a second time: it loses a zero, and its exponent grows by one.
  have hlast : Regular (mantissa m / 2 ^ ((mantissa m).log2 - 52))
        (e + ↑(m.log2 - 52) + ↑((mantissa m).log2 - 52)) ∧
      (e + ↑(m.log2 - 52) + ↑((mantissa m).log2 - 52) + 1074) * 2 ^ 52 +
          ((mantissa m / 2 ^ ((mantissa m).log2 - 52) : Nat) : Int) =
        (e + ↑(m.log2 - 52) + 1074) * 2 ^ 52 + mantissa m := by
    rcases Nat.lt_or_eq_of_le hbounds.2 with hlt | heq
    · have hless : (mantissa m).log2 < 53 := (Nat.log2_lt (by omega)).mpr hlt
      have hnone : (mantissa m).log2 - 52 = 0 := by omega
      rw [hnone, Nat.pow_zero, Nat.div_one]
      exact ⟨⟨by omega, .inr ⟨hbounds.1, hlt, by omega, by omega⟩⟩, by omega⟩
    · have hone : Nat.log2 (2 ^ 53) - 52 = 1 := by decide +kernel
      rw [heq, hone]
      exact ⟨⟨by omega, .inr ⟨by omega, by omega, by omega, by omega⟩⟩, by omega⟩
  unfold roundWithAccuracy
  simp only [shiftToTargetExponent_eq hm he, roundedMantissa_shift, hmantissa,
    shiftToTargetExponent_eq hlog (show -1074 ≤ e + ↑(m.log2 - 52) by omega)]
  simp only [shiftRight_eq]
  rw [dif_neg hlast.1.1.ne']
  exact hlast

/-! ## Integers

A 64-bit integer is far from overflow and from the small exponents, so that its double is its sign, its size
and its mantissa. -/

/-- The place of a natural number among the doubles. -/
def place (n : Nat) : Int := if n = 0 then 0 else (n.log2 + 1022) * 2 ^ 52 + mantissa n

/-- A positive number is scaled to 53 bits or more, then rounded. -/
theorem ofNat_eq {n : Nat} (hn : n ≠ 0) :
    UnpackedFloat.ofNat Format.binary64 n =
      roundWithAccuracy Format.binary64 .positive (n * 2 ^ (52 - n.log2)) (-↑(52 - n.log2)) .exact := by
  have hcompare : compare (n : Int) 0 = .gt := Int.compare_eq_gt.mpr (by omega)
  have hshift : (-Format.binary64.targetExponent (totalExponent n 0)).toNat = 52 - n.log2 := by
    show (-max (_ - 53) (-1074)).toNat = _
    unfold totalExponent
    omega
  rw [UnpackedFloat.ofNat, UnpackedFloat.ofInt, UnpackedFloat.normalize, hcompare]
  simp only [UnpackedFloat.round, decreaseExponent, Int.zero_sub, hshift, Int.toNat_natCast, Nat.shiftLeft_eq]

/-- A number that is scaled and rounded has its own place. -/
theorem canonical_scaled {n k : Nat} (hn : n ≠ 0) (hlog : n.log2 < 64) (hk : 52 ≤ n.log2 + k)
    (hk' : k ≤ 1074) {e : Int} (he : e = -k) :
    Canonical (roundWithAccuracy Format.binary64 .positive (n * 2 ^ k) e .exact) ∧
      placed (roundWithAccuracy Format.binary64 .positive (n * 2 ^ k) e .exact) = place n := by
  have hlog2 := log2_mul_two_pow hn k
  obtain ⟨hcanonical, hplaced⟩ := canonical_roundWithAccuracy (m := n * 2 ^ k) (e := e) (by omega)
    (by omega) (by omega)
  refine ⟨hcanonical, ?_⟩
  rw [hplaced, mantissa_mul_two_pow hn, hlog2, place, if_neg hn]
  omega

/-- A natural number of 64 bits gives a double at its place. -/
theorem canonical_ofNat {n : Nat} (h : n < 2 ^ 64) :
    Canonical (UnpackedFloat.ofNat Format.binary64 n) ∧
      placed (UnpackedFloat.ofNat Format.binary64 n) = place n := by
  by_cases hn : n = 0
  · subst hn
    exact ⟨trivial, rfl⟩
  · have hlog : n.log2 < 64 := (Nat.log2_lt hn).mpr h
    rw [ofNat_eq hn]
    exact canonical_scaled hn hlog (by omega) (by omega) rfl

/-- A natural number as a double. -/
theorem rank_toFloat {n : Nat} (h : n < 2 ^ 64) :
    rank n.toUInt64.toFloat = place n ∧ n.toUInt64.toFloat.isNaN = false := by
  have hnat : n.toUInt64.toNat = n := by
    rw [Nat.toUInt64_eq]
    exact UInt64.toNat_ofNat_of_lt' (by simp only [UInt64.size]; omega)
  have hfloat : n.toUInt64.toFloat = ⟨Float.Model.pack (UnpackedFloat.ofNat Format.binary64 n)⟩ := by
    show (⟨Float.Model.pack (UnpackedFloat.ofNat Format.binary64 n.toUInt64.toNat)⟩ : Float) = _
    rw [hnat]
  obtain ⟨hcanonical, hplaced⟩ := canonical_ofNat h
  rw [hfloat, ← hplaced]
  exact rank_pack hcanonical

/-- Places are ordered like the rounded numbers. -/
theorem place_lt_place_iff (n n' : Nat) : place n < place n' ↔ roundedNat n < roundedNat n' := by
  unfold place
  -- Zero has no size and is compared apart.
  by_cases hn : n = 0
  · by_cases hn' : n' = 0
    · simp [hn, hn']
    · have hpos := roundedNat_pos hn'
      rw [if_pos hn, if_neg hn', hn, roundedNat_zero]
      omega
  · by_cases hn' : n' = 0
    · rw [if_neg hn, if_pos hn', hn', roundedNat_zero]
      omega
    · have hiff := scaled_lt_iff_roundedNat hn hn'
      rw [if_neg hn, if_neg hn', ← hiff]
      omega

/-- Only what is rounded to zero is at the place of zero. -/
theorem place_pos_iff (n : Nat) : 0 < place n ↔ 0 < roundedNat n := place_lt_place_iff 0 n

/-- No natural number is below the place of zero. -/
theorem place_nonneg (n : Nat) : 0 ≤ place n := by
  unfold place
  split
  · omega
  · omega

/-- The place of an integer among the doubles. -/
theorem rank_ofInt64 (n : Int64) :
    rank (ofInt64 n) = (if n.toInt < 0 then -place n.toInt.natAbs else place n.toInt.natAbs) ∧
      (ofInt64 n).isNaN = false := by
  have hrange := n.toInt_lt
  have hrange' := n.le_toInt
  obtain ⟨hrank, hnumber⟩ := rank_toFloat (n := n.toInt.natAbs) (by omega)
  rw [ofInt64]
  -- Negative integers are converted without the sign, which is put back.
  split
  · obtain ⟨hneg, hnumber'⟩ := rank_neg hnumber
    rw [hneg, hrank]
    exact ⟨rfl, hnumber'⟩
  · exact ⟨hrank, hnumber⟩

/-- Integers as doubles are ordered like the rounded integers. -/
theorem rank_ofInt64_lt_iff (a b : Int64) :
    rank (ofInt64 a) < rank (ofInt64 b) ↔ rounded a.toInt < rounded b.toInt := by
  have hlt := place_lt_place_iff a.toInt.natAbs b.toInt.natAbs
  have hgt := place_lt_place_iff b.toInt.natAbs a.toInt.natAbs
  have ha := place_pos_iff a.toInt.natAbs
  have hb := place_pos_iff b.toInt.natAbs
  have hnonneg := place_nonneg a.toInt.natAbs
  have hnonneg' := place_nonneg b.toInt.natAbs
  rw [(rank_ofInt64 a).1, (rank_ofInt64 b).1, rounded, rounded]
  -- the signs of both integers decide which places are compared
  split
  · have hpos := roundedNat_pos (n := a.toInt.natAbs) (by omega)
    split
    · omega
    · omega
  · split
    · have hpos := roundedNat_pos (n := b.toInt.natAbs) (by omega)
      omega
    · omega

/-- Two integers are one double where rounding makes them the same. -/
theorem ofInt64_beq_iff (a b : Int64) :
    (ofInt64 a == ofInt64 b) = true ↔ rounded a.toInt = rounded b.toInt := by
  have hlt := rank_ofInt64_lt_iff a b
  have hgt := rank_ofInt64_lt_iff b a
  rw [beq_iff_rank (rank_ofInt64 a).2 (rank_ofInt64 b).2]
  omega

end Mundart.Double
