import Mathlib
import Mundart.Number.Double

/-!
# The order of doubles

Without its sign bit, the bits of a double read as an integer grow with the number that they stand for,
infinity included. With the sign put in front of that integer every double has a `rank`, and two doubles that
are no NaN compare like their ranks. So order and equality of doubles are those of integers.

* **`unpack_eq`** — what a double is, read off its fields;
* **`compare_placed`** — unpacked doubles compare like their ranks;
* **`lt_iff_rank`**, **`beq_iff_rank`** — so do doubles;
* **`rank_pack`**, **`rank_neg`** — the rank of a double that is put together, and of one that is negated.
-/

namespace Mundart.Double

open Float.Model Float.Model.UnpackedFloat

/-- The place of a double among all doubles, both zeros being at zero. -/
def rank (x : Float) : Int :=
  let place : Int := exponentBits x * Nat.pow 2 52 + fractionBits x
  if isNegative x then -place else place

/-! ## Fields

A double is three fields of bits. Reading them as numbers is what the order uses; that the library unpacks
the same fields is shown for each of them. -/

/-- The bits of a double. -/
def bits (x : Float) : BitVec Format.binary64.numBits := x.toModel.toBits.toBitVec

/-- The sign, which is that of the first bit. -/
def signOf (x : Float) : Sign := if isNegative x then .negative else .positive

/-- The fraction has 52 bits. -/
theorem fractionBits_lt (x : Float) : fractionBits x < 2 ^ 52 := Nat.mod_lt _ (by decide)

/-- The exponent has eleven bits. -/
theorem exponentBits_lt (x : Float) : exponentBits x < 2048 := Nat.mod_lt _ (by decide)

/-- The rank is the place with the sign applied to it. -/
theorem rank_eq_apply (x : Float) :
    rank x = (signOf x).apply (exponentBits x * 2 ^ 52 + fractionBits x) := by
  show (if isNegative x then _ else _) = _
  rw [signOf]
  split
  · rfl
  · rfl

/-- The mantissa that is unpacked is the fraction. -/
theorem unpackMantissa_bits (x : Float) : (unpackMantissa (bits x)).toNat = fractionBits x := by
  show _ = (bits x).toNat % 2 ^ 52
  simp [unpackMantissa, BitVec.extractLsb, BitVec.extractLsb'_toNat]

/-- The exponent that is unpacked is the field of that name. -/
theorem unpackExponent_bits (x : Float) : (unpackExponent (bits x)).toNat = exponentBits x := by
  show _ = (bits x).toNat / 2 ^ 52 % 2 ^ 11
  simp [unpackExponent, BitVec.extractLsb, BitVec.extractLsb'_toNat, Nat.shiftRight_eq_div_pow]

/-- The sign that is unpacked is the one of the first bit. -/
theorem unpackSign_bits (x : Float) : Sign.ofBitVec (unpackSign (bits x)) = signOf x := by
  have hlt : (bits x).toNat < 2 ^ 64 := (bits x).isLt
  have hsign : (unpackSign (bits x)).toNat = (bits x).toNat / 2 ^ 63 := by
    simp [unpackSign, BitVec.extractLsb, BitVec.extractLsb'_toNat, Nat.shiftRight_eq_div_pow]
    omega
  have hnegative : isNegative x = ((unpackSign (bits x)).toNat == 1) := by
    rw [hsign]
    rfl
  -- There are only two fields of one bit.
  have hbit : ∀ v : BitVec 1, v = 0#1 ∨ v = 1#1 := by decide
  rw [signOf, hnegative]
  rcases hbit (unpackSign (bits x)) with h | h
  · rw [h]
    rfl
  · rw [h]
    rfl

/-- The implicit bit stands in front of the fraction. -/
theorem toNat_one_append (v : BitVec 52) : (1#1 ++ v).toNat = 2 ^ 52 + v.toNat := by
  rw [BitVec.toNat_append, ← Nat.shiftLeft_add_eq_or_of_lt v.isLt]
  rfl

/-- What a double is, read off its fields. -/
theorem unpack_eq (x : Float) :
    x.toModel.unpack =
      if exponentBits x = 2047 then
        if fractionBits x = 0 then .infinity (signOf x) else .notANumber
      else if exponentBits x = 0 then
        if h : fractionBits x = 0 then .zero (signOf x)
        else .finite (signOf x) (fractionBits x) (-1074) (Nat.pos_of_ne_zero h)
      else .finite (signOf x) (2 ^ 52 + fractionBits x) (exponentBits x - 1075) (by omega) := by
  have hfraction := unpackMantissa_bits x
  have hexponent := unpackExponent_bits x
  have hmantissa := toNat_one_append (unpackMantissa (bits x))
  have hbias : ((Format.binary64.exponentBias : Nat) : Int) = 1023 := rfl
  show UnpackedFloat.unpack Format.binary64 (bits x) = _
  unfold UnpackedFloat.unpack
  simp only [← BitVec.toNat_inj, unpackSign_bits, hexponent, hfraction, hmantissa, hbias]
  -- The cases of both sides are the same, once the fields are those of the numbers.
  grind

/-! ## Unpacked doubles

Each double other than a NaN has an unpacked form in which exponent and mantissa compare one after the
other. In the rank they stand in one integer, the exponent above the mantissa. -/

/-- A mantissa and an exponent as they are unpacked: those of a subnormal double, or a mantissa that has all
its 53 bits. -/
def Regular (m : Nat) (e : Int) : Prop :=
  0 < m ∧ ((e = -1074 ∧ m < 2 ^ 52) ∨ (2 ^ 52 ≤ m ∧ m < 2 ^ 53 ∧ -1074 ≤ e ∧ e ≤ 971))

/-- The rank of an unpacked double. -/
def placed : UnpackedFloat → Int
  | .infinity s => s.apply (2047 * 2 ^ 52)
  | .finite s m e _ => s.apply ((e + 1074) * 2 ^ 52 + m)
  | .zero _ | .notANumber => 0

/-- The doubles that are numbers, as they are unpacked. -/
def Canonical : UnpackedFloat → Prop
  | .notANumber => False
  | .finite _ m e _ => Regular m e
  | .infinity _ | .zero _ => True

namespace Regular

variable {m m' : Nat} {e e' : Int}

/-- A regular double is above zero. -/
theorem pos (h : Regular m e) : 0 < (e + 1074) * 2 ^ 52 + (m : Int) := by
  unfold Regular at h
  omega

/-- A regular double is below infinity. -/
theorem lt_infinity (h : Regular m e) : (e + 1074) * 2 ^ 52 + (m : Int) < 2047 * 2 ^ 52 := by
  unfold Regular at h
  omega

/-- A larger exponent outweighs every mantissa. -/
theorem compare_eq (h : Regular m e) (h' : Regular m' e') :
    (compare e e').then (compare m m') =
      compare ((e + 1074) * 2 ^ 52 + (m : Int)) ((e' + 1074) * 2 ^ 52 + (m' : Int)) := by
  unfold Regular at h h'
  -- With different exponents the mantissas do not matter, as none fills a whole exponent.
  rcases Int.lt_trichotomy e e' with he | rfl | he
  · rw [Int.compare_eq_lt.mpr he, Int.compare_eq_lt.mpr (by omega)]
    rfl
  · rw [Int.compare_eq_eq.mpr rfl]
    rcases Nat.lt_trichotomy m m' with hm | rfl | hm
    · rw [Nat.compare_eq_lt.mpr hm, Int.compare_eq_lt.mpr (by omega)]
      rfl
    · rw [Nat.compare_eq_eq.mpr rfl, Int.compare_eq_eq.mpr rfl]
      rfl
    · rw [Nat.compare_eq_gt.mpr hm, Int.compare_eq_gt.mpr (by omega)]
      rfl
  · rw [Int.compare_eq_gt.mpr he, Int.compare_eq_gt.mpr (by omega)]
    rfl

end Regular

/-- The order of negated integers is turned around. -/
theorem compare_neg (a b : Int) : compare (-a) (-b) = (compare a b).swap := by
  rcases Int.lt_trichotomy a b with h | rfl | h
  · rw [Int.compare_eq_lt.mpr h, Int.compare_eq_gt.mpr (by omega)]
    rfl
  · rw [Int.compare_eq_eq.mpr rfl, Int.compare_eq_eq.mpr rfl]
    rfl
  · rw [Int.compare_eq_gt.mpr h, Int.compare_eq_lt.mpr (by omega)]
    rfl

/-- Where a comparison is known to be less it is that of the integers. -/
theorem some_lt {a b : Int} (h : a < b) : some .lt = some (compare a b) := by
  rw [Int.compare_eq_lt.mpr h]

/-- Where a comparison is known to be greater it is that of the integers. -/
theorem some_gt {a b : Int} (h : b < a) : some .gt = some (compare a b) := by
  rw [Int.compare_eq_gt.mpr h]

/-- Unpacked doubles compare like their ranks. -/
theorem compare_placed {a b : UnpackedFloat} (ha : Canonical a) (hb : Canonical b) :
    a.compare b = some (compare (placed a) (placed b)) := by
  -- By the two forms. Only for two finite doubles of one sign does anything beyond the signs decide.
  cases a with
  | notANumber => exact ha.elim
  | infinity s =>
    cases b with
    | notANumber => exact hb.elim
    | infinity t => cases s <;> cases t <;> rfl
    | zero t => cases s <;> rfl
    | finite t m e hm =>
      have hpos := Regular.pos hb
      have hlt := Regular.lt_infinity hb
      cases s with
      | negative => exact some_lt (by cases t <;> simp only [placed, Sign.apply] <;> omega)
      | positive => exact some_gt (by cases t <;> simp only [placed, Sign.apply] <;> omega)
  | zero s =>
    cases b with
    | notANumber => exact hb.elim
    | infinity t => cases t <;> rfl
    | zero t => rfl
    | finite t m e hm =>
      have hpos := Regular.pos hb
      cases t with
      | negative => exact some_gt (Int.neg_neg_of_pos hpos)
      | positive => exact some_lt hpos
  | finite s m e hm =>
    have hpos := Regular.pos ha
    have hlt := Regular.lt_infinity ha
    cases b with
    | notANumber => exact hb.elim
    | infinity t =>
      cases t with
      | negative => exact some_gt (by cases s <;> simp only [placed, Sign.apply] <;> omega)
      | positive => exact some_lt (by cases s <;> simp only [placed, Sign.apply] <;> omega)
    | zero t =>
      cases s with
      | negative => exact some_lt (Int.neg_neg_of_pos hpos)
      | positive => exact some_gt hpos
    | finite t m' e' hm' =>
      have hpos' := Regular.pos hb
      have hcompare := Regular.compare_eq ha hb
      cases s with
      | negative =>
        cases t with
        | negative =>
          show some ((compare e e').then (compare m m')).swap = _
          rw [hcompare, ← compare_neg]
          rfl
        | positive => exact some_lt (by simp only [placed, Sign.apply]; omega)
      | positive =>
        cases t with
        | negative => exact some_gt (by simp only [placed, Sign.apply]; omega)
        | positive =>
          show some ((compare e e').then (compare m m')) = _
          rw [hcompare]
          rfl

/-! ## Doubles

Comparing is defined on unpacked doubles, so that order and equality follow from the above. A NaN compares
with nothing, which makes equality the one of ranks where both are numbers and empty elsewhere. -/

/-- A double that is no NaN is unpacked to a canonical one of the same rank. -/
theorem canonical_unpack {x : Float} (hx : x.isNaN = false) :
    Canonical x.toModel.unpack ∧ rank x = placed x.toModel.unpack := by
  have hfraction := fractionBits_lt x
  have hexponent := exponentBits_lt x
  change x.toModel.unpack.isNaN = false at hx
  rw [rank_eq_apply]
  rw [unpack_eq] at hx ⊢
  -- the exponent kept for infinity and NaNs, the one kept for zero and subnormal doubles, and all others
  by_cases hspecial : exponentBits x = 2047
  · rw [if_pos hspecial] at hx ⊢
    by_cases hzero : fractionBits x = 0
    · rw [if_pos hzero, hspecial, hzero]
      exact ⟨trivial, rfl⟩
    · rw [if_neg hzero] at hx
      exact nomatch hx
  · rw [if_neg hspecial]
    by_cases hsmall : exponentBits x = 0
    · rw [if_pos hsmall]
      by_cases hzero : fractionBits x = 0
      · rw [dif_pos hzero, hsmall, hzero]
        refine ⟨trivial, ?_⟩
        cases signOf x <;> rfl
      · rw [dif_neg hzero, hsmall]
        exact ⟨⟨Nat.pos_of_ne_zero hzero, .inl ⟨rfl, hfraction⟩⟩, rfl⟩
    · rw [if_neg hsmall]
      refine ⟨⟨by omega, .inr ⟨by omega, by omega, by omega, by omega⟩⟩, ?_⟩
      show _ = (signOf x).apply _
      congr 1
      push_cast
      omega

/-- Two numbers compare like their ranks. -/
theorem compare_rank {a b : Float} (ha : a.isNaN = false) (hb : b.isNaN = false) :
    a.toModel.unpack.compare b.toModel.unpack = some (compare (rank a) (rank b)) := by
  obtain ⟨hca, hra⟩ := canonical_unpack ha
  obtain ⟨hcb, hrb⟩ := canonical_unpack hb
  rw [hra, hrb]
  exact compare_placed hca hcb

/-- Doubles that are no NaN are ordered like their ranks. -/
theorem lt_iff_rank {a b : Float} (ha : a.isNaN = false) (hb : b.isNaN = false) :
    a < b ↔ rank a < rank b := by
  have hlt : a < b ↔ (a.toModel.unpack.compare b.toModel.unpack == some .lt) = true := by
    show decide (a.toModel < b.toModel) = true ↔ _
    rw [decide_eq_true_iff]
    exact Iff.rfl
  rw [hlt, compare_rank ha hb]
  simp [Int.compare_eq_lt]

/-- Equality asks for the comparison to be equal. -/
theorem beq_iff_compare (a b : Float) :
    (a == b) = true ↔ a.toModel.unpack.compare b.toModel.unpack = some .eq := by
  show (a.toModel.unpack.compare b.toModel.unpack == some .eq) = true ↔ _
  rw [beq_iff_eq]

/-- Doubles that are no NaN are equal where their ranks are. -/
theorem beq_iff_rank {a b : Float} (ha : a.isNaN = false) (hb : b.isNaN = false) :
    (a == b) = true ↔ rank a = rank b := by
  rw [beq_iff_compare, compare_rank ha hb, Option.some_inj, Int.compare_eq_eq]

/-- Nothing equals a NaN. -/
theorem isNaN_of_beq {a b : Float} (h : (a == b) = true) : a.isNaN = false ∧ b.isNaN = false := by
  rw [beq_iff_compare] at h
  show a.toModel.unpack.isNaN = false ∧ b.toModel.unpack.isNaN = false
  -- The comparison with a NaN has no answer on either side.
  cases ha : a.toModel.unpack with
  | notANumber =>
    rw [ha] at h
    exact nomatch h
  | _ =>
    cases hb : b.toModel.unpack with
    | notANumber =>
      rw [ha, hb] at h
      exact nomatch h
    | _ => exact ⟨rfl, rfl⟩

/-- So a double equals itself if it is a number. -/
theorem beq_self_iff (a : Float) : (a == a) = true ↔ a.isNaN = false :=
  ⟨fun h => (isNaN_of_beq h).1, fun h => (beq_iff_rank h h).mpr rfl⟩

/-- Equality of doubles holds in both directions. -/
theorem beq_symm {a b : Float} (h : (a == b) = true) : (b == a) = true := by
  obtain ⟨ha, hb⟩ := isNaN_of_beq h
  rw [beq_iff_rank ha hb] at h
  exact (beq_iff_rank hb ha).mpr h.symm

/-- Equality of doubles closes chains, as that of ranks does. There is no NaN in them. -/
theorem beq_trans {a b c : Float} (hab : (a == b) = true) (hbc : (b == c) = true) : (a == c) = true := by
  obtain ⟨ha, hb⟩ := isNaN_of_beq hab
  obtain ⟨-, hc⟩ := isNaN_of_beq hbc
  rw [beq_iff_rank ha hb] at hab
  rw [beq_iff_rank hb hc] at hbc
  exact (beq_iff_rank ha hc).mpr (hab.trans hbc)

/-! ## Doubles that are put together

The way back: from a canonical form to bits. The fields are read again as above, so that nothing about the
bits themselves is needed. -/

/-- A NaN has the largest exponent and some fraction. -/
theorem isNaN_iff (x : Float) : x.isNaN = true ↔ exponentBits x = 2047 ∧ fractionBits x ≠ 0 := by
  show x.toModel.unpack.isNaN = true ↔ _
  rw [unpack_eq]
  grind [UnpackedFloat.isNaN]

/-- The sign is read back from where it was put. -/
theorem unpackSign_packComponents {s : Sign} {e : BitVec 11} {m : BitVec 52} :
    Sign.ofBitVec (unpackSign (packComponents Format.binary64 s e m)) = s := by
  simp only [unpackSign, packComponents, BitVec.extractLsb]
  rw [BitVec.extractLsb'_append_eq_of_le (by omega), BitVec.extractLsb'_append_eq_of_le (by omega)]
  cases s <;> rfl

/-- A double with given fields that is no NaN. -/
theorem rank_of_bits {x : Float} {s : Sign} {e : BitVec 11} {m : BitVec 52}
    (hx : bits x = packComponents Format.binary64 s e m) (hnumber : e.toNat = 2047 → m.toNat = 0) :
    rank x = s.apply (e.toNat * 2 ^ 52 + m.toNat) ∧ x.isNaN = false := by
  have hsign : signOf x = s := by
    rw [← unpackSign_bits, hx, unpackSign_packComponents]
  have hexponent : exponentBits x = e.toNat := by
    rw [← unpackExponent_bits, hx, unpackExponent_packComponents]
  have hfraction : fractionBits x = m.toNat := by
    rw [← unpackMantissa_bits, hx, unpackMantissa_packComponents]
  constructor
  · rw [rank_eq_apply, hsign, hexponent, hfraction]
  · rw [← Bool.not_eq_true, isNaN_iff, hexponent, hfraction]
    exact fun h => h.2 (hnumber h.1)

/-- The fields of a finite double. A full mantissa leaves out its first bit; one that is not full has the least
exponent. -/
theorem pack_finite {s : Sign} {m : Nat} {e : Int} {hm : 0 < m} (h : Regular m e) :
    ∃ (f : BitVec 11) (g : BitVec 52),
      UnpackedFloat.pack Format.binary64 (.finite s m e hm) = packComponents Format.binary64 s f g ∧
      (f.toNat = 2047 → g.toNat = 0) ∧ f.toNat * 2 ^ 52 + g.toNat = (e + 1074) * 2 ^ 52 + m := by
  unfold Regular at h
  have hstored : (e + Format.binary64.exponentBias + Format.binary64.mantissaBitsWithoutImplicit).toNat
      = (e + 1075).toNat := by
    show (e + 1023 + 52).toNat = _
    omega
  have hfinite : ¬ 2 ^ Format.binary64.exponentBits ≤ (e + 1075).toNat + 1 := by
    show ¬ 2048 ≤ _
    omega
  rw [UnpackedFloat.pack, hstored, if_neg hfinite]
  -- Only with all of its bits has the mantissa a first one that is left out.
  by_cases hfull : 2 ^ 52 ≤ m
  · have hlog : m.log2 + 1 = Format.binary64.mantissaBits := by
      show m.log2 + 1 = 53
      have hlow := (Nat.le_log2 (by omega)).mpr hfull
      have hhigh := (Nat.log2_lt (n := m) (k := 53) (by omega)).mpr (by omega)
      omega
    have hexponent : (BitVec.ofNat 11 (e + 1075).toNat).toNat = (e + 1075).toNat := by
      rw [BitVec.toNat_ofNat]
      omega
    have hfraction : (BitVec.ofNat 52 m).toNat = m - 2 ^ 52 := by
      rw [BitVec.toNat_ofNat]
      omega
    exact ⟨BitVec.ofNat 11 (e + 1075).toNat, BitVec.ofNat 52 m, if_pos hlog, by omega, by omega⟩
  · have hlog : m.log2 + 1 ≠ Format.binary64.mantissaBits := by
      show m.log2 + 1 ≠ 53
      have hlow := (Nat.log2_lt (n := m) (k := 52) (by omega)).mpr (by omega)
      omega
    have hexponent : (0#11).toNat = 0 := rfl
    have hfraction : (BitVec.ofNat 52 m).toNat = m := by
      rw [BitVec.toNat_ofNat]
      omega
    exact ⟨0#11, BitVec.ofNat 52 m, if_neg hlog, by omega, by omega⟩

/-- A canonical double is put together to one of its rank. -/
theorem rank_pack {u : UnpackedFloat} (hu : Canonical u) :
    rank ⟨Float.Model.pack u⟩ = placed u ∧ Float.isNaN ⟨Float.Model.pack u⟩ = false := by
  have hbits : bits ⟨Float.Model.pack u⟩ = UnpackedFloat.pack Format.binary64 u := rfl
  -- The largest exponent is kept for infinity, which has no fraction.
  cases u with
  | notANumber => exact hu.elim
  | infinity s =>
    obtain ⟨hrank, hnumber⟩ := rank_of_bits (e := 2047#11) (m := 0#52) hbits (fun _ => rfl)
    refine ⟨?_, hnumber⟩
    rw [hrank]
    rfl
  | zero s =>
    obtain ⟨hrank, hnumber⟩ := rank_of_bits (e := 0#11) (m := 0#52) hbits (fun _ => rfl)
    refine ⟨?_, hnumber⟩
    rw [hrank]
    cases s <;> simp [placed, Sign.apply]
  | finite s m e hm =>
    obtain ⟨f, g, hfields, hquiet, hplace⟩ := pack_finite (s := s) hu
    obtain ⟨hrank, hnumber⟩ := rank_of_bits (hbits.trans hfields) hquiet
    refine ⟨?_, hnumber⟩
    rw [hrank, hplace]
    rfl

/-- Negating turns the rank around. -/
theorem canonical_neg {u : UnpackedFloat} (hu : Canonical u) :
    Canonical u.neg ∧ placed u.neg = -placed u := by
  cases u with
  | notANumber => exact hu.elim
  | zero s => exact ⟨trivial, rfl⟩
  | infinity s =>
    refine ⟨trivial, ?_⟩
    cases s with
    | negative => exact (Int.neg_neg _).symm
    | positive => rfl
  | finite s m e hm =>
    refine ⟨hu, ?_⟩
    cases s with
    | negative => exact (Int.neg_neg _).symm
    | positive => rfl

/-- The negative of a double. -/
theorem rank_neg {x : Float} (hx : x.isNaN = false) : rank (-x) = -rank x ∧ (-x).isNaN = false := by
  obtain ⟨hcanonical, hrank⟩ := canonical_unpack hx
  obtain ⟨hneg, hplaced⟩ := canonical_neg hcanonical
  rw [hrank, ← hplaced]
  exact rank_pack hneg

end Mundart.Double
