import Mundart.Number.Layout
import Mundart.Proofs.Json.RoundTrip

/-!
# Doubles as JSON

Both layouts of a decimal are literals of JSON numbers: neither starts with a needless zero, and digits stand
on both sides of a point.

* **`unsigned_positional`**, **`unsigned_scientific`** — the layouts of a decimal;
* **`numeral_of_json?`** — what a double is written as is the literal of a number;
* **`json?_eq_none_iff`** — only infinities and NaN are not written.
-/

namespace Mundart

namespace Json

open Mundart.Text (isDigit_of_mem_ofNat head?_ofNat)

/-- The literal of a number without its sign. -/
def Unsigned (t : Text) : Prop :=
  ∃ whole fraction exponent, Whole whole ∧ Fraction fraction ∧ Exponent exponent ∧
    t = whole ++ fraction ++ exponent

/-- A sign may be put in front. -/
theorem Unsigned.numeral {t sign : Text} (h : Unsigned t) (hsign : sign = [] ∨ sign = [45]) :
    Numeral (sign ++ t) := by
  obtain ⟨whole, fraction, exponent, hwhole, hfraction, hexponent, rfl⟩ := h
  rw [← List.append_assoc, ← List.append_assoc]
  exact .mk hsign hwhole hfraction hexponent

/-- A whole number needs no point. -/
theorem unsigned_whole {t : Text} (h : Whole t) : Unsigned t :=
  ⟨t, [], [], h, .inl rfl, .inl rfl, by rw [List.append_nil, List.append_nil]⟩

/-- A number with a point needs digits behind it. -/
theorem unsigned_point {whole ds : Text} (hwhole : Whole whole) (hds : Digits ds) :
    Unsigned (whole ++ 46 :: ds) :=
  ⟨whole, 46 :: ds, [], hwhole, .inr ⟨ds, hds, rfl⟩, .inl rfl, (List.append_nil _).symm⟩

/-- Digits may stand in front of digits. -/
theorem Digits.append {s t : Text} (hs : ∀ b ∈ s, Text.isDigit b = true) (ht : Digits t) :
    Digits (s ++ t) := by
  refine ⟨fun h => ht.1 (List.append_eq_nil_iff.mp h).2, fun b hb => ?_⟩
  exact (List.mem_append.mp hb).elim (hs b) (ht.2 b)

/-- The start of a text of digits. -/
theorem Digits.take {ds : Text} (h : Digits ds) {n : Nat} (hn : 0 < n) : Digits (ds.take n) := by
  refine ⟨fun hnil => ?_, fun b hb => h.2 b (List.mem_of_mem_take hb)⟩
  obtain hzero | hzero := List.take_eq_nil_iff.mp hnil
  · omega
  · exact h.1 hzero

/-- Some digits may be left out as long as one is left. -/
theorem Digits.drop {ds : Text} (h : Digits ds) {n : Nat} (hn : n < ds.length) : Digits (ds.drop n) :=
  ⟨fun hnil => Nat.not_le_of_lt hn (List.drop_eq_nil_iff.mp hnil),
    fun b hb => h.2 b (List.mem_of_mem_drop hb)⟩

/-- Zeros are digits. -/
theorem isDigit_of_mem_zeros {n : Int} : ∀ b ∈ Decimal.zeros n, Text.isDigit b = true := by
  intro b hb
  rw [List.eq_of_mem_replicate hb]
  rfl

/-- A number other than zero starts with another digit, however many of its digits are taken. -/
theorem whole_take_ofNat {n k : Nat} (hn : n ≠ 0) (hk : 0 < k) : Whole ((Text.ofNat n).take k) := by
  refine ⟨(digits_ofNat n).take hk, .inr ?_⟩
  rw [List.head?_take, if_neg (by omega)]
  exact head?_ofNat hn

/-- A double written with all of its places is a number of JSON. -/
theorem unsigned_positional (d : Decimal) : Unsigned d.positional := by
  have hdigits := digits_ofNat d.digits
  unfold Decimal.positional
  dsimp only
  split_ifs with hzero hsmall hlarge
  · exact unsigned_whole (whole_ofNat 0)
  · have hzeros : Digits (Decimal.zeros (-d.point) ++ Text.ofNat d.digits) :=
      .append isDigit_of_mem_zeros hdigits
    rw [List.append_assoc]
    exact unsigned_point (whole_ofNat 0) hzeros
  · -- Zeros behind the digits fill the places up to the point.
    have hne : Text.ofNat d.digits ++ Decimal.zeros (d.point - (Text.ofNat d.digits).length) ≠ [] :=
      fun h => hdigits.1 (List.append_eq_nil_iff.mp h).1
    refine unsigned_whole ⟨⟨hne, fun b hb => ?_⟩, .inr ?_⟩
    · exact (List.mem_append.mp hb).elim (hdigits.2 b) (isDigit_of_mem_zeros b)
    · rw [List.head?_append, Option.or_of_isSome (List.isSome_head?.mpr hdigits.1)]
      exact head?_ofNat hzero
  · rw [List.append_assoc]
    exact unsigned_point (whole_take_ofNat hzero (by omega)) (hdigits.drop (by omega))

/-- A double written with an exponent is a number of JSON. -/
theorem unsigned_scientific {d : Decimal} (hd : d.digits ≠ 0) : Unsigned d.scientific := by
  have hexponent (e : Int) :
      Exponent (utf8 "e" ++ ((if e < 0 then utf8 "-" else "+") ++ Text.ofNat e.natAbs)) := by
    right
    split
    · exact ⟨45, _, .inr rfl, digits_ofNat _, rfl⟩
    · exact ⟨43, _, .inl rfl, digits_ofNat _, rfl⟩
  have hfraction : Fraction (if (Text.ofNat d.digits).length ≤ 1 then []
      else utf8 "." ++ (Text.ofNat d.digits).drop 1) := by
    split
    · exact .inl rfl
    · next hlong => exact .inr ⟨_, (digits_ofNat d.digits).drop (Nat.not_le.mp hlong), rfl⟩
  refine ⟨_, _, _, whole_take_ofNat hd Nat.one_pos, hfraction, hexponent (d.point - 1), ?_⟩
  unfold Decimal.scientific
  dsimp only
  simp only [List.append_assoc]

end Json

namespace Double

/-- What a double is written as is the literal of a number. -/
theorem numeral_of_json? {x : Float} {t : Text} (h : json? x = some t) : Json.Numeral t := by
  have hsign : sign x = [] ∨ sign x = [45] := by
    unfold sign
    split
    · exact .inr rfl
    · exact .inl rfl
  unfold json? at h
  split at h
  · exact nomatch h
  · dsimp only at h
    obtain rfl := Option.some.inj h
    refine Json.Unsigned.numeral ?_ hsign
    split
    · next hscientific =>
      simp only [ne_eq, Bool.and_eq_true, decide_eq_true_eq] at hscientific
      exact Json.unsigned_scientific hscientific.1
    · exact Json.unsigned_positional _

/-- Only infinities and NaN are not written. -/
theorem json?_eq_none_iff (x : Float) : json? x = none ↔ x.isNaN = true ∨ x.isInf = true := by
  unfold json? special?
  cases hnan : x.isNaN with
  | true => simp
  | false =>
    cases hinf : x.isInf with
    | true => simp
    | false => simp

end Double

end Mundart
