import Mathlib.Data.List.TakeDrop
import Mathlib.Data.List.TakeWhile
import Mundart.Http.Message
import Mundart.Url.Percent

/-!
# Fields that carry any text

Every text can be a field of a query: written with percent signs throughout, it holds none of the signs at
which a target is cut, and it is read back.

* **`cut_append`**, **`splitOn_of_notMem`** — cutting a text at a sign that stands in it once, or nowhere;
* **`decodeField_encodeField`** — an encoded text is read back;
* **`Request.query_field`** — a target with one encoded field has that field as its query.
-/

namespace Mundart

/-! ## Cutting texts

A target is cut at its separators, and a separator that is not there cuts nothing. So a text without one
comes out whole. -/

namespace Text

variable {sep : UInt8} {t : Text}

/-- Without a separator there is nothing behind it. -/
theorem cut_of_notMem (h : sep ∉ t) : cut sep t = (t, none) := by
  have hkeep : ∀ b ∈ t, (b != sep) = true := fun b hb => bne_iff_ne.mpr fun heq => h (heq ▸ hb)
  unfold cut
  rw [List.span_eq_takeWhile_dropWhile, List.takeWhile_eq_self_iff.mpr hkeep,
    List.dropWhile_eq_nil_iff.mpr hkeep]

/-- A text is cut at the first separator. -/
theorem cut_append (h : sep ∉ t) (rest : Text) : cut sep (t ++ sep :: rest) = (t, some rest) := by
  have hkeep : ∀ b ∈ t, (b != sep) = true := fun b hb => bne_iff_ne.mpr fun heq => h (heq ▸ hb)
  unfold cut
  rw [List.span_eq_takeWhile_dropWhile, List.takeWhile_append_of_pos hkeep,
    List.dropWhile_append_of_pos hkeep, List.takeWhile_cons_of_neg (by simp),
    List.dropWhile_cons_of_neg (by simp), List.append_nil]

/-- What is left without a separator is one piece more. -/
theorem splitFrom_of_notMem (pieces : List Text) (h : sep ∉ t) : ∀ piece : Text,
    splitFrom sep piece pieces t = ((piece.reverse ++ t) :: pieces).reverse := by
  induction t with
  | nil =>
    intro piece
    rw [splitFrom, List.append_nil]
  | cons b t ih =>
    intro piece
    rw [List.mem_cons, not_or] at h
    have hb : ¬ (b == sep) = true := by simpa using Ne.symm h.1
    have hpiece : (b :: piece).reverse ++ t = piece.reverse ++ b :: t := by
      rw [List.reverse_cons, List.append_assoc, List.singleton_append]
    rw [splitFrom, if_neg hb, ih h.2, hpiece]

/-- So a text without separators is one piece. -/
theorem splitOn_of_notMem (h : sep ∉ t) : splitOn sep t = [t] := splitFrom_of_notMem [] h []

end Text

namespace Http

open Url (upperHexDigit)

/-! ## Encoded fields

Encoding leaves letters and digits and writes every other byte with two digits. None of the separators is
among the bytes that it leaves. -/

/-- A text with all its bytes in percent signs and hexadecimal digits. -/
def encodeField (t : Text) : Text :=
  t.flatMap fun b => [ascii '%', upperHexDigit (b.toNat / 16), upperHexDigit (b.toNat % 16)]

/-- A digit is read as what it writes. -/
theorem hexValue?_upperHexDigit : ∀ n < 16, Text.hexValue? (upperHexDigit n) = some n := by
  decide

/-- An encoded text is read back, whatever follows it. -/
theorem decodeField_encodeField (t rest : Text) :
    decodeField (encodeField t ++ rest) = t ++ decodeField rest := by
  induction t with
  | nil => rfl
  | cons b t ih =>
    have hbyte : b.toNat < 256 := b.toNat_lt
    have hhigh := hexValue?_upperHexDigit (b.toNat / 16) (by omega)
    have hlow := hexValue?_upperHexDigit (b.toNat % 16) (by omega)
    have hvalue : (b.toNat / 16 * 16 + b.toNat % 16).toUInt8 = b := by
      rw [Nat.div_add_mod', Nat.toUInt8_eq, UInt8.ofNat_toNat]
    show decodeField (ascii '%' :: upperHexDigit (b.toNat / 16) :: upperHexDigit (b.toNat % 16) ::
      (encodeField t ++ rest)) = _
    rw [decodeField, if_pos (by rfl), hhigh, hlow]
    dsimp only
    rw [hvalue, ih]
    rfl

/-- A sign that is no hexadecimal digit and no percent sign does not stand in an encoded text. -/
theorem notMem_encodeField {sign : UInt8} (hpercent : sign ≠ ascii '%')
    (hdigits : ∀ n < 16, sign ≠ upperHexDigit n) (t : Text) : sign ∉ encodeField t := by
  intro h
  obtain ⟨b, -, hb⟩ := List.mem_flatMap.mp h
  have hbyte : b.toNat < 256 := b.toNat_lt
  simp only [List.mem_cons, List.not_mem_nil, or_false] at hb
  obtain hb | hb | hb := hb
  · exact hpercent hb
  · exact hdigits _ (by omega) hb
  · exact hdigits _ (by omega) hb

/-- So a name and an encoded text are read as one field. -/
theorem fields_encodeField {name : Text} (hne : name ≠ []) (hand : ascii '&' ∉ name)
    (hequals : ascii '=' ∉ name) (t : Text) :
    fields (name ++ ascii '=' :: encodeField t) = [(decodeField name, t)] := by
  have hsplit : ascii '&' ∉ name ++ ascii '=' :: encodeField t := by
    rw [List.mem_append, List.mem_cons, not_or, not_or]
    exact ⟨hand, by decide, notMem_encodeField (by decide) (by decide) t⟩
  have hpart : (name ++ ascii '=' :: encodeField t).isEmpty = false := by
    cases name with
    | nil => exact absurd rfl hne
    | cons b name => rfl
  have hvalue : decodeField (encodeField t) = t := by
    have h := decodeField_encodeField t []
    rw [List.append_nil] at h
    rw [h]
    exact List.append_nil t
  unfold fields
  rw [Text.splitOn_of_notMem hsplit, List.filterMap_cons, hpart, Text.cut_append hequals]
  dsimp only [Option.getD_some]
  rw [hvalue]
  rfl

/-! ## Targets with one field

The target is cut three times: at a fragment, at the query, and into fields. Without the separators in path
and name, each cut finds its own. -/

namespace Request

variable {r : Request} {path name t : Text}

/-- A target with one encoded field has no fragment. -/
theorem resource_field (htarget : r.target = path ++ ascii '?' :: (name ++ ascii '=' :: encodeField t))
    (hpath : ascii '#' ∉ path) (hname : ascii '#' ∉ name) : r.resource = r.target := by
  have hplain : ascii '#' ∉ r.target := by
    rw [htarget]
    simp only [List.mem_append, List.mem_cons, not_or]
    exact ⟨hpath, by decide, hname, by decide, notMem_encodeField (by decide) (by decide) t⟩
  rw [resource, Text.cut_of_notMem hplain]

/-- The path of such a target ends where the query begins. -/
theorem path_field (htarget : r.target = path ++ ascii '?' :: (name ++ ascii '=' :: encodeField t))
    (hpath : ascii '#' ∉ path ∧ ascii '?' ∉ path) (hname : ascii '#' ∉ name) : r.path = path := by
  rw [Request.path, resource_field htarget hpath.1 hname, htarget, Text.cut_append hpath.2]

/-- The query of such a target is the one field, decoded. -/
theorem query_field (htarget : r.target = path ++ ascii '?' :: (name ++ ascii '=' :: encodeField t))
    (hpath : ascii '#' ∉ path ∧ ascii '?' ∉ path) (hname : ascii '#' ∉ name) (hne : name ≠ [])
    (hand : ascii '&' ∉ name) (hequals : ascii '=' ∉ name) : r.query = [(decodeField name, t)] := by
  rw [query, resource_field htarget hpath.1 hname, htarget, Text.cut_append hpath.2]
  exact fields_encodeField hne hand hequals t

end Request

end Http

end Mundart
