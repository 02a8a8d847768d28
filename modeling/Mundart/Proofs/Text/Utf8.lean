import Mathlib.Data.List.Basic
import Mundart.Text.Rune

/-!
# UTF-8

The decoder of texts against the encoding of characters: what is encoded is decoded again, and
whatever a text is decoded to stands for the bytes of that text.

* **`runes_encode`** — an encoded character is decoded, whatever follows it;
* **`flatMap_bytes_runes`** — the runes of a text are the text;
* **`encode_ascii`**, **`high_of_mem_encode`** — an ASCII character is its own byte, and the bytes of any
  other are past the ASCII characters;
* **`ofChars_of_isUtf8`**, **`repair_ofChars`** — a well-formed text is the encoding of its characters,
  and there is nothing to repair in it.
-/

namespace Mundart.Text

/-! ## Bytes

A byte behind the first one of an encoding carries six bits, and the decoder checks that it does. What the
bits of all bytes make must be a character, and one that needs as many bytes. -/

/-- A byte is known by its number. -/
theorem byte_eq {n : Nat} {b : UInt8} (h : n = b.toNat) : UInt8.ofNat n = b := by
  rw [h, UInt8.ofNat_toNat]

/-- Six bits are read back from the byte that carries them. -/
theorem tail?_byte {n : Nat} (h : n < 64) : tail? (UInt8.ofNat (n + 128)) = some n := by
  have hbyte := UInt8.toNat_ofNat_of_lt' (show n + 128 < 256 by omega)
  have hrange : (0x80 ≤ UInt8.ofNat (n + 128) && UInt8.ofNat (n + 128) ≤ 0xBF) = true := by
    rw [Bool.and_eq_true, decide_eq_true_eq, decide_eq_true_eq, UInt8.le_iff_toNat_le,
      UInt8.le_iff_toNat_le, hbyte]
    exact ⟨Nat.le_add_left 128 n, Nat.le_of_lt_succ (Nat.add_lt_add_right h 128)⟩
  rw [tail?, if_pos hrange, hbyte]
  exact congrArg some (Nat.add_sub_cancel n 128)

/-- Only a byte that carries six bits has any. -/
theorem tail?_eq_some {b : UInt8} {n : Nat} (h : tail? b = some n) : n < 64 ∧ b.toNat = n + 128 := by
  rw [tail?] at h
  split at h
  · next hrange =>
    rw [Bool.and_eq_true, decide_eq_true_eq, decide_eq_true_eq, UInt8.le_iff_toNat_le,
      UInt8.le_iff_toNat_le] at hrange
    have hlow : 128 ≤ b.toNat := hrange.1
    have hhigh : b.toNat ≤ 191 := hrange.2
    obtain rfl := Option.some.inj h
    omega
  · exact nomatch h

/-- What is no surrogate and not too large. -/
theorem toNat_valid (c : Char) : c.toNat < 0xD800 ∨ (0xDFFF < c.toNat ∧ c.toNat < 0x110000) := c.valid

/-- The number of a character is accepted if it is not below the least one. -/
theorem scalar?_toNat {least : Nat} (c : Char) (h : least ≤ c.toNat) :
    scalar? least c.toNat = some c := by
  have hscalar : (decide (least ≤ c.toNat) && (decide (c.toNat < 0xD800) ||
      (decide (0xDFFF < c.toNat) && decide (c.toNat < 0x110000)))) = true := by
    simp only [Bool.and_eq_true, Bool.or_eq_true, decide_eq_true_eq]
    exact ⟨h, toNat_valid c⟩
  rw [scalar?, if_pos hscalar, Char.ofNat_toNat]

/-- What is accepted is the number of a character. -/
theorem scalar?_eq_some {least n : Nat} {c : Char} (h : scalar? least n = some c) :
    least ≤ n ∧ n < 0x110000 ∧ c.toNat = n := by
  rw [scalar?] at h
  split at h
  · next hscalar =>
    simp only [Bool.and_eq_true, Bool.or_eq_true, decide_eq_true_eq] at hscalar
    obtain rfl := Option.some.inj h
    refine ⟨hscalar.1, by omega, ?_⟩
    rw [Char.ofNat, dif_pos hscalar.2]
    rfl
  · exact nomatch h

/-! ## Decoding what was encoded

There are four lengths of encodings. For each of the longer ones the decoder is unfolded once, with the bits
of its bytes as numbers; the encoder is then met with the right numbers. -/

section

variable {b x y z : UInt8} {a i j k : Nat}

/-- How two bytes are decoded. -/
theorem wideChar?_two (hb : b.toNat = a + 192) (ha : a < 32) (hx : tail? x = some i) (t : Text) :
    wideChar? b (x :: t) = (scalar? 0x80 (a * 64 + i)).map fun c => (c, 2) := by
  have h0 : ¬ b < 0xC0 := by rw [UInt8.lt_iff_toNat_lt]; show ¬ b.toNat < 192; omega
  have h1 : b < 0xE0 := by rw [UInt8.lt_iff_toNat_lt]; show b.toNat < 224; omega
  rw [wideChar?, if_neg h0, if_pos h1, hb, Nat.add_sub_cancel]
  simp only [hx]
  rw [Option.map_eq_bind]
  rfl

/-- How three bytes are decoded. -/
theorem wideChar?_three (hb : b.toNat = a + 224) (ha : a < 16) (hx : tail? x = some i)
    (hy : tail? y = some j) (t : Text) :
    wideChar? b (x :: y :: t) = (scalar? 0x800 ((a * 64 + i) * 64 + j)).map fun c => (c, 3) := by
  have h0 : ¬ b < 0xC0 := by rw [UInt8.lt_iff_toNat_lt]; show ¬ b.toNat < 192; omega
  have h1 : ¬ b < 0xE0 := by rw [UInt8.lt_iff_toNat_lt]; show ¬ b.toNat < 224; omega
  have h2 : b < 0xF0 := by rw [UInt8.lt_iff_toNat_lt]; show b.toNat < 240; omega
  rw [wideChar?, if_neg h0, if_neg h1, if_pos h2, hb, Nat.add_sub_cancel]
  simp only [hx, hy]
  rw [Option.map_eq_bind]
  rfl

/-- How four bytes are decoded. -/
theorem wideChar?_four (hb : b.toNat = a + 240) (ha : a < 8) (hx : tail? x = some i)
    (hy : tail? y = some j) (hz : tail? z = some k) (t : Text) :
    wideChar? b (x :: y :: z :: t) =
      (scalar? 0x10000 (((a * 64 + i) * 64 + j) * 64 + k)).map fun c => (c, 4) := by
  have h0 : ¬ b < 0xC0 := by rw [UInt8.lt_iff_toNat_lt]; show ¬ b.toNat < 192; omega
  have h1 : ¬ b < 0xE0 := by rw [UInt8.lt_iff_toNat_lt]; show ¬ b.toNat < 224; omega
  have h2 : ¬ b < 0xF0 := by rw [UInt8.lt_iff_toNat_lt]; show ¬ b.toNat < 240; omega
  have h3 : b < 0xF8 := by rw [UInt8.lt_iff_toNat_lt]; show b.toNat < 248; omega
  rw [wideChar?, if_neg h0, if_neg h1, if_neg h2, if_pos h3, hb, Nat.add_sub_cancel]
  simp only [hx, hy, hz]
  rw [Option.map_eq_bind]
  rfl

end

/-- Past the ASCII bytes the decoder for longer encodings is used. -/
theorem runeAt_wide {b : UInt8} {t : Text} {c : Char} {width : Nat} (hb : 128 ≤ b.toNat)
    (h : wideChar? b t = some (c, width)) : runeAt b t = (.char c, width) := by
  have hnot : ¬ b < 0x80 := by rw [UInt8.lt_iff_toNat_lt]; show ¬ b.toNat < 128; omega
  rw [runeAt, if_neg hnot, h]

/-- The first rune is an encoded character, and its width is that of the encoding. -/
theorem runeAt_encode (c : Char) (t : Text) : ∃ b u, String.utf8EncodeChar c ++ t = b :: u ∧
    runeAt b u = (.char c, (String.utf8EncodeChar c).length) := by
  have hvalid := toNat_valid c
  have hscalar : ∀ {least n : Nat}, n = c.toNat → least ≤ n → scalar? least n = some c := by
    rintro least _ rfl h
    exact scalar?_toNat c h
  unfold String.utf8EncodeChar
  rw [show c.val.toNat = c.toNat from rfl]
  dsimp only
  -- one case for each length of the encoding
  split
  · next h1 =>
    have hbyte := UInt8.toNat_ofNat_of_lt' (show c.toNat < 256 by omega)
    have hascii : UInt8.ofNat c.toNat < 0x80 := by
      rw [UInt8.lt_iff_toNat_lt, hbyte]
      exact Nat.lt_succ_of_le h1
    refine ⟨_, _, rfl, ?_⟩
    rw [runeAt, if_pos hascii, hbyte, Char.ofNat_toNat]
    rfl
  split
  · have hbyte := UInt8.toNat_ofNat_of_lt' (show c.toNat / 64 % 32 + 192 < 256 by omega)
    refine ⟨_, _ :: t, rfl, runeAt_wide (by omega) ?_⟩
    rw [wideChar?_two hbyte (by omega) (tail?_byte (by omega)),
      hscalar (by omega) (by omega)]
    rfl
  split
  · have hbyte := UInt8.toNat_ofNat_of_lt' (show c.toNat / 4096 % 16 + 224 < 256 by omega)
    refine ⟨_, _ :: _ :: t, rfl, runeAt_wide (by omega) ?_⟩
    rw [wideChar?_three hbyte (by omega) (tail?_byte (by omega))
      (tail?_byte (by omega)), hscalar (by omega) (by omega)]
    rfl
  · have hbyte := UInt8.toNat_ofNat_of_lt' (show c.toNat / 262144 % 8 + 240 < 256 by omega)
    refine ⟨_, _ :: _ :: _ :: t, rfl, runeAt_wide (by omega) ?_⟩
    rw [wideChar?_four hbyte (by omega) (tail?_byte (by omega)) (tail?_byte (by omega))
        (tail?_byte (by omega)), hscalar (by omega) (by omega)]
    rfl

/-- An encoded character is decoded, whatever follows it. -/
theorem runes_encode (c : Char) (t : Text) : runes (String.utf8EncodeChar c ++ t) = .char c :: runes t := by
  obtain ⟨b, u, hbytes, hrune⟩ := runeAt_encode c t
  have hlength : (String.utf8EncodeChar c).length ≠ 0 := by
    rw [ne_eq, List.length_eq_zero_iff]
    exact String.utf8EncodeChar_ne_nil
  have hrest : u.drop ((String.utf8EncodeChar c).length - 1) = t := by
    have hdrop : (b :: u).drop (String.utf8EncodeChar c).length = t := by
      rw [← hbytes, List.drop_left]
    rwa [← Nat.succ_pred_eq_of_ne_zero hlength] at hdrop
  rw [hbytes, runes_cons, hrune, hrest]

/-! ## ASCII

Much of what is shown and read is made of ASCII bytes only. Each of them is a character of its own, and none
of them occurs within a longer encoding. -/

/-- An ASCII character is encoded by its own byte. -/
theorem encode_ascii {c : Char} (h : c.toNat < 128) : String.utf8EncodeChar c = [UInt8.ofNat c.toNat] := by
  have hval : c.val.toNat = c.toNat := rfl
  simp only [String.utf8EncodeChar, hval]
  rw [if_pos (by omega)]

/-- All bytes of a longer encoding are past the ASCII characters. -/
theorem high_of_mem_encode {c : Char} (h : 128 ≤ c.toNat) {b : UInt8} (hb : b ∈ String.utf8EncodeChar c) :
    128 ≤ b.toNat := by
  have hvalid := toNat_valid c
  -- Every byte of a longer encoding is put together from bits below a mark of at least 128.
  have hhigh : ∃ n : Nat, b = UInt8.ofNat n ∧ n < 256 ∧ 128 ≤ n := by
    have hval : c.val.toNat = c.toNat := rfl
    simp only [String.utf8EncodeChar, hval] at hb
    rw [if_neg (by omega)] at hb
    split at hb
    · simp only [List.mem_cons, List.not_mem_nil, or_false] at hb
      rcases hb with rfl | rfl <;> exact ⟨_, rfl, by omega, by omega⟩
    split at hb
    · simp only [List.mem_cons, List.not_mem_nil, or_false] at hb
      rcases hb with rfl | rfl | rfl <;> exact ⟨_, rfl, by omega, by omega⟩
    · simp only [List.mem_cons, List.not_mem_nil, or_false] at hb
      rcases hb with rfl | rfl | rfl | rfl <;> exact ⟨_, rfl, by omega, by omega⟩
  obtain ⟨n, rfl, hn, hlow⟩ := hhigh
  rw [UInt8.toNat_ofNat_of_lt' hn]
  exact hlow

/-- A text of ASCII bytes. -/
def Ascii (t : Text) : Prop := ∀ b ∈ t, b < 0x80

instance (t : Text) : Decidable (Ascii t) := List.decidableBAll (fun b => b < 0x80) t

/-- ASCII texts are joined to ASCII texts. -/
theorem Ascii.append {s t : Text} (hs : Ascii s) (ht : Ascii t) : Ascii (s ++ t) := by
  intro b hb
  obtain hb | hb := List.mem_append.mp hb
  · exact hs b hb
  · exact ht b hb

/-- Every ASCII text is well-formed. -/
theorem Ascii.isUtf8 {t : Text} (h : Ascii t) : isUtf8 t = true := by
  induction t with
  | nil => rfl
  | cons b t ih =>
    have hrest := ih fun b' hb' => h b' (List.mem_cons_of_mem b hb')
    unfold Text.isUtf8 at hrest ⊢
    rw [runes_ascii (h b List.mem_cons_self), List.all_cons, hrest]
    rfl

/-! ## Encoding what was decoded

The other direction: if a character was decoded, then from its encoding and not from a longer one of the
same number. The checks of the decoder are what excludes these. -/

section

variable {c : Char} {b x y z : UInt8} {a i j k : Nat}

/-- A character is encoded by the two bytes that it was read off. -/
theorem encode_two (hc : c.toNat = a * 64 + i) (hlow : 0x80 ≤ c.toNat) (hb : b.toNat = a + 192)
    (ha : a < 32) (hx : x.toNat = i + 128) (hi : i < 64) : String.utf8EncodeChar c = [b, x] := by
  have hval : c.val.toNat = a * 64 + i := hc
  have hfirst : UInt8.ofNat ((a * 64 + i) / 64 % 32 + 192) = b := byte_eq (by omega)
  have hsecond : UInt8.ofNat ((a * 64 + i) % 64 + 128) = x := byte_eq (by omega)
  simp only [String.utf8EncodeChar, hval]
  rw [if_neg (by omega), if_pos (by omega), hfirst, hsecond]

/-- A character is encoded by the three bytes that it was read off. -/
theorem encode_three (hc : c.toNat = (a * 64 + i) * 64 + j) (hlow : 0x800 ≤ c.toNat)
    (hb : b.toNat = a + 224) (ha : a < 16) (hx : x.toNat = i + 128) (hi : i < 64)
    (hy : y.toNat = j + 128) (hj : j < 64) : String.utf8EncodeChar c = [b, x, y] := by
  have hval : c.val.toNat = (a * 64 + i) * 64 + j := hc
  have hfirst : UInt8.ofNat (((a * 64 + i) * 64 + j) / 4096 % 16 + 224) = b := byte_eq (by omega)
  have hsecond : UInt8.ofNat (((a * 64 + i) * 64 + j) / 64 % 64 + 128) = x := byte_eq (by omega)
  have hthird : UInt8.ofNat (((a * 64 + i) * 64 + j) % 64 + 128) = y := byte_eq (by omega)
  simp only [String.utf8EncodeChar, hval]
  rw [if_neg (by omega), if_neg (by omega), if_pos (by omega), hfirst, hsecond, hthird]

/-- A character is encoded by the four bytes that it was read off. -/
theorem encode_four (hc : c.toNat = ((a * 64 + i) * 64 + j) * 64 + k) (hlow : 0x10000 ≤ c.toNat)
    (hb : b.toNat = a + 240) (ha : a < 8) (hx : x.toNat = i + 128) (hi : i < 64)
    (hy : y.toNat = j + 128) (hj : j < 64) (hz : z.toNat = k + 128) (hk : k < 64) :
    String.utf8EncodeChar c = [b, x, y, z] := by
  have hval : c.val.toNat = ((a * 64 + i) * 64 + j) * 64 + k := hc
  have hfirst : UInt8.ofNat ((((a * 64 + i) * 64 + j) * 64 + k) / 262144 % 8 + 240) = b :=
    byte_eq (by omega)
  have hsecond : UInt8.ofNat ((((a * 64 + i) * 64 + j) * 64 + k) / 4096 % 64 + 128) = x :=
    byte_eq (by omega)
  have hthird : UInt8.ofNat ((((a * 64 + i) * 64 + j) * 64 + k) / 64 % 64 + 128) = y :=
    byte_eq (by omega)
  have hfourth : UInt8.ofNat ((((a * 64 + i) * 64 + j) * 64 + k) % 64 + 128) = z :=
    byte_eq (by omega)
  simp only [String.utf8EncodeChar, hval]
  rw [if_neg (by omega), if_neg (by omega), if_neg (by omega), hfirst, hsecond, hthird, hfourth]

end

/-- A character of more than one byte was read off its encoding. -/
theorem wideChar?_eq_some {b : UInt8} {t : Text} {c : Char} {width : Nat}
    (h : wideChar? b t = some (c, width)) :
    0 < width ∧ (b :: t).take width = String.utf8EncodeChar c := by
  simp only [wideChar?, Option.bind_eq_bind] at h
  split at h
  · exact nomatch h
  next h0 =>
  have h0 : ¬ b.toNat < 192 := h0
  split at h
  -- The first byte tells how many there are.
  · next h1 =>
    have h1 : b.toNat < 224 := h1
    match t with
    | [] => exact nomatch h
    | x :: t =>
      obtain ⟨i, hx, h⟩ := Option.bind_eq_some_iff.mp h
      obtain ⟨c', hc, h⟩ := Option.bind_eq_some_iff.mp h
      cases h
      obtain ⟨hi, hx⟩ := tail?_eq_some hx
      obtain ⟨hlow, -, hc⟩ := scalar?_eq_some hc
      exact ⟨Nat.succ_pos _, (encode_two hc (hc ▸ hlow) (by omega) (by omega) hx hi).symm⟩
  next h1 =>
  have h1 : ¬ b.toNat < 224 := h1
  split at h
  · next h2 =>
    have h2 : b.toNat < 240 := h2
    match t with
    | [] | [_] => exact nomatch h
    | x :: y :: t =>
      obtain ⟨i, hx, h⟩ := Option.bind_eq_some_iff.mp h
      obtain ⟨j, hy, h⟩ := Option.bind_eq_some_iff.mp h
      obtain ⟨c', hc, h⟩ := Option.bind_eq_some_iff.mp h
      cases h
      obtain ⟨hi, hx⟩ := tail?_eq_some hx
      obtain ⟨hj, hy⟩ := tail?_eq_some hy
      obtain ⟨hlow, -, hc⟩ := scalar?_eq_some hc
      exact ⟨Nat.succ_pos _, (encode_three hc (hc ▸ hlow) (by omega) (by omega) hx hi hy hj).symm⟩
  next h2 =>
  have h2 : ¬ b.toNat < 240 := h2
  split at h
  · next h3 =>
    have h3 : b.toNat < 248 := h3
    match t with
    | [] | [_] | [_, _] => exact nomatch h
    | x :: y :: z :: t =>
      obtain ⟨i, hx, h⟩ := Option.bind_eq_some_iff.mp h
      obtain ⟨j, hy, h⟩ := Option.bind_eq_some_iff.mp h
      obtain ⟨k, hz, h⟩ := Option.bind_eq_some_iff.mp h
      obtain ⟨c', hc, h⟩ := Option.bind_eq_some_iff.mp h
      cases h
      obtain ⟨hi, hx⟩ := tail?_eq_some hx
      obtain ⟨hj, hy⟩ := tail?_eq_some hy
      obtain ⟨hk, hz⟩ := tail?_eq_some hz
      obtain ⟨hlow, -, hc⟩ := scalar?_eq_some hc
      exact ⟨Nat.succ_pos _,
        (encode_four hc (hc ▸ hlow) (by omega) (by omega) hx hi hy hj hz hk).symm⟩
  · exact nomatch h

/-- The first rune stands for the bytes that it takes, and it takes at least one. -/
theorem bytes_runeAt (b : UInt8) (t : Text) :
    0 < (runeAt b t).2 ∧ (b :: t).take (runeAt b t).2 = (runeAt b t).1.bytes := by
  unfold runeAt
  split
  · next hascii =>
    have hlt : b.toNat < 128 := hascii
    have hchar : (Char.ofNat b.toNat).toNat = b.toNat := by
      have hvalid : b.toNat.isValidChar := .inl (by omega)
      rw [Char.ofNat, dif_pos hvalid]
      rfl
    refine ⟨Nat.one_pos, ?_⟩
    show [b] = String.utf8EncodeChar (Char.ofNat b.toNat)
    rw [String.utf8EncodeChar, show (Char.ofNat b.toNat).val.toNat = b.toNat from hchar]
    rw [if_pos (by omega), UInt8.ofNat_toNat]
  · split
    · next hwide => exact wideChar?_eq_some hwide
    · exact ⟨Nat.one_pos, rfl⟩

/-- The runes of a text are the text. -/
theorem flatMap_bytes_runes (t : Text) : (runes t).flatMap Rune.bytes = t := by
  match t with
  | [] => rfl
  | b :: t =>
    obtain ⟨hpos, hbytes⟩ := bytes_runeAt b t
    have hrest : (b :: t).drop (runeAt b t).2 = t.drop ((runeAt b t).2 - 1) := by
      rw [← Nat.succ_pred_eq_of_pos hpos]
      rfl
    rw [runes_cons, List.flatMap_cons, flatMap_bytes_runes (t.drop ((runeAt b t).2 - 1)), ← hbytes,
      ← hrest, List.take_append_drop]
termination_by t.length
decreasing_by
  rw [List.length_drop, List.length_cons]
  omega

/-! ## Well-formed texts

A text is well-formed if no byte of it is left undecoded. By both directions these are the encodings of
lists of characters, so that what is said of characters holds of well-formed texts. -/

/-- The runes of an encoded list are its characters. -/
@[simp] theorem runes_ofChars (cs : List Char) : runes (ofChars cs) = cs.map .char := by
  induction cs with
  | nil => rfl
  | cons c cs ih =>
    show runes (String.utf8EncodeChar c ++ ofChars cs) = _
    rw [runes_encode, ih]
    rfl

/-- So its characters are found again. -/
@[simp] theorem chars_ofChars (cs : List Char) : chars (ofChars cs) = cs := by
  rw [chars, runes_ofChars, List.map_map]
  exact List.map_id cs

/-- A well-formed text is the encoding of its characters. -/
theorem ofChars_of_isUtf8 {t : Text} (h : isUtf8 t = true) : ofChars (chars t) = t := by
  have hchars : ∀ r ∈ runes t, String.utf8EncodeChar r.toChar = r.bytes := by
    intro r hr
    cases r with
    | char c => rfl
    | stray b => exact absurd (List.all_eq_true.mp h _ hr) (by simp [Rune.isStray])
  calc ofChars (chars t) = (runes t).flatMap fun r => String.utf8EncodeChar r.toChar :=
        List.flatMap_map ..
    _ = (runes t).flatMap Rune.bytes := List.flatMap_congr hchars
    _ = t := flatMap_bytes_runes t

/-- A well-formed text is an encoding. -/
theorem exists_ofChars {t : Text} (h : isUtf8 t = true) : ∃ cs, t = ofChars cs :=
  ⟨chars t, (ofChars_of_isUtf8 h).symm⟩

/-- There is nothing to repair in a well-formed text. -/
theorem repair_ofChars (cs : List Char) : repair (ofChars cs) = ofChars cs := by
  rw [repair, chars_ofChars]

end Mundart.Text
