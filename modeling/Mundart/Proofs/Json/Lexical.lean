import Mathlib.Data.List.TakeDrop
import Mundart.Json.Read
import Mundart.Proofs.Number.Decimal
import Mundart.Proofs.Text.Utf8

/-!
# The words of JSON

Strings, numbers and the blanks between them: what is written for one of them is read back as a whole,
whatever may follow it in a document.

* **`readString_escapeRune`** — each character of a string, by the form in which it is written;
* **`string?_quote`** — a well-formed text is read back from its JSON string;
* **`Blank`**, **`Solid`**, **`Closes`** — what may stand between two parts of a document, what a part starts
  with and what may follow a value;
* **`Numeral`**, **`number?_numeral`** — the literals of numbers, each read back as a whole;
* **`numeral_ofInt`** — integers are written as such literals.
-/

namespace Mundart.Json

open Mundart.Text

/-! ## Characters

Inside a string most characters stand for themselves, some have an escape of their own and the others are
written with their number. Every form takes the reader at least one step and gives it at least one byte. -/

/-- Bytes that stand for themselves inside a string. -/
def Verbatim (u : Text) : Prop := ∀ b ∈ u, 0x20 ≤ b.toNat ∧ b ≠ 34 ∧ b ≠ 92

/-- Bytes that stand for themselves are read one by one. -/
theorem readString_verbatim {u : Text} (hu : Verbatim u) : ∀ (fuel : Nat) (taken rest : Text),
    readString (fuel + u.length) taken (u ++ rest) = readString fuel (u.reverse ++ taken) rest := by
  induction u with
  | nil => intro fuel taken rest; rfl
  | cons b u ih =>
    intro fuel taken rest
    obtain ⟨hlow, hquote, hbackslash⟩ := hu b List.mem_cons_self
    have hcontrol : ¬ b < 0x20 := by
      rw [UInt8.lt_iff_toNat_lt]
      exact Nat.not_lt.mpr hlow
    have hrest := ih (fun b hb => hu b (List.mem_cons_of_mem _ hb)) fuel (b :: taken) rest
    rw [List.length_cons, ← Nat.add_assoc, List.cons_append, readString, if_neg (by simpa using hquote),
      if_neg hcontrol, if_neg (by simpa using hbackslash), hrest, List.reverse_cons,
      List.append_assoc]
    rfl

/-- A character that has no escape is written with its bytes. -/
theorem verbatim_encode {c : Char} (hlow : 0x20 ≤ c.toNat) (hquote : c.toNat ≠ 34)
    (hbackslash : c.toNat ≠ 92) : Verbatim (String.utf8EncodeChar c) := by
  intro b hb
  have hbyte : 0x20 ≤ b.toNat ∧ b.toNat ≠ 34 ∧ b.toNat ≠ 92 := by
    by_cases hc : c.toNat < 128
    · rw [encode_ascii hc, List.mem_singleton] at hb
      rw [hb, UInt8.toNat_ofNat_of_lt' (show c.toNat < 256 by omega)]
      exact ⟨hlow, hquote, hbackslash⟩
    · have hhigh := high_of_mem_encode (Nat.not_lt.mp hc) hb
      omega
  obtain ⟨hcontrol, hb34, hb92⟩ := hbyte
  refine ⟨hcontrol, fun h => hb34 ?_, fun h => hb92 ?_⟩
  · rw [h]
    rfl
  · rw [h]
    rfl

/-- Four digits are read, whatever follows them. -/
theorem hex4?_append {t : Text} {n : Nat} (h : hex4? t = some (n, [])) (rest : Text) :
    hex4? (t ++ rest) = some (n, rest) := by
  match t with
  | [] | [_] | [_, _] | [_, _, _] => exact nomatch h
  | a :: b :: c :: d :: t =>
    simp only [hex4?, Option.bind_eq_bind] at h
    obtain ⟨i, hi, h⟩ := Option.bind_eq_some_iff.mp h
    obtain ⟨j, hj, h⟩ := Option.bind_eq_some_iff.mp h
    obtain ⟨k, hk, h⟩ := Option.bind_eq_some_iff.mp h
    obtain ⟨l, hl, h⟩ := Option.bind_eq_some_iff.mp h
    cases h
    simp only [List.cons_append, List.nil_append, hex4?, hi, hj, hk, hl]
    rfl

/-- The characters that are written with their number. -/
def isNumbered (n : Nat) : Bool :=
  n < 0x20 || n == 0x3C || n == 0x3E || n == 0x26 || n == 0x2028 || n == 0x2029

/-- The number of a character that is written with it is read back, and it is no surrogate. -/
theorem hex4?_hex {n : Nat} (h : isNumbered n = true) : n < 0xD800 ∧ hex4? (Text.hex 4 n) = some (n, []) := by
  have hsmall : ∀ n < 0x20, n < 0xD800 ∧ hex4? (Text.hex 4 n) = some (n, []) := by decide
  simp only [isNumbered, Bool.or_eq_true, decide_eq_true_eq, beq_iff_eq] at h
  rcases h with ((((h | rfl) | rfl) | rfl) | rfl) | rfl
  · exact hsmall n h
  · decide
  · decide
  · decide
  · decide
  · decide

/-- The characters with an escape of their own. -/
def shortEscapes : List Nat := [34, 92, 8, 12, 10, 13, 9]

/-- A character without an escape of its own. -/
theorem escapeRune_of_long {c : Char} (h : c.toNat ∉ shortEscapes) :
    escapeRune (.char c) =
      if isNumbered c.toNat then "\\u" ++ Text.hex 4 c.toNat else String.utf8EncodeChar c := by
  unfold escapeRune
  dsimp only
  split
  case h_8 => rfl
  all_goals
    next hshort =>
    refine absurd ?_ h
    rw [hshort]
    decide

/-- An escape with a number is replaced by the character. -/
theorem readString_numbered (fuel : Nat) (taken t : Text) : readString (fuel + 1) taken (92 :: 117 :: t) =
    match hex4? t with
    | some (unit, t) => readString fuel
        ((String.utf8EncodeChar (escapedChar unit t).1).reverse ++ taken) (escapedChar unit t).2
    | none => none := rfl

/-- A written character is read in no more steps than its text has bytes. -/
theorem readString_escapeRune (c : Char) : ∃ k ≤ (escapeRune (.char c)).length, ∀ fuel taken rest,
    readString (fuel + k) taken (escapeRune (.char c) ++ rest) =
      readString fuel ((String.utf8EncodeChar c).reverse ++ taken) rest := by
  -- The three forms in which a character may be written.
  by_cases hshort : c.toNat ∈ shortEscapes
  · have hchar : ∀ n, c.toNat = n → c = Char.ofNat n := fun n h => h ▸ (Char.ofNat_toNat c).symm
    simp only [shortEscapes, List.mem_cons, List.not_mem_nil, or_false] at hshort
    rcases hshort with h | h | h | h | h | h | h
    all_goals
      obtain rfl := hchar _ h
      exact ⟨1, by decide, fun _ _ _ => rfl⟩
  rw [escapeRune_of_long hshort]
  split
  · next hnumbered =>
    obtain ⟨hlow, hhex⟩ := hex4?_hex hnumbered
    refine ⟨1, Nat.le_add_left 1 _, fun fuel taken rest => ?_⟩
    have hescaped : escapedChar c.toNat rest = (c, rest) := by
      have hunit : (decide (c.toNat < 0xD800) || decide (0xDFFF < c.toNat)) = true := by simp [hlow]
      unfold escapedChar
      rw [if_pos hunit, Char.ofNat_toNat]
    show readString (fuel + 1) taken (92 :: 117 :: (Text.hex 4 c.toNat ++ rest)) = _
    rw [readString_numbered, hex4?_append hhex]
    dsimp only
    rw [hescaped]
  · next hplain =>
    have hverbatim : Verbatim (String.utf8EncodeChar c) := by
      simp only [isNumbered, Bool.or_eq_true, decide_eq_true_eq, not_or] at hplain
      refine verbatim_encode (Nat.not_lt.mp hplain.1.1.1.1.1) (fun h => hshort ?_) (fun h => hshort ?_)
      · rw [h]
        decide
      · rw [h]
        decide
    exact ⟨_, Nat.le_refl _, fun fuel taken rest => readString_verbatim hverbatim fuel taken rest⟩

/-! ## Texts

A string is its characters one after the other, and there is nothing in it that had to be repaired, since
the text was well-formed. -/

/-- The characters of a text are read one after the other. -/
theorem readString_escapes (cs : List Char) :
    ∃ k ≤ (cs.flatMap fun c => escapeRune (.char c)).length, ∀ fuel taken rest,
      readString (fuel + k) taken ((cs.flatMap fun c => escapeRune (.char c)) ++ rest) =
        readString fuel ((ofChars cs).reverse ++ taken) rest := by
  -- The steps for the first character come first; the others are counted by the induction.
  induction cs with
  | nil => exact ⟨0, Nat.le_refl 0, fun _ _ _ => rfl⟩
  | cons c cs ih =>
    obtain ⟨j, hj, hhead⟩ := readString_escapeRune c
    obtain ⟨k, hk, htail⟩ := ih
    refine ⟨k + j, ?_, fun fuel taken rest => ?_⟩
    · rw [List.flatMap_cons, List.length_append]
      omega
    · have hbytes : ofChars (c :: cs) = String.utf8EncodeChar c ++ ofChars cs := rfl
      rw [List.flatMap_cons, List.append_assoc, ← Nat.add_assoc, hhead, htail, hbytes,
        List.reverse_append, List.append_assoc]

/-- A string is the characters of a text between quotes. -/
theorem quote_ofChars (cs : List Char) :
    quote (ofChars cs) = 34 :: (cs.flatMap fun c => escapeRune (.char c)) ++ [34] := by
  rw [quote, runes_ofChars, List.flatMap_map]
  rfl

/-- A quoted text is read back, whatever follows it. -/
theorem string?_quote {t : Text} (h : isUtf8 t = true) (rest : Text) :
    ∃ u, quote t ++ rest = 34 :: u ∧ string? u = some (t, rest) := by
  obtain ⟨cs, rfl⟩ := exists_ofChars h
  refine ⟨(cs.flatMap fun c => escapeRune (.char c)) ++ 34 :: rest, ?_, ?_⟩
  · rw [quote_ofChars, List.cons_append, List.cons_append, List.append_assoc]
    rfl
  obtain ⟨k, hk, hread⟩ := readString_escapes cs
  -- From here on it only counts how long the text is and how it is read.
  generalize (cs.flatMap fun c => escapeRune (.char c)) = written at hk hread
  obtain ⟨fuel, hfuel⟩ : ∃ fuel, (written ++ 34 :: rest).length + 1 = fuel + 1 + k := by
    refine ⟨(written ++ 34 :: rest).length - k, ?_⟩
    rw [List.length_append]
    omega
  have hclosed : readString (fuel + 1) ((ofChars cs).reverse ++ []) (34 :: rest) =
      some (ofChars cs, rest) := by
    rw [readString, if_pos (by rfl), List.append_nil, List.reverse_reverse]
  rw [string?, hfuel, hread, hclosed]
  exact congrArg (fun s => some (s, rest)) (repair_ofChars cs)

/-! ## Blanks

Readers skip blanks in front of every part, and the byte that they find then says what comes. -/

/-- The bytes that may stand between the parts of a document. -/
def blanks : Text := [32, 9, 10, 13]

/-- A text of blanks. -/
def Blank (gap : Text) : Prop := ∀ b ∈ gap, b ∈ blanks

instance (gap : Text) : Decidable (Blank gap) := List.decidableBAll (fun b => b ∈ blanks) gap

/-- No blanks at all. -/
theorem blank_nil : Blank [] := nofun

/-- The blanks, as readers test for them. -/
theorem isBlank_iff (b : UInt8) : (b == 32 || b == 9 || b == 10 || b == 13) = true ↔ b ∈ blanks := by
  simp [blanks, or_assoc]

/-- Blanks in front are skipped. -/
theorem skipBlanks_append {gap : Text} (h : Blank gap) (t : Text) :
    skipBlanks (gap ++ t) = skipBlanks t :=
  List.dropWhile_append_of_pos fun b hb => (isBlank_iff b).mpr (h b hb)

/-- Nothing else is. -/
theorem skipBlanks_cons {b : UInt8} (hb : b ∉ blanks) (t : Text) : skipBlanks (b :: t) = b :: t :=
  List.dropWhile_cons_of_neg fun h => hb ((isBlank_iff b).mp h)

/-- A text whose first byte is neither a blank nor the end of a list or an object. -/
def Solid (t : Text) : Prop := ∃ b u, t = b :: u ∧ b ∉ blanks ∧ b ≠ 93 ∧ b ≠ 125

/-- It is the start that counts. -/
theorem Solid.append {t : Text} (h : Solid t) (rest : Text) : Solid (t ++ rest) := by
  obtain ⟨b, u, rfl, hb⟩ := h
  exact ⟨b, u ++ rest, rfl, hb⟩

/-- Behind blanks a part starts. -/
theorem Solid.skipBlanks {t gap : Text} (h : Solid t) (hgap : Blank gap) : skipBlanks (gap ++ t) = t := by
  obtain ⟨b, u, rfl, hb, -⟩ := h
  rw [skipBlanks_append hgap, skipBlanks_cons hb]

/-- What may follow a value: nothing, a blank, a comma, or the end of what it is in. -/
def enders : Text := 44 :: 93 :: 125 :: blanks

/-- A text behind a value. -/
def Closes (rest : Text) : Prop := ∀ b ∈ rest.head?, b ∈ enders

/-- A value may end the text. -/
theorem closes_nil : Closes [] := nofun

/-- It is the first byte that counts. -/
theorem closes_cons {b : UInt8} (hb : b ∈ enders) (t : Text) : Closes (b :: t) := by
  intro c hc
  obtain rfl := Option.some.inj hc
  exact hb

/-- Blanks may stand before what may follow. -/
theorem closes_blank {gap rest : Text} (hgap : Blank gap) (hrest : Closes rest) : Closes (gap ++ rest) := by
  cases gap with
  | nil => exact hrest
  | cons b gap => exact closes_cons (List.mem_append_right [44, 93, 125] (hgap b List.mem_cons_self)) _

/-! ## Numbers

A number ends where no further byte could belong to it. Its parts are read one by one, and each of them
stops at the one behind it. -/

/-- Digits, at least one. -/
def Digits (t : Text) : Prop := t ≠ [] ∧ ∀ b ∈ t, isDigit b = true

/-- The whole part of a number: zero, or digits that do not start with it. -/
def Whole (t : Text) : Prop := Digits t ∧ (t = [48] ∨ t.head? ≠ some 48)

/-- A fraction that may be left out. -/
def Fraction (t : Text) : Prop := t = [] ∨ ∃ ds, Digits ds ∧ t = 46 :: ds

/-- An exponent with its sign that may be left out. -/
def Exponent (t : Text) : Prop :=
  t = [] ∨ ∃ sign ds, (sign = 43 ∨ sign = 45) ∧ Digits ds ∧ t = 101 :: sign :: ds

/-- The literal of a number. -/
inductive Numeral : Text → Prop where
  | mk {sign whole fraction exponent : Text} (hsign : sign = [] ∨ sign = [45]) (hwhole : Whole whole)
      (hfraction : Fraction fraction) (hexponent : Exponent exponent) :
      Numeral (sign ++ whole ++ fraction ++ exponent)

/-- A text that does not go on with a digit. -/
def Stops (rest : Text) : Prop := ∀ b ∈ rest.head?, isDigit b = false

/-- What may follow a value is no digit. -/
theorem Closes.stops {rest : Text} (h : Closes rest) : Stops rest := by
  have hdigit : enders.all (fun b => !isDigit b) = true := rfl
  intro b hb
  simpa using List.all_eq_true.mp hdigit b (h b hb)

/-- An exponent starts with no digit, whatever closes it. -/
theorem Exponent.stops {t rest : Text} (h : Exponent t) (hrest : Closes rest) : Stops (t ++ rest) := by
  obtain rfl | ⟨sign, ds, -, -, rfl⟩ := h
  · exact hrest.stops
  · rintro b ⟨⟩
    rfl

/-- A fraction starts with no digit. -/
theorem Fraction.stops {t rest : Text} (h : Fraction t) (hrest : Stops rest) : Stops (t ++ rest) := by
  obtain rfl | ⟨ds, -, rfl⟩ := h
  · exact hrest
  · rintro b ⟨⟩
    rfl

/-- All digits are read. -/
theorem Digits.read {ds rest : Text} (h : Digits ds) (hrest : Stops rest) :
    digits? (ds ++ rest) = some (ds, rest) := by
  have hstop : rest.takeWhile isDigit = [] ∧ rest.dropWhile isDigit = rest := by
    match rest with
    | [] => exact ⟨rfl, rfl⟩
    | b :: rest =>
      have hb : ¬ isDigit b = true := Bool.not_eq_true _ ▸ hrest b rfl
      exact ⟨List.takeWhile_cons_of_neg hb, List.dropWhile_cons_of_neg hb⟩
  obtain ⟨hne, hds⟩ := h
  rw [digits?, List.span_eq_takeWhile_dropWhile, List.takeWhile_append_of_pos hds,
    List.dropWhile_append_of_pos hds, hstop.1, hstop.2, List.append_nil]
  match ds, hne with
  | b :: ds, _ => rfl

/-- The whole part of a number is read. -/
theorem Whole.read {t rest : Text} (h : Whole t) (hrest : Stops rest) :
    whole? (t ++ rest) = some (t, rest) := by
  obtain ⟨hdigits, rfl | hhead⟩ := h
  · rfl
  match t, hdigits.1 with
  | b :: t, _ =>
    have hread := hdigits.read hrest
    rw [List.cons_append] at hread ⊢
    -- Behind a zero nothing more is read, so the first digit must be looked at.
    unfold whole?
    split
    · next heq => exact absurd (congrArg some (List.cons.inj heq).1) hhead
    · exact hread

/-- Where no point follows, no fraction is read. -/
theorem fraction?_none {t : Text} (h : t.head? ≠ some 46) : fraction? t = some ([], t) := by
  unfold fraction?
  split
  · exact absurd rfl h
  · rfl

/-- A fraction is read, or there is none. -/
theorem Fraction.read {t rest : Text} (h : Fraction t) (hrest : Stops rest) (hpoint : rest.head? ≠ some 46) :
    fraction? (t ++ rest) = some (t, rest) := by
  obtain rfl | ⟨ds, hds, rfl⟩ := h
  · exact fraction?_none hpoint
  · show (digits? (ds ++ rest)).map _ = _
    rw [hds.read hrest]
    rfl

/-- What may follow a value starts no exponent. -/
theorem exponent?_closes {rest : Text} (h : Closes rest) : exponent? rest = some ([], rest) := by
  have hmark : enders.all (fun b => !(b == 101 || b == 69)) = true := rfl
  match rest with
  | [] => rfl
  | b :: rest =>
    have hb : ¬ (b == 101 || b == 69) = true := by
      simpa using List.all_eq_true.mp hmark b (h b rfl)
    unfold exponent?
    dsimp only
    rw [if_neg hb]

/-- An exponent is read, or there is none. -/
theorem Exponent.read {t rest : Text} (h : Exponent t) (hrest : Closes rest) :
    exponent? (t ++ rest) = some (t, rest) := by
  obtain rfl | ⟨sign, ds, hsign, hds, rfl⟩ := h
  · exact exponent?_closes hrest
  · have hmark : (sign == 43 || sign == 45) = true := by
      obtain rfl | rfl := hsign <;> rfl
    show (if (sign == 43 || sign == 45) = true then (digits? (ds ++ rest)).map _ else _) = _
    rw [if_pos hmark, hds.read hrest.stops]
    rfl

/-- The parts of a number behind its sign. -/
def unsigned? (sign t : Text) : Option (Text × Text) := do
  let (whole, t) ← whole? t
  let (fraction, t) ← fraction? t
  let (exponent, t) ← exponent? t
  pure (sign ++ whole ++ fraction ++ exponent, t)

/-- Without a sign a number starts with its whole part. -/
theorem number?_unsigned {t : Text} (h : t.head? ≠ some 45) : number? t = unsigned? [] t := by
  rw [number?]
  · rfl
  · rintro u rfl
    exact h rfl

/-- The parts of a number are read one after the other. -/
theorem unsigned?_parts (sign : Text) {whole fraction exponent rest : Text} (hwhole : Whole whole)
    (hfraction : Fraction fraction) (hexponent : Exponent exponent) (hrest : Closes rest) :
    unsigned? sign (whole ++ (fraction ++ (exponent ++ rest))) =
      some (sign ++ whole ++ fraction ++ exponent, rest) := by
  have hstops := hexponent.stops hrest
  have hpoint : (exponent ++ rest).head? ≠ some 46 := by
    have hends : (46 : UInt8) ∉ enders := by decide
    obtain rfl | ⟨-, -, -, -, rfl⟩ := hexponent
    · exact fun h => hends (hrest 46 h)
    · exact nofun
  simp only [unsigned?, hwhole.read (hfraction.stops hstops), hfraction.read hstops hpoint,
    hexponent.read hrest, Option.bind_eq_bind, Option.bind_some, Option.pure_def]

/-- A number is read as a whole. -/
theorem number?_numeral {t rest : Text} (h : Numeral t) (hrest : Closes rest) :
    number? (t ++ rest) = some (t, rest) := by
  cases h with
  | @mk sign whole fraction exponent hsign hwhole hfraction hexponent =>
    have hparts := unsigned?_parts sign hwhole hfraction hexponent hrest
    rw [List.append_assoc, List.append_assoc, List.append_assoc]
    obtain rfl | rfl := hsign
    · rw [List.nil_append, number?_unsigned, hparts]
      match whole, hwhole.1.1 with
      | b :: whole, _ =>
        rintro ⟨⟩
        exact Bool.false_ne_true (hwhole.1.2 45 List.mem_cons_self)
    · exact hparts

/-- A number starts with a sign or a digit. -/
theorem Numeral.head {t : Text} (h : Numeral t) : ∃ b u, t = b :: u ∧ (b = 45 ∨ isDigit b = true) := by
  cases h with
  | @mk sign whole fraction exponent hsign hwhole _ _ =>
    obtain rfl | rfl := hsign
    · match whole, hwhole.1 with
      | b :: whole, hdigits => exact ⟨b, _, rfl, .inr (hdigits.2 b List.mem_cons_self)⟩
    · exact ⟨45, _, rfl, .inl rfl⟩

/-- The decimal digits of a number are digits. -/
theorem digits_ofNat (n : Nat) : Digits (Text.ofNat n) := ⟨ofNat_ne_nil n, fun _ => isDigit_of_mem_ofNat⟩

/-- They do not start with a zero, but for zero itself. -/
theorem whole_ofNat (n : Nat) : Whole (Text.ofNat n) := by
  refine ⟨digits_ofNat n, ?_⟩
  by_cases hn : n = 0
  · exact .inl (by rw [hn]; rfl)
  · exact .inr (head?_ofNat hn)

/-- The decimal text of an integer is the literal of a number. -/
theorem numeral_ofInt (i : Int) : Numeral (Text.ofInt i) := by
  have hparts (sign : Text) (hsign : sign = [] ∨ sign = [45]) (n : Nat) : Numeral (sign ++ Text.ofNat n) := by
    have h := Numeral.mk hsign (whole_ofNat n) (.inl rfl) (.inl rfl)
    rwa [List.append_nil, List.append_nil] at h
  cases i with
  | ofNat n => exact hparts [] (.inl rfl) n
  | negSucc n => exact hparts [45] (.inr rfl) (n + 1)

end Mundart.Json
