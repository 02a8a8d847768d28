import Mundart.Proofs.Token.Seam

/-!
# Texts made of lexemes

What the tokens of a text say does not depend on where the text stands, only on whether a word ends
right before it. A text that is put together from lexemes and blanks can therefore be scanned piece
by piece.

* **`contents_lexeme`** — a lexeme at the start of a text gives the first token, and the others are
  those of the text behind it;
* **`contents_skip`** — a byte at which no lexeme starts gives none;
* **`contents_sign`**, **`contents_digits`**, **`contents_quoted`** — the lexemes of lists and literals.
-/

namespace Mundart

namespace Token

/-- What a token says, wherever it stands. -/
def content (t : Token) : Kind × Text := (t.kind, t.value)

/-- What the tokens of a text say, given whether a word byte stands just before it. -/
def contents (afterWord : Bool) (t : Text) : List (Kind × Text) :=
  (scanFrom 0 afterWord 0 [] t).map content

/-- Whether a word byte stands just before what follows a text. -/
def afterText (afterWord : Bool) (t : Text) : Bool := t.foldl (fun _ b => Text.isWord b) afterWord

/-- Nothing says nothing. -/
@[simp] theorem contents_nil (afterWord : Bool) : contents afterWord [] = [] := rfl

/-- What the tokens of a source say. -/
theorem contents_scan (source : Text) : (scan source).map content = contents false source := rfl

variable {afterWord : Bool} {kind : Kind} {pattern : Pattern}

/-! ## One piece

What a text says is found piece by piece from its start: a lexeme, or a byte at which none starts. Only the
last byte of a piece matters to the next one. -/

/-- Positions and the tokens found before do not change what is found. -/
theorem map_content_scanFrom (position : Nat) (found : List Token) (t : Text) :
    (scanFrom 0 afterWord position found t).map content =
      (found.map content).reverse ++ contents afterWord t := by
  have hshift := scanFrom_shift position t 0 afterWord 0 []
  rw [Nat.zero_add, List.map_nil] at hshift
  rw [scanFrom_found, List.map_append, List.map_reverse, hshift, List.map_map]
  rfl

/-- The bytes of a lexeme are passed over. -/
theorem scanFrom_cover (found : List Token) (rest w : Text) : ∀ afterWord position,
    scanFrom w.length afterWord position found (w ++ rest) =
      scanFrom 0 (afterText afterWord w) (position + w.length) found rest := by
  induction w with
  | nil => exact fun _ _ => rfl
  | cons b w ih =>
    intro afterWord position
    show scanFrom w.length (Text.isWord b) (position + 1) found (w ++ rest) = _
    rw [ih, List.length_cons, Nat.add_right_comm, Nat.add_assoc]
    rfl

/-- A lexeme gives its token, and what follows it is scanned as if it stood behind the lexeme. -/
theorem contents_lexeme {w rest : Text} (hne : w ≠ [])
    (hlength : lexemeLength? afterWord (w ++ rest) = some w.length)
    (hkind : classify? w = some kind) :
    contents afterWord (w ++ rest) =
      (kind, valueOf kind w) :: contents (afterText afterWord w) rest := by
  obtain ⟨b, w, rfl⟩ := List.exists_cons_of_ne_nil hne
  have htake : (b :: w ++ rest).take (b :: w).length = b :: w := List.take_left
  have htoken : ofLexeme? 0 (b :: w) = some ⟨kind, valueOf kind (b :: w), 0⟩ := by
    rw [ofLexeme?, hkind]
    rfl
  unfold contents
  rw [List.cons_append] at hlength htake ⊢
  rw [scanFrom, hlength]
  dsimp only
  -- The bytes of the lexeme are covered, so that the scanner goes on behind them.
  rw [htake, htoken, List.length_cons, Nat.add_sub_cancel]
  dsimp only
  rw [scanFrom_cover, map_content_scanFrom]
  rfl

/-- A byte at which no lexeme starts gives no token. -/
theorem contents_skip {b : UInt8} {rest : Text} (h : lexemeLength? afterWord (b :: rest) = none) :
    contents afterWord (b :: rest) = contents (Text.isWord b) rest := by
  unfold contents
  rw [scanFrom, h]
  exact map_content_scanFrom 1 [] rest

/-! ## The rule that finds a lexeme

Rules are tried in their order. For a lexeme in a text it takes that its own rule finds it and that none of
those before finds anything, which their first bytes mostly decide. -/

/-- A pattern finds nothing at a byte that does not open it. -/
theorem find_eq_none {b : UInt8} {t : Text} (h : pattern.opens b = false) :
    pattern.find afterWord (b :: t) = none := by
  cases hfind : pattern.find afterWord (b :: t) with
  | none => rfl
  | some n =>
    have hopens := Pattern.opens_of_find hfind
    rw [h] at hopens
    exact nomatch hopens

/-- No text that starts with such a byte fits the pattern. -/
theorem fits_eq_false {b : UInt8} {t : Text} (h : pattern.opens b = false) :
    pattern.fits (b :: t) = false := by
  cases hfits : pattern.fits (b :: t) with
  | false => rfl
  | true =>
    have hopens := opens_of_fits hfits
    rw [h] at hopens
    exact nomatch hopens

/-- The rules before and behind the one at a position. -/
theorem rules_split {i : Nat} {r : Kind × Pattern} (h : rules[i]? = some r) :
    rules = rules.take i ++ r :: rules.drop (i + 1) := by
  obtain ⟨hi, hr⟩ := List.getElem?_eq_some_iff.mp h
  rw [← hr, List.getElem_cons_drop, List.take_append_drop]

/-- The first rule that finds something decides. -/
theorem lexemeLength?_of_rule {t : Text} {n : Nat} (i : Nat) (hrule : rules[i]? = some (kind, pattern))
    (hbefore : ∀ r ∈ rules.take i, r.2.find afterWord t = none)
    (hfind : pattern.find afterWord t = some n) : lexemeLength? afterWord t = some n := by
  unfold lexemeLength?
  rw [rules_split hrule, List.findSome?_append, List.findSome?_eq_none_iff.mpr hbefore,
    List.findSome?_cons, hfind]
  rfl

/-- The first rule that a lexeme fits decides. -/
theorem classify?_of_rule {t : Text} (i : Nat) (hrule : rules[i]? = some (kind, pattern))
    (hbefore : ∀ r ∈ rules.take i, r.2.fits t = false) (hfits : pattern.fits t = true) :
    classify? t = some kind := by
  have hnone : (rules.take i).find? (fun r => r.2.fits t) = none :=
    List.find?_eq_none.mpr fun r hr => by simp [hbefore r hr]
  unfold classify?
  rw [rules_split hrule, List.find?_append, hnone, List.find?_cons_of_pos (by simpa using hfits)]
  rfl

/-- No lexeme starts with a blank. -/
theorem not_opens_blank : ∀ r ∈ rules, r.2.opens 32 = false := by
  decide

/-- A blank gives no token. -/
theorem contents_blank (rest : Text) : contents afterWord (32 :: rest) = contents false rest := by
  refine contents_skip (List.findSome?_eq_none_iff.mpr fun r hr => ?_)
  exact find_eq_none (not_opens_blank r hr)

/-- A sign of one byte that no rule before its own starts with. -/
theorem contents_sign {b : UInt8} (i : Nat) (hrule : rules[i]? = some (kind, .signs [[b]]))
    (hbefore : ∀ r ∈ rules.take i, r.2.opens b = false) (hkind : kind ≠ .string)
    (hword : Text.isWord b = false) (rest : Text) :
    contents afterWord (b :: rest) = (kind, [b]) :: contents false rest := by
  have hfind : (Pattern.signs [[b]]).find afterWord (b :: rest) = some 1 := by
    simp [Pattern.find, Pattern.findChoice]
  -- The rules before its own find nothing at this byte, and its own finds the sign.
  have hlength : lexemeLength? afterWord ([b] ++ rest) = some [b].length :=
    lexemeLength?_of_rule i hrule (fun r hr => find_eq_none (hbefore r hr)) hfind
  have hclass : classify? [b] = some kind :=
    classify?_of_rule i hrule (fun r hr => fits_eq_false (hbefore r hr)) (by simp [Pattern.fits])
  have hvalue : valueOf kind [b] = [b] := by
    unfold valueOf
    split
    · exact absurd rfl hkind
    · rfl
  have hcontents := contents_lexeme (List.cons_ne_nil b []) hlength hclass
  rw [hvalue, show afterText afterWord [b] = Text.isWord b from rfl, hword] at hcontents
  exact hcontents

/-! ## Numbers and strings

The lexemes whose bytes are not spelled out by a rule. They are opened by bytes of their own, so that no
other rule comes into question. -/

/-- Digits are a number. -/
theorem classify?_digits {digits : Text} (hne : digits ≠ [])
    (hdigits : ∀ b ∈ digits, Text.isDigit b = true) : classify? digits = some .number := by
  obtain ⟨b, t, rfl⟩ := List.exists_cons_of_ne_nil hne
  obtain ⟨lexeme, hclass, hvalue⟩ := (carries_digits hdigits).classify
  rw [show valueOf .number lexeme = lexeme from rfl] at hvalue
  rw [hvalue, hclass]

/-- A run of digits is a number, if no digit follows it. -/
theorem contents_digits {digits rest : Text} (hne : digits ≠ [])
    (hdigits : ∀ b ∈ digits, Text.isDigit b = true) (hrest : Pattern.endsWord rest = true) :
    contents afterWord (digits ++ rest) =
      (.number, digits) :: contents (afterText afterWord digits) rest := by
  obtain ⟨b, t, rfl⟩ := List.exists_cons_of_ne_nil hne
  have hb := hdigits b List.mem_cons_self
  -- The rule for numbers is the sixteenth; no rule before it starts with a digit.
  have hbefore : ∀ r ∈ rules.take 15, r.2.opens b = false := by
    intro r hr
    have hnumber : ∀ r ∈ rules.take 15, r.1 ≠ .number := by decide
    by_contra hopens
    rw [Bool.not_eq_false] at hopens
    exact hnumber r hr (kind_of_opens_digit b hb r (List.mem_of_mem_take hr) hopens)
  -- What ends a word starts with no digit.
  have hstop : rest.takeWhile Text.isDigit = [] := by
    cases rest with
    | nil => rfl
    | cons c rest =>
      refine List.takeWhile_cons_of_neg fun hc => ?_
      simp [Pattern.endsWord, Text.isWord, hc] at hrest
  have hfind : Pattern.digits.find afterWord (b :: t ++ rest) = some (b :: t).length := by
    simp only [Pattern.find]
    rw [List.takeWhile_append_of_pos hdigits, hstop, List.append_nil, if_neg (by simp)]
  have hlength : lexemeLength? afterWord (b :: t ++ rest) = some (b :: t).length :=
    lexemeLength?_of_rule 15 rfl (fun r hr => find_eq_none (hbefore r hr)) hfind
  exact contents_lexeme hne hlength (classify?_digits hne hdigits)

/-- A text that can stand between quotes. -/
def Quotable (t : Text) : Prop := 34 ∉ t ∧ 10 ∉ t

instance (t : Text) : Decidable (Quotable t) := inferInstanceAs (Decidable (34 ∉ t ∧ 10 ∉ t))

/-- The closing quote is the first one. -/
theorem closingQuote_quotable {t : Text} (h : Quotable t) (rest : Text) : ∀ seen,
    Pattern.closingQuote seen (t ++ 34 :: rest) = some (seen + t.length + 1) := by
  induction t with
  | nil => exact fun _ => rfl
  | cons b t ih =>
    intro seen
    -- Neither a quote nor the end of a line is in the text.
    obtain ⟨hquote, hline⟩ := h
    rw [List.mem_cons, not_or] at hquote hline
    have hb : (b == 34) = false := beq_eq_false_iff_ne.mpr fun heq => hquote.1 heq.symm
    have hb' : (b == 10) = false := beq_eq_false_iff_ne.mpr fun heq => hline.1 heq.symm
    rw [List.cons_append, Pattern.closingQuote, hb, hb', if_neg Bool.false_ne_true,
      if_neg Bool.false_ne_true, ih ⟨hquote.2, hline.2⟩, List.length_cons]
    congr 1
    omega

/-- No rule before the one of strings is opened by a quote. -/
theorem not_opens_quote : ∀ r ∈ rules.take 16, r.2.opens 34 = false := by
  decide

/-- A text in quotes is a string. -/
theorem classify?_quoted {t : Text} (h : Quotable t) : classify? (34 :: (t ++ [34])) = some .string := by
  have hlast : ((34 : UInt8) :: (t ++ [34])).getLast? = some 34 := by
    rw [← List.cons_append, List.getLast?_concat]
  have hfits : Pattern.quoted.fits (34 :: (t ++ [34])) = true := by
    simp [Pattern.fits, hlast, h.2]
  exact classify?_of_rule 16 rfl (fun r hr => fits_eq_false (not_opens_quote r hr)) hfits

/-- A text in quotes is found whole, whatever follows. -/
theorem lexemeLength?_quotable {t : Text} (h : Quotable t) (afterWord : Bool) (rest : Text) :
    lexemeLength? afterWord (34 :: (t ++ [34]) ++ rest) = some (34 :: (t ++ [34])).length := by
  have hfind : Pattern.quoted.find afterWord (34 :: (t ++ [34]) ++ rest) =
      some (34 :: (t ++ [34])).length := by
    rw [List.cons_append, List.append_assoc, List.singleton_append]
    show Pattern.closingQuote 1 (t ++ 34 :: rest) = _
    rw [closingQuote_quotable h, List.length_cons, List.length_append, List.length_singleton]
    congr 1
    omega
  exact lexemeLength?_of_rule 16 rfl (fun r hr => find_eq_none (not_opens_quote r hr)) hfind

/-- A quoted text is a string, whatever follows it. -/
theorem contents_quoted {t : Text} (h : Quotable t) (rest : Text) :
    contents afterWord (34 :: (t ++ 34 :: rest)) = (.string, t) :: contents false rest := by
  have hcontents := contents_lexeme (List.cons_ne_nil 34 (t ++ [34]))
    (lexemeLength?_quotable h afterWord rest) (classify?_quoted h)
  -- The value is without the quotes.
  have hvalue : valueOf .string (34 :: (t ++ [34])) = t := by
    show (t ++ [34]).dropLast = t
    exact List.dropLast_concat
  have hend : afterText afterWord (34 :: (t ++ [34])) = false := by
    rw [afterText, List.foldl_cons, List.foldl_append]
    rfl
  rw [hvalue, hend, List.cons_append, List.append_assoc, List.singleton_append] at hcontents
  exact hcontents

/-- So a string may hold every text without quotes and line breaks. -/
theorem carries_quotable {t : Text} (h : Quotable t) : Kind.string.Carries t := by
  have hlength := lexemeLength?_quotable h false []
  rw [List.append_nil] at hlength
  refine ⟨34 :: (t ++ [34]), ?_⟩
  rw [scan_lexeme (List.cons_ne_nil _ _) hlength, ofLexeme?, classify?_quoted h]
  show [(⟨.string, (t ++ [34]).dropLast, 0⟩ : Token)] = _
  rw [List.dropLast_concat]

end Token

end Mundart
