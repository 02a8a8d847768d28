import Mathlib.Data.List.Nodup
import Mathlib.Data.List.TakeWhile
import Mundart.Token.Scan

/-!
# Lexemes on their own

A kind of token carries a value when the scanner reads the value, and nothing else, from some text
(`Kind.Carries`). The scanner finds lexemes inside a source, where the byte before and the bytes
behind decide with; this module shows that a lexeme found there is found again when it stands alone:

* **`lexemeLength?_take`** — the bytes of a lexeme are a lexeme of the same length by themselves.
* **`fits_of_mem_scan`** — hence every token of every source carries a value that fits its kind.
* **`Kind.Carries.mem_words`** — a keyword's or operator's value is one of the words of its rule.
-/

namespace Mundart

namespace Token

/-- A kind carries a value if the scanner reads it from some text that holds nothing else. -/
def Kind.Carries (kind : Kind) (value : Text) : Prop := ∃ lexeme, scan lexeme = [⟨kind, value, 0⟩]

/-- A token whose value fits its kind. -/
def Fits (t : Token) : Prop := t.kind.Carries t.value

/-! ## Scanning a text that is one lexeme

By induction on the text. What the scanner has found so far is an argument of it, so that the statements are
about all that it may have found. -/

/-- Nothing more is found in the bytes that belong to the last lexeme. -/
theorem scanFrom_covered (found : List Token) (t : Text) :
    ∀ n afterWord position, t.length ≤ n → scanFrom n afterWord position found t = found.reverse := by
  induction t with
  | nil => intro n afterWord position _; cases n <;> rfl
  | cons b t ih =>
    intro n afterWord position h
    cases n with
    | zero => simp at h
    | succ n =>
      rw [show scanFrom (n + 1) afterWord position found (b :: t)
            = scanFrom n (Text.isWord b) (position + 1) found t from rfl]
      exact ih n _ _ (by simpa using h)

/-- A text that is found as one lexeme gives that lexeme's token alone. -/
theorem scan_lexeme {w : Text} (hne : w ≠ []) (h : lexemeLength? false w = some w.length) :
    scan w = (ofLexeme? 0 w).toList := by
  cases w with
  | nil => exact absurd rfl hne
  | cons b t =>
    unfold scan
    rw [scanFrom, h]
    simp only
    -- The lexeme covers all bytes behind the first one.
    rw [List.take_length, List.length_cons, Nat.add_sub_cancel,
      scanFrom_covered _ t t.length _ _ (Nat.le_refl _)]
    cases ofLexeme? 0 (b :: t) <;> rfl

/-- Every token comes from a lexeme that was found somewhere in the source. -/
theorem mem_scanFrom {token : Token} (t : Text) :
    ∀ covered afterWord position found, token ∈ scanFrom covered afterWord position found t →
      token ∈ found ∨ ∃ (seen : Bool) (rest : Text) (n place : Nat),
        lexemeLength? seen rest = some n ∧ ofLexeme? place (rest.take n) = some token := by
  -- By induction on the text; a token that is not among those found is found further on.
  induction t with
  | nil =>
    intro covered afterWord position found h
    cases covered <;> exact Or.inl (List.mem_reverse.mp h)
  | cons b t ih =>
    intro covered afterWord position found h
    cases covered with
    | succ n => exact ih n _ _ _ h
    | zero =>
      rw [scanFrom] at h
      split at h
      · exact ih _ _ _ _ h
      · next n hn =>
        rcases ih _ _ _ _ h with hfound | hlater
        · cases hl : ofLexeme? position ((b :: t).take n) with
          | none => rw [hl] at hfound; exact Or.inl hfound
          | some new =>
            rw [hl] at hfound
            rcases List.mem_cons.mp hfound with rfl | hold
            · exact Or.inr ⟨afterWord, b :: t, n, position, hn, hl⟩
            · exact Or.inl hold
        · exact Or.inr hlater

end Token

/-! ## What a pattern finds

Two facts about each pattern are enough for most of what follows: what it finds is a start of the text, and
it starts with one of the bytes that open the pattern. -/

namespace Pattern

/-- What is found among some texts is one of them, stands at the start and is followed as it should be. -/
theorem findChoice_eq_some {followed : Text → Bool} {choices : List Text} {t : Text} {n : Nat}
    (h : findChoice followed choices t = some n) :
    ∃ w ∈ choices, w.isPrefixOf t = true ∧ followed (t.drop w.length) = true ∧ n = w.length := by
  obtain ⟨w, hw, hn⟩ := Option.map_eq_some_iff.mp h
  have hp := List.find?_some hw
  rw [Bool.and_eq_true] at hp
  exact ⟨w, List.mem_of_find?_eq_some hw, hp.1, hp.2, hn.symm⟩

/-- The start of a text is what was spelled. -/
theorem take_of_isPrefixOf {w t : Text} (h : w.isPrefixOf t = true) : t.take w.length = w := by
  obtain ⟨rest, rfl⟩ := List.isPrefixOf_iff_prefix.mp h
  exact List.take_left

/-- The words or signs that a pattern spells out. -/
def spelled : Pattern → List Text
  | .word words => words
  | .signs choices => choices
  | _ => []

/-- Whether a pattern may start with a byte. -/
def opens (p : Pattern) (b : UInt8) : Bool :=
  match p with
  | .word words => words.any fun w => w.isEmpty || w.head? == some b
  | .signs choices => choices.any fun w => w.isEmpty || w.head? == some b
  | .twoWords first _ => first.isEmpty || first.head? == some b
  | .digits => Text.isDigit b
  | .quoted => b == 34
  | .name => Text.isNameStart b

/-- A text that is spelled out starts with the first byte of the text. -/
theorem head_of_isPrefixOf {w t : Text} {b : UInt8} (h : w.isPrefixOf (b :: t) = true) :
    (w.isEmpty || w.head? == some b) = true := by
  cases w with
  | nil => rfl
  | cons c u =>
    simp only [List.isPrefixOf, Bool.and_eq_true, beq_iff_eq] at h
    simp [h.1]

/-- What a pattern finds starts with a byte that opens it. -/
theorem opens_of_find {p : Pattern} {afterWord : Bool} {b : UInt8} {t : Text} {n : Nat}
    (h : p.find afterWord (b :: t) = some n) : p.opens b = true := by
  -- one case for each sort of pattern
  cases p with
  | word words =>
    simp only [Pattern.find] at h
    split at h
    · exact absurd h (by simp)
    · obtain ⟨w, hw, hp, -, -⟩ := findChoice_eq_some h
      exact List.any_eq_true.mpr ⟨w, hw, head_of_isPrefixOf hp⟩
  | twoWords first second =>
    simp only [Pattern.find] at h
    split at h
    · exact absurd h (by simp)
    · next hp =>
      simp only [Bool.or_eq_true, Bool.not_eq_true', not_or, Bool.not_eq_false] at hp
      exact head_of_isPrefixOf hp.2
  | signs choices =>
    simp only [Pattern.find] at h
    obtain ⟨w, hw, hp, -, -⟩ := findChoice_eq_some h
    exact List.any_eq_true.mpr ⟨w, hw, head_of_isPrefixOf hp⟩
  | digits =>
    show Text.isDigit b = true
    by_contra hb
    simp [Pattern.find, hb] at h
  | quoted =>
    show (b == 34) = true
    by_contra hb
    have hne : b ≠ 34 := by simpa using hb
    simp [Pattern.find, hne] at h
  | name =>
    show Text.isNameStart b = true
    by_contra hb
    simp [Pattern.find, hb] at h

end Pattern

/-! ## The first byte decides

A fact about all bytes is checked on each of the 256. -/

namespace Token

/-- What holds of the 256 bytes holds of every byte. -/
theorem forall_byte (P : UInt8 → Prop) (h : ∀ n < 256, P (UInt8.ofNat n)) (b : UInt8) : P b := by
  have hb := h b.toNat b.toNat_lt
  rwa [UInt8.ofNat_toNat] at hb

/-- A blank is no word byte. -/
theorem not_isWord_of_isSpace (b : UInt8) : Text.isSpace b = true → Text.isWord b = false :=
  forall_byte (fun b => Text.isSpace b = true → Text.isWord b = false) (by decide +kernel) b

/-- No name starts with a digit. -/
theorem not_isNameStart_of_isDigit (b : UInt8) :
    Text.isDigit b = true → Text.isNameStart b = false :=
  forall_byte (fun b => Text.isDigit b = true → Text.isNameStart b = false) (by decide +kernel) b

/-- Only the rule of numbers opens with a digit. -/
theorem kind_of_opens_digit (b : UInt8) :
    Text.isDigit b = true → ∀ r ∈ rules, r.2.opens b = true → r.1 = .number :=
  forall_byte (fun b => Text.isDigit b = true → ∀ r ∈ rules, r.2.opens b = true → r.1 = .number)
    (by decide +kernel) b

/-- A kind has one rule. -/
theorem rule_unique {r r' : Kind × Pattern} (hr : r ∈ rules) (hr' : r' ∈ rules) (h : r.1 = r'.1) :
    r = r' :=
  List.inj_on_of_nodup_map (f := Prod.fst) (by decide) hr hr' h

/-- Only the rule of strings opens with a quote. -/
theorem kind_of_opens_quote : ∀ r ∈ rules, r.2.opens 34 = true → r.1 = .string := by
  decide

/-- No sign opens where a name may start. -/
theorem not_opens_signs (b : UInt8) :
    Text.isNameStart b = true → ∀ r ∈ rules, ∀ choices, r.2 = .signs choices → r.2.opens b = false := by
  have hall : ∀ b : UInt8, Text.isNameStart b = true → ∀ r ∈ rules,
      (match r.2 with
        | .signs _ => r.2.opens b
        | _ => false) = false :=
    forall_byte _ (by decide +kernel)
  intro hb r hr choices hp
  have h := hall b hb r hr
  rwa [hp] at h ⊢

/-- A text of word bytes that may be a name is found whole by every rule that finds anything in it. -/
theorem find_wordBytes {r : Kind × Pattern} (hr : r ∈ rules) {b : UInt8} {t : Text} {n : Nat}
    (hb : Text.isNameStart b = true) (ht : ∀ c ∈ t, Text.isWord c = true)
    (h : r.2.find false (b :: t) = some n) : n = (b :: t).length := by
  have hword : ∀ c ∈ b :: t, Text.isWord c = true := by
    intro c hc
    rcases List.mem_cons.mp hc with rfl | hc
    · exact Text.isWord_of_isNameStart hb
    · exact ht c hc
  have hopens := Pattern.opens_of_find h
  cases hp : r.2 with
  | word words =>
    rw [hp] at h
    obtain ⟨w, -, hpre, hends, rfl⟩ := Pattern.findChoice_eq_some (by simpa [Pattern.find] using h)
    -- a byte behind the word would be a word byte, so there is none
    have hdrop : (b :: t).drop w.length = [] := by
      cases hd : (b :: t).drop w.length with
      | nil => rfl
      | cons c u =>
        have hc : c ∈ b :: t := List.mem_of_mem_drop (by rw [hd]; exact List.mem_cons_self)
        rw [hd] at hends
        simp [Pattern.endsWord, hword c hc] at hends
    have hle := List.drop_eq_nil_iff.mp hdrop
    have hge := (List.isPrefixOf_iff_prefix.mp hpre).length_le
    omega
  | twoWords first second =>
    rw [hp] at h
    simp only [Pattern.find] at h
    split at h
    · exact absurd h (by simp)
    · split at h
      · exact absurd h (by simp)
      · next hblanks =>
        -- a blank between the two words would be a word byte
        have hpos : 0 < (((b :: t).drop first.length).takeWhile Text.isSpace).length := by omega
        obtain ⟨c, hc⟩ := List.exists_mem_of_length_pos hpos
        have hmem := List.mem_of_mem_drop ((List.takeWhile_sublist _).subset hc)
        have hnot := not_isWord_of_isSpace c (List.mem_takeWhile_imp hc)
        rw [hword c hmem] at hnot
        exact absurd hnot (by simp)
  | signs choices =>
    rw [not_opens_signs b hb r hr choices hp] at hopens
    exact absurd hopens (by simp)
  | digits =>
    rw [hp] at hopens
    exact absurd hb (by rw [not_isNameStart_of_isDigit b hopens]; simp)
  | quoted =>
    rw [hp] at hopens
    rw [show b = 34 from by simpa [Pattern.opens] using hopens] at hb
    exact absurd hb (by decide)
  | name =>
    rw [hp] at h
    simp only [Pattern.find, hb, if_true, Option.some.injEq] at h
    rw [List.takeWhile_eq_self_iff.mpr ht] at h
    rw [← h, List.length_cons]
    omega

/-! ## Lexemes stand alone

For each pattern: what it finds in a text is found whole, by the rules in their order, when it
stands alone. Spelled words and signs are finitely many and are checked one by one. -/

/-- If every rule that finds something finds all of a text, and some rule does, then the first one
does. -/
theorem findSome?_find_eq {rs : List (Kind × Pattern)} {r : Kind × Pattern} {w : Text} (hr : r ∈ rs)
    (hfound : r.2.find false w = some w.length)
    (hall : ∀ r ∈ rs, ∀ n, r.2.find false w = some n → n = w.length) :
    rs.findSome? (fun r => r.2.find false w) = some w.length := by
  cases h : rs.findSome? (fun r => r.2.find false w) with
  | none =>
    have hnone := List.findSome?_eq_none_iff.mp h r hr
    rw [hfound] at hnone
    exact absurd hnone (by simp)
  | some n =>
    obtain ⟨r', hr', hn⟩ := List.exists_of_findSome?_eq_some h
    rw [hall r' hr' n hn]

/-- Words and signs are found whole. -/
theorem lexemeLength?_spelled :
    ∀ r ∈ rules, ∀ w ∈ r.2.spelled, w ≠ [] ∧ lexemeLength? false w = some w.length := by
  decide

/-- A name is found whole, by its own rule or by that of a keyword. -/
theorem lexemeLength?_name {b : UInt8} {t : Text} (hb : Text.isNameStart b = true)
    (ht : ∀ c ∈ t, Text.isWord c = true) :
    lexemeLength? false (b :: t) = some (b :: t).length := by
  have hmem : (Kind.identifier, Pattern.name) ∈ rules := by simp [rules]
  refine findSome?_find_eq hmem ?_ fun r hr n h => find_wordBytes hr hb ht h
  simp only [Pattern.find, hb, if_true, List.takeWhile_eq_self_iff.mpr ht, List.length_cons]
  rw [Nat.add_comm]

/-- A run of digits is found whole on its own. -/
theorem lexemeLength?_digits {b : UInt8} {t : Text} (h : ∀ c ∈ b :: t, Text.isDigit c = true) :
    lexemeLength? false (b :: t) = some (b :: t).length := by
  have hmem : (Kind.number, Pattern.digits) ∈ rules := by simp [rules]
  have hfound : Pattern.digits.find false (b :: t) = some (b :: t).length := by
    simp [Pattern.find, List.takeWhile_eq_self_iff.mpr h]
  -- No other rule opens with a digit, so the rule of numbers is the only one to look at.
  refine findSome?_find_eq hmem hfound fun r hr n hn => ?_
  have hkind := kind_of_opens_digit b (h b List.mem_cons_self) r hr (Pattern.opens_of_find hn)
  rw [rule_unique hr hmem hkind, hfound] at hn
  exact (Option.some.inj hn).symm

/-- The bytes up to the closing quote have their closing quote in the same place. -/
theorem closingQuote_take (t : Text) :
    ∀ seen n, Pattern.closingQuote seen t = some n →
      seen < n ∧ n - seen ≤ t.length ∧ Pattern.closingQuote seen (t.take (n - seen)) = some n := by
  induction t with
  | nil => intro seen n h; exact absurd h (by simp [Pattern.closingQuote])
  | cons b t ih =>
    intro seen n h
    rw [Pattern.closingQuote] at h
    split at h
    -- The closing quote is the next byte, and one byte is taken.
    · next hb =>
      obtain rfl : seen + 1 = n := Option.some.inj h
      refine ⟨by omega, by simp, ?_⟩
      rw [show seen + 1 - seen = 1 from by omega]
      simp [Pattern.closingQuote, hb]
    · next hb =>
      split at h
      · exact absurd h (by simp)
      · next hline =>
        obtain ⟨hlt, hle, hrec⟩ := ih (seen + 1) n h
        refine ⟨by omega, by rw [List.length_cons]; omega, ?_⟩
        rw [show n - seen = (n - (seen + 1)) + 1 from by omega, List.take_succ_cons,
          Pattern.closingQuote, if_neg hb, if_neg hline]
        exact hrec

/-- A text in quotes is found whole on its own. -/
theorem lexemeLength?_quoted {t : Text} {n : Nat} (h : Pattern.closingQuote 1 t = some n) :
    ((34 : UInt8) :: t).take n ≠ [] ∧
      lexemeLength? false (((34 : UInt8) :: t).take n)
        = some (((34 : UInt8) :: t).take n).length := by
  obtain ⟨hlt, hle, hrec⟩ := closingQuote_take t 1 n h
  have htake : ((34 : UInt8) :: t).take n = 34 :: t.take (n - 1) := by
    rw [show n = (n - 1) + 1 from by omega, List.take_succ_cons, Nat.add_sub_cancel]
  have hmem : (Kind.string, Pattern.quoted) ∈ rules := by simp [rules]
  rw [htake]
  -- The closing quote is found again in what was taken up to it.
  have hfound : Pattern.quoted.find false (34 :: t.take (n - 1))
      = some ((34 : UInt8) :: t.take (n - 1)).length := by
    rw [show Pattern.quoted.find false (34 :: t.take (n - 1))
          = Pattern.closingQuote 1 (t.take (n - 1)) from rfl, hrec, List.length_cons,
      List.length_take, show min (n - 1) t.length + 1 = n from by omega]
  refine ⟨by simp, findSome?_find_eq hmem hfound fun r hr m hm => ?_⟩
  have hkind := kind_of_opens_quote r hr (Pattern.opens_of_find hm)
  rw [rule_unique hr hmem hkind, hfound] at hm
  exact (Option.some.inj hm).symm

/-- There is one keyword of two words. -/
theorem rule_twoWords {r : Kind × Pattern} (hr : r ∈ rules) {first second : Text}
    (hp : r.2 = .twoWords first second) : r = (.whileWord, .twoWords "geh" "weida") := by
  have hall : ∀ r ∈ rules, (match r.2 with | .twoWords _ _ => r.1 == .whileWord | _ => true) = true := by
    decide
  have hkind := hall r hr
  rw [hp] at hkind
  exact rule_unique hr (by simp [rules]) (by simpa using hkind)

/-- No spelled word starts with the first word of the two, or is a start of it. -/
theorem spelled_ne_geh :
    ∀ r ∈ rules, ∀ w ∈ r.2.spelled, (w.take 3).isPrefixOf (utf8 "geh") = false := by
  decide

/-- So none of them is found where this word stands. -/
theorem not_isPrefixOf_geh {r : Kind × Pattern} (hr : r ∈ rules) {w t : Text} (hw : w ∈ r.2.spelled) :
    w.isPrefixOf (utf8 "geh" ++ t) = false := by
  by_contra h
  rw [Bool.not_eq_false] at h
  -- Three bytes are enough to tell: that is the length of the first word.
  have hpre : w.take 3 <+: utf8 "geh" ++ t :=
    (List.take_prefix 3 w).trans (List.isPrefixOf_iff_prefix.mp h)
  have htake := List.prefix_take_iff.mpr ⟨hpre, List.length_take_le 3 w⟩
  rw [show (utf8 "geh" ++ t).take 3 = utf8 "geh" from rfl] at htake
  have hnot := spelled_ne_geh r hr w hw
  rw [List.isPrefixOf_iff_prefix.mpr htake] at hnot
  exact absurd hnot (by simp)

/-- Besides the keyword of two words only a name is found where its first word stands. -/
theorem kind_of_find_geh {r : Kind × Pattern} (hr : r ∈ rules) {t : Text} {n : Nat}
    (h : r.2.find false (utf8 "geh" ++ t) = some n) : r.1 = .whileWord ∨ r.1 = .identifier := by
  -- The first byte is a letter, which opens neither digits nor quotes.
  have hopens : r.2.opens 103 = true := Pattern.opens_of_find h
  cases hp : r.2 with
  | word words =>
    rw [hp] at h
    obtain ⟨w, hw, hpre, -, -⟩ := Pattern.findChoice_eq_some (by simpa [Pattern.find] using h)
    rw [not_isPrefixOf_geh hr (by rw [hp]; exact hw)] at hpre
    exact absurd hpre (by simp)
  | signs choices =>
    rw [hp] at h
    simp only [Pattern.find] at h
    obtain ⟨w, hw, hpre, -, -⟩ := Pattern.findChoice_eq_some h
    rw [not_isPrefixOf_geh hr (by rw [hp]; exact hw)] at hpre
    exact absurd hpre (by simp)
  | digits => rw [hp] at hopens; exact absurd hopens (by decide)
  | quoted => rw [hp] at hopens; exact absurd hopens (by decide)
  | twoWords first second => exact Or.inl (by rw [rule_twoWords hr hp])
  | name =>
    have hall : ∀ r ∈ rules, (match r.2 with | .name => r.1 == .identifier | _ => true) = true := by
      decide
    have hkind := hall r hr
    rw [hp] at hkind
    exact Or.inr (by simpa using hkind)

/-- The keyword of two words is found by its own rule, with as many blanks as there are. -/
theorem find_twoWords {blanks t : Text} (hne : blanks ≠ [])
    (hblanks : ∀ c ∈ blanks, Text.isSpace c = true) (ht : Pattern.endsWord t = true) :
    (Pattern.twoWords "geh" "weida").find false (utf8 "geh" ++ (blanks ++ (utf8 "weida" ++ t)))
      = some (3 + blanks.length + 5) := by
  -- The blanks end where the second word begins.
  have htake : (blanks ++ (utf8 "weida" ++ t)).takeWhile Text.isSpace = blanks := by
    rw [List.takeWhile_append_of_pos hblanks]
    exact List.append_nil blanks
  have hsecond : Pattern.findChoice Pattern.endsWord [utf8 "weida"] (utf8 "weida" ++ t) = some 5 := by
    have hpre : (utf8 "weida").isPrefixOf (utf8 "weida" ++ t) = true :=
      List.isPrefixOf_iff_prefix.mpr (List.prefix_append _ _)
    have hends : Pattern.endsWord ((utf8 "weida" ++ t).drop (utf8 "weida").length) = true := by
      rw [List.drop_left]; exact ht
    rw [Pattern.findChoice, List.find?_cons_of_pos (by rw [hpre, hends]; rfl)]
    rfl
  show (if ((blanks ++ (utf8 "weida" ++ t)).takeWhile Text.isSpace).length = 0 then none
      else (Pattern.findChoice Pattern.endsWord [utf8 "weida"] ((blanks ++ (utf8 "weida" ++ t)).drop
        ((blanks ++ (utf8 "weida" ++ t)).takeWhile Text.isSpace).length)).map
          fun n => 3 + ((blanks ++ (utf8 "weida" ++ t)).takeWhile Text.isSpace).length + n) = _
  rw [htake, if_neg (by simpa using hne), List.drop_left, hsecond]
  rfl

/-- The keyword of two words is found whole on its own, whatever blanks are between them. -/
theorem lexemeLength?_twoWords {blanks : Text} (hne : blanks ≠ [])
    (hblanks : ∀ c ∈ blanks, Text.isSpace c = true) :
    lexemeLength? false (utf8 "geh" ++ (blanks ++ utf8 "weida"))
      = some (utf8 "geh" ++ (blanks ++ utf8 "weida")).length := by
  have hlen : (utf8 "geh" ++ (blanks ++ utf8 "weida")).length = 3 + blanks.length + 5 := by
    rw [List.length_append, List.length_append, show (utf8 "geh").length = 3 from by decide,
      show (utf8 "weida").length = 5 from by decide]
    omega
  have hfound := find_twoWords (t := []) hne hblanks rfl
  rw [List.append_nil, ← hlen] at hfound
  -- only the rule of names finds less, and it comes last
  have hsplit : rules = rules.dropLast ++ [(.identifier, .name)] := rfl
  have hmem : (Kind.whileWord, Pattern.twoWords "geh" "weida") ∈ rules.dropLast := by simp [rules]
  have hlast : ∀ r ∈ rules.dropLast, r ∈ rules ∧ r.1 ≠ .identifier := by
    intro r hr
    have hne : ∀ r ∈ rules.dropLast, r.1 ≠ .identifier := by decide
    exact ⟨List.mem_of_mem_take (List.dropLast_eq_take ▸ hr), hne r hr⟩
  unfold lexemeLength?
  rw [hsplit, List.findSome?_append, findSome?_find_eq hmem hfound ?_]
  · rfl
  · intro r hr n hn
    rcases kind_of_find_geh (hlast r hr).1 hn with hkind | hkind
    · rw [rule_unique (hlast r hr).1 (hlast _ hmem).1 hkind, hfound] at hn
      exact (Option.some.inj hn).symm
    · exact absurd hkind (hlast r hr).2

/-- The keyword of two words is its first word, blanks and its second word, with nothing of a word before
or behind it. -/
theorem take_of_find_twoWords {afterWord : Bool} {t : Text} {n : Nat}
    (h : (Pattern.twoWords "geh" "weida").find afterWord t = some n) :
    ∃ blanks : Text, blanks ≠ [] ∧ (∀ c ∈ blanks, Text.isSpace c = true) ∧
      t.take n = utf8 "geh" ++ (blanks ++ utf8 "weida") ∧ afterWord = false ∧
      Pattern.endsWord (t.drop n) = true := by
  simp only [Pattern.find] at h
  split at h
  · exact absurd h (by simp)
  · next hfirst =>
    simp only [Bool.or_eq_true, Bool.not_eq_true', not_or, Bool.not_eq_false, Bool.not_eq_true] at hfirst
    obtain ⟨hbefore, hpre⟩ := hfirst
    obtain ⟨rest, rfl⟩ := List.isPrefixOf_iff_prefix.mp hpre
    rw [List.drop_left] at h
    split at h
    · exact absurd h (by simp)
    · next hpos =>
      obtain ⟨m, hm, rfl⟩ := Option.map_eq_some_iff.mp h
      obtain ⟨w, hw, hsecond, hends, rfl⟩ := Pattern.findChoice_eq_some hm
      obtain rfl := List.mem_singleton.mp hw
      obtain ⟨u, hu⟩ := List.isPrefixOf_iff_prefix.mp hsecond
      rw [← hu, List.drop_left] at hends
      -- What stands behind the first word: all its blanks, the second word, and the rest.
      have hrest : rest = rest.takeWhile Text.isSpace ++ (utf8 "weida" ++ u) := by
        rw [hu]
        exact (List.prefix_iff_eq_append.mp (List.takeWhile_prefix _)).symm
      have hblanks : ∀ c ∈ rest.takeWhile Text.isSpace, Text.isSpace c = true :=
        fun c hc => List.mem_takeWhile_imp hc
      generalize rest.takeWhile Text.isSpace = blanks at hrest hblanks hpos
      subst hrest
      have hlength : (utf8 "geh").length + blanks.length + (utf8 "weida").length =
          (utf8 "geh" ++ (blanks ++ utf8 "weida")).length := by
        rw [List.length_append, List.length_append, Nat.add_assoc]
      refine ⟨blanks, List.ne_nil_of_length_pos (Nat.pos_of_ne_zero hpos), hblanks, ?_, hbefore, ?_⟩
      · rw [← List.append_assoc blanks, ← List.append_assoc]
        exact List.take_left' hlength.symm
      · rw [← List.append_assoc blanks, ← List.append_assoc, List.drop_left' hlength.symm]
        exact hends

/-- **A lexeme stands alone.** What the scanner finds in a text is found again, whole, when nothing
stands before or behind it. -/
theorem lexemeLength?_take {afterWord : Bool} {t : Text} {n : Nat}
    (h : lexemeLength? afterWord t = some n) :
    t.take n ≠ [] ∧ lexemeLength? false (t.take n) = some (t.take n).length := by
  obtain ⟨r, hr, hn⟩ := List.exists_of_findSome?_eq_some h
  -- By the rule that found the lexeme.
  cases hp : r.2 with
  | word words =>
    rw [hp] at hn
    simp only [Pattern.find] at hn
    split at hn
    · exact absurd hn (by simp)
    · obtain ⟨w, hw, hpre, -, rfl⟩ := Pattern.findChoice_eq_some hn
      rw [Pattern.take_of_isPrefixOf hpre]
      exact lexemeLength?_spelled r hr w (by rw [hp]; exact hw)
  | signs choices =>
    rw [hp] at hn
    simp only [Pattern.find] at hn
    obtain ⟨w, hw, hpre, -, rfl⟩ := Pattern.findChoice_eq_some hn
    rw [Pattern.take_of_isPrefixOf hpre]
    exact lexemeLength?_spelled r hr w (by rw [hp]; exact hw)
  -- Runs of digits and names end where another byte follows, and alone they end with the text.
  | digits =>
    rw [hp] at hn
    simp only [Pattern.find] at hn
    split at hn
    · exact absurd hn (by simp)
    · next hpos =>
      obtain rfl := Option.some.inj hn
      rw [← List.prefix_iff_eq_take.mp (List.takeWhile_prefix _)]
      have hall : ∀ c ∈ t.takeWhile Text.isDigit, Text.isDigit c = true :=
        fun c hc => List.mem_takeWhile_imp hc
      cases hd : t.takeWhile Text.isDigit with
      | nil => rw [hd] at hpos; exact absurd rfl hpos
      | cons b u =>
        rw [hd] at hall
        exact ⟨by simp, lexemeLength?_digits hall⟩
  | quoted =>
    rw [hp] at hn
    cases t with
    | nil => exact absurd hn (by simp [Pattern.find])
    | cons b t =>
      have hb : b = 34 := by simpa [Pattern.opens] using Pattern.opens_of_find hn
      subst hb
      exact lexemeLength?_quoted hn
  | name =>
    rw [hp] at hn
    cases t with
    | nil => exact absurd hn (by simp [Pattern.find])
    | cons b t =>
      have hb : Text.isNameStart b = true := Pattern.opens_of_find hn
      simp only [Pattern.find, hb, if_true, Option.some.injEq] at hn
      subst hn
      rw [Nat.add_comm, List.take_succ_cons,
        ← List.prefix_iff_eq_take.mp (List.takeWhile_prefix _)]
      exact ⟨by simp, lexemeLength?_name hb fun c hc => List.mem_takeWhile_imp hc⟩
  | twoWords first second =>
    rw [rule_twoWords hr hp] at hn
    obtain ⟨blanks, hne, hblanks, htake, -⟩ := take_of_find_twoWords hn
    rw [htake]
    exact ⟨by simp [hne], lexemeLength?_twoWords hne hblanks⟩

/-! ## Tokens of a source

A token comes from a lexeme, and the same bytes alone give the same token. So whatever holds of lexemes on
their own holds of the tokens of every source. -/

/-- **Every token of a source fits.** Its lexeme, scanned alone, gives the same kind and value. -/
theorem fits_of_mem_scan {source : Text} {t : Token} (h : t ∈ scan source) : t.Fits := by
  rcases mem_scanFrom source 0 false 0 [] h with hnone | ⟨seen, rest, n, place, hn, ht⟩
  · exact absurd hnone (by simp)
  · obtain ⟨hne, hwhole⟩ := lexemeLength?_take hn
    obtain ⟨kind, hk, rfl⟩ := Option.map_eq_some_iff.mp ht
    refine ⟨rest.take n, ?_⟩
    rw [scan_lexeme hne hwhole, ofLexeme?, hk]
    rfl

/-- What a kind carries is the value of a lexeme that is classified as that kind. -/
theorem Kind.Carries.classify {kind : Kind} {value : Text} (h : kind.Carries value) :
    ∃ lexeme, classify? lexeme = some kind ∧ value = valueOf kind lexeme := by
  obtain ⟨lexeme, hscan⟩ := h
  have hmem : (⟨kind, value, 0⟩ : Token) ∈ scan lexeme := by rw [hscan]; exact List.mem_singleton.mpr rfl
  -- The token need not come from the whole text, but it comes from some lexeme in it.
  rcases mem_scanFrom lexeme 0 false 0 [] hmem with hnone | ⟨seen, rest, n, place, -, ht⟩
  · exact absurd hnone (by simp)
  · obtain ⟨k, hk, htok⟩ := Option.map_eq_some_iff.mp ht
    simp only [Token.mk.injEq] at htok
    obtain ⟨rfl, hv, -⟩ := htok
    exact ⟨rest.take n, hk, hv.symm⟩

/-- A kind whose rule spells out its words carries only these. -/
theorem Kind.Carries.mem_words {kind : Kind} {value : Text} {words : List Text}
    (h : kind.Carries value) (hr : (kind, Pattern.word words) ∈ rules) (hk : kind ≠ .string) :
    value ∈ words := by
  obtain ⟨lexeme, hclass, rfl⟩ := h.classify
  obtain ⟨r, hfind, hkind⟩ := Option.map_eq_some_iff.mp hclass
  have hfits := List.find?_some hfind
  have heq := rule_unique (List.mem_of_find?_eq_some hfind) hr hkind
  rw [heq] at hfits
  have hvalue : valueOf kind lexeme = lexeme := by
    unfold valueOf
    split
    · exact absurd rfl hk
    · rfl
  rw [hvalue]
  simpa [Pattern.fits] using hfits

/-! ## Numbers

Numbers are the one kind whose tokens are known by their bytes alone. -/

/-- A lexeme that fits a pattern starts with a byte that opens it. -/
theorem opens_of_fits {p : Pattern} {b : UInt8} {t : Text} (h : p.fits (b :: t) = true) :
    p.opens b = true := by
  -- A text of the rule that is not empty starts with its first byte.
  have hspelled : ∀ words : List Text, words.contains (b :: t) = true →
      (words.any fun w => w.isEmpty || w.head? == some b) = true := by
    intro words hw
    exact List.any_eq_true.mpr ⟨b :: t, by simpa using hw, by simp⟩
  cases p with
  | word words => exact hspelled words h
  | signs choices => exact hspelled choices h
  | quoted =>
    show (b == 34) = true
    simp only [Pattern.fits, Bool.and_eq_true, List.head?_cons] at h
    simpa using h.1.1.2
  | twoWords first second => exact Pattern.opens_of_find (eq_of_beq h)
  | digits => exact Pattern.opens_of_find (eq_of_beq h)
  | name => exact Pattern.opens_of_find (eq_of_beq h)

/-- Every run of digits is the value of a number token. -/
theorem carries_digits {b : UInt8} {t : Text} (h : ∀ c ∈ b :: t, Text.isDigit c = true) :
    Kind.number.Carries (b :: t) := by
  refine ⟨b :: t, ?_⟩
  have hmem : (Kind.number, Pattern.digits) ∈ rules := by simp [rules]
  have hfits : Pattern.digits.fits (b :: t) = true := by
    show (Pattern.digits.find false (b :: t) == some (b :: t).length) = true
    simp [Pattern.find, List.takeWhile_eq_self_iff.mpr h]
  -- Whatever rule the digits fit opens with a digit, and that is the rule of numbers.
  have hclass : classify? (b :: t) = some .number := by
    unfold classify?
    cases hf : rules.find? (fun r => r.2.fits (b :: t)) with
    | none => exact absurd hfits (by simpa using List.find?_eq_none.mp hf _ hmem)
    | some r =>
      have hr := List.mem_of_find?_eq_some hf
      have hfit : r.2.fits (b :: t) = true := by simpa using List.find?_some hf
      have hopens := opens_of_fits hfit
      rw [Option.map_some, kind_of_opens_digit b (h b List.mem_cons_self) r hr hopens]
  rw [scan_lexeme (by simp) (lexemeLength?_digits h), ofLexeme?, hclass]
  rfl

/-- A number token is a run of digits. -/
theorem Kind.Carries.digits {value : Text} (h : Kind.number.Carries value) :
    value ≠ [] ∧ ∀ c ∈ value, Text.isDigit c = true := by
  obtain ⟨lexeme, hclass, hvalue⟩ := h.classify
  rw [show value = lexeme from hvalue]
  obtain ⟨r, hfind, hkind⟩ := Option.map_eq_some_iff.mp hclass
  have hmem : (Kind.number, Pattern.digits) ∈ rules := by simp [rules]
  have hfits := List.find?_some hfind
  rw [rule_unique (List.mem_of_find?_eq_some hfind) hmem hkind] at hfits
  have hfound : Pattern.digits.find false lexeme = some lexeme.length := eq_of_beq hfits
  simp only [Pattern.find] at hfound
  split at hfound
  · exact absurd hfound (by simp)
  · next hpos =>
    have hlen := Option.some.inj hfound
    -- The digits that are found are as long as the lexeme, so that all of it is digits.
    have hall : lexeme.takeWhile Text.isDigit = lexeme :=
      (List.takeWhile_prefix _).eq_of_length hlen
    refine ⟨?_, List.takeWhile_eq_self_iff.mp hall⟩
    rintro rfl
    exact hpos rfl

end Token

end Mundart
