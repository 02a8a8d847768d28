import Mundart.Proofs.Token.Lexeme

/-!
# Sources joined at a semicolon

A lexeme never runs over the end of a line, except that the blanks inside the keyword of two words may
do so. A line that starts with a semicolon ends even these, so what stands before it is scanned as if
nothing followed, and what stands after it as if nothing came before.

* **`lexemeLength?_append_line`** — a line that starts with a semicolon changes no lexeme before it;
* **`scan_joined`** — the tokens of two sources with such a line between them.
-/

namespace Mundart

namespace Pattern

variable {t u : Text} {c : UInt8}

/-- A word without a byte in it does not run over that byte. -/
theorem isPrefixOf_append_byte {w : Text} (hw : c ∉ w) : ∀ t : Text,
    w.isPrefixOf (t ++ c :: u) = w.isPrefixOf t := by
  induction w with
  | nil => exact fun t => rfl
  | cons d w ih =>
    intro t
    rw [List.mem_cons, not_or] at hw
    cases t with
    -- The text has ended, and the word would have to go on with the byte.
    | nil =>
      have hd : (d == c) = false := beq_eq_false_iff_ne.mpr fun h => hw.1 h.symm
      show (d == c && w.isPrefixOf u) = false
      rw [hd, Bool.false_and]
    | cons b t =>
      show (d == b && w.isPrefixOf (t ++ c :: u)) = (d == b && w.isPrefixOf t)
      rw [ih hw.2 t]

/-- A byte behind a text that is no word byte does not change where a word ends. -/
theorem endsWord_append_byte (hc : Text.isWord c = false) (t : Text) :
    endsWord (t ++ c :: u) = endsWord t := by
  cases t with
  | nil =>
    show (!Text.isWord c) = true
    rw [hc, Bool.not_false]
  | cons b t => rfl

/-- Among texts without a certain byte the same one is found in front of this byte. -/
theorem findChoice_append_byte {followed : Text → Bool}
    (hf : ∀ t, followed (t ++ c :: u) = followed t) {choices : List Text}
    (hc : ∀ w ∈ choices, c ∉ w) :
    findChoice followed choices (t ++ c :: u) = findChoice followed choices t := by
  -- A text of the choice that is found lies in front of the byte, so that only what follows it could
  -- differ.
  have hsame : ∀ w ∈ choices,
      (w.isPrefixOf (t ++ c :: u) && followed ((t ++ c :: u).drop w.length)) =
        (w.isPrefixOf t && followed (t.drop w.length)) := by
    intro w hw
    rw [isPrefixOf_append_byte (hc w hw)]
    cases hpre : w.isPrefixOf t with
    | false => rfl
    | true =>
      have hle : w.length ≤ t.length := (List.isPrefixOf_iff_prefix.mp hpre).length_le
      rw [List.drop_append_of_le_length hle, hf]
  unfold findChoice
  clear hc
  induction choices with
  | nil => rfl
  | cons w ws ih =>
    obtain ⟨hw, hws⟩ := List.forall_mem_cons.mp hsame
    rw [List.find?_cons, List.find?_cons, hw]
    split
    · rfl
    · exact ih hws

/-- A run of bytes of some sort ends at a byte that is not of that sort. -/
theorem takeWhile_append_byte {p : UInt8 → Bool} (hp : p c = false) :
    (t ++ c :: u).takeWhile p = t.takeWhile p := by
  rw [List.takeWhile_append]
  split
  · next hall =>
    rw [List.takeWhile_cons_of_neg (by simp [hp]), List.append_nil]
    exact ((List.takeWhile_prefix p).eq_of_length hall).symm
  · rfl

/-- Whether what a pattern finds never holds a blank. -/
def isSolid : Pattern → Bool
  | .twoWords _ _ | .quoted => false
  | _ => true

/-- What holds no blank is found in front of a blank as if nothing followed. -/
theorem find_append_blank {p : Pattern} (hp : p.isSolid = true) (hc : Text.isWord c = false)
    (hspelled : ∀ w ∈ p.spelled, c ∉ w) (hne : t ≠ []) (afterWord : Bool) :
    p.find afterWord (t ++ c :: u) = p.find afterWord t := by
  have hdigit : Text.isDigit c = false := by
    simp only [Text.isWord, Bool.or_eq_false_iff] at hc
    exact hc.1.2
  cases p with
  | word words =>
    have hwords : ∀ w ∈ words, c ∉ w := hspelled
    simp only [find]
    rw [findChoice_append_byte (endsWord_append_byte hc) hwords]
  | signs choices =>
    have hchoices : ∀ w ∈ choices, c ∉ w := hspelled
    simp only [find]
    rw [findChoice_append_byte (fun _ => rfl) hchoices]
  | digits =>
    simp only [find]
    rw [takeWhile_append_byte hdigit]
  -- A name needs a first byte that starts it; in the empty text the byte behind would be the first one.
  | name =>
    cases t with
    | nil => exact absurd rfl hne
    | cons b t =>
      simp only [find, List.cons_append]
      rw [takeWhile_append_byte hc]
  | twoWords first second => cases hp
  | quoted => cases hp

/-- The end of a line brings no quote to close: a text in quotes has none in it. -/
theorem closingQuote_append_line (t : Text) : ∀ seen,
    closingQuote seen (t ++ 10 :: u) = closingQuote seen t := by
  induction t with
  | nil => exact fun seen => rfl
  | cons b t ih =>
    intro seen
    rw [List.cons_append, closingQuote, closingQuote, ih]

/-- The second of two words does not stand behind the end of a line that a semicolon follows. -/
theorem find_twoWords_append_line (afterWord : Bool) :
    (twoWords "geh" "weida").find afterWord (t ++ 10 :: 59 :: u) =
      (twoWords "geh" "weida").find afterWord t := by
  have hgeh : (10 : UInt8) ∉ utf8 "geh" := by decide
  have hweida : ∀ w ∈ [utf8 "weida"], (10 : UInt8) ∉ w := by decide
  simp only [find]
  rw [isPrefixOf_append_byte hgeh]
  split
  · rfl
  · next hfirst =>
    simp only [Bool.or_eq_true, Bool.not_eq_true', not_or, Bool.not_eq_false] at hfirst
    have hle : (utf8 "geh").length ≤ t.length := (List.isPrefixOf_iff_prefix.mp hfirst.2).length_le
    rw [List.drop_append_of_le_length hle]
    generalize t.drop (utf8 "geh").length = rest
    by_cases hall : (rest.takeWhile Text.isSpace).length = rest.length
    -- Nothing but blanks up to the end of the line: then the semicolon stands in the place of the
    -- second word.
    · have hrest : rest.takeWhile Text.isSpace = rest := (List.takeWhile_prefix _).eq_of_length hall
      have hblanks : (rest ++ 10 :: 59 :: u).takeWhile Text.isSpace = rest ++ [10] := by
        rw [List.takeWhile_append, if_pos hall]
        rfl
      have hdrop : (rest ++ 10 :: 59 :: u).drop (rest ++ [10]).length = 59 :: u := by
        rw [show rest ++ 10 :: 59 :: u = (rest ++ [10]) ++ 59 :: u by simp, List.drop_left]
      rw [hblanks, hrest, hdrop, List.drop_length]
      have hnone : findChoice endsWord [utf8 "weida"] (59 :: u) = none := rfl
      have hnone' : findChoice endsWord [utf8 "weida"] [] = none := rfl
      rw [hnone, hnone']
      simp
    · have hblanks : (rest ++ 10 :: 59 :: u).takeWhile Text.isSpace = rest.takeWhile Text.isSpace := by
        rw [List.takeWhile_append, if_neg hall]
      have hlen : (rest.takeWhile Text.isSpace).length ≤ rest.length :=
        (List.takeWhile_prefix _).length_le
      rw [hblanks, List.drop_append_of_le_length hlen,
        findChoice_append_byte (endsWord_append_byte (by decide)) hweida]

end Pattern

namespace Token

variable {t u : Text}

/-- No lexeme that is spelled out holds a blank. -/
theorem not_mem_spelled : ∀ r ∈ rules, ∀ w ∈ r.2.spelled, ∀ c ∈ w, Text.isSpace c = false := by
  have hall : ∀ r ∈ rules, ∀ w ∈ r.2.spelled, (w.all fun c => !Text.isSpace c) = true := by decide
  intro r hr w hw c hc
  exact (Bool.not_eq_true' _).mp (List.all_eq_true.mp (hall r hr w hw) c hc)

/-- No spelled word or sign holds a blank. -/
theorem blank_not_mem_spelled {r : Kind × Pattern} (hr : r ∈ rules) {c : UInt8}
    (hc : Text.isSpace c = true) : ∀ w ∈ r.2.spelled, c ∉ w := by
  intro w hw hmem
  rw [not_mem_spelled r hr w hw c hmem] at hc
  exact nomatch hc

/-- So no rule finds anything else in front of the end of a line and a semicolon. -/
theorem find_append_line {r : Kind × Pattern} (hr : r ∈ rules) (hne : t ≠ []) (afterWord : Bool) :
    r.2.find afterWord (t ++ 10 :: 59 :: u) = r.2.find afterWord t := by
  cases hsolid : r.2.isSolid with
  | true =>
    exact Pattern.find_append_blank hsolid (by decide) (blank_not_mem_spelled hr rfl) hne afterWord
  | false =>
    cases hp : r.2 with
    | twoWords first second =>
      -- There is one rule of two words. The blanks between them may go on over the end of the line, but
      -- behind it stands no second word.
      have hrule := rule_twoWords hr hp
      rw [hrule] at hp
      rw [← hp]
      exact Pattern.find_twoWords_append_line afterWord
    | quoted =>
      cases t with
      | nil => exact absurd rfl hne
      | cons b t =>
        by_cases hb : b = 34
        · rw [hb]
          exact Pattern.closingQuote_append_line t 1
        · simp [Pattern.find, hb]
    | _ => rw [hp] at hsolid; cases hsolid

/-- Where every rule finds the same, so do all together. -/
theorem lexemeLength?_congr {afterWord : Bool} {s t : Text}
    (h : ∀ r ∈ rules, r.2.find afterWord s = r.2.find afterWord t) :
    lexemeLength? afterWord s = lexemeLength? afterWord t := by
  have hsame : ∀ rs : List (Kind × Pattern), (∀ r ∈ rs, r ∈ rules) →
      rs.findSome? (fun r => r.2.find afterWord s) = rs.findSome? (fun r => r.2.find afterWord t) := by
    intro rs hrs
    induction rs with
    | nil => rfl
    | cons r rs ih =>
      obtain ⟨hr, hrs⟩ := List.forall_mem_cons.mp hrs
      rw [List.findSome?_cons, List.findSome?_cons, h r hr, ih hrs]
  exact hsame rules fun r hr => hr

/-- A line that starts with a semicolon changes no lexeme before it. -/
theorem lexemeLength?_append_line (hne : t ≠ []) (afterWord : Bool) :
    lexemeLength? afterWord (t ++ 10 :: 59 :: u) = lexemeLength? afterWord t :=
  lexemeLength?_congr fun _ hr => find_append_line hr hne afterWord

/-- A lexeme lies within the text it is found in. -/
theorem lexemeLength?_le {afterWord : Bool} {n : Nat} (h : lexemeLength? afterWord t = some n) :
    n ≤ t.length := by
  obtain ⟨r, hr, hn⟩ := List.exists_of_findSome?_eq_some h
  -- Each pattern counts the bytes of something that it has found in the text.
  cases hp : r.2 with
  | word words =>
    rw [hp] at hn
    simp only [Pattern.find] at hn
    split at hn
    · exact absurd hn (by simp)
    · obtain ⟨w, -, hpre, -, rfl⟩ := Pattern.findChoice_eq_some hn
      exact (List.isPrefixOf_iff_prefix.mp hpre).length_le
  | signs choices =>
    rw [hp] at hn
    simp only [Pattern.find] at hn
    obtain ⟨w, -, hpre, -, rfl⟩ := Pattern.findChoice_eq_some hn
    exact (List.isPrefixOf_iff_prefix.mp hpre).length_le
  | digits =>
    rw [hp] at hn
    simp only [Pattern.find] at hn
    split at hn
    · exact absurd hn (by simp)
    · obtain rfl := Option.some.inj hn
      exact (List.takeWhile_prefix _).length_le
  | quoted =>
    rw [hp] at hn
    cases t with
    | nil => exact absurd hn (by simp [Pattern.find])
    | cons b t =>
      by_cases hb : b = 34
      · subst hb
        obtain ⟨hlt, hle, -⟩ := closingQuote_take t 1 n hn
        rw [List.length_cons]
        omega
      · exact absurd hn (by simp [Pattern.find, hb])
  | name =>
    rw [hp] at hn
    cases t with
    | nil => exact absurd hn (by simp [Pattern.find])
    | cons b t =>
      have hle : (t.takeWhile Text.isWord).length ≤ t.length := (List.takeWhile_prefix _).length_le
      simp only [Pattern.find] at hn
      split at hn
      · obtain rfl := Option.some.inj hn
        rw [List.length_cons]
        omega
      · exact absurd hn (by simp)
  | twoWords first second =>
    rw [rule_twoWords hr hp] at hn
    simp only [Pattern.find] at hn
    split at hn
    · exact absurd hn (by simp)
    · split at hn
      · exact absurd hn (by simp)
      · next hfirst _ =>
        simp only [Bool.or_eq_true, Bool.not_eq_true', not_or, Bool.not_eq_false] at hfirst
        obtain ⟨k, hk, rfl⟩ := Option.map_eq_some_iff.mp hn
        obtain ⟨w, hw, hsecond, -, rfl⟩ := Pattern.findChoice_eq_some hk
        have hle : (utf8 "geh").length ≤ t.length := (List.isPrefixOf_iff_prefix.mp hfirst.2).length_le
        -- the second word lies behind the blanks, and these behind the first one
        have hwlen : w.length ≤ ((t.drop (utf8 "geh").length).drop
            ((t.drop (utf8 "geh").length).takeWhile Text.isSpace).length).length :=
          (List.isPrefixOf_iff_prefix.mp hsecond).length_le
        have hblanks : ((t.drop (utf8 "geh").length).takeWhile Text.isSpace).length ≤
            (t.drop (utf8 "geh").length).length := (List.takeWhile_prefix _).length_le
        rw [List.length_drop] at hwlen
        rw [List.length_drop] at hwlen hblanks
        omega

/-! ## Scanning

The scanner is taken through the first source byte by byte. At the seam it finds the semicolon, and behind
it the second source as if it stood alone. -/

/-- The first source is scanned as if nothing followed. -/
theorem scanFrom_append_line (t : Text) : ∀ (covered : Nat) (afterWord : Bool) (position : Nat)
    (found : List Token), covered ≤ t.length → ∃ atEnd,
    scanFrom covered afterWord position found (t ++ 10 :: 59 :: u) =
      scanFrom 0 atEnd (position + t.length) (scanFrom covered afterWord position found t).reverse
        (10 :: 59 :: u) := by
  induction t with
  | nil =>
    intro covered afterWord position found hle
    obtain rfl : covered = 0 := Nat.le_zero.mp hle
    refine ⟨afterWord, ?_⟩
    show _ = scanFrom 0 afterWord position found.reverse.reverse _
    rw [List.reverse_reverse]
    rfl
  | cons b t ih =>
    intro covered afterWord position found hle
    have hlength : position + (b :: t).length = position + 1 + t.length := by
      rw [List.length_cons]
      omega
    rw [hlength]
    cases covered with
    -- Within a lexeme nothing is looked for.
    | succ n => exact ih n _ (position + 1) found (Nat.le_of_succ_le_succ hle)
    | zero =>
      have hlexeme := lexemeLength?_append_line (u := u) (List.cons_ne_nil b t) afterWord
      rw [List.cons_append] at hlexeme ⊢
      rw [scanFrom, scanFrom, hlexeme]
      cases hfound : lexemeLength? afterWord (b :: t) with
      | none => exact ih 0 _ (position + 1) found (Nat.zero_le _)
      | some n =>
        have hn : n ≤ (b :: t).length := lexemeLength?_le hfound
        -- The lexeme lies in the first source, so that it is classified alike.
        have htake : (b :: (t ++ 10 :: 59 :: u)).take n = (b :: t).take n := by
          rw [← List.cons_append, List.take_append_of_le_length hn]
        rw [List.length_cons] at hn
        dsimp only
        rw [htake]
        exact ih (n - 1) _ (position + 1) _ (by omega)

/-- What was found before stands in front. -/
theorem scanFrom_found (t : Text) : ∀ (covered : Nat) (afterWord : Bool) (position : Nat)
    (found : List Token), scanFrom covered afterWord position found t =
      found.reverse ++ scanFrom covered afterWord position [] t := by
  induction t with
  | nil =>
    intro covered afterWord position found
    cases covered <;> exact (List.append_nil _).symm
  | cons b t ih =>
    intro covered afterWord position found
    cases covered with
    | succ n => exact ih n _ _ found
    | zero =>
      rw [scanFrom, scanFrom]
      -- A new token goes in front of those that were found, in both.
      cases lexemeLength? afterWord (b :: t) with
      | none => exact ih 0 _ _ found
      | some n =>
        dsimp only
        cases ofLexeme? position ((b :: t).take n) with
        | none => exact ih _ _ _ found
        | some token =>
          dsimp only
          rw [ih _ _ _ (token :: found), ih _ _ _ [token], List.reverse_cons, List.append_assoc]
          rfl

/-- A token further on in a source. -/
def shift (offset : Nat) (t : Token) : Token := { t with position := t.position + offset }

/-- Positions only move the tokens that are found. -/
theorem scanFrom_shift (offset : Nat) (t : Text) : ∀ (covered : Nat) (afterWord : Bool)
    (position : Nat) (found : List Token),
    scanFrom covered afterWord (position + offset) (found.map (shift offset)) t =
      (scanFrom covered afterWord position found t).map (shift offset) := by
  induction t with
  | nil =>
    intro covered afterWord position found
    cases covered <;> exact List.map_reverse.symm
  | cons b t ih =>
    intro covered afterWord position found
    have hnext : position + offset + 1 = position + 1 + offset := by omega
    cases covered with
    | succ n =>
      rw [scanFrom, scanFrom, hnext]
      exact ih n _ _ found
    | zero =>
      rw [scanFrom, scanFrom, hnext]
      cases lexemeLength? afterWord (b :: t) with
      | none => exact ih 0 _ _ found
      | some n =>
        -- The position is only passed on to the token.
        have hlexeme : ofLexeme? (position + offset) ((b :: t).take n) =
            (ofLexeme? position ((b :: t).take n)).map (shift offset) := by
          unfold ofLexeme?
          cases classify? ((b :: t).take n) <;> rfl
        dsimp only
        rw [hlexeme]
        cases ofLexeme? position ((b :: t).take n) with
        | none => exact ih _ _ _ found
        | some token => exact ih _ _ _ (token :: found)

/-- No lexeme starts with the end of a line. -/
theorem not_opens_line : ∀ r ∈ rules, r.2.opens 10 = false := by
  decide

/-- No lexeme starts with the end of a line. -/
theorem lexemeLength?_line (afterWord : Bool) (t : Text) : lexemeLength? afterWord (10 :: t) = none := by
  refine List.findSome?_eq_none_iff.mpr fun r hr => ?_
  cases hn : r.2.find afterWord (10 :: t) with
  | none => rfl
  | some n =>
    have hopens := Pattern.opens_of_find hn
    rw [not_opens_line r hr] at hopens
    exact nomatch hopens

/-- Only a semicolon starts with one. -/
theorem kind_of_opens_semicolon : ∀ r ∈ rules, r.2.opens 59 = true → r.1 = .semicolon := by
  decide

/-- A semicolon is found on its own, whatever follows. -/
theorem lexemeLength?_semicolon (t : Text) : lexemeLength? false (59 :: t) = some 1 := by
  have hmem : (Kind.semicolon, Pattern.signs [";"]) ∈ rules := by simp [rules]
  have hfound : (Pattern.signs [";"]).find false (59 :: t) = some 1 := by
    cases t <;> rfl
  cases h : lexemeLength? false (59 :: t) with
  | none =>
    have hnone := List.findSome?_eq_none_iff.mp h _ hmem
    rw [hfound] at hnone
    exact absurd hnone (by simp)
  -- Whichever rule has found something is the rule for semicolons, since rules have different kinds.
  | some n =>
    obtain ⟨r, hr, hn⟩ := List.exists_of_findSome?_eq_some h
    have hkind := kind_of_opens_semicolon r hr (Pattern.opens_of_find hn)
    rw [rule_unique hr hmem hkind, hfound] at hn
    exact hn.symm

/-- The tokens of two sources with a line between them that holds a semicolon. -/
theorem scan_joined (s t : Text) : scan (s ++ "\n;\n" ++ t) =
    scan s ++ ⟨.semicolon, ";", s.length + 1⟩ :: (scan t).map (shift (s.length + 3)) := by
  have htext : s ++ "\n;\n" ++ t = s ++ 10 :: 59 :: 10 :: t := by
    rw [List.append_assoc]
    rfl
  have hsemicolon : ofLexeme? (s.length + 1) [59] = some ⟨.semicolon, ";", s.length + 1⟩ := by
    unfold ofLexeme?
    rw [show classify? [59] = some .semicolon by decide]
    rfl
  obtain ⟨atEnd, hfirst⟩ := scanFrom_append_line (u := 10 :: t) s 0 false 0 [] (Nat.zero_le _)
  have hsecond : scanFrom 0 false (s.length + 3) [] t = (scan t).map (shift (s.length + 3)) := by
    have hshift := scanFrom_shift (s.length + 3) t 0 false 0 []
    rw [Nat.zero_add] at hshift
    exact hshift
  rw [scan, htext, hfirst, Nat.zero_add]
  -- The end of the line, the semicolon, and the end of its line.
  rw [scanFrom, lexemeLength?_line]
  dsimp only
  rw [show Text.isWord 10 = false by decide, scanFrom, lexemeLength?_semicolon]
  dsimp only
  rw [List.take_succ_cons, List.take_zero, hsemicolon]
  dsimp only
  rw [scanFrom, lexemeLength?_line]
  dsimp only
  rw [show Text.isWord 10 = false by decide, scanFrom_found, hsecond, List.reverse_cons,
    List.reverse_reverse, List.append_assoc]
  rfl

end Token

end Mundart
