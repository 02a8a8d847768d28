import Mundart.Proofs.Token.Cut

/-!
# Word boundaries

The rule of a keyword finds it as a whole word only. Its kind, however, is decided by looking at the
lexeme alone, so a name that is spelled like a keyword becomes one. This happens in one place: right
behind a number, where the digits keep the rule of the keyword from finding it and leave it to the rule
of names.

* **`Cut.number_before`** — where a lexeme that starts with a word byte follows a word byte, the lexeme
  before it is a number;
* **`keyword_boundary`** — no word byte stands behind a keyword, and one stands before it exactly where
  a number ends.
-/

namespace Mundart

namespace Token

/-- Whether a word byte stands just before a position. -/
def wordBefore (source : Text) (position : Nat) : Bool := (source.take position).getLast?.any Text.isWord

/-- Whether a word byte stands at a position. -/
def wordAt (source : Text) (position : Nat) : Bool := source[position]?.any Text.isWord

variable {source before w rest : Text} {l : Lexeme} {ls : List Lexeme} {afterWord : Bool} {rule : Kind}

/-! ## Word bytes at the ends of texts

Whether a word begins or ends somewhere is told by the bytes on both sides. The scanner keeps only whether
the byte before was one of a word. -/

/-- Whether a word byte stands before is told by the last byte. -/
theorem afterText_eq (t : Text) : ∀ afterWord,
    afterText afterWord t = (t.getLast?.map Text.isWord).getD afterWord := by
  induction t with
  | nil => exact fun _ => rfl
  | cons b t ih =>
    intro afterWord
    show afterText (Text.isWord b) t = _
    rw [ih]
    cases t with
    | nil => rfl
    | cons c t =>
      rw [List.getLast?_cons_cons, List.getLast?_cons]
      rfl

/-- Whether a word byte stands before a position is known from the source up to it. -/
theorem wordBefore_eq (source : Text) (position : Nat) :
    wordBefore source position = afterText false (source.take position) := by
  rw [wordBefore, afterText_eq]
  cases (source.take position).getLast? with
  | none => rfl
  | some b => rfl

/-- Whether a word goes on at a position is known from the source behind it. -/
theorem wordAt_eq (source : Text) (position : Nat) :
    wordAt source position = !Pattern.endsWord (source.drop position) := by
  rw [wordAt, ← List.head?_drop]
  cases source.drop position with
  | nil => rfl
  | cons b t => exact (Bool.not_not _).symm

/-- Behind a text that is not empty, nothing before it matters. -/
theorem afterText_of_ne_nil (hne : w ≠ []) (afterWord : Bool) :
    afterText afterWord w = (w.getLast?.map Text.isWord).getD false := by
  rw [afterText_eq, List.getLast?_eq_getLast_of_ne_nil hne]
  rfl

/-! ## What stands before a word byte

A lexeme that ends with a word byte is a word, a name or a number. In front of a word the first two would
have gone on. -/

/-- Every word byte belongs to a lexeme. -/
theorem foundBy?_of_isWord {b : UInt8} (hb : Text.isWord b = true) (afterWord : Bool) (t : Text) :
    foundBy? afterWord (b :: t) ≠ none := by
  intro hnone
  have hfind : ∀ r ∈ rules, r.2.find afterWord (b :: t) = none := fun r hr =>
    Option.map_eq_none_iff.mp (List.findSome?_eq_none_iff.mp hnone r hr)
  have hname := hfind (.identifier, .name) (by simp [rules])
  have hdigits := hfind (.number, .digits) (by simp [rules])
  by_cases hstart : Text.isNameStart b = true
  · simp [Pattern.find, hstart] at hname
  · have hdigit : Text.isDigit b = true := by
      simp only [Text.isWord, Text.isNameStart, Bool.or_eq_true, not_or] at hb hstart
      tauto
    simp [Pattern.find, hdigit] at hdigits

/-- No sign ends with a word byte. -/
theorem not_isWord_of_signs : ∀ r ∈ rules, (match r.2 with
    | .signs choices => choices.all fun w => !(w.getLast?.map Text.isWord).getD false
    | _ => true) = true := by
  decide

/-- A lexeme that ends with a word byte and has a word byte right behind it is a number. -/
theorem rule_of_adjoining (hfound : Found afterWord rule w rest) (hne : w ≠ [])
    (hlast : afterText afterWord w = true) (hrest : Pattern.endsWord rest = false) : rule = .number := by
  rw [afterText_of_ne_nil hne] at hlast
  cases hfound with
  -- Words and names end only where no word byte follows.
  | word hr hw hbefore hends => rw [hends] at hrest; exact nomatch hrest
  | twoWords hsome hblanks hbefore hends => rw [hends] at hrest; exact nomatch hrest
  | name hb ht hends => rw [hends] at hrest; exact nomatch hrest
  | digits => rfl
  -- Neither a sign nor a quote ends with a word byte.
  | sign hr hw =>
    have hsign := List.all_eq_true.mp (not_isWord_of_signs _ hr) w hw
    rw [hlast] at hsign
    exact nomatch hsign
  | quoted ht =>
    rw [← List.cons_append, List.getLast?_concat] at hlast
    exact nomatch hlast

/-- Where a lexeme follows a word byte and starts with one, the lexeme before it is a number that ends
there, unless the cut starts with it. -/
theorem Cut.number_before (h : Cut before rest ls) (hl : l ∈ ls)
    (hbefore : afterText false ((before ++ rest).take l.position) = true)
    (hstart : Pattern.endsWord ((before ++ rest).drop l.position) = false) :
    l.position = before.length ∨ ∃ k ∈ ls, k.rule = .number ∧ k.stop = l.position := by
  induction h with
  | done before => exact nomatch hl
  | @skip before b rest ls hnone hrest ih =>
    rw [List.append_cons] at hbefore hstart
    rcases ih hl hbefore hstart with hfirst | hnumber
    · -- The byte before is skipped, and so it is no word byte.
      rw [hfirst, List.take_left, afterText_append] at hbefore
      exact absurd hnone (foundBy?_of_isWord hbefore _ rest)
    · exact .inr hnumber
  | @take before w rest rule ls hne hfound hrest ih =>
    rcases List.mem_cons.mp hl with rfl | hl
    · exact .inl rfl
    · rw [← List.append_assoc] at hbefore hstart
      rcases ih hl hbefore hstart with hfirst | ⟨k, hk, hnumber⟩
      · rw [hfirst, List.take_left, afterText_append] at hbefore
        rw [hfirst, List.drop_left] at hstart
        have hrule := rule_of_adjoining (found_of_foundBy? hne hfound) hne hbefore hstart
        refine .inr ⟨_, List.mem_cons_self, hrule, ?_⟩
        rw [hfirst, List.length_append]
        rfl
      · exact .inr ⟨k, List.mem_cons_of_mem _ hk, hnumber⟩

/-! ## Keywords

A keyword that is not a whole word is told from the others by its rule: it was found as a name, right behind
a number. -/

/-- The rule of a keyword finds whole words. -/
theorem whole_of_found (h : Found afterWord rule w rest) (hk : rule.isKeyword = true) :
    afterWord = false ∧ Pattern.endsWord rest = true := by
  cases h with
  | word hr hw hbefore hrest => exact ⟨hbefore, hrest⟩
  | twoWords hsome hblanks hbefore hrest => exact ⟨hbefore, hrest⟩
  | sign hr => rw [isKeyword_of_mem _ hr] at hk; exact nomatch hk
  | digits => exact nomatch hk
  | quoted => exact nomatch hk
  | name => exact nomatch hk

/-- A name ends where no word byte follows. -/
theorem name_of_found (h : Found afterWord .identifier w rest) :
    Pattern.endsWord rest = true ∧ Pattern.endsWord (w ++ rest) = false := by
  have hmem : (Kind.identifier, Pattern.name) ∈ rules := by simp [rules]
  cases h with
  | word hr => cases rule_unique hr hmem rfl
  | sign hr => cases rule_unique hr hmem rfl
  | @name b t _ hb ht hrest =>
    refine ⟨hrest, ?_⟩
    show (!Text.isWord b) = false
    rw [Text.isWord_of_isNameStart hb, Bool.not_true]

/-- A number is a run of digits. -/
theorem digits_of_found (h : Found afterWord .number w rest) :
    w ≠ [] ∧ ∀ b ∈ w, Text.isDigit b = true := by
  have hmem : (Kind.number, Pattern.digits) ∈ rules := by simp [rules]
  cases h with
  | word hr => cases rule_unique hr hmem rfl
  | sign hr => cases rule_unique hr hmem rfl
  | digits hne hw => exact ⟨hne, hw⟩

/-- A number ends with a word byte. -/
theorem wordBefore_stop {n : Token} (hn : n ∈ scan source) (hnumber : n.kind = .number) :
    wordBefore source n.stop = true := by
  obtain ⟨l, hl, -, hposition, hlexeme, hkind⟩ := lexeme_of_mem_scan hn
  -- The rule found the number as one, since no keyword is a number.
  have hrule : l.rule = .number := by
    rcases hkind with hkind | ⟨-, -, hkeyword⟩
    · rw [← hkind, hnumber]
    · rw [hnumber] at hkeyword
      exact nomatch hkeyword
  have hfound := found_of_mem hl
  rw [hrule] at hfound
  obtain ⟨hne, hdigits⟩ := digits_of_found hfound
  obtain ⟨-, -, hsplit, -⟩ := (cut_lexemes source).mem hl
  rw [List.nil_append] at hsplit
  have htake : source.take n.stop = source.take l.position ++ l.text := by
    rw [Token.stop, hposition, hlexeme, List.take_add, ← hsplit, List.take_left]
  have hdigit := hdigits _ (List.getLast_mem hne)
  rw [wordBefore_eq, htake, afterText_append, afterText_of_ne_nil hne,
    List.getLast?_eq_getLast_of_ne_nil hne]
  show Text.isWord (l.text.getLast hne) = true
  simp [Text.isWord, hdigit]

/-- A name that stands right behind a word byte stands behind a number. -/
theorem number_of_wordBefore (hl : l ∈ lexemes source) (hrule : l.rule = .identifier)
    (hbefore : wordBefore source l.position = true) :
    ∃ n ∈ scan source, n.kind = .number ∧ n.stop = l.position := by
  have hfound := found_of_mem hl
  rw [hrule] at hfound
  obtain ⟨-, -, hsplit, -⟩ := (cut_lexemes source).mem hl
  have hstart : Pattern.endsWord (([] ++ source).drop l.position) = false := by
    rw [← hsplit]
    exact (name_of_found hfound).2
  rw [wordBefore_eq] at hbefore
  -- At the start of the source nothing stands before the name.
  rcases (cut_lexemes source).number_before hl hbefore hstart with hfirst | ⟨k, hk, hnumber, hstop⟩
  · rw [hfirst] at hbefore
    exact nomatch hbefore
  · obtain ⟨n, hn, hposition, hlexeme, hkind⟩ := token?_of_mem hk
    refine ⟨n, mem_scan_of_token? hk hn, ?_, ?_⟩
    · rcases hkind with hkind | ⟨-, hname, -⟩
      · rw [hkind, hnumber]
      · rw [hnumber] at hname
        exact nomatch hname
    · rw [Token.stop, hposition, hlexeme]
      exact hstop

/-- **The boundaries of keywords.** No word byte follows a keyword. One stands right before a keyword
exactly where a number ends; there, and there only, the kind of a lexeme is not that of the rule that
found it. -/
theorem keyword_boundary {t : Token} (ht : t ∈ scan source) :
    ∃ l ∈ lexemes source, l.token? = some t ∧
      (l.rule = t.kind ↔ ¬(t.kind.isKeyword = true ∧ wordBefore source t.position = true)) ∧
      (t.kind.isKeyword = true → wordAt source t.stop = false ∧
        (wordBefore source t.position = true ↔
          ∃ n ∈ scan source, n.kind = .number ∧ n.stop = t.position)) := by
  obtain ⟨l, hl, htoken, hposition, hlexeme, hkind⟩ := lexeme_of_mem_scan ht
  have hfound := found_of_mem hl
  rw [← wordBefore_eq] at hfound hkind
  refine ⟨l, hl, htoken, ?_, fun hk => ⟨?_, ?_⟩⟩
  · rw [hposition]
    constructor
    · rintro hrule ⟨hk, hbefore⟩
      rw [hrule, hbefore] at hfound
      exact nomatch (whole_of_found hfound hk).1
    · intro hnot
      rcases hkind with hkind | ⟨hbefore, -, hk⟩
      · exact hkind.symm
      · exact absurd ⟨hk, hbefore⟩ hnot
  -- Found as a keyword or as a name, it ends where the word ends.
  · have hends : Pattern.endsWord (source.drop l.stop) = true := by
      rcases hkind with hkind | ⟨-, hname, -⟩
      · exact (whole_of_found (hkind ▸ hfound) hk).2
      · exact (name_of_found (hname ▸ hfound)).1
    rw [wordAt_eq, Token.stop, hposition, hlexeme, ← Lexeme.stop, hends, Bool.not_true]
  · constructor
    · intro hbefore
      rw [hposition] at hbefore ⊢
      rcases hkind with hkind | ⟨-, hname, -⟩
      · rw [← hkind] at hfound
        rw [(whole_of_found hfound hk).1] at hbefore
        exact nomatch hbefore
      -- found as a name, for it does not start a word
      · exact number_of_wordBefore hl hname hbefore
    · rintro ⟨n, hn, hnumber, hstop⟩
      rw [← hstop]
      exact wordBefore_stop hn hnumber

/-- A keyword behind a digit. -/
theorem keyword_boundary_behind_number :
    (⟨.letWord, "heast", 1⟩ : Token) ∈ scan "1heast x" ∧
      ∃ n ∈ scan "1heast x", n.kind = .number ∧ n.stop = 1 := by
  have ht : (⟨.letWord, "heast", 1⟩ : Token) ∈ scan "1heast x" := by decide
  obtain ⟨l, -, -, -, hkeyword⟩ := keyword_boundary ht
  exact ⟨ht, (hkeyword rfl).2.mp (by decide)⟩

/-- A keyword need not be a whole word: right behind a digit it is still a keyword. -/
theorem not_whole_behind_digit : ∃ source : Text, ∃ t ∈ scan source,
    t.kind.isKeyword = true ∧ wordBefore source t.position = true ∧
      ∃ l ∈ lexemes source, l.token? = some t ∧ l.rule ≠ t.kind := by
  refine ⟨"1heast", ⟨.letWord, "heast", 1⟩, by decide, rfl, by decide, ?_⟩
  exact ⟨⟨.identifier, 1, "heast"⟩, by decide, by decide, by decide⟩

end Token

end Mundart
