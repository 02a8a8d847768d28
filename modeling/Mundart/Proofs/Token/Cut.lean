import Mundart.Proofs.Token.Content

/-!
# Sources cut into lexemes

The scanner finds a lexeme by the rules in context and decides its kind from the lexeme alone. This
module keeps the two apart: what the rules find in a source (`lexemes`), each with the rule that found
it, and what becomes of it.

* **`Cut`** — a source is a sequence of lexemes and of bytes at which no lexeme starts;
* **`scan_eq_filterMap`** — the tokens of a source are its lexemes, as far as they have a kind;
* **`Cut.mem`**, **`Cut.pairwise`** — where a lexeme stands, and that lexemes do not overlap;
* **`classify?_of_foundBy?`** — every lexeme has a kind, and it is that of the rule that found it, except
  that a name right behind a digit may be spelled like a keyword.
-/

namespace Mundart

namespace Token

/-- The kind whose rule is the first one to find a lexeme at the start of a text, and the length of the
lexeme. -/
def foundBy? (afterWord : Bool) (t : Text) : Option (Kind × Nat) :=
  rules.findSome? fun r => (r.2.find afterWord t).map fun n => (r.1, n)

/-- A lexeme in a source: the kind whose rule found it, the position where it starts, and its bytes. -/
structure Lexeme where
  rule : Kind
  position : Nat
  text : Text
  deriving DecidableEq, Repr

/-- Where the next lexeme may start. -/
def Lexeme.stop (l : Lexeme) : Nat := l.position + l.text.length

/-- The lexemes of a text, whose first `covered` bytes belong to the lexeme found last. -/
def lexemesFrom (covered : Nat) (afterWord : Bool) (position : Nat) : Text → List Lexeme
  | [] => []
  | b :: t =>
    match covered with
    | n + 1 => lexemesFrom n (Text.isWord b) (position + 1) t
    | 0 =>
      match foundBy? afterWord (b :: t) with
      | none => lexemesFrom 0 (Text.isWord b) (position + 1) t
      | some (rule, n) =>
        ⟨rule, position, (b :: t).take n⟩ :: lexemesFrom (n - 1) (Text.isWord b) (position + 1) t

/-- All lexemes of a source in order. -/
def lexemes (source : Text) : List Lexeme := lexemesFrom 0 false 0 source

variable {afterWord : Bool} {t : Text} {kind : Kind} {n : Nat}

/-! ## The rule that finds a lexeme

The scanner asks how long the lexeme is and forgets which rule has found it. Keeping the rule changes
nothing about the length. -/

/-- Without its rule, what is found is what the scanner finds. -/
theorem map_snd_foundBy? (afterWord : Bool) (t : Text) :
    (foundBy? afterWord t).map Prod.snd = lexemeLength? afterWord t := by
  unfold foundBy? lexemeLength?
  rw [List.map_findSome?]
  congr 1
  funext r
  show ((r.2.find afterWord t).map _).map Prod.snd = _
  cases r.2.find afterWord t with
  | none => rfl
  | some n => rfl

/-- So the length that comes with a rule is the one of the scanner. -/
theorem lexemeLength?_of_foundBy? (h : foundBy? afterWord t = some (kind, n)) :
    lexemeLength? afterWord t = some n := by
  rw [← map_snd_foundBy?, h]
  rfl

/-- The rule itself finds the lexeme, and no rule before it finds anything. -/
theorem foundBy?_eq_some (h : foundBy? afterWord t = some (kind, n)) :
    ∃ before pattern behind, rules = before ++ (kind, pattern) :: behind ∧
      pattern.find afterWord t = some n ∧ ∀ r ∈ before, r.2.find afterWord t = none := by
  obtain ⟨before, ⟨k, pattern⟩, behind, hrules, hfind, hbefore⟩ := List.findSome?_eq_some_iff.mp h
  obtain ⟨m, hm, heq⟩ := Option.map_eq_some_iff.mp hfind
  obtain ⟨rfl, rfl⟩ := Prod.mk.inj heq
  exact ⟨before, pattern, behind, hrules, hm, fun r hr => Option.map_eq_none_iff.mp (hbefore r hr)⟩

/-! ## Cuts

A cut says of a source what the scanner has done to it, without the number of bytes that it still has to
pass over. It knows everything that stands before, since the rules for words look at the last byte of it. -/

/-- What is left of a source behind `before` is cut into lexemes and bytes at which no lexeme starts. -/
inductive Cut : (before rest : Text) → List Lexeme → Prop where
  | done (before : Text) : Cut before [] []
  | skip {before : Text} {b : UInt8} {rest : Text} {ls : List Lexeme}
      (hnone : foundBy? (afterText false before) (b :: rest) = none)
      (hrest : Cut (before ++ [b]) rest ls) : Cut before (b :: rest) ls
  | take {before w rest : Text} {rule : Kind} {ls : List Lexeme} (hne : w ≠ [])
      (hfound : foundBy? (afterText false before) (w ++ rest) = some (rule, w.length))
      (hrest : Cut (before ++ w) rest ls) :
      Cut before (w ++ rest) (⟨rule, before.length, w⟩ :: ls)

/-- The bytes of a lexeme are passed over. -/
theorem lexemesFrom_cover (rest w : Text) : ∀ afterWord position,
    lexemesFrom w.length afterWord position (w ++ rest) =
      lexemesFrom 0 (afterText afterWord w) (position + w.length) rest := by
  induction w with
  | nil => exact fun _ _ => rfl
  | cons b w ih =>
    intro afterWord position
    show lexemesFrom w.length (Text.isWord b) (position + 1) (w ++ rest) = _
    rw [ih, List.length_cons, Nat.add_right_comm, Nat.add_assoc]
    rfl

/-- Whether a text ends with a word byte is told by its last byte. -/
theorem afterText_append (afterWord : Bool) (s t : Text) :
    afterText afterWord (s ++ t) = afterText (afterText afterWord s) t := List.foldl_append

/-- The lexemes that the scanner finds cut the source. -/
theorem cut_lexemesFrom (rest : Text) : ∀ before : Text,
    Cut before rest (lexemesFrom 0 (afterText false before) before.length rest) := by
  -- By induction on the length: behind a lexeme the rest is shorter by more than one byte.
  induction hlength : rest.length using Nat.strongRecOn generalizing rest with
  | ind size ih =>
    subst hlength
    intro before
    cases rest with
    | nil => exact .done before
    | cons b t =>
      rw [lexemesFrom]
      cases hfound : foundBy? (afterText false before) (b :: t) with
      | none =>
        have hcut := ih t.length (by simp) t rfl (before ++ [b])
        rw [afterText_append, List.length_append] at hcut
        exact .skip hfound hcut
      | some found =>
        obtain ⟨rule, n⟩ := found
        have hlexeme := lexemeLength?_of_foundBy? hfound
        have hle := lexemeLength?_le hlexeme
        have hne := (lexemeLength?_take hlexeme).1
        -- The lexeme and what stands behind it.
        obtain ⟨w, rest, hsplit, rfl⟩ : ∃ w rest : Text, b :: t = w ++ rest ∧ n = w.length :=
          ⟨(b :: t).take n, (b :: t).drop n, (List.take_append_drop n _).symm,
            (List.length_take_of_le hle).symm⟩
        have htake : (b :: t).take w.length = w := by rw [hsplit, List.take_left]
        rw [htake] at hne
        have hshorter : rest.length < (b :: t).length := by
          rw [hsplit, List.length_append]
          have := List.length_pos_of_ne_nil hne
          omega
        have hcut := ih rest.length hshorter rest rfl (before ++ w)
        -- The scanner passes over the bytes of the lexeme one by one.
        have hcover : lexemesFrom (w.length - 1) (Text.isWord b) (before.length + 1) t =
            lexemesFrom 0 (afterText false (before ++ w)) (before ++ w).length rest := by
          obtain ⟨c, w, rfl⟩ := List.exists_cons_of_ne_nil hne
          rw [List.cons_append] at hsplit
          obtain ⟨rfl, rfl⟩ := List.cons.inj hsplit
          rw [List.length_cons, Nat.add_sub_cancel, lexemesFrom_cover, afterText_append,
            List.length_append, List.length_cons, Nat.add_assoc, Nat.add_comm 1]
          rfl
        dsimp only
        rw [htake, hcover, hsplit]
        rw [hsplit] at hfound
        exact .take hne hfound hcut

/-- Every source is cut by its lexemes. -/
theorem cut_lexemes (source : Text) : Cut [] source (lexemes source) := cut_lexemesFrom source []

/-! ## Tokens

A token is made from the bytes of a lexeme alone, after its rule was forgotten. -/

/-- The token of a lexeme, if it has a kind. -/
def Lexeme.token? (l : Lexeme) : Option Token := ofLexeme? l.position l.text

/-- The scanner collects the tokens of the lexemes, wherever it starts. By induction on the text. -/
theorem scanFrom_eq_filterMap (t : Text) : ∀ (covered : Nat) (afterWord : Bool) (position : Nat),
    scanFrom covered afterWord position [] t =
      (lexemesFrom covered afterWord position t).filterMap Lexeme.token? := by
  induction t with
  | nil =>
    intro covered afterWord position
    cases covered <;> rfl
  | cons b t ih =>
    intro covered afterWord position
    cases covered with
    | succ n => exact ih n _ _
    | zero =>
      rw [scanFrom, lexemesFrom, ← map_snd_foundBy?]
      cases foundBy? afterWord (b :: t) with
      | none => exact ih 0 _ _
      | some found =>
        obtain ⟨rule, n⟩ := found
        dsimp only [Option.map_some]
        rw [scanFrom_found, ih, List.filterMap_cons, Lexeme.token?]
        cases ofLexeme? position ((b :: t).take n) with
        | none => rfl
        | some token => rfl

/-- The tokens of a source are its lexemes, as far as they have a kind. -/
theorem scan_eq_filterMap (source : Text) :
    scan source = (lexemes source).filterMap Lexeme.token? := scanFrom_eq_filterMap source 0 false 0

/-! ## Where lexemes stand

By induction on the cut. What stands before grows with it, so that positions in it are positions in the
source. -/

namespace Cut

variable {before rest : Text} {ls : List Lexeme} {l : Lexeme}

/-- A lexeme is not empty, it stands in the source at its position, and its rule found it there. -/
theorem mem (h : Cut before rest ls) (hl : l ∈ ls) :
    before.length ≤ l.position ∧ l.text ≠ [] ∧
      l.text ++ (before ++ rest).drop l.stop = (before ++ rest).drop l.position ∧
      foundBy? (afterText false ((before ++ rest).take l.position)) ((before ++ rest).drop l.position) =
        some (l.rule, l.text.length) := by
  induction h with
  | done before => simp at hl
  | @skip before b rest ls hnone hrest ih =>
    obtain ⟨hle, hlexeme⟩ := ih hl
    rw [List.length_append] at hle
    rw [← List.append_cons] at hlexeme
    exact ⟨Nat.le_of_add_right_le hle, hlexeme⟩
  | @take before w rest rule ls hne hfound hrest ih =>
    rcases List.mem_cons.mp hl with rfl | hl
    -- behind the lexeme that was just found
    · have hstop : (before ++ (w ++ rest)).drop (before.length + w.length) = rest := by
        rw [← List.append_assoc, ← List.length_append, List.drop_left]
      refine ⟨Nat.le_refl _, hne, ?_, ?_⟩
      · show w ++ (before ++ (w ++ rest)).drop (before.length + w.length) = _
        rw [hstop, List.drop_left]
      · rw [List.take_left, List.drop_left]
        exact hfound
    · obtain ⟨hle, hlexeme⟩ := ih hl
      rw [List.length_append] at hle
      rw [List.append_assoc] at hlexeme
      exact ⟨Nat.le_of_add_right_le hle, hlexeme⟩

/-- A lexeme starts behind the one before it, which has ended there. -/
theorem pairwise (h : Cut before rest ls) :
    ls.Pairwise fun l k => l.position < k.position ∧ l.stop ≤ k.position := by
  induction h with
  | done before => exact .nil
  | skip _ _ ih => exact ih
  | @take before w rest rule ls hne hfound hrest ih =>
    refine .cons (fun k hk => ?_) ih
    have hle := (hrest.mem hk).1
    have hpos := List.length_pos_of_ne_nil hne
    rw [List.length_append] at hle
    exact ⟨by show before.length < k.position; omega, hle⟩

end Cut

/-! ## What a rule finds

Each pattern is turned into a description of the lexeme, together with what may stand around it. Everything
that is said of lexemes from here on goes by these six cases and not by the rules. -/

/-- What the rules find: a lexeme of some kind, and what stands behind it. Words take no notice of what is
before them only if nothing of a word is. -/
inductive Found (afterWord : Bool) : Kind → (w rest : Text) → Prop where
  | word {kind : Kind} {words : List Text} {w rest : Text} (hr : (kind, Pattern.word words) ∈ rules)
      (hw : w ∈ words) (hbefore : afterWord = false) (hrest : Pattern.endsWord rest = true) :
      Found afterWord kind w rest
  | sign {kind : Kind} {choices : List Text} {w rest : Text}
      (hr : (kind, Pattern.signs choices) ∈ rules) (hw : w ∈ choices) : Found afterWord kind w rest
  | digits {w rest : Text} (hne : w ≠ []) (hw : ∀ b ∈ w, Text.isDigit b = true) :
      Found afterWord .number w rest
  | quoted {t rest : Text} (ht : Quotable t) : Found afterWord .string (34 :: (t ++ [34])) rest
  | twoWords {blanks rest : Text} (hne : blanks ≠ []) (hblanks : ∀ b ∈ blanks, Text.isSpace b = true)
      (hbefore : afterWord = false) (hrest : Pattern.endsWord rest = true) :
      Found afterWord .whileWord (utf8 "geh" ++ (blanks ++ utf8 "weida")) rest
  | name {b : UInt8} {t rest : Text} (hb : Text.isNameStart b = true)
      (ht : ∀ c ∈ t, Text.isWord c = true) (hrest : Pattern.endsWord rest = true) :
      Found afterWord .identifier (b :: t) rest

/-- What is found among some texts is one of them, and what follows it is as it should be. -/
theorem eq_of_findChoice {followed : Text → Bool} {choices : List Text} {w rest : Text}
    (h : Pattern.findChoice followed choices (w ++ rest) = some w.length) :
    w ∈ choices ∧ followed rest = true := by
  obtain ⟨u, hu, hpre, hfollowed, hlength⟩ := Pattern.findChoice_eq_some h
  have htake := Pattern.take_of_isPrefixOf hpre
  rw [← hlength] at htake hfollowed
  rw [List.take_left] at htake
  rw [List.drop_left] at hfollowed
  exact ⟨htake ▸ hu, hfollowed⟩

/-- A run of bytes of some sort that ends with a lexeme. -/
theorem eq_of_length_takeWhile {p : UInt8 → Bool} {w rest : Text}
    (h : ((w ++ rest).takeWhile p).length = w.length) :
    (∀ b ∈ w, p b = true) ∧ rest.takeWhile p = [] := by
  rw [List.takeWhile_append] at h
  split at h
  · next hall =>
    have hw : w.takeWhile p = w := (List.takeWhile_prefix p).eq_of_length hall
    rw [List.length_append] at h
    exact ⟨List.takeWhile_eq_self_iff.mp hw, List.length_eq_zero_iff.mp (by omega)⟩
  · next hless => exact absurd h hless

/-- A word ends where no word byte follows. -/
theorem endsWord_of_takeWhile {rest : Text} (h : rest.takeWhile Text.isWord = []) :
    Pattern.endsWord rest = true := by
  cases rest with
  | nil => rfl
  | cons b rest =>
    show (!Text.isWord b) = true
    by_contra hb
    simp only [Bool.not_eq_true', Bool.not_eq_false] at hb
    rw [List.takeWhile_cons_of_pos hb] at h
    exact absurd h (by simp)

/-- The closing quote is the first one, and no line ends before it. -/
theorem closingQuote_eq_some (t : Text) : ∀ seen n, Pattern.closingQuote seen t = some n →
    ∃ q rest, t = q ++ 34 :: rest ∧ Quotable q ∧ n = seen + q.length + 1 := by
  induction t with
  | nil => intro seen n h; cases h
  | cons b t ih =>
    intro seen n h
    rw [Pattern.closingQuote] at h
    split at h
    -- the closing quote itself
    · next hb =>
      obtain rfl := eq_of_beq hb
      exact ⟨[], t, rfl, ⟨by simp, by simp⟩, (Option.some.inj h).symm⟩
    · next hb =>
      split at h
      · cases h
      · next hline =>
        obtain ⟨q, rest, rfl, ⟨hquote, hbreak⟩, rfl⟩ := ih (seen + 1) n h
        have hne : b ≠ 34 := by simpa using hb
        have hne' : b ≠ 10 := by simpa using hline
        refine ⟨b :: q, rest, rfl, ⟨?_, ?_⟩, by rw [List.length_cons]; omega⟩
        · simp [hquote, hne.symm]
        · simp [hbreak, hne'.symm]

/-- The patterns that spell out nothing belong to one kind each. -/
theorem kind_of_pattern : ∀ r ∈ rules, (match r.2 with
    | .digits => r.1 == .number
    | .quoted => r.1 == .string
    | .name => r.1 == .identifier
    | _ => true) = true := by
  decide

/-- What the pattern of a rule finds is described by it. -/
theorem found_of_find {kind : Kind} {pattern : Pattern} (hr : (kind, pattern) ∈ rules) {w rest : Text}
    (hne : w ≠ []) (h : pattern.find afterWord (w ++ rest) = some w.length) :
    Found afterWord kind w rest := by
  -- The pattern is opened; for words and signs the lexeme is one of those that are spelled out.
  cases pattern with
  | word words =>
    simp only [Pattern.find] at h
    split at h
    · cases h
    · next hbefore =>
      obtain ⟨hw, hrest⟩ := eq_of_findChoice h
      exact .word hr hw (Bool.not_eq_true _ ▸ hbefore) hrest
  | signs choices =>
    simp only [Pattern.find] at h
    exact .sign hr (eq_of_findChoice h).1
  | digits =>
    obtain rfl : kind = .number := eq_of_beq (kind_of_pattern _ hr)
    simp only [Pattern.find] at h
    split at h
    · cases h
    · obtain ⟨hw, -⟩ := eq_of_length_takeWhile (Option.some.inj h)
      exact .digits hne hw
  | quoted =>
    obtain rfl : kind = .string := eq_of_beq (kind_of_pattern _ hr)
    obtain ⟨b, t, rfl⟩ := List.exists_cons_of_ne_nil hne
    obtain rfl : b = 34 := by simpa [Pattern.opens] using Pattern.opens_of_find h
    obtain ⟨q, behind, hsplit, hq, hlength⟩ := closingQuote_eq_some (t ++ rest) 1 _ h
    -- What is found is as long as the quoted text, and so it is the quoted text.
    have ht : t = q ++ [34] := by
      have hlen : t.length = (q ++ [34]).length := by
        rw [List.length_cons] at hlength
        rw [List.length_append, List.length_singleton]
        omega
      rw [List.append_cons] at hsplit
      exact (List.append_inj hsplit hlen).1
    rw [ht]
    exact .quoted hq
  | name =>
    obtain rfl : kind = .identifier := eq_of_beq (kind_of_pattern _ hr)
    obtain ⟨b, t, rfl⟩ := List.exists_cons_of_ne_nil hne
    have hb : Text.isNameStart b = true := Pattern.opens_of_find h
    simp only [Pattern.find, List.cons_append, hb, if_true, Option.some.injEq, List.length_cons] at h
    have hlength : ((t ++ rest).takeWhile Text.isWord).length = t.length := by omega
    obtain ⟨ht, hrest⟩ := eq_of_length_takeWhile hlength
    exact .name hb ht (endsWord_of_takeWhile hrest)
  | twoWords first second =>
    obtain ⟨rfl, hpattern⟩ := Prod.mk.inj (rule_twoWords hr rfl)
    rw [hpattern] at h
    obtain ⟨blanks, hblanks, hspace, htake, hbefore, hends⟩ := take_of_find_twoWords h
    rw [List.take_left] at htake
    rw [List.drop_left] at hends
    rw [htake]
    exact .twoWords hblanks hspace hbefore hends

/-- What the first rule that finds anything has found is a lexeme of its kind. -/
theorem found_of_foundBy? {w rest : Text} (hne : w ≠ [])
    (h : foundBy? afterWord (w ++ rest) = some (kind, w.length)) : Found afterWord kind w rest := by
  obtain ⟨before, pattern, behind, hrules, hfind, -⟩ := foundBy?_eq_some h
  exact found_of_find (by simp [hrules]) hne hfind

/-! ## Kinds of lexemes

The kind is decided from the lexeme alone, by the first rule that fits it. For all but names this is the
rule that found it. A name may be spelled like a keyword where a word byte stands before it: the rule for
the keyword is not asked there, and it fits nevertheless. -/

/-- The kinds whose lexemes are whole words with a meaning of their own: keywords and operators. -/
def Kind.isKeyword : Kind → Bool
  | .print | .letWord | .ifWord | .elseWord | .falseWord | .trueWord | .function | .andWord | .orWord
  | .returnWord | .comparison | .arithmetic | .forWord | .whileWord | .forEach | .asWord | .comment
  | .fetch => true
  | _ => false

/-- The rules of keywords are those with words, and theirs only. -/
theorem isKeyword_of_mem : ∀ r ∈ rules, r.1.isKeyword = match r.2 with
    | .word _ | .twoWords _ _ => true
    | _ => false := by
  decide

/-- What a rule spells out is of its kind. -/
theorem classify?_spelled : ∀ r ∈ rules, ∀ w ∈ r.2.spelled, classify? w = some r.1 := by
  decide

/-- A text that is spelled out is found, if it may be followed by what comes. -/
theorem findChoice_ne_none {followed : Text → Bool} {choices : List Text} {w rest : Text}
    (hw : w ∈ choices) (hrest : followed rest = true) :
    Pattern.findChoice followed choices (w ++ rest) ≠ none := by
  unfold Pattern.findChoice
  rw [ne_eq, Option.map_eq_none_iff, List.find?_eq_none]
  intro hnone
  refine hnone w hw ?_
  rw [List.isPrefixOf_iff_prefix.mpr (List.prefix_append w rest), List.drop_left, hrest]
  rfl

/-- What a lexeme fits is found in it. A quoted text alone may fit what is found in a part of it. -/
theorem find_ne_none_of_fits {p : Pattern} {w : Text} (hp : p ≠ .quoted) (h : p.fits w = true) :
    p.find false w ≠ none := by
  -- Whatever may follow, the end of the text may.
  have hspelled : ∀ followed : Text → Bool, followed [] = true → ∀ choices : List Text,
      choices.contains w = true → Pattern.findChoice followed choices w ≠ none := by
    intro followed hend choices hw
    have hfound := findChoice_ne_none (List.contains_iff_mem.mp hw) hend
    rwa [List.append_nil] at hfound
  cases p with
  | word words => exact hspelled Pattern.endsWord rfl words h
  | signs choices => exact hspelled (fun _ => true) rfl choices h
  | quoted => exact absurd rfl hp
  | twoWords first second => rw [eq_of_beq h]; simp
  | digits => rw [eq_of_beq h]; simp
  | name => rw [eq_of_beq h]; simp

/-- No rule before that of the keyword of two words finds anything where its first word stands. -/
theorem find_geh_eq_none {r : Kind × Pattern} (hr : r ∈ rules.take 26) (t : Text) :
    r.2.find false (utf8 "geh" ++ t) = none := by
  have hother : ∀ r ∈ rules.take 26, r.1 ≠ .whileWord ∧ r.1 ≠ .identifier := by decide
  obtain ⟨hwhile, hname⟩ := hother r hr
  cases hn : r.2.find false (utf8 "geh" ++ t) with
  | none => rfl
  | some n => exact absurd (kind_of_find_geh (List.mem_of_mem_take hr) hn) (not_or.mpr ⟨hwhile, hname⟩)

/-- Two words with blanks between them are one keyword. -/
theorem classify?_twoWords {blanks : Text} (hne : blanks ≠ [])
    (hblanks : ∀ b ∈ blanks, Text.isSpace b = true) :
    classify? (utf8 "geh" ++ (blanks ++ utf8 "weida")) = some .whileWord := by
  have hfind := find_twoWords hne hblanks (t := []) rfl
  rw [List.append_nil] at hfind
  have hfits : (Pattern.twoWords "geh" "weida").fits (utf8 "geh" ++ (blanks ++ utf8 "weida")) = true := by
    show ((Pattern.twoWords "geh" "weida").find false _ == _) = true
    rw [hfind, List.length_append, List.length_append, Nat.add_assoc]
    exact beq_self_eq_true _
  refine classify?_of_rule 26 rfl (fun r hr => ?_) hfits
  by_contra h
  rw [Bool.not_eq_false] at h
  have hquoted : r.2 ≠ .quoted := by
    intro hp
    have hopens : r.2.opens 103 = true := opens_of_fits h
    rw [hp] at hopens
    exact absurd hopens (by decide)
  exact find_ne_none_of_fits hquoted h (find_geh_eq_none hr _)

/-- What a name fits besides the rule of names is the rule of a word. -/
theorem word_of_fits {r : Kind × Pattern} (hr : r ∈ rules) {b : UInt8} {t : Text}
    (hb : Text.isNameStart b = true) (ht : ∀ c ∈ t, Text.isWord c = true)
    (hfits : r.2.fits (b :: t) = true) (hkind : r.1 ≠ .identifier) :
    ∃ words, r.2 = .word words ∧ b :: t ∈ words := by
  have hopens := opens_of_fits hfits
  -- The first byte of a name excludes signs, digits and quotes.
  cases hp : r.2 with
  | word words =>
    rw [hp] at hfits
    exact ⟨words, rfl, List.contains_iff_mem.mp hfits⟩
  | signs choices =>
    rw [not_opens_signs b hb r hr choices hp] at hopens
    exact nomatch hopens
  | digits =>
    rw [hp] at hopens
    rw [not_isNameStart_of_isDigit b hopens] at hb
    exact nomatch hb
  | quoted =>
    rw [hp] at hopens
    obtain rfl : b = 34 := by simpa [Pattern.opens] using hopens
    exact absurd hb (by decide)
  | name =>
    have hname := kind_of_pattern _ hr
    rw [hp] at hname
    exact absurd (eq_of_beq hname) hkind
  | twoWords first second =>
    -- There is a blank between the two words, and none in a name.
    rw [rule_twoWords hr hp] at hfits
    obtain ⟨blanks, hne, hblanks, htake, -⟩ := take_of_find_twoWords (eq_of_beq hfits)
    obtain ⟨c, hc⟩ := List.exists_mem_of_ne_nil blanks hne
    have hmem : c ∈ b :: t := by
      rw [List.take_length] at htake
      rw [htake]
      simp [hc]
    have hword : Text.isWord c = true := by
      rcases List.mem_cons.mp hmem with rfl | hmem
      · exact Text.isWord_of_isNameStart hb
      · exact ht c hmem
    rw [not_isWord_of_isSpace c (hblanks c hc)] at hword
    exact nomatch hword

/-- A name is found where no other rule finds anything. -/
theorem find_eq_none_of_identifier (h : foundBy? afterWord t = some (.identifier, n))
    {r : Kind × Pattern} (hr : r ∈ rules) (hkind : r.1 ≠ .identifier) : r.2.find afterWord t = none := by
  obtain ⟨before, pattern, behind, hrules, -, hbefore⟩ := foundBy?_eq_some h
  have hlast : rules.getLast? = some (.identifier, .name) := rfl
  have hunique : (rules.map Prod.fst).Nodup := by decide
  -- The rule of names is the last one, so all others come before it.
  have hbehind : behind = [] := by
    by_contra hne
    rw [hrules, List.getLast?_append_cons, List.getLast?_cons_of_ne_nil hne] at hlast
    have hagain := List.mem_map_of_mem (f := Prod.fst) (List.mem_of_getLast? hlast)
    rw [hrules, List.map_append, List.map_cons, List.nodup_append, List.nodup_cons] at hunique
    exact hunique.2.1.1 hagain
  rw [hrules, hbehind] at hr
  rcases List.mem_append.mp hr with hr | hr
  · exact hbefore r hr
  · rw [List.mem_singleton.mp hr] at hkind
    exact absurd rfl hkind

/-- **Every lexeme has a kind.** It is that of the rule that found the lexeme, unless the lexeme is a
name that stands right behind a word byte and is spelled like a keyword. -/
theorem classify?_of_foundBy? {w rest : Text} {rule : Kind} (hne : w ≠ [])
    (h : foundBy? afterWord (w ++ rest) = some (rule, w.length)) :
    ∃ kind, classify? w = some kind ∧
      (kind = rule ∨ afterWord = true ∧ rule = .identifier ∧ kind.isKeyword = true) := by
  cases found_of_foundBy? hne h with
  | word hr hw hbefore hrest => exact ⟨_, classify?_spelled _ hr _ hw, .inl rfl⟩
  | sign hr hw => exact ⟨_, classify?_spelled _ hr _ hw, .inl rfl⟩
  | digits hne hw => exact ⟨_, classify?_digits hne hw, .inl rfl⟩
  | quoted ht => exact ⟨_, classify?_quoted ht, .inl rfl⟩
  | twoWords hsome hblanks => exact ⟨_, classify?_twoWords hsome hblanks, .inl rfl⟩
  | @name b t _ hb ht hrest =>
    have hname : (Kind.identifier, Pattern.name) ∈ rules := by simp [rules]
    have hfits : Pattern.name.fits (b :: t) = true := by
      show (Pattern.name.find false (b :: t) == some (b :: t).length) = true
      simp only [Pattern.find, hb, if_true, List.takeWhile_eq_self_iff.mpr ht, List.length_cons]
      simp [Nat.add_comm]
    -- Some rule fits, as the rule of names does. The question is which one is the first.
    unfold classify?
    cases hfind : rules.find? (fun r => r.2.fits (b :: t)) with
    | none => exact absurd hfits (by simpa using List.find?_eq_none.mp hfind _ hname)
    | some r =>
      have hr := List.mem_of_find?_eq_some hfind
      refine ⟨r.1, rfl, ?_⟩
      by_cases hkind : r.1 = .identifier
      · exact .inl hkind
      · have hfit : r.2.fits (b :: t) = true := by simpa using List.find?_some hfind
        obtain ⟨words, hp, hw⟩ := word_of_fits hr hb ht hfit hkind
        have hnone := find_eq_none_of_identifier h hr hkind
        -- Without a word byte before it the keyword would have been found in place of the name.
        refine .inr ⟨?_, rfl, by rw [isKeyword_of_mem r hr, hp]⟩
        by_contra hbefore
        rw [Bool.not_eq_true] at hbefore
        rw [hp, hbefore] at hnone
        exact findChoice_ne_none hw hrest hnone

/-! ## The token of a lexeme

A token keeps all of its lexeme: nothing is lost but the quotes of a string, which are known to be there. -/

/-- The lexeme that a token stands for: a string with its quotes, everything else as it is. -/
def lexeme (t : Token) : Text :=
  match t.kind with
  | .string => 34 :: (t.value ++ [34])
  | _ => t.value

/-- The position behind a token. -/
def stop (t : Token) : Nat := t.position + t.lexeme.length

/-- The value of a lexeme, with its quotes if it is a string, is the lexeme. -/
theorem lexeme_valueOf {w : Text} {position : Nat} (h : kind = .string → ∃ q, w = 34 :: (q ++ [34])) :
    lexeme ⟨kind, valueOf kind w, position⟩ = w := by
  cases kind with
  | string =>
    obtain ⟨q, rfl⟩ := h rfl
    show 34 :: ((q ++ [34]).dropLast ++ [34]) = 34 :: (q ++ [34])
    rw [List.dropLast_concat]
  | _ => rfl

/-- Only the rule of strings finds a string. -/
theorem quoted_of_found {w rest : Text} (h : Found afterWord .string w rest) :
    ∃ q, w = 34 :: (q ++ [34]) := by
  have hmem : (Kind.string, Pattern.quoted) ∈ rules := by simp [rules]
  cases h with
  | word hr => cases rule_unique hr hmem rfl
  | sign hr => cases rule_unique hr hmem rfl
  | @quoted q _ ht => exact ⟨q, rfl⟩

variable {source : Text} {l : Lexeme}

/-- A lexeme of a source is described by what stands around it there. -/
theorem found_of_mem (hl : l ∈ lexemes source) :
    Found (afterText false (source.take l.position)) l.rule l.text (source.drop l.stop) := by
  obtain ⟨-, hne, hsplit, hfound⟩ := (cut_lexemes source).mem hl
  rw [List.nil_append] at hsplit hfound
  rw [← hsplit] at hfound
  exact found_of_foundBy? hne hfound

/-- Every lexeme of a source becomes a token, which stands for it. -/
theorem token?_of_mem (hl : l ∈ lexemes source) :
    ∃ t, l.token? = some t ∧ t.position = l.position ∧ t.lexeme = l.text ∧
      (t.kind = l.rule ∨ afterText false (source.take l.position) = true ∧ l.rule = .identifier ∧
        t.kind.isKeyword = true) := by
  obtain ⟨-, hne, hsplit, hfound⟩ := (cut_lexemes source).mem hl
  rw [List.nil_append] at hsplit hfound
  rw [← hsplit] at hfound
  obtain ⟨kind, hclass, hkind⟩ := classify?_of_foundBy? hne hfound
  refine ⟨⟨kind, valueOf kind l.text, l.position⟩, ?_, rfl, ?_, hkind⟩
  · rw [Lexeme.token?, ofLexeme?, hclass]
    rfl
  · refine lexeme_valueOf fun hstring => ?_
    -- No keyword is a string, so the rule of strings has found it.
    have hrule : l.rule = .string := by
      rcases hkind with h | ⟨-, -, h⟩
      · rw [← h, hstring]
      · rw [hstring] at h
        cases h
    have hfound := found_of_mem hl
    rw [hrule] at hfound
    exact quoted_of_found hfound

/-- Every token of a source stands for a lexeme of it. -/
theorem lexeme_of_mem_scan {t : Token} (ht : t ∈ scan source) :
    ∃ l ∈ lexemes source, l.token? = some t ∧ t.position = l.position ∧ t.lexeme = l.text ∧
      (t.kind = l.rule ∨ afterText false (source.take l.position) = true ∧ l.rule = .identifier ∧
        t.kind.isKeyword = true) := by
  rw [scan_eq_filterMap] at ht
  obtain ⟨l, hl, htoken⟩ := List.mem_filterMap.mp ht
  obtain ⟨t', ht', hfacts⟩ := token?_of_mem hl
  obtain rfl : t' = t := Option.some.inj (ht'.symm.trans htoken)
  exact ⟨l, hl, htoken, hfacts⟩

/-- The token of a lexeme is one of the source. -/
theorem mem_scan_of_token? {t : Token} (hl : l ∈ lexemes source) (ht : l.token? = some t) :
    t ∈ scan source := by
  rw [scan_eq_filterMap]
  exact List.mem_filterMap.mpr ⟨l, hl, ht⟩

end Token

end Mundart
