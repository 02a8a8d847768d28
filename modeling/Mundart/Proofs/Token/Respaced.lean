import Mundart.Proofs.Token.Cut

/-!
# Lexemes with single blanks between them

What a lexeme is does not depend on its surroundings, so a source may be taken apart and put together
again with one blank between any two lexemes. One pair of lexemes does not survive this: the two words
of a keyword that stood as two names, because something that is no blank was between them.

* **`lexemeLength?_append_blank`** — a lexeme is found in front of a blank;
* **`contents_spaced`** — what is read from lexemes with single blanks between them;
* **`scan_respaced`** — the tokens of a source are determined by its lexemes.
-/

namespace Mundart

namespace Token

/-- A token that is found by itself, and as what it is. -/
structure Alone (t : Token) : Prop where
  ne_nil : t.lexeme ≠ []
  length : lexemeLength? false t.lexeme = some t.lexeme.length
  classify : classify? t.lexeme = some t.kind

/-- The two words of the keyword, each of them a name. -/
def geh : Kind × Text := (.identifier, "geh")

@[inherit_doc geh]
def weida : Kind × Text := (.identifier, "weida")

/-- The two words of the keyword made one wherever they follow each other. -/
def fuse : List (Kind × Text) → List (Kind × Text)
  | c :: d :: cs =>
    if c = geh ∧ d = weida then (.whileWord, "geh weida") :: fuse cs else c :: fuse (d :: cs)
  | cs => cs

variable {t u w rest : Text} {kind : Kind} {source : Text}

/-- Only where the two words follow each other is anything changed. -/
theorem fuse_eq_self_iff (cs : List (Kind × Text)) : fuse cs = cs ↔ ¬[geh, weida] <:+: cs := by
  fun_induction fuse cs with
  -- The pair becomes the keyword, which is another content than its first word.
  | case1 c d cs hpair ih =>
    obtain ⟨rfl, rfl⟩ := hpair
    refine iff_of_false (fun h => ?_) (not_not.mpr ⟨[], cs, rfl⟩)
    exact absurd (List.cons.inj h).1 (by decide)
  -- The pair does not stand at the front, so that it would have to stand further behind.
  | case2 c d cs hpair ih =>
    have hlead : ¬[geh, weida] <+: c :: d :: cs := by
      intro h
      rw [List.cons_prefix_cons, List.cons_prefix_cons] at h
      exact hpair ⟨h.1.symm, h.2.1.symm⟩
    rw [List.infix_cons_iff, not_or, ← ih]
    simp [hlead]
  | case3 cs hshort =>
    refine iff_of_true rfl fun h => ?_
    have hlength := h.length_le
    match cs, hshort with
    | [], _ => exact absurd hlength (by decide)
    | [c], _ => exact absurd hlength (by simp)
    | c :: d :: cs, hshort => exact hshort c d cs rfl

/-- The first token stays if it is not the start of the keyword of two words. -/
theorem fuse_cons {c : Kind × Text} {cs : List (Kind × Text)} (h : ¬[geh, weida] <+: c :: cs) :
    fuse (c :: cs) = c :: fuse cs := by
  cases cs with
  | nil => rfl
  | cons d cs =>
    refine if_neg ?_
    rintro ⟨rfl, rfl⟩
    exact h ⟨cs, rfl⟩

/-! ## A lexeme and a blank

A blank ends every lexeme except a string, which may hold blanks itself and ends with its quote. So a lexeme
that is followed by a blank is found again, whatever stood behind it in the source. -/

/-- Where no blank is in what stands before a blank, the keyword of two words is its first word there, and
its second word follows. -/
theorem eq_of_find_twoWords {n : Nat} (hsolid : ∀ b ∈ t, Text.isSpace b = false)
    (hrest : u.head?.all (fun b => !Text.isSpace b) = true)
    (h : (Pattern.twoWords "geh" "weida").find false (t ++ 32 :: u) = some n) :
    t = utf8 "geh" ∧ ∃ d, u = utf8 "weida" ++ d ∧ Pattern.endsWord d = true := by
  obtain ⟨blanks, hne, hblanks, htake, -, hends⟩ := take_of_find_twoWords h
  obtain ⟨c, blanks, rfl⟩ := List.exists_cons_of_ne_nil hne
  have htext : t ++ 32 :: u = utf8 "geh" ++ (c :: (blanks ++ (utf8 "weida" ++ (t ++ 32 :: u).drop n))) := by
    conv_lhs => rw [← List.take_append_drop n (t ++ 32 :: u), htake]
    simp
  -- Both sides up to the first blank.
  have hgeh : t = utf8 "geh" := by
    have hspan := congrArg (List.takeWhile fun b => !Text.isSpace b) htext
    rw [List.takeWhile_append_of_pos (by simpa using hsolid),
      List.takeWhile_append_of_pos (List.all_eq_true.mp rfl),
      List.takeWhile_cons_of_neg (by decide),
      List.takeWhile_cons_of_neg (by simp [hblanks c List.mem_cons_self])] at hspan
    simpa using hspan
  refine ⟨hgeh, (t ++ 32 :: u).drop n, ?_, hends⟩
  generalize (t ++ 32 :: u).drop n = d at htext
  rw [hgeh] at htext
  have hu := (List.cons.inj (List.append_cancel_left htext)).2
  cases blanks with
  | nil => exact hu
  | cons c blanks =>
    rw [hu] at hrest
    simp [hblanks c (by simp)] at hrest

/-- A lexeme without a blank in it is found in front of a blank, as it is by itself. -/
theorem lexemeLength?_append_blank (hne : t ≠ []) (hquote : t.head? ≠ some 34)
    (hsolid : ∀ b ∈ t, Text.isSpace b = false)
    (htwo : (Pattern.twoWords "geh" "weida").find false (t ++ 32 :: u) = none) :
    lexemeLength? false (t ++ 32 :: u) = lexemeLength? false t := by
  refine lexemeLength?_congr fun r hr => ?_
  cases hsolidRule : r.2.isSolid with
  | true =>
    exact Pattern.find_append_blank hsolidRule (by decide) (blank_not_mem_spelled hr rfl) hne false
  | false =>
    cases hp : r.2 with
    | twoWords first second =>
      rw [rule_twoWords hr hp] at hp
      rw [← hp, htwo]
      cases hn : (Pattern.twoWords "geh" "weida").find false t with
      | none => rfl
      | some n =>
        -- There would be a blank between the two words.
        obtain ⟨blanks, hsome, hblanks, htake, -⟩ := take_of_find_twoWords hn
        obtain ⟨c, hc⟩ := List.exists_mem_of_ne_nil blanks hsome
        have hmem : c ∈ t := List.mem_of_mem_take (i := n) (by rw [htake]; simp [hc])
        have hspace := hsolid c hmem
        rw [hblanks c hc] at hspace
        cases hspace
    | quoted =>
      obtain ⟨b, t, rfl⟩ := List.exists_cons_of_ne_nil hne
      have hb : b ≠ 34 := by simpa using hquote
      simp [Pattern.find, hb]
    | _ => rw [hp] at hsolidRule; cases hsolidRule

/-- The keyword of two words is found with all of its blanks. -/
theorem lexemeLength?_twoWords_append {blanks : Text} (hne : blanks ≠ [])
    (hblanks : ∀ b ∈ blanks, Text.isSpace b = true) (hrest : Pattern.endsWord rest = true) :
    lexemeLength? false (utf8 "geh" ++ (blanks ++ utf8 "weida") ++ rest) =
      some (utf8 "geh" ++ (blanks ++ utf8 "weida")).length := by
  have hfind := find_twoWords hne hblanks hrest
  have htext : utf8 "geh" ++ (blanks ++ utf8 "weida") ++ rest =
      utf8 "geh" ++ (blanks ++ (utf8 "weida" ++ rest)) := by
    rw [List.append_assoc, List.append_assoc]
  have hlength : (utf8 "geh" ++ (blanks ++ utf8 "weida")).length = 3 + blanks.length + 5 := by
    rw [List.length_append, List.length_append, Nat.add_assoc]
    rfl
  rw [htext, hlength]
  exact lexemeLength?_of_rule 26 rfl (fun r hr => find_geh_eq_none hr _) hfind

/-- Word bytes are neither blanks nor quotes. -/
theorem solid_of_isWord (hw : ∀ b ∈ w, Text.isWord b = true) :
    w.head? ≠ some 34 ∧ ∀ b ∈ w, Text.isSpace b = false := by
  constructor
  · intro hhead
    exact absurd (hw 34 (List.mem_of_head? hhead)) (by decide)
  · intro b hb
    by_contra hspace
    have hnot := not_isWord_of_isSpace b (by simpa using hspace)
    rw [hw b hb] at hnot
    exact nomatch hnot

/-- Nothing that is spelled out starts with a quote. -/
theorem head_of_spelled : ∀ r ∈ rules, ∀ w ∈ r.2.spelled, w.head? ≠ some 34 := by
  decide

/-- A digit is a word byte. -/
theorem isWord_of_isDigit {b : UInt8} (hb : Text.isDigit b = true) : Text.isWord b = true := by
  simp [Text.isWord, hb]

/-- A lexeme is quoted, or it is the keyword of two words, or no blank is in it. -/
theorem solid_of_found {afterWord : Bool} (h : Found afterWord kind w rest) :
    (∃ q, Quotable q ∧ w = 34 :: (q ++ [34])) ∨
      (∃ blanks, blanks ≠ [] ∧ (∀ b ∈ blanks, Text.isSpace b = true) ∧
        w = utf8 "geh" ++ (blanks ++ utf8 "weida")) ∨
      w.head? ≠ some 34 ∧ ∀ b ∈ w, Text.isSpace b = false := by
  cases h with
  -- The texts of the rules have no blank in them, other than the keyword of two words.
  | word hr hw => exact .inr (.inr ⟨head_of_spelled _ hr _ hw, not_mem_spelled _ hr _ hw⟩)
  | sign hr hw => exact .inr (.inr ⟨head_of_spelled _ hr _ hw, not_mem_spelled _ hr _ hw⟩)
  | digits hne hw => exact .inr (.inr (solid_of_isWord fun b hb => isWord_of_isDigit (hw b hb)))
  | quoted ht => exact .inl ⟨_, ht, rfl⟩
  | twoWords hne hblanks => exact .inr (.inl ⟨_, hne, hblanks, rfl⟩)
  | name hb ht =>
    refine .inr (.inr (solid_of_isWord ?_))
    exact List.forall_mem_cons.mpr ⟨Text.isWord_of_isNameStart hb, ht⟩

/-! ## Tokens that stand alone

A token stands alone if its lexeme is found whole in front of a blank. All tokens of a source do, except
that a name may be spelled like a keyword. -/

/-- The value of a token is read off its lexeme. -/
theorem valueOf_lexeme (t : Token) : valueOf t.kind t.lexeme = t.value := by
  obtain ⟨kind, value, position⟩ := t
  cases kind with
  | string =>
    show (value ++ [34]).dropLast = value
    exact List.dropLast_concat
  | _ => rfl

namespace Alone

variable {a b : Token} {ts : List Token}

/-- The rule of its kind finds a token that stands alone. -/
theorem found (ha : a.Alone) : Found false a.kind a.lexeme [] := by
  have hlength := ha.length
  rw [← map_snd_foundBy?] at hlength
  obtain ⟨⟨rule, n⟩, hrule, rfl⟩ := Option.map_eq_some_iff.mp hlength
  have hfound : foundBy? false (a.lexeme ++ []) = some (rule, a.lexeme.length) := by
    rw [List.append_nil]
    exact hrule
  obtain ⟨kind, hclass, hkind⟩ := classify?_of_foundBy? ha.ne_nil hfound
  obtain rfl : kind = a.kind := Option.some.inj (hclass.symm.trans ha.classify)
  rcases hkind with rfl | ⟨h, -, -⟩
  · exact found_of_foundBy? ha.ne_nil hfound
  · exact nomatch h

/-- What a token says is known from its lexeme. -/
theorem content_eq (ha : a.Alone) (h : a.lexeme = w) (hclass : classify? w = some kind)
    (hvalue : valueOf kind w = w) : a.content = (kind, w) := by
  have hkind : a.kind = kind := Option.some.inj (ha.classify.symm.trans (h ▸ hclass))
  have hval := valueOf_lexeme a
  rw [hkind, h, hvalue] at hval
  rw [content, hkind, hval]

/-- No lexeme starts with a blank. -/
theorem not_isSpace_head (ha : a.Alone) (u : Text) :
    (a.lexeme ++ u).head?.all (fun b => !Text.isSpace b) = true := by
  rcases solid_of_found ha.found with ⟨q, -, h⟩ | ⟨blanks, -, -, h⟩ | ⟨-, hsolid⟩
  · rw [h]
    rfl
  · rw [h]
    rfl
  · obtain ⟨b, t, ht⟩ := List.exists_cons_of_ne_nil ha.ne_nil
    have hb := hsolid b (by rw [ht]; exact List.mem_cons_self)
    rw [ht]
    show (!Text.isSpace b) = true
    rw [hb, Bool.not_false]

end Alone

/-! ## Single blanks

Scanning a text that is put together from lexemes and single blanks, from its start. The keyword of two
words is the only place where two lexemes become one. -/

/-- Lexemes, each with a blank before it. -/
def spaced (ts : List Token) : Text := ts.flatMap fun t => 32 :: t.lexeme

/-- A blank and a lexeme stand in front. -/
theorem spaced_cons (t : Token) (ts : List Token) : spaced (t :: ts) = 32 :: (t.lexeme ++ spaced ts) := by
  rw [spaced, List.flatMap_cons, List.cons_append]
  rfl

/-- A lexeme is followed by a blank or by nothing. -/
theorem endsWord_spaced (ts : List Token) : Pattern.endsWord (spaced ts) = true := by
  cases ts with
  | nil => rfl
  | cons t ts => rfl

/-- The text itself starts without a blank. -/
theorem join_cons (t : Token) (ts : List Token) :
    Text.join " " ((t :: ts).map lexeme) = t.lexeme ++ spaced ts := by
  induction ts generalizing t with
  | nil =>
    show List.intercalate _ [t.lexeme] = _
    simp [spaced]
  | cons u ts ih =>
    rw [spaced_cons, ← ih u]
    show List.intercalate [32] (t.lexeme :: u.lexeme :: ts.map lexeme) = _
    rw [List.intercalate_cons_cons, List.append_assoc]
    rfl

/-- No other lexeme that is spelled out starts with the second of the two words. -/
theorem not_prefix_weida : ∀ r ∈ rules, ∀ w ∈ r.2.spelled, ¬utf8 "weida" <+: w := by
  decide

/-- Only the second word of the keyword is read where it starts a text. -/
theorem lexeme_eq_weida {a : Token} (ha : a.Alone) {ts : List Token} {d : Text}
    (h : a.lexeme ++ spaced ts = utf8 "weida" ++ d) (hd : Pattern.endsWord d = true) :
    a.lexeme = utf8 "weida" := by
  -- Both sides up to the first byte that belongs to no word.
  have hspan : a.lexeme.takeWhile Text.isWord = utf8 "weida" := by
    have hstop : ∀ t : Text, Pattern.endsWord t = true → t.takeWhile Text.isWord = [] := by
      intro t ht
      cases t with
      | nil => rfl
      | cons b t => exact List.takeWhile_cons_of_neg (by simpa [Pattern.endsWord] using ht)
    have hweida : (utf8 "weida" ++ d).takeWhile Text.isWord = utf8 "weida" := by
      rw [List.takeWhile_append_of_pos (List.all_eq_true.mp rfl), hstop d hd, List.append_nil]
    rw [← hweida, ← h]
    cases ts with
    | nil => rw [spaced, List.flatMap_nil, List.append_nil]
    | cons t ts => rw [spaced_cons, Pattern.takeWhile_append_byte (by decide)]
  have hlead : utf8 "weida" <+: a.lexeme := hspan ▸ List.takeWhile_prefix _
  have hhead : a.lexeme.head? = some 119 := by
    obtain ⟨u, hu⟩ := hlead
    rw [← hu]
    rfl
  have hfound := ha.found
  generalize a.lexeme = w, a.kind = kind at *
  cases hfound with
  | word hr hw => exact absurd hlead (not_prefix_weida _ hr _ hw)
  | sign hr hw => exact absurd hlead (not_prefix_weida _ hr _ hw)
  | digits hne hw => exact absurd (hw 119 (List.mem_of_head? hhead)) (by decide)
  | quoted ht => exact absurd hhead (by simp)
  | twoWords hne hblanks =>
    change some 103 = some 119 at hhead
    exact absurd hhead (by decide)
  | name hb ht =>
    rw [List.takeWhile_eq_self_iff.mpr (List.forall_mem_cons.mpr
      ⟨Text.isWord_of_isNameStart hb, ht⟩)] at hspan
    exact hspan

/-- A token is found in front of the others, unless it is the first word of the keyword and the next one
is the second. -/
theorem lexemeLength?_spaced {a : Token} {ts : List Token} (ha : a.Alone) (hts : ∀ b ∈ ts, b.Alone)
    (hpair : ¬[geh, weida] <+: (a :: ts).map content) :
    lexemeLength? false (a.lexeme ++ spaced ts) = some a.lexeme.length := by
  cases ts with
  | nil =>
    rw [spaced, List.flatMap_nil, List.append_nil]
    exact ha.length
  | cons b ts =>
    have hb := hts b List.mem_cons_self
    rcases solid_of_found ha.found with ⟨q, hq, hquoted⟩ | ⟨blanks, hne, hblanks, htwo⟩ | ⟨hquote, hsolid⟩
    · rw [hquoted]
      exact lexemeLength?_quotable hq false _
    · rw [htwo]
      exact lexemeLength?_twoWords_append hne hblanks (endsWord_spaced _)
    -- A blank ends every other lexeme, unless it is the first word of the keyword and the second one
    -- follows.
    · rw [spaced_cons, lexemeLength?_append_blank ha.ne_nil hquote hsolid, ha.length]
      by_contra hfound
      obtain ⟨n, hn⟩ := Option.ne_none_iff_exists'.mp hfound
      obtain ⟨hgeh, d, hd, hends⟩ := eq_of_find_twoWords hsolid (hb.not_isSpace_head _) hn
      have hfirst : a.content = geh := ha.content_eq hgeh (by decide) rfl
      have hsecond : b.content = weida := hb.content_eq (lexeme_eq_weida hb hd hends) (by decide) rfl
      rw [List.map_cons, List.map_cons, hfirst, hsecond] at hpair
      exact hpair ⟨_, rfl⟩

/-- A name is its own lexeme. -/
theorem lexeme_of_content {a : Token} (h : a.content = (.identifier, w)) : a.lexeme = w := by
  obtain ⟨hkind, hvalue⟩ := Prod.mk.inj h
  rw [lexeme, hkind, hvalue]

/-- **What is read from lexemes with single blanks.** It is what they are, with the two words of the
keyword made one where they meet. -/
theorem contents_spaced (afterWord : Bool) (ts : List Token) (h : ∀ t ∈ ts, t.Alone) :
    contents afterWord (spaced ts) = fuse (ts.map content) := by
  -- By induction on the number of tokens: behind the keyword there are two fewer.
  induction hcount : ts.length using Nat.strongRecOn generalizing ts afterWord with
  | ind count ih =>
    subst hcount
    cases ts with
    | nil => rfl
    | cons a ts =>
      obtain ⟨ha, hts⟩ := List.forall_mem_cons.mp h
      rw [spaced_cons, contents_blank]
      by_cases hpair : [geh, weida] <+: (a :: ts).map content
      · cases ts with
        | nil => exact absurd hpair.length_le (by simp)
        | cons b ts =>
          rw [List.map_cons, List.map_cons, List.cons_prefix_cons, List.cons_prefix_cons] at hpair
          obtain ⟨hgeh, hweida, -⟩ := hpair
          have htext : a.lexeme ++ spaced (b :: ts) =
              utf8 "geh" ++ ([32] ++ utf8 "weida") ++ spaced ts := by
            rw [spaced_cons, lexeme_of_content hgeh.symm, lexeme_of_content hweida.symm]
            rfl
          have hblank : ∀ c ∈ [(32 : UInt8)], Text.isSpace c = true := List.forall_mem_singleton.mpr rfl
          have hone := contents_lexeme (by simp)
            (lexemeLength?_twoWords_append (by simp) hblank (endsWord_spaced ts))
            (classify?_twoWords (by simp) hblank)
          have hlength : ts.length < (a :: b :: ts).length := by
            simp only [List.length_cons]
            omega
          rw [htext, hone, ih ts.length hlength _ ts (List.forall_mem_cons.mp hts).2 rfl,
            List.map_cons, List.map_cons, ← hgeh, ← hweida]
          rfl
      · rw [contents_lexeme ha.ne_nil (lexemeLength?_spaced ha hts hpair) ha.classify, valueOf_lexeme,
          ih ts.length (by simp) _ ts hts rfl, List.map_cons, fuse_cons hpair]
        rfl

/-! ## The tokens of a source

What has been shown of tokens that stand alone, for the tokens that the scanner finds. -/

/-- Every token of a source stands alone. -/
theorem alone_of_mem {a : Token} (ha : a ∈ scan source) : a.Alone := by
  obtain ⟨l, hl, htoken, -, hlexeme, -⟩ := lexeme_of_mem_scan ha
  obtain ⟨-, hne, hsplit, hfound⟩ := (cut_lexemes source).mem hl
  have hlength := (lexemeLength?_take (lexemeLength?_of_foundBy? hfound)).2
  rw [← hsplit, List.take_left] at hlength
  obtain ⟨kind, hkind, htoken⟩ := Option.map_eq_some_iff.mp htoken
  rw [← hlexeme] at hne hlength hkind
  refine ⟨hne, hlength, ?_⟩
  rw [hkind, ← htoken]

/-- No lexeme of a source is lost, and none is changed. -/
theorem map_lexemes (source : Text) :
    (scan source).map (fun t => (t.position, t.lexeme)) =
      (lexemes source).map fun l => (l.position, l.text) := by
  -- The induction is on the lexemes, all of which are lexemes of the source.
  have hall : ∀ ls : List Lexeme, (∀ l ∈ ls, l ∈ lexemes source) →
      (ls.filterMap Lexeme.token?).map (fun t => (t.position, t.lexeme)) =
        ls.map fun l => (l.position, l.text) := by
    intro ls hls
    induction ls with
    | nil => rfl
    | cons l ls ih =>
      obtain ⟨hl, hls⟩ := List.forall_mem_cons.mp hls
      obtain ⟨t, ht, hposition, hlexeme, -⟩ := token?_of_mem hl
      rw [List.filterMap_cons_some ht, List.map_cons, List.map_cons, ih hls, hposition, hlexeme]
  rw [scan_eq_filterMap]
  exact hall _ fun l hl => hl

/-- **Tokens are determined by their lexemes.** Every lexeme of a source becomes a token; a token's value
is the text of its span, which for a string is quoted; spans follow each other without overlap; and
the lexemes with single blanks between them are read as the same tokens, unless the two words of the
keyword are two names that follow each other. -/
theorem scan_respaced (source : Text) :
    (lexemes source).map (fun l => (l.position, l.text)) =
        (scan source).map (fun t => (t.position, t.lexeme)) ∧
      (∀ t ∈ scan source, t.lexeme ≠ [] ∧ t.lexeme <+: source.drop t.position) ∧
      (scan source).Pairwise (fun t u => t.position < u.position ∧ t.stop ≤ u.position) ∧
      ((scan (Text.join " " ((scan source).map lexeme))).map content = (scan source).map content ↔
        ¬[geh, weida] <:+: (scan source).map content) := by
  refine ⟨(map_lexemes source).symm, fun t ht => ?_, ?_, ?_⟩
  · obtain ⟨l, hl, -, hposition, hlexeme, -⟩ := lexeme_of_mem_scan ht
    obtain ⟨-, hne, hsplit, -⟩ := (cut_lexemes source).mem hl
    rw [hposition, hlexeme]
    exact ⟨hne, _, hsplit⟩
  · have hcut := (cut_lexemes source).pairwise
    have hpairs : ((lexemes source).map fun l => (l.position, l.text)).Pairwise
        fun p q => p.1 < q.1 ∧ p.1 + p.2.length ≤ q.1 := List.pairwise_map.mpr hcut
    rw [← map_lexemes] at hpairs
    exact List.pairwise_map.mp hpairs
  -- Each token is found where it stands alone; what is left is where two of them are found together.
  · have halone : ∀ t ∈ scan source, t.Alone := fun t ht => alone_of_mem ht
    rw [← fuse_eq_self_iff, ← contents_spaced false _ halone, contents_scan]
    cases scan source with
    | nil => rfl
    | cons a ts => rw [join_cons, spaced_cons, contents_blank]

/-- Two names become one keyword when a blank takes the place of what was between them. -/
example : (scan "geh$weida").map content = [geh, weida] ∧
    (scan "geh weida").map content = [(.whileWord, utf8 "geh weida")] := by
  decide

end Token

end Mundart
