import Mundart.Proofs.Grammar.Follow.Statements
import Mundart.Proofs.Grammar.RoundTrip
import Mundart.Proofs.Token.Content
import Mundart.Value.Display
import Mundart.Value.Order

/-!
# Shown values as literals

The shown form of a list or an associative array is a literal. Only the sign of a negative integer is
lost: no lexeme starts with it where a digit follows, so that it is passed over.

* **`Value.Readable`** — values whose shown form can be read back;
* **`Value.unsigned`** — the value that is read back, with the absolute value of every integer in it;
* **`Readable.spells`** — the shown form of a value gives the tokens of its literal;
* **`Program.parse_display`** — a declaration with a shown collection is read as such;
* **`Readable.equal_unsigned`** — what is read back is equal exactly if there is no negative integer.
-/

namespace Mundart

namespace Value

/-! ## Values that can be read back

Functions and doubles are left out, and so is absence. The literal of a value is the node that its shown
form is read as: the same tree, with the absolute value of every integer. -/

/-- A value made of truth values, integers and texts that can stand between quotes. The negation of the
least integer is none, so that one is left out. The keys of an associative array stand once each. -/
inductive Readable : Value → Prop where
  | bool (b : Bool) : Readable (.bool b)
  | int {n : Int64} (hn : n ≠ Int64.minValue) : Readable (.int n)
  | text {t : Text} (ht : Token.Quotable t) : Readable (.text t)
  | array {items : List Value} (hitems : ∀ v ∈ items, Readable v) : Readable (.array items)
  | assoc {entries : List (Text × Value)} (hkeys : (Dict.keys entries).Nodup)
      (hquotable : ∀ e ∈ entries, Token.Quotable e.1) (hvalues : ∀ e ∈ entries, Readable e.2) :
      Readable (.assoc entries)

/-- Somewhere in a value there is a negative integer. -/
inductive HasNegative : Value → Prop where
  | int {n : Int64} (h : n < 0) : HasNegative (.int n)
  | item {items : List Value} {v : Value} (hv : v ∈ items) (h : HasNegative v) :
      HasNegative (.array items)
  | entry {entries : List (Text × Value)} {e : Text × Value} (he : e ∈ entries)
      (h : HasNegative e.2) : HasNegative (.assoc entries)

mutual

/-- The value with the absolute value of every integer in it. -/
def unsigned : Value → Value
  | .int n => .int (Int64.ofNat n.toInt.natAbs)
  | .array items => .array (unsignedItems items)
  | .assoc entries => .assoc (unsignedEntries entries)
  | v => v

/-- The items, each with the absolute values in it. -/
def unsignedItems : List Value → List Value
  | [] => []
  | v :: vs => v.unsigned :: unsignedItems vs

/-- The entries likewise. Their keys stay. -/
def unsignedEntries : List (Text × Value) → List (Text × Value)
  | [] => []
  | (k, v) :: es => (k, v.unsigned) :: unsignedEntries es

end

mutual

/-- The literal that the shown form of a value is read as. -/
def literal : Value → Node
  | .array items => .array (literalItems items)
  | .assoc entries => .assoc (entries.map fun e => .literal (.text e.1)) (literalValues entries)
  | v => .literal v.unsigned

/-- The literals of the items. -/
def literalItems : List Value → List Node
  | [] => []
  | v :: vs => v.literal :: literalItems vs

/-- The literals of the values. The keys stand beside them as texts. -/
def literalValues : List (Text × Value) → List Node
  | [] => []
  | (_, v) :: es => v.literal :: literalValues es

end

/-! ### The parts of a collection one by one

Functions on values go into collections by functions of their own on items and entries. These are maps. -/

/-- The functions above follow the shape of the value; what they do to its items -/
theorem unsignedItems_eq (items : List Value) : unsignedItems items = items.map unsigned := by
  induction items with
  | nil => rfl
  | cons v vs ih => rw [unsignedItems, ih, List.map_cons]

/-- Taking the signs off entries is a map. -/
theorem unsignedEntries_eq (entries : List (Text × Value)) :
    unsignedEntries entries = entries.map fun e => (e.1, e.2.unsigned) := by
  induction entries with
  | nil => rfl
  | cons e es ih => rw [unsignedEntries, ih, List.map_cons]

/-- The literals of items are a map. -/
theorem literalItems_eq (items : List Value) : literalItems items = items.map literal := by
  induction items with
  | nil => rfl
  | cons v vs ih => rw [literalItems, ih, List.map_cons]

/-- The literals of values are a map. -/
theorem literalValues_eq (entries : List (Text × Value)) :
    literalValues entries = entries.map fun e => e.2.literal := by
  induction entries with
  | nil => rfl
  | cons e es ih => rw [literalValues, ih, List.map_cons]

/-- The shown forms of items are a map. -/
theorem nestedItems_eq (items : List Value) : nestedItems items = items.map nested := by
  induction items with
  | nil => rfl
  | cons v vs ih => rw [nestedItems, ih, List.map_cons]

/-- The shown forms of values are a map. -/
theorem nestedValues_eq (entries : List (Text × Value)) :
    nestedValues entries = entries.map fun e => nested e.2 := by
  induction entries with
  | nil => rfl
  | cons e es ih => rw [nestedValues, ih, List.map_cons]

/-! ## Integers

A shown integer is its digits, with a sign in front of them if it is negative. The least integer is the only
one whose digits are read as no integer. -/

/-- The absolute value of an integer other than the least one is an integer. -/
theorem natAbs_lt_bound {n : Int64} (hn : n ≠ Int64.minValue) :
    n.toInt.natAbs < Grammar.integerBound := by
  have hlow := n.minValue_le_toInt
  have hhigh := n.toInt_le
  have hne : n.toInt ≠ Int64.minValue.toInt := fun h => hn (Int64.toInt_inj.mp h)
  rw [show Int64.minValue.toInt = -9223372036854775808 from rfl] at hlow hne
  rw [show Int64.maxValue.toInt = 9223372036854775807 from rfl] at hhigh
  show n.toInt.natAbs < 9223372036854775808
  omega

/-- The absolute value is one of 64 bits, once more without the least integer. -/
theorem unsigned_int (n : Int64) : (int n).unsigned = .int (Int64.ofNat n.toInt.natAbs) := by
  rw [unsigned]

/-- The digits of an integer, behind the sign of a negative one. -/
theorem ofInt_cases (n : Int) : Text.ofInt n = Text.ofNat n.natAbs ∨
    Text.ofInt n = 45 :: Text.ofNat n.natAbs := by
  cases n with
  | ofNat n => exact .inl rfl
  | negSucc n => exact .inr rfl

/-! ## What stays equal

A lost sign is never made good: the absolute value of a negative integer is another integer, and equality
goes through all items and entries. The induction is on the value that is shown. -/

/-- An integer has a negative one in it if it is negative. -/
theorem hasNegative_int {n : Int64} : (int n).HasNegative ↔ n < 0 := by
  constructor
  · rintro ⟨h⟩
    exact h
  · exact .int

/-- A list has a negative integer in it if one of its items has. -/
theorem hasNegative_array {items : List Value} :
    (array items).HasNegative ↔ ∃ v ∈ items, v.HasNegative := by
  constructor
  · intro h
    cases h with
    | item hv h => exact ⟨_, hv, h⟩
  · rintro ⟨v, hv, h⟩
    exact .item hv h

/-- An associative array has a negative integer in it if one of its values has. -/
theorem hasNegative_assoc {entries : List (Text × Value)} :
    (assoc entries).HasNegative ↔ ∃ e ∈ entries, e.2.HasNegative := by
  constructor
  · intro h
    cases h with
    | entry he h => exact ⟨_, he, h⟩
  · rintro ⟨e, he, h⟩
    exact .entry he h

/-- An integer is its absolute value if it is not negative. -/
theorem eq_natAbs_iff {n : Int64} (hn : n ≠ Int64.minValue) :
    n = Int64.ofNat n.toInt.natAbs ↔ ¬ n < 0 := by
  have hbound : n.toInt.natAbs < 9223372036854775808 := natAbs_lt_bound hn
  rw [← Int64.toInt_inj, Int64.toInt_ofNat_of_lt (by omega), Int64.lt_iff_toInt_lt]
  show n.toInt = n.toInt.natAbs ↔ ¬ n.toInt < 0
  omega

/-- Items equal what they are mapped to if each of them does. -/
theorem equalItems_map (f : Value → Value) (items : List Value) :
    equalItems items (items.map f) = true ↔ ∀ v ∈ items, v.equal (f v) = true := by
  induction items with
  | nil => simp [equalItems]
  | cons v vs ih => simp [equalItems, ih]

/-- Entries equal what they are mapped to if each of their values does. -/
theorem equalEntries_map (f : Value → Value) (entries : List (Text × Value)) :
    equalEntries entries (entries.map fun e => (e.1, f e.2)) = true ↔
      ∀ e ∈ entries, e.2.equal (f e.2) = true := by
  induction entries with
  | nil => simp [equalEntries]
  | cons e es ih =>
    obtain ⟨k, v⟩ := e
    simp [equalEntries, ih]

/-- What is read back is equal to what was shown exactly if no sign was lost. -/
theorem Readable.equal_unsigned {v : Value} (h : v.Readable) :
    v.equal v.unsigned = true ↔ ¬ v.HasNegative := by
  induction h with
  | bool b =>
    -- Nothing negative is in a truth value, and it is read back as it is.
    have hnot : ¬ (Value.bool b).HasNegative := by
      intro hneg
      cases hneg
    simp [unsigned, equal, hnot]
  | int hn => simp [unsigned, equal, hasNegative_int, eq_natAbs_iff hn]
  | @text t _ =>
    have hnot : ¬ (Value.text t).HasNegative := by
      intro hneg
      cases hneg
    simp [unsigned, equal, hnot]
  | array _ ih =>
    -- Both sides ask something of every item; the hypothesis says that it is the same.
    rw [unsigned, equal, unsignedItems_eq, equalItems_map, hasNegative_array, not_exists]
    exact forall_congr' fun v => ⟨fun hv hand => (ih v hand.1).mp (hv hand.1) hand.2,
      fun hv hmem => (ih v hmem).mpr fun hneg => hv ⟨hmem, hneg⟩⟩
  | assoc _ _ _ ih =>
    rw [unsigned, equal, unsignedEntries_eq, equalEntries_map, hasNegative_assoc, not_exists]
    exact forall_congr' fun e => ⟨fun he hand => (ih e hand.1).mp (he hand.1) hand.2,
      fun he hmem => (ih e hmem).mpr fun hneg => he ⟨hmem, hneg⟩⟩

/-! ## Literals are well-formed

So the tokens of the literal are read as this literal, whatever follows. -/

open Grammar in
/-- The literal of a value is one of the grammar, with a number wherever an integer is shown. -/
theorem Readable.formed {v : Value} (h : v.Readable) : Formed IntegerLiteral .primary v.literal := by
  induction h with
  | bool b => exact .truth b
  | @int n hn =>
    rw [literal, unsigned_int]
    · exact .number ⟨_, natAbs_lt_bound hn, rfl⟩
    · exact fun _ => nofun
    · exact fun _ => nofun
  | text ht => exact .string (Token.carries_quotable ht)
  | array _ ih =>
    rw [literal, literalItems_eq]
    refine .array fun n hn => ?_
    obtain ⟨v, hv, rfl⟩ := List.mem_map.mp hn
    exact .ofComparison (.ofOperand (.ofPrimary (ih v hv)))
  | assoc _ hquotable _ ih =>
    rw [literal, literalValues_eq]
    refine .assoc (fun n hn => ?_) fun n hn => ?_
    · obtain ⟨e, he, rfl⟩ := List.mem_map.mp hn
      exact .ofComparison (.ofOperand (.ofPrimary (.string (Token.carries_quotable (hquotable e he)))))
    · obtain ⟨e, he, rfl⟩ := List.mem_map.mp hn
      exact .ofComparison (.ofOperand (.ofPrimary (ih e he)))

end Value

/-! ## The tokens of a shown value

What a text is scanned as depends on what follows it, as a word may go on. A shown value ends in a quote, a
bracket, or a word that must end there. So `Spells` asks that whatever follows starts no word's
continuation. -/

namespace Token

/-- A text gives some tokens, whatever follows it, as long as no word goes on. -/
def Spells (t : Text) (ts : List Token) : Prop :=
  ∀ rest, Pattern.endsWord rest = true →
    ∃ atEnd, contents false (t ++ rest) = ts.map content ++ contents atEnd rest

variable {t u : Text} {ts us : List Token}

/-- A comma is a token of its own, whatever stands around it. -/
theorem contents_comma (afterWord : Bool) (rest : Text) :
    contents afterWord (44 :: rest) = (plain .separator).content :: contents false rest :=
  contents_sign 23 rfl (by decide) (by decide) (by decide) rest

/-- A colon is a token of its own, whatever stands around it. -/
theorem contents_colon (afterWord : Bool) (rest : Text) :
    contents afterWord (58 :: rest) = (plain .colon).content :: contents false rest :=
  contents_sign 5 rfl (by decide) (by decide) (by decide) rest

/-- A bracket that opens is a token of its own, whatever stands around it. -/
theorem contents_leftBracket (afterWord : Bool) (rest : Text) :
    contents afterWord (91 :: rest) = (plain .leftBracket).content :: contents false rest :=
  contents_sign 17 rfl (by decide) (by decide) (by decide) rest

/-- A bracket that closes is a token of its own, whatever stands around it. -/
theorem contents_rightBracket (afterWord : Bool) (rest : Text) :
    contents afterWord (93 :: rest) = (plain .rightBracket).content :: contents false rest :=
  contents_sign 18 rfl (by decide) (by decide) (by decide) rest

/-- A text between brackets, with the text behind them. -/
theorem contents_brackets (h : Spells t ts) (afterWord : Bool) (rest : Text) :
    contents afterWord (91 :: (t ++ 93 :: rest)) =
      (brackets ts).map content ++ contents false rest := by
  obtain ⟨atEnd, hinside⟩ := h (93 :: rest) rfl
  rw [contents_leftBracket, hinside, contents_rightBracket]
  simp [brackets, enclosed]

/-- Texts with commas between them. -/
theorem spells_items {α : Type} (text : α → Text) (node : α → Node) : ∀ {xs : List α},
    (∀ x ∈ xs, Spells (text x) (node x).tokens) →
    Spells (Text.join ", " (xs.map text)) (Node.itemTokens (xs.map node)) := by
  intro xs
  induction xs with
  | nil => exact fun _ rest _ => ⟨false, rfl⟩
  | cons x xs ih =>
    intro h
    obtain ⟨hx, hxs⟩ := List.forall_mem_cons.mp h
    -- There is a comma behind an element only if another one follows.
    cases xs with
    | nil =>
      show Spells (Text.join ", " [text x]) (node x).tokens
      rw [Text.join, List.intercalate_singleton]
      exact hx
    | cons y ys =>
      intro rest hrest
      obtain ⟨atEnd, hlater⟩ := ih hxs rest hrest
      -- The element is met with the comma and a blank behind it.
      obtain ⟨atComma, hfirst⟩ :=
        hx (44 :: 32 :: (Text.join ", " ((y :: ys).map text) ++ rest)) rfl
      have htext : Text.join ", " ((x :: y :: ys).map text) ++ rest =
          text x ++ 44 :: 32 :: (Text.join ", " ((y :: ys).map text) ++ rest) := by
        show List.intercalate [44, 32] (text x :: text y :: ys.map text) ++ rest = _
        rw [List.intercalate_cons_cons, List.append_assoc, List.append_assoc]
        rfl
      refine ⟨atEnd, ?_⟩
      rw [htext, hfirst, contents_comma, contents_blank, hlater]
      show _ = ((node x).tokens ++ plain .separator :: Node.itemTokens ((y :: ys).map node)).map content
        ++ _
      rw [List.map_append, List.map_cons, List.append_assoc]
      rfl

/-- A text in quotes gives its token, whatever follows. -/
theorem spells_quoted {t : Text} (h : Quotable t) :
    Spells (Value.inQuotes t) (Node.tokens (.literal (.text t))) := by
  intro rest _
  refine ⟨false, ?_⟩
  show contents false (34 :: t ++ [34] ++ rest) = _
  rw [List.append_assoc, List.cons_append, List.singleton_append]
  exact contents_quoted h rest

/-- A keyword in front of something that is no word byte. -/
theorem contents_keyword {kind : Kind} {w rest : Text} (i : Nat)
    (hrule : rules[i]? = some (kind, .word [w])) (hne : w ≠ []) (hclass : classify? w = some kind)
    (hbefore : ∀ r ∈ rules.take i, r.2.find false (w ++ rest) = none)
    (hrest : Pattern.endsWord rest = true) :
    contents false (w ++ rest) = (kind, valueOf kind w) :: contents (afterText false w) rest := by
  have hspelled : w.isPrefixOf (w ++ rest) = true :=
    List.isPrefixOf_iff_prefix.mpr (List.prefix_append _ _)
  have hends : Pattern.endsWord ((w ++ rest).drop w.length) = true := by
    rw [List.drop_left]
    exact hrest
  -- The word is found whole, as no word byte follows it.
  have hfind : (Pattern.word [w]).find false (w ++ rest) = some w.length := by
    show ([w].find? fun w' => w'.isPrefixOf (w ++ rest) &&
      Pattern.endsWord ((w ++ rest).drop w'.length)).map List.length = _
    rw [List.find?_cons_of_pos (by rw [hspelled, hends]; rfl)]
    rfl
  exact contents_lexeme hne (lexemeLength?_of_rule i hrule hbefore hfind) hclass

/-- The words of the truth values. -/
theorem spells_truth (b : Bool) :
    Spells (Value.boolWord b) (Node.tokens (.literal (.bool b))) := by
  intro rest hrest
  cases b with
  | true =>
    -- No rule before this one starts with the same letter.
    have hopens : ∀ r ∈ rules.take 6, r.2.opens 98 = false := by decide
    exact ⟨_, contents_keyword 6 rfl (by decide) (by decide)
      (fun r hr => find_eq_none (hopens r hr)) hrest⟩
  | false =>
    -- One of the rules before this one starts with the same letter.
    have hbefore : ∀ r ∈ rules.take 4, r.2.find false (utf8 "sichaned" ++ rest) = none := by
      intro r hr
      simp only [rules, List.take, List.mem_cons, List.not_mem_nil, or_false] at hr
      obtain rfl | rfl | rfl | rfl := hr <;> rfl
    exact ⟨_, contents_keyword 4 rfl (by decide) (by decide) hbefore hrest⟩

/-- A sign in front of a digit gives no token. -/
theorem contents_minus {digits : Text} (hne : digits ≠ [])
    (hdigits : ∀ b ∈ digits, Text.isDigit b = true) (rest : Text) :
    contents false (45 :: (digits ++ rest)) = contents false (digits ++ rest) := by
  obtain ⟨b, t, rfl⟩ := List.exists_cons_of_ne_nil hne
  have hb : b ≠ 61 := by
    rintro rfl
    exact absurd (hdigits 61 List.mem_cons_self) (by decide)
  -- Only one lexeme starts with the sign, and an equals sign follows in it.
  have hassign : ∀ r ∈ rules, r.2.opens 45 = true → r.1 = .assign := by decide
  have hmem : (Kind.assign, Pattern.signs ["+=", "-=", "*=", "/=", "="]) ∈ rules := by simp [rules]
  have hnone : lexemeLength? false (45 :: b :: (t ++ rest)) = none := by
    refine List.findSome?_eq_none_iff.mpr fun r hr => ?_
    cases hfind : r.2.find false (45 :: b :: (t ++ rest)) with
    | none => rfl
    | some n =>
      have hkind := hassign r hr (Pattern.opens_of_find hfind)
      rw [rule_unique hr hmem hkind] at hfind
      simp only [Pattern.find] at hfind
      obtain ⟨w, hw, hspelled, -, -⟩ := Pattern.findChoice_eq_some hfind
      have hnext : ∀ w ∈ [utf8 "+=", utf8 "-=", utf8 "*=", utf8 "/=", utf8 "="],
          w.head? = some 45 → w = [45, 61] := by decide
      have hhead : w.head? = some 45 := by
        have hnil : ∀ w ∈ [utf8 "+=", utf8 "-=", utf8 "*=", utf8 "/=", utf8 "="], w ≠ [] := by decide
        obtain ⟨c, w', rfl⟩ := List.exists_cons_of_ne_nil (hnil w hw)
        simpa using Pattern.head_of_isPrefixOf hspelled
      rw [hnext w hw hhead] at hspelled
      simp [List.isPrefixOf] at hspelled
      exact absurd hspelled.symm hb
  exact contents_skip hnone

/-- An integer gives the number of its digits, as a sign in front of them is passed over. -/
theorem spells_int {n : Int64} (hn : n ≠ Int64.minValue) :
    Spells (Text.ofInt n.toInt) (Node.tokens (.literal (Value.int n).unsigned)) := by
  intro rest hrest
  have hdigits : ∀ b ∈ Text.ofNat n.toInt.natAbs, Text.isDigit b = true :=
    fun b hb => Text.isDigit_of_mem_ofNat hb
  have hne := Text.ofNat_ne_nil n.toInt.natAbs
  have htokens : Node.tokens (.literal (Value.int n).unsigned) =
      [word .number (Text.ofNat n.toInt.natAbs)] := by
    rw [Value.unsigned_int, Node.tokens, Grammar.ofLiteral_integer (Value.natAbs_lt_bound hn)]
  have hnumber := @contents_digits false _ _ hne hdigits hrest
  rw [htokens]
  obtain hsign | hsign := Value.ofInt_cases n.toInt
  · rw [hsign]
    exact ⟨_, hnumber⟩
  · rw [hsign, List.cons_append, contents_minus hne hdigits]
    exact ⟨_, hnumber⟩

end Token

namespace Value

open Token

/-- The shown form of a value gives the tokens of its literal. -/
theorem Readable.spells {v : Value} (h : v.Readable) : Spells v.nested v.literal.tokens := by
  induction h with
  | bool b => exact spells_truth b
  | int hn => exact spells_int hn
  | text ht => exact spells_quoted ht
  | @array items _ ih =>
    intro rest _
    have hitems := spells_items nested literal ih
    refine ⟨false, ?_⟩
    rw [nested, nestedItems_eq, literal, literalItems_eq, Node.tokens]
    show contents false (91 :: _ ++ [93] ++ rest) = _
    rw [List.append_assoc, List.cons_append, List.singleton_append]
    exact contents_brackets hitems false rest
  | @assoc entries _ hquotable _ ih =>
    intro rest _
    have hkeys := spells_items (fun e : Text × Value => inQuotes e.1)
      (fun e => .literal (.text e.1)) fun e he => spells_quoted (hquotable e he)
    have hvalues := spells_items (fun e : Text × Value => nested e.2) (fun e => e.2.literal) ih
    refine ⟨false, ?_⟩
    rw [nested, nestedValues_eq, literal, literalValues_eq, Node.tokens]
    -- Only what the keys and the values spell is used, not how they are shown.
    generalize Text.join ", " (entries.map fun e => inQuotes e.1) = keys at hkeys
    generalize Text.join ", " (entries.map fun e => nested e.2) = values at hvalues
    have htext : utf8 "[" ++ keys ++ utf8 "] : [" ++ values ++ utf8 "]" ++ rest =
        91 :: (keys ++ 93 :: 32 :: 58 :: 32 :: 91 :: (values ++ 93 :: rest)) := by
      show 91 :: keys ++ [93, 32, 58, 32, 91] ++ values ++ [93] ++ rest = _
      simp
    rw [htext, contents_brackets hkeys, contents_blank, contents_colon, contents_blank,
      contents_brackets hvalues, List.map_append, List.map_cons, List.append_assoc]
    rfl

end Value

/-! ## A declaration with a shown value

The tokens of the source are those of a declaration in canonical form, but for their positions, and these do
not matter to what is read. -/

namespace Grammar

/-- Tokens that say the same are read alike. -/
theorem follows_of_content : ∀ {ts ts' : List Token},
    ts.map Token.content = ts'.map Token.content → Follows [] ts ts' := by
  intro ts
  induction ts with
  | nil =>
    intro ts' h
    obtain rfl := List.map_eq_nil_iff.mp h.symm
    exact .done
  | cons t ts ih =>
    intro ts' h
    obtain ⟨t', ts', rfl, ht, hts⟩ := List.map_eq_cons_iff.mp h.symm
    -- Tokens with the same content differ in their positions at most.
    obtain ⟨kind, value, position⟩ := t
    obtain ⟨kind', value', position'⟩ := t'
    obtain ⟨rfl, rfl⟩ := Prod.mk.inj ht
    exact .next _ _ _ _ (ih hts.symm)

end Grammar

namespace Program

open Grammar

/-- Where tokens stand does not matter to what program they are. -/
theorem ofTokens_follows {ts ts' : List Token} {program : Program} (h : ofTokens ts = .ok program)
    (hsame : Follows [] ts ts') : ofTokens ts' = .ok program := by
  have hlength : ts'.length = ts.length := by simpa using hsame.length
  rw [ofTokens_eq_ok] at h ⊢
  have hagrees : Agrees [] (ts.length + 1) (statementAt (ts.length + 1))
      (statementAt (0 + (ts.length + 1))) := statementAt_agrees (.inl rfl) _ _
  obtain ⟨rest, hrun, hrest, -⟩ := statements_agrees hagrees (statementAt_nil _) 0 []
    (ts.length + 1) [] hsame (Nat.lt_succ_self _) (Nat.lt_succ_self _) h fun _ => rfl
  cases hrest
  rw [Nat.zero_add, List.append_nil, List.reverse_nil, List.nil_append, ← hlength] at hrun
  exact hrun

/-- A single declaration needs no semicolon. -/
theorem ofTokens_start {n : Node} (h : ReadsStart n) : ofTokens n.tokens = .ok [n] := by
  have hfound := (h stops_nil).2 (statementAt n.tokens.length)
  have hpos := length_pos_of_found rfl (h stops_nil).1
  rw [List.append_nil] at hfound
  rw [ofTokens_eq_ok, statements]
  rw [show statementAt (n.tokens.length + 1) n.tokens = .ok (some (n, [])) from hfound]
  exact statements_nil (statementAt_nil _) _ _

/-- The words in front of the value, up to the equals sign. -/
theorem contents_declaration (t : Text) : Token.contents false (utf8 "heast c = " ++ t) =
    [(Token.plain .letWord).content, (Token.word .identifier "c").content,
      (Token.plain .assign).content] ++ Token.contents false t := by
  -- The only rule before the one of this keyword starts with another letter.
  have hopens : ∀ r ∈ Token.rules.take 1, r.2.opens 104 = false := by decide
  have hlet : Token.contents false (utf8 "heast" ++ 32 :: 99 :: 32 :: 61 :: 32 :: t) =
      (Token.plain .letWord).content :: Token.contents true (32 :: 99 :: 32 :: 61 :: 32 :: t) :=
    Token.contents_keyword 1 rfl (by decide) (by decide)
      (fun r hr => Token.find_eq_none (hopens r hr)) rfl
  have hname : Token.contents false ([99] ++ 32 :: 61 :: 32 :: t) =
      (Token.word .identifier "c").content :: Token.contents true (32 :: 61 :: 32 :: t) :=
    Token.contents_lexeme (by decide) rfl (by decide)
  have hassign : Token.contents false ([61] ++ 32 :: t) =
      (Token.plain .assign).content :: Token.contents false (32 :: t) :=
    Token.contents_lexeme (by decide) rfl (by decide)
  calc Token.contents false (utf8 "heast c = " ++ t)
      = Token.contents false (utf8 "heast" ++ 32 :: 99 :: 32 :: 61 :: 32 :: t) := rfl
    _ = (Token.plain .letWord).content :: Token.contents false ([99] ++ 32 :: 61 :: 32 :: t) := by
      rw [hlet, Token.contents_blank]
      rfl
    _ = (Token.plain .letWord).content :: (Token.word .identifier "c").content ::
        Token.contents false ([61] ++ 32 :: t) := by
      rw [hname, Token.contents_blank]
      rfl
    _ = _ := by
      rw [hassign, Token.contents_blank]
      rfl

/-- A declaration with a shown collection is read as the declaration of its literal. -/
theorem parse_display {v : Value} (hv : v.Readable) (hcollection : v.isCollection = true) :
    parse (utf8 "heast c = " ++ v.display) = .ok [.declare "c" v.literal] := by
  -- Collections are shown alike at the top and inside others.
  have hshown : v.display = v.nested := by
    cases v <;> simp [Value.isCollection] at hcollection <;> rfl
  obtain ⟨atEnd, hspells⟩ := hv.spells [] rfl
  rw [List.append_nil, Token.contents_nil, List.append_nil] at hspells
  have hcontents : (Node.declare "c" v.literal).tokens.map Token.content =
      (Token.scan (utf8 "heast c = " ++ v.display)).map Token.content := by
    rw [Token.contents_scan, contents_declaration, hshown, hspells, Node.tokens]
    rfl
  have hexpression : Formed IntegerLiteral .expression v.literal :=
    .ofComparison (.ofOperand (.ofPrimary hv.formed))
  have hread : ReadsStart (.declare "c" v.literal) := readsStart_declare hexpression.readsAt.1
  exact ofTokens_follows (ofTokens_start hread) (follows_of_content hcontents)

end Program

end Mundart
