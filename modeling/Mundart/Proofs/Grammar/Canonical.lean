import Mundart.Proofs.Grammar.Derivation.Formed
import Mundart.Proofs.Number.Decimal

/-!
# Canonical token lists

Every program can be written as a list of tokens in one canonical way: a semicolon after every
statement, commas only between two things, and braces around everything that is done otherwise.

* **`Node.tokens`**, **`Program.tokens`** — the canonical tokens of a node and of a program;
* **`Formed.admits`** — the tokens of a well-formed node carry what tokens of their kind can carry;
* **`numberValue?_ofNat`** — the decimal digits of an integer are read back as that integer.
-/

namespace Mundart

namespace Token

/-- The word or sign of a kind whose tokens are all written the same way, and of assignments the sign
that is allowed. -/
def Kind.lexeme : Kind → Text
  | .print => "oida.sag"
  | .letWord => "heast"
  | .ifWord => "wenn"
  | .elseWord => "sonst"
  | .falseWord => "sichaned"
  | .colon => ":"
  | .trueWord => "basst"
  | .function => "hawara"
  | .andWord => "und"
  | .orWord => "oda"
  | .returnWord => "speicher"
  | .filterArrow => "=>"
  | .assign => "="
  | .leftBracket => "["
  | .rightBracket => "]"
  | .leftBrace => "\x7b"
  | .rightBrace => "\x7d"
  | .leftParen => "("
  | .rightParen => ")"
  | .separator => ","
  | .semicolon => ";"
  | .forWord => "aufi"
  | .whileWord => "geh weida"
  | .forEach => "fiaOis"
  | .asWord => "als"
  | .dot => "."
  | .comment => "kommentar"
  | .fetch => "holma"
  | .comparison | .arithmetic | .number | .string | .identifier => []

/-- The token of a kind that is always written the same way. -/
def plain (kind : Kind) : Token := ⟨kind, kind.lexeme, 0⟩

/-- The token of a kind with a value of its own. -/
def word (kind : Kind) (value : Text) : Token := ⟨kind, value, 0⟩

/-- Tokens between an opening and a closing one. -/
def enclosed (opening closing : Kind) (ts : List Token) : List Token :=
  plain opening :: (ts ++ [plain closing])

/-- Tokens in parentheses. -/
def parens (ts : List Token) : List Token := enclosed .leftParen .rightParen ts

/-- Tokens in brackets. -/
def brackets (ts : List Token) : List Token := enclosed .leftBracket .rightBracket ts

/-- Tokens in braces. -/
def braces (ts : List Token) : List Token := enclosed .leftBrace .rightBrace ts

/-- The token of an operator between the operands of a chain. -/
def link (op : Text) : Token := word (if op = Kind.andWord.lexeme then .andWord else .orWord) op

/-- Names with commas between them. -/
def ofNames : List Text → List Token
  | [] => []
  | [name] => [word .identifier name]
  | name :: names => word .identifier name :: plain .separator :: ofNames names

/-- The token of a literal; values that no literal writes have none. -/
def ofLiteral : Value → List Token
  | .int n => [word .number (Text.ofNat n.toInt.toNat)]
  | .text t => [word .string t]
  | .bool true => [plain .trueWord]
  | .bool false => [plain .falseWord]
  | _ => []

end Token

open Token in
mutual

/-- The canonical tokens of a node. -/
def Node.tokens : Node → List Token
  | .literal v => ofLiteral v
  | .identifier name => [word .identifier name]
  | .declare name init =>
    plain .letWord :: word .identifier name :: plain .assign :: init.tokens
  | .assign name value => word .identifier name :: plain .assign :: value.tokens
  | .array elements => brackets (Node.itemTokens elements)
  | .assoc keys values =>
    brackets (Node.itemTokens keys) ++ plain .colon :: brackets (Node.itemTokens values)
  | .index collection position => collection.tokens ++ brackets position.tokens
  | .indexAssign name position value =>
    word .identifier name :: (brackets position.tokens ++ plain .assign :: value.tokens)
  | .property object name => object.tokens ++ [plain .dot, word .identifier name]
  | .propertyCall object name =>
    object.tokens ++ plain .dot :: word .identifier name :: parens []
  | .propertyWith object name arg =>
    object.tokens ++ plain .dot :: word .identifier name :: parens arg.tokens
  | .binary left op right => left.tokens ++ word .arithmetic op :: right.tokens
  | .unary op operand => operand.tokens ++ [word .arithmetic op]
  | .comparison left op right => left.tokens ++ word .comparison op :: right.tokens
  | .chain operands ops => Node.chainTokens operands ops
  | .ifThen test body =>
    plain .ifWord :: (parens test.tokens ++ braces (Node.blockTokens body))
  | .ifElse test body otherwise =>
    plain .ifWord :: (parens test.tokens ++ braces (Node.blockTokens body) ++
      plain .elseWord :: braces (Node.blockTokens otherwise))
  | .forLoop start test update body =>
    plain .forWord :: (parens (start.tokens ++ plain .semicolon ::
      (test.tokens ++ plain .semicolon :: update.tokens)) ++ braces (Node.blockTokens body))
  | .whileLoop test body =>
    plain .whileWord :: (parens test.tokens ++ braces (Node.blockTokens body))
  | .forEach collection item body =>
    plain .forEach :: (parens (collection.tokens ++ [plain .asWord, word .identifier item]) ++
      braces (Node.blockTokens body))
  | .filter collection item predicate =>
    collection.tokens ++ plain .dot :: word .identifier Grammar.filterWord ::
      parens (word .identifier item :: plain .filterArrow :: braces predicate.tokens)
  | .function name params body =>
    plain .function :: word .identifier name ::
      (parens (ofNames params) ++ braces (Node.blockTokens body))
  | .call name args => word .identifier name :: parens (Node.itemTokens args)
  | .print values => plain .print :: parens (Node.itemTokens values)
  | .ret => [plain .returnWord]
  | .retWith value => plain .returnWord :: value.tokens
  | .fetch url => plain .fetch :: parens url.tokens
  | .comment text => [plain .comment, word .string text]
  | .missing | .foreign _ => []

/-- Nodes with commas between them. -/
def Node.itemTokens : List Node → List Token
  | [] => []
  | [n] => n.tokens
  | n :: ns => n.tokens ++ plain .separator :: Node.itemTokens ns

/-- Operands with operators between them. -/
def Node.chainTokens : List Node → List Text → List Token
  | [], _ => []
  | n :: _, [] => n.tokens
  | n :: ns, op :: ops => n.tokens ++ link op :: Node.chainTokens ns ops

/-- Statements, each with a semicolon behind it. -/
def Node.blockTokens : List Node → List Token
  | [] => []
  | n :: ns => n.tokens ++ plain .semicolon :: Node.blockTokens ns

end

/-- A comma stands in front of every item but the first one. -/
theorem Node.itemTokens_cons (n m : Node) (ms : List Node) : Node.itemTokens (n :: m :: ms) =
    n.tokens ++ Token.plain .separator :: Node.itemTokens (m :: ms) :=
  rfl

/-- The canonical tokens of a program. -/
def Program.tokens (program : Program) : List Token := Node.blockTokens program

/-! ## Numbers

A literal is written with its decimal digits, which are read as the integer again as long as they stay below
the bound of integers. -/

namespace Grammar

/-- The digits of an integer literal are read back as its value. -/
theorem numberValue?_ofNat {n : Nat} (h : n < integerBound) :
    numberValue? (Text.ofNat n) = some (.int (Int64.ofNat n)) := by
  have hread : Number.readInt64 (Text.ofNat n) = .ok (Int64.ofNat n) := by
    rw [Number.readInt64_digits (Text.ofNat_ne_nil n) fun b hb => Text.isDigit_of_mem_ofNat hb,
      Text.digitsValue_ofNat]
    exact if_pos h
  rw [numberValue?, hread]

/-- A number below the bound is an integer literal. -/
theorem integerLiteral_of_digits {digits : Text} {v : Value}
    (hcarries : Token.Kind.number.Carries digits) (hbound : Integral digits)
    (hv : numberValue? digits = some v) : IntegerLiteral v := by
  have hread : Number.readInt64 digits = .ok (Int64.ofNat (Text.digitsValue digits)) := by
    rw [Number.readInt64_digits hcarries.digits.1 hcarries.digits.2]
    exact if_pos hbound
  rw [numberValue?, hread] at hv
  exact ⟨Text.digitsValue digits, hbound, (Option.some.inj hv).symm⟩

/-- An integer below the bound is its number. -/
theorem toNat_toInt_ofNat {n : Nat} (h : n < integerBound) : (Int64.ofNat n).toInt.toNat = n := by
  have hbound : n < 9223372036854775808 := h
  rw [Int64.toInt_ofNat_of_lt (by omega), Int.toNat_natCast]

/-- So it is written with the digits of this number. -/
theorem ofLiteral_integer {n : Nat} (h : n < integerBound) :
    Token.ofLiteral (.int (Int64.ofNat n)) = [Token.word .number (Text.ofNat n)] := by
  rw [Token.ofLiteral, toNat_toInt_ofNat h]

/-! ## The tokens of a well-formed node carry what they can

What a token carries has to be a lexeme of its kind, so that some source is scanned as it. Words and signs
always do; names, numbers, operators and texts do by the well-formedness of the node. There is one lemma for
every way in which tokens are put together, and each case below is made of these. -/

open Token

/-- A word or sign carries itself. -/
theorem carries_lexeme {kind : Kind} (h : kind.lexeme ≠ []) : kind.Carries kind.lexeme := by
  refine ⟨kind.lexeme, ?_⟩
  -- Each word or sign is scanned; the kinds without one are excluded.
  revert h
  cases kind <;> decide +kernel

/-- The digits of a number are a lexeme. -/
theorem carries_ofNat (n : Nat) : Kind.number.Carries (Text.ofNat n) := by
  cases h : Text.ofNat n with
  | nil => exact absurd h (Text.ofNat_ne_nil n)
  | cons b t =>
    rw [← h]
    have hdigits : ∀ c ∈ b :: t, Text.isDigit c = true := fun c hc =>
      Text.isDigit_of_mem_ofNat (h ▸ hc)
    exact h ▸ carries_digits hdigits

section Admits

variable {digits : Text → Prop}

/-- The empty list is admitted. -/
@[simp] theorem admits_nil : Admits digits [] := List.forall_mem_nil _

/-- Two lists are admitted together if both of them are. -/
@[simp] theorem admits_append {ts ts' : List Token} :
    Admits digits (ts ++ ts') ↔ Admits digits ts ∧ Admits digits ts' :=
  List.forall_mem_append

/-- A word or sign may be put in front of admitted tokens. -/
theorem admits_plain {kind : Kind} {ts : List Token} (h : kind.lexeme ≠ []) :
    Admits digits (plain kind :: ts) ↔ Admits digits ts := by
  have hkind : kind ≠ .number := fun hk => h (hk ▸ rfl)
  exact admits_cons.trans
    ⟨fun h => h.2, fun hts => ⟨⟨carries_lexeme h, fun hk => absurd hk hkind⟩, hts⟩⟩

/-- A token that carries what it can, other than a number, may be put in front. -/
theorem admits_word {kind : Kind} {value : Text} {ts : List Token} (hk : kind ≠ .number) :
    Admits digits (word kind value :: ts) ↔ kind.Carries value ∧ Admits digits ts :=
  admits_cons.trans ⟨fun h => ⟨h.1.1, h.2⟩, fun h => ⟨⟨h.1, fun h => absurd h hk⟩, h.2⟩⟩

/-- Parentheses may be put around tokens. -/
theorem admits_parens {ts : List Token} : Admits digits (parens ts) ↔ Admits digits ts := by
  simp (disch := decide) [parens, enclosed, admits_plain]

/-- Brackets may be put around tokens. -/
theorem admits_brackets {ts : List Token} : Admits digits (brackets ts) ↔ Admits digits ts := by
  simp (disch := decide) [brackets, enclosed, admits_plain]

/-- Braces may be put around tokens. -/
theorem admits_braces {ts : List Token} : Admits digits (braces ts) ↔ Admits digits ts := by
  simp (disch := decide) [braces, enclosed, admits_plain]

/-- An operator between conditions is one of two words. -/
theorem admits_link {op : Text} {ts : List Token}
    (hop : Kind.andWord.Carries op ∨ Kind.orWord.Carries op) :
    Admits digits (link op :: ts) ↔ Admits digits ts := by
  have hrule : (Kind.andWord, Pattern.word ["und"]) ∈ rules := by simp [rules]
  -- An operator that is not `und` is `oda`, since tokens carry no other ones.
  unfold link
  split
  · next h =>
    subst h
    exact admits_plain (by decide)
  · next h =>
    have hor : Kind.orWord.Carries op := hop.resolve_left fun hand =>
      h (List.mem_singleton.mp (hand.mem_words hrule (by decide)))
    rw [admits_word (by decide)]
    exact and_iff_right hor

/-- Names with commas between them are admitted if each of them can be carried. -/
theorem admits_names {names : List Text} (h : ∀ name ∈ names, Kind.identifier.Carries name) :
    Admits digits (ofNames names) := by
  fun_induction ofNames names with
  | case1 => exact admits_nil
  | case2 name => exact (admits_word (by decide)).mpr ⟨h name List.mem_cons_self, admits_nil⟩
  | case3 name names _ ih =>
    obtain ⟨hname, hnames⟩ := List.forall_mem_cons.mp h
    exact (admits_word (by decide)).mpr ⟨hname, (admits_plain (by decide)).mpr (ih hnames)⟩

/-- Nodes with commas between them are admitted if the tokens of each are. -/
theorem admits_items {ns : List Node} (h : ∀ n ∈ ns, Admits digits n.tokens) :
    Admits digits (Node.itemTokens ns) := by
  induction ns with
  | nil => exact admits_nil
  | cons n ns ih =>
    obtain ⟨hn, hns⟩ := List.forall_mem_cons.mp h
    cases ns with
    | nil => exact hn
    | cons m ms =>
      exact admits_append.mpr ⟨hn, (admits_plain (by decide)).mpr (ih hns)⟩

/-- Operands with operators between them are admitted if the tokens of each operand are. -/
theorem admits_chain {ns : List Node} : ∀ {ops : List Text},
    (∀ op ∈ ops, Kind.andWord.Carries op ∨ Kind.orWord.Carries op) →
    (∀ n ∈ ns, Admits digits n.tokens) → Admits digits (Node.chainTokens ns ops) := by
  induction ns with
  | nil =>
    intro ops hops h
    exact admits_nil
  | cons n ns ih =>
    intro ops hops h
    obtain ⟨hn, hns⟩ := List.forall_mem_cons.mp h
    cases ops with
    | nil => exact hn
    | cons op ops =>
      obtain ⟨hop, hops⟩ := List.forall_mem_cons.mp hops
      exact admits_append.mpr ⟨hn, (admits_link hop).mpr (ih hops hns)⟩

/-- Statements are admitted if the tokens of each of them are. -/
theorem admits_block {ns : List Node} (h : ∀ n ∈ ns, Admits digits n.tokens) :
    Admits digits (Node.blockTokens ns) := by
  induction ns with
  | nil => exact admits_nil
  | cons n ns ih =>
    obtain ⟨hn, hns⟩ := List.forall_mem_cons.mp h
    exact admits_append.mpr ⟨hn, (admits_plain (by decide)).mpr (ih hns)⟩

end Admits

/-- The canonical tokens of a well-formed node are admitted. -/
theorem Formed.admits {place : Place} {n : Node} (h : Formed IntegerLiteral place n) :
    Admits Integral n.tokens := by
  induction h with
  | name hname => exact (admits_word (by decide)).mpr ⟨hname, admits_nil⟩
  | index _ _ hc hp => exact admits_append.mpr ⟨hc, admits_brackets.mpr hp⟩
  | ofTarget _ ih => exact ih
  | @number v hv =>
    -- The canonical digits of an integer are read back as the integer itself.
    obtain ⟨n, hn, rfl⟩ := hv
    rw [Node.tokens, ofLiteral_integer hn]
    refine admits_cons.mpr ⟨⟨carries_ofNat n, fun _ => ?_⟩, admits_nil⟩
    rw [Integral, Text.digitsValue_ofNat]
    exact hn
  | string ht => exact (admits_word (by decide)).mpr ⟨ht, admits_nil⟩
  | truth b =>
    cases b with
    | true => exact (admits_plain (by decide)).mpr admits_nil
    | false => exact (admits_plain (by decide)).mpr admits_nil
  | array _ he => exact admits_brackets.mpr (admits_items he)
  | assoc _ _ hk hv =>
    exact admits_append.mpr ⟨admits_brackets.mpr (admits_items hk),
      (admits_plain (by decide)).mpr (admits_brackets.mpr (admits_items hv))⟩
  | property _ hname _ ho =>
    exact admits_append.mpr ⟨ho, (admits_plain (by decide)).mpr
      ((admits_word (by decide)).mpr ⟨hname, admits_nil⟩)⟩
  | propertyCall _ hname _ ho =>
    exact admits_append.mpr ⟨ho, (admits_plain (by decide)).mpr
      ((admits_word (by decide)).mpr ⟨hname, admits_parens.mpr admits_nil⟩)⟩
  | propertyWith _ hname _ _ ho ha =>
    exact admits_append.mpr ⟨ho, (admits_plain (by decide)).mpr
      ((admits_word (by decide)).mpr ⟨hname, admits_parens.mpr ha⟩)⟩
  | filter _ hitem _ hc hp =>
    -- The word of a filter is a name like all others.
    have hword : Kind.identifier.Carries filterWord := ⟨filterWord, by decide +kernel⟩
    have harrow : Admits Integral (plain .filterArrow :: braces _) :=
      (admits_plain (by decide)).mpr (admits_braces.mpr hp)
    exact admits_append.mpr ⟨hc, (admits_plain (by decide)).mpr
      ((admits_word (by decide)).mpr ⟨hword, admits_parens.mpr
        ((admits_word (by decide)).mpr ⟨hitem, harrow⟩)⟩)⟩
  | fetch _ hu => exact (admits_plain (by decide)).mpr (admits_parens.mpr hu)
  | call hname _ ha => exact (admits_word (by decide)).mpr ⟨hname, admits_parens.mpr (admits_items ha)⟩
  | ofPrimary _ ih => exact ih
  | unary hop _ _ h => exact admits_append.mpr ⟨h, (admits_word (by decide)).mpr ⟨hop, admits_nil⟩⟩
  | binary hop _ _ _ hl hr => exact admits_append.mpr ⟨hl, (admits_word (by decide)).mpr ⟨hop, hr⟩⟩
  | ofOperand _ ih => exact ih
  | comparison hop _ _ hl hr => exact admits_append.mpr ⟨hl, (admits_word (by decide)).mpr ⟨hop, hr⟩⟩
  | ofComparison _ ih => exact ih
  | chain _ _ hop _ h => exact admits_chain hop h
  | declare hname _ hi =>
    exact (admits_plain (by decide)).mpr ((admits_word (by decide)).mpr
      ⟨hname, (admits_plain (by decide)).mpr hi⟩)
  | assign hname _ hv =>
    exact (admits_word (by decide)).mpr ⟨hname, (admits_plain (by decide)).mpr hv⟩
  | updateAssign _ ih => exact ih
  | updateExpression _ ih => exact ih
  | ofStart _ ih => exact ih
  | ofExpression _ ih => exact ih
  | indexAssign hname _ _ hp hv =>
    exact (admits_word (by decide)).mpr ⟨hname, admits_append.mpr
      ⟨admits_brackets.mpr hp, (admits_plain (by decide)).mpr hv⟩⟩
  | ifThen _ _ _ ht hb =>
    exact (admits_plain (by decide)).mpr (admits_append.mpr
      ⟨admits_parens.mpr ht, admits_braces.mpr (admits_block hb)⟩)
  | ifElse _ _ _ _ _ ht hb ho =>
    exact (admits_plain (by decide)).mpr (admits_append.mpr
      ⟨admits_append.mpr ⟨admits_parens.mpr ht, admits_braces.mpr (admits_block hb)⟩,
        (admits_plain (by decide)).mpr (admits_braces.mpr (admits_block ho))⟩)
  | forLoop _ _ _ _ _ hs ht hu hb =>
    have hhead := admits_append.mpr ⟨hs, (admits_plain (by decide : Kind.semicolon.lexeme ≠ [])).mpr
      (admits_append.mpr ⟨ht, (admits_plain (by decide : Kind.semicolon.lexeme ≠ [])).mpr hu⟩)⟩
    exact (admits_plain (by decide)).mpr (admits_append.mpr
      ⟨admits_parens.mpr hhead, admits_braces.mpr (admits_block hb)⟩)
  | whileLoop _ _ _ ht hb =>
    exact (admits_plain (by decide)).mpr (admits_append.mpr
      ⟨admits_parens.mpr ht, admits_braces.mpr (admits_block hb)⟩)
  | forEach _ hitem _ _ hc hb =>
    have hhead := admits_append.mpr ⟨hc, (admits_plain (by decide : Kind.asWord.lexeme ≠ [])).mpr
      ((admits_word (by decide)).mpr ⟨hitem, admits_nil⟩)⟩
    exact (admits_plain (by decide)).mpr (admits_append.mpr
      ⟨admits_parens.mpr hhead, admits_braces.mpr (admits_block hb)⟩)
  | function hname hparams _ _ hb =>
    exact (admits_plain (by decide)).mpr ((admits_word (by decide)).mpr ⟨hname, admits_append.mpr
      ⟨admits_parens.mpr (admits_names hparams), admits_braces.mpr (admits_block hb)⟩⟩)
  | ret => exact (admits_plain (by decide)).mpr admits_nil
  | retWith _ hv => exact (admits_plain (by decide)).mpr hv
  | comment ht =>
    exact (admits_plain (by decide)).mpr ((admits_word (by decide)).mpr ⟨ht, admits_nil⟩)
  | print _ hv => exact (admits_plain (by decide)).mpr (admits_parens.mpr (admits_items hv))

end Grammar

end Mundart
