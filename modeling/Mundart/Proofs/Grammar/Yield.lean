import Mathlib.Data.List.Forall2
import Mundart.Proofs.Grammar.Derivation.Statements
import Mundart.Proofs.Number.Decimal

/-!
# What a program keeps of its tokens

Brackets, commas and semicolons only tell the parts of a program apart. All other tokens have content,
and a program keeps the content of each of them, in their order.

* **`Node.words`**, **`Program.words`** — the words of a program, from left to right;
* **`Token.Shows`** — a token has the content of a word;
* **`Derives.spells`** — what is read off some tokens has the words that these show, one for each;
* **`Program.parse_words`** — the tokens of a source with content show exactly the words of its program.
-/

namespace Mundart

/-- What is left of a token with content in a program. -/
inductive Word where
  /-- A keyword or a sign. -/
  | sign (kind : Token.Kind)
  /-- A name, an operator or a text, as it is written. -/
  | spelled (kind : Token.Kind) (text : Text)
  /-- One of the two words that join the operands of a chain. -/
  | link (op : Text)
  /-- A number by its value. -/
  | number (v : Value)

namespace Token

/-- The kinds of tokens that only tell the parts of a program apart. -/
def Kind.isBracketing : Kind → Bool
  | .leftParen | .rightParen | .leftBracket | .rightBracket | .leftBrace | .rightBrace
  | .separator | .semicolon => true
  | _ => false

/-- The tokens with content. -/
def contentful (ts : List Token) : List Token := ts.filter fun t => !t.kind.isBracketing

/-- A token has the content of a word, where `number` says which digits write which value. -/
def Shows (number : Text → Value → Prop) (t : Token) : Word → Prop
  | .sign kind => t.kind = kind
  | .spelled kind text => t.kind = kind ∧ t.value = text
  | .link op => (t.kind = .andWord ∨ t.kind = .orWord) ∧ t.value = op
  | .number v => t.kind = .number ∧ number t.value v

end Token

/-- Digits write a value: an integer of just that size, or above the integers the double that they are
rounded to. -/
inductive Number.Writes (digits : Text) : Value → Prop where
  | int {n : Int64} (h : n.toInt = Text.digitsValue digits) : Writes digits (.int n)
  | double {x : Float} (hlarge : Nat.pow 2 63 ≤ Text.digitsValue digits)
      (h : Number.readDouble digits = .ok x) : Writes digits (.double x)

/-! ## The words of a program

Brackets, commas and semicolons show in the form of a node, so that they are no words of it. Everything else
that a token says is. -/

/-- The word of a literal; values that no literal writes have none. -/
def Word.ofLiteral : Value → List Word
  | .int n => [.number (.int n)]
  | .double x => [.number (.double x)]
  | .text t => [.spelled .string t]
  | .bool true => [.sign .trueWord]
  | .bool false => [.sign .falseWord]
  | _ => []

open Word in
mutual

/-- The words of a node from left to right. -/
def Node.words : Node → List Word
  | .literal v => ofLiteral v
  | .identifier name => [spelled .identifier name]
  | .declare name init =>
    sign .letWord :: spelled .identifier name :: spelled .assign "=" :: init.words
  | .assign name value => spelled .identifier name :: spelled .assign "=" :: value.words
  | .array elements => Node.wordsOf elements
  | .assoc keys values => Node.wordsOf keys ++ sign .colon :: Node.wordsOf values
  | .index collection position => collection.words ++ position.words
  | .indexAssign name position value =>
    spelled .identifier name :: (position.words ++ spelled .assign "=" :: value.words)
  | .property object name => object.words ++ [sign .dot, spelled .identifier name]
  | .propertyCall object name => object.words ++ [sign .dot, spelled .identifier name]
  | .propertyWith object name arg =>
    object.words ++ sign .dot :: spelled .identifier name :: arg.words
  | .binary left op right => left.words ++ spelled .arithmetic op :: right.words
  | .unary op operand => operand.words ++ [spelled .arithmetic op]
  | .comparison left op right => left.words ++ spelled .comparison op :: right.words
  | .chain operands ops => Node.chainWords operands ops
  | .ifThen test body => sign .ifWord :: (test.words ++ Node.wordsOf body)
  | .ifElse test body otherwise =>
    sign .ifWord :: (test.words ++ (Node.wordsOf body ++ sign .elseWord :: Node.wordsOf otherwise))
  | .forLoop start test update body =>
    sign .forWord :: (start.words ++ (test.words ++ (update.words ++ Node.wordsOf body)))
  | .whileLoop test body => sign .whileWord :: (test.words ++ Node.wordsOf body)
  | .forEach collection item body =>
    sign .forEach :: (collection.words ++ sign .asWord :: spelled .identifier item ::
      Node.wordsOf body)
  | .filter collection item predicate =>
    collection.words ++ sign .dot :: spelled .identifier Grammar.filterWord ::
      spelled .identifier item :: sign .filterArrow :: predicate.words
  | .function name params body =>
    sign .function :: spelled .identifier name ::
      (params.map (spelled .identifier) ++ Node.wordsOf body)
  | .call name args => spelled .identifier name :: Node.wordsOf args
  | .print values => sign .print :: Node.wordsOf values
  | .ret => [sign .returnWord]
  | .retWith value => sign .returnWord :: value.words
  | .fetch url => sign .fetch :: url.words
  | .comment text => [sign .comment, spelled .string text]
  | .missing | .foreign _ => []

/-- The words of nodes one after the other. -/
def Node.wordsOf : List Node → List Word
  | [] => []
  | n :: ns => n.words ++ Node.wordsOf ns

/-- The words of operands and of the operators between them. -/
def Node.chainWords : List Node → List Text → List Word
  | [], _ => []
  | n :: ns, ops => n.words ++ Node.linkWords ns ops

/-- The words of further operands, each behind its operator. -/
def Node.linkWords : List Node → List Text → List Word
  | n :: ns, op :: ops => link op :: (n.words ++ Node.linkWords ns ops)
  | _, _ => []

end

/-- The words of a program from left to right. -/
def Program.words (program : Program) : List Word := Node.wordsOf program

namespace Grammar

open Token

/-- The words of a phrase. -/
def Phrase.words : Phrase → List Word
  | .node _ n => n.words
  | .items ns => Node.wordsOf ns
  | .parameters names => names.map (.spelled .identifier)
  | .links ns ops => Node.linkWords ns ops
  | .block ns => Node.wordsOf ns
  | .body ns => Node.wordsOf ns

/-! ## Reading words off tokens

One lemma for each way of reading on: nothing, one reading after another, a sign that shows nothing, and a
token that shows a word. -/

variable {number : Text → Value → Prop} {t : Token} {kind : Kind} {value : Text} {position : Nat}
  {ts ts₁ rest : List Token} {w : Word} {ws ws₁ : List Word}

/-- The tokens up to a rest show some words. -/
def Spells (number : Text → Value → Prop) (ts rest : List Token) (ws : List Word) : Prop :=
  ∃ used, ts = used ++ rest ∧ List.Forall₂ (Token.Shows number) (contentful used) ws

namespace Spells

/-- Nothing was read, and nothing is shown. -/
theorem nil : Spells number rest rest [] := ⟨[], rfl, .nil⟩

/-- What is read one after the other is shown one after the other. -/
theorem append (h : Spells number ts ts₁ ws) (h₁ : Spells number ts₁ rest ws₁) :
    Spells number ts rest (ws ++ ws₁) := by
  obtain ⟨used, rfl, hshows⟩ := h
  obtain ⟨more, rfl, hmore⟩ := h₁
  refine ⟨used ++ more, (List.append_assoc ..).symm, ?_⟩
  rw [contentful, List.filter_append]
  exact List.rel_append hshows hmore

/-- A token with content shows the next word. -/
theorem word (hkind : t.kind.isBracketing = false) (hshows : t.Shows number w)
    (h : Spells number ts rest ws) : Spells number (t :: ts) rest (w :: ws) := by
  obtain ⟨used, rfl, hused⟩ := h
  refine ⟨t :: used, rfl, ?_⟩
  rw [contentful, List.filter_cons_of_pos (by simp [hkind])]
  exact .cons hshows hused

/-- A token that only tells parts apart shows nothing. -/
theorem skip (hkind : t.kind.isBracketing = true) (h : Spells number ts rest ws) :
    Spells number (t :: ts) rest ws := by
  obtain ⟨used, rfl, hused⟩ := h
  refine ⟨t :: used, rfl, ?_⟩
  rwa [contentful, List.filter_cons_of_neg (by simp [hkind])]

/-- A bracketing token at the end shows nothing. -/
theorem close (hkind : t.kind.isBracketing = true) (h : Spells number ts (t :: rest) ws) :
    Spells number ts rest ws :=
  List.append_nil ws ▸ h.append (.skip hkind .nil)

/-- A keyword or operator sign shows itself as a sign. -/
theorem sign (hkind : kind.isBracketing = false) (h : Spells number ts rest ws) :
    Spells number (⟨kind, value, position⟩ :: ts) rest (.sign kind :: ws) :=
  .word hkind rfl h

/-- A token with a value of its own shows its kind and this value. -/
theorem spelled (hkind : kind.isBracketing = false) (h : Spells number ts rest ws) :
    Spells number (⟨kind, value, position⟩ :: ts) rest (.spelled kind value :: ws) :=
  .word hkind ⟨rfl, rfl⟩ h

/-- One node as the first of several. -/
theorem single {n : Node} (h : Spells number ts rest n.words) :
    Spells number ts rest (Node.wordsOf [n]) := by
  rwa [Node.wordsOf, Node.wordsOf, List.append_nil]

end Spells

/-- What is read off some tokens has the words that these show. -/
theorem Derives.spells {phrase : Phrase} (h : Derives phrase ts rest) :
    Spells (fun digits v => numberValue? digits = some v) ts rest phrase.words := by
  induction h with
  | name => exact .spelled rfl .nil
  | index _ _ ihc ihi => exact ihc.append (.skip rfl (.close rfl ihi))
  | ofTarget _ ih => exact ih
  | @number _ v _ _ hv =>
    -- Only integers and doubles are values of numbers.
    have hword : Word.ofLiteral v = [.number v] := by
      rw [numberValue?] at hv
      split at hv
      · cases hv
        rfl
      · cases hv
        rfl
      · exact nomatch hv
    show Spells _ _ _ (Word.ofLiteral v)
    rw [hword]
    exact .word rfl ⟨rfl, hv⟩ .nil
  | string => exact .spelled rfl .nil
  | trueWord => exact .sign rfl .nil
  | falseWord => exact .sign rfl .nil
  | array _ ih => exact .skip rfl (.close rfl ih)
  | assoc _ _ ihk ihv =>
    exact .skip rfl ((Spells.close rfl ihk).append (.sign rfl (.skip rfl (.close rfl ihv))))
  | property _ _ ih => exact ih.append (.sign rfl (.spelled rfl .nil))
  | propertyCall _ _ ih =>
    exact ih.append (.sign rfl (.spelled rfl (.skip rfl (.skip rfl .nil))))
  | propertyWith _ _ _ iho iha =>
    exact iho.append (.sign rfl (.spelled rfl (.skip rfl (.close rfl iha))))
  | filter _ _ ihc ihp =>
    have hpredicate := Spells.close rfl (.close rfl ihp)
    exact ihc.append (.sign rfl (.spelled rfl (.skip rfl (.spelled rfl (.sign rfl
      (.skip rfl hpredicate))))))
  | fetch _ ih => exact .sign rfl (.skip rfl (.close rfl ih))
  | call _ ih => exact .spelled rfl (.skip rfl (.close rfl ih))
  | ofPrimary _ ih => exact ih
  | unary _ _ ih => exact ih.append (.spelled rfl .nil)
  | binary _ _ _ ihl ihr => exact ihl.append (.spelled rfl ihr)
  | ofOperand _ ih => exact ih
  | comparison _ _ ihl ihr => exact ihl.append (.spelled rfl ihr)
  | ofComparison _ ih => exact ih
  | chain _ _ _ ih ihs => exact ih.append ihs
  | linksNil => exact .nil
  | @linksCons kind _ _ _ _ _ _ _ _ hk _ _ ih ihs =>
    have hkind : kind.isBracketing = false := by
      rcases hk with rfl | rfl <;> rfl
    exact .word hkind ⟨hk, rfl⟩ (ih.append ihs)
  | itemsNil => exact .nil
  | itemsLast _ ih => exact ih.single
  | itemsCons _ _ ih ihs => exact (Spells.close rfl ih).append ihs
  | parametersNil => exact .nil
  | parametersLast => exact .spelled rfl .nil
  | parametersCons _ ih => exact .spelled rfl (.skip rfl ih)
  | declare _ ih => exact .sign rfl (.spelled rfl (.spelled rfl ih))
  | assign _ ih => exact .spelled rfl (.spelled rfl ih)
  | updateAssign _ ih => exact ih
  | updateExpression _ ih => exact ih
  | ofStart _ ih => exact ih
  | ofExpression _ ih => exact ih
  | indexAssign _ _ ihp ihv =>
    exact .spelled rfl (.skip rfl ((Spells.close rfl ihp).append (.spelled rfl ihv)))
  | ifThen _ _ iht ihb => exact .sign rfl (.skip rfl ((Spells.close rfl iht).append ihb))
  | ifElse _ _ _ iht ihb iho =>
    exact .sign rfl (.skip rfl ((Spells.close rfl iht).append (ihb.append (.sign rfl iho))))
  | elseIf _ _ _ iht ihb iho =>
    exact .sign rfl (.skip rfl ((Spells.close rfl iht).append (ihb.append (.sign rfl iho.single))))
  | forLoop _ _ _ _ ihs iht ihu ihb =>
    have hhead := (Spells.close rfl ihs).append ((Spells.close rfl iht).append
      ((Spells.close rfl ihu).append ihb))
    exact .sign rfl (.skip rfl hhead)
  | whileLoop _ _ iht ihb => exact .sign rfl (.skip rfl ((Spells.close rfl iht).append ihb))
  | forEach _ _ ihc ihb =>
    exact .sign rfl (.skip rfl (ihc.append (.sign rfl (.spelled rfl (.skip rfl ihb)))))
  | function _ _ ihp ihb =>
    exact .sign rfl (.spelled rfl (.skip rfl ((Spells.close rfl ihp).append ihb)))
  | ret => exact .sign rfl .nil
  | retWith _ ih => exact .sign rfl ih
  | comment => exact .sign rfl (.spelled rfl .nil)
  | print _ ih => exact .sign rfl (.skip rfl (.close rfl ih))
  | blockNil => exact .nil
  | blockCons _ _ ih ihs => exact ih.append ihs
  | blockSemicolon _ _ ih ihs => exact (Spells.close rfl ih).append ihs
  | body _ _ ih => exact .skip rfl (.close rfl ih)

/-! ## Numbers

Digits are shown by the value that they are read as, which is exact for integers only. -/

/-- The value of a number token is what its digits write. -/
theorem writes_of_numberValue? {digits : Text} {v : Value} (hdigits : Kind.number.Carries digits)
    (h : numberValue? digits = some v) : Number.Writes digits v := by
  have hread := Number.readInt64_digits hdigits.digits.1 hdigits.digits.2
  rw [numberValue?, hread] at h
  -- Digits that do not fit an integer of 64 bits are read as a double.
  by_cases hlt : Text.digitsValue digits < Nat.pow 2 63
  · rw [if_pos hlt] at h
    obtain rfl := Option.some.inj h
    have hbound : Text.digitsValue digits < 9223372036854775808 := hlt
    exact .int (Int64.toInt_ofNat_of_lt (by omega))
  · rw [if_neg hlt] at h
    split at h
    · next hint _ => exact nomatch hint
    · next hdouble =>
      obtain rfl := Option.some.inj h
      exact .double (Nat.not_lt.mp hlt) hdouble
    · exact nomatch h

end Grammar

/-- A scanned token shows a number by its value. -/
theorem Token.Shows.writes {t : Token} {w : Word} (ht : t.Fits)
    (h : t.Shows (fun digits v => Grammar.numberValue? digits = some v) w) :
    t.Shows Number.Writes w := by
  cases w with
  | number v =>
    obtain ⟨hkind, hv⟩ := h
    refine ⟨hkind, Grammar.writes_of_numberValue? ?_ hv⟩
    rw [← hkind]
    exact ht
  | _ => exact h

open Token Grammar in
/-- No token is lost and none is made up: the tokens of a source with content show exactly the words of
its program, one by one and in the same order. -/
theorem Program.parse_words {source : Text} {program : Program}
    (h : Program.parse source = .ok program) :
    List.Forall₂ (Token.Shows Number.Writes) (contentful (scan source)) program.words := by
  obtain ⟨used, hused, hshows⟩ := (derives_of_ofTokens h).spells
  rw [List.append_nil] at hused
  rw [← hused] at hshows
  have hfits : ∀ t ∈ contentful (scan source), t.Fits := fun t ht =>
    fits_of_mem_scan (List.mem_filter.mp ht).1
  exact ((List.forall₂_and_left _ _).mpr ⟨hfits, hshows⟩).imp fun _ _ ⟨ht, hw⟩ => hw.writes ht

/-- `aufi (heast i = 007; i klana 9; i plusplus) { oida.sag(i, "x",); };` keeps its words: without the
brackets, commas and semicolons, and with the number that is meant. -/
theorem Program.parse_words_counting :
    let source : Text :=
      "aufi (heast i = 007; i klana 9; i plusplus) \x7b oida.sag(i, \"x\",); \x7d;"
    let i : Node := .identifier "i"
    let program : Program := [.forLoop (.declare "i" (.literal (.int 7)))
      (.comparison i "klana" (.literal (.int 9))) (.unary "plusplus" i)
      [.print [i, .literal (.text "x")]]]
    Program.parse source = .ok program ∧
      List.Forall₂ (Token.Shows Number.Writes) (Token.contentful (Token.scan source)) program.words ∧
      program.words = [.sign .forWord, .sign .letWord, .spelled .identifier "i", .spelled .assign "=",
        .number (.int 7), .spelled .identifier "i", .spelled .comparison "klana", .number (.int 9),
        .spelled .identifier "i", .spelled .arithmetic "plusplus", .sign .print,
        .spelled .identifier "i", .spelled .string "x"] := by
  intro source i program
  have hparse : Program.parse source = .ok program := rfl
  exact ⟨hparse, Program.parse_words hparse, rfl⟩

end Mundart
