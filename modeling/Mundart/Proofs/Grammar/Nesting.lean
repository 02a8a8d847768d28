import Mundart.Command.Repl
import Mundart.Proofs.Grammar.Derivation.Statements

/-!
# Nested brackets

A program closes every bracket that it opens, each by one of its own form and in the right order. So the
brackets of a source that is a program cancel out, and an interactive session that has read all of it does
not wait for another line.

* **`Token.Nested`** — the brackets among some tokens are nested and matched by their form;
* **`Token.Nested.depth`** — nested tokens open as many brackets as they close;
* **`Derives.nests`** — whatever is read off some tokens takes a nested part of them;
* **`Program.parse_nested`** — what this means for a source and for a session that reads it.
-/

namespace Mundart

namespace Token

/-- The kind of the token that closes what a token of some kind opens. -/
def Kind.closing? : Kind → Option Kind
  | .leftParen => some .rightParen
  | .leftBracket => some .rightBracket
  | .leftBrace => some .rightBrace
  | _ => none

/-- How many brackets more are open behind a token of some kind. -/
def Kind.opened : Kind → Int
  | .leftBrace | .leftBracket | .leftParen => 1
  | .rightBrace | .rightBracket | .rightParen => -1
  | _ => 0

/-- How many brackets more are open behind some tokens. -/
def depth : List Token → Int
  | [] => 0
  | t :: ts => t.kind.opened + depth ts

/-- The brackets among some tokens are nested, and every one is closed by a bracket of its own form. -/
inductive Nested : List Token → Prop where
  | nil : Nested []
  | plain {t : Token} {ts : List Token} (ht : t.kind.opened = 0) (hts : Nested ts) : Nested (t :: ts)
  | enclosed {t t' : Token} {inner ts : List Token} (ht : t.kind.closing? = some t'.kind)
      (hinner : Nested inner) (hts : Nested ts) : Nested (t :: (inner ++ t' :: ts))

@[simp] theorem depth_cons (t : Token) (ts : List Token) : depth (t :: ts) = t.kind.opened + depth ts :=
  rfl

@[simp] theorem depth_append (ts ts' : List Token) : depth (ts ++ ts') = depth ts + depth ts' := by
  induction ts with
  | nil => exact (Int.zero_add _).symm
  | cons t ts ih => rw [List.cons_append, depth_cons, depth_cons, ih, Int.add_assoc]

/-- A bracket and the one that closes it cancel out. -/
theorem Kind.opened_of_closing? {kind kind' : Kind} (h : kind.closing? = some kind') :
    kind.opened = 1 ∧ kind'.opened = -1 := by
  cases kind with
  | leftParen | leftBracket | leftBrace =>
    obtain rfl := Option.some.inj h
    exact ⟨rfl, rfl⟩
  | _ => exact nomatch h

/-- Nested tokens open as many brackets as they close. -/
theorem Nested.depth {ts : List Token} (h : Nested ts) : Token.depth ts = 0 := by
  induction h with
  | nil => rfl
  | plain ht _ ih => rw [depth_cons, ht, ih, Int.add_zero]
  | enclosed ht _ _ ihinner ihts =>
    obtain ⟨hopen, hclose⟩ := Kind.opened_of_closing? ht
    rw [depth_cons, depth_append, depth_cons, hopen, hclose, ihinner, ihts]
    rfl

/-- Nested tokens behind nested ones: the first ones have nothing open that the second could close. -/
theorem Nested.append {ts ts' : List Token} (h : Nested ts) (h' : Nested ts') : Nested (ts ++ ts') := by
  induction h with
  | nil => exact h'
  | plain ht _ ih => exact .plain ht ih
  | enclosed ht hinner _ _ ih =>
    rw [List.cons_append, List.append_assoc, List.cons_append]
    exact .enclosed ht hinner ih

/-- Counting from the left, whatever was open before. -/
theorem foldl_depth {step : Int → Token → Int} (h : ∀ reached t, step reached t = reached + t.kind.opened)
    (ts : List Token) : ∀ reached, ts.foldl step reached = reached + depth ts := by
  induction ts with
  | nil => exact fun reached => (Int.add_zero reached).symm
  | cons t ts ih =>
    intro reached
    rw [List.foldl_cons, ih, h, depth_cons, Int.add_assoc]

/-- An interactive reader waits as long as more brackets are opened than closed. -/
theorem needsMore_iff (source : Text) : needsMore source = true ↔ 0 < depth (scan source) := by
  unfold needsMore
  rw [foldl_depth, Int.zero_add, decide_eq_true_eq]
  intro reached t
  unfold Kind.opened
  cases t.kind <;> simp [Int.sub_eq_add_neg]

end Token

namespace Grammar

open Token

variable {t : Token} {ts ts₁ rest : List Token}

/-- The tokens up to a rest are nested. -/
def Nests (ts rest : List Token) : Prop := ∃ used, ts = used ++ rest ∧ Nested used

namespace Nests

/-- Where nothing is read, nothing is open. -/
theorem nil : Nests rest rest := ⟨[], rfl, .nil⟩

/-- Two readings in a row take a nested part together. -/
theorem append (h : Nests ts ts₁) (h₁ : Nests ts₁ rest) : Nests ts rest := by
  obtain ⟨used, rfl, hused⟩ := h
  obtain ⟨more, rfl, hmore⟩ := h₁
  exact ⟨used ++ more, (List.append_assoc ..).symm, hused.append hmore⟩

/-- What is left is the end of the tokens. -/
theorem suffix (h : Nests ts rest) : rest <:+ ts := by
  obtain ⟨used, rfl, -⟩ := h
  exact List.suffix_append used rest

/-- A token that is no bracket stands in front. -/
theorem cons (ht : t.kind.opened = 0) (h : Nests ts rest) : Nests (t :: ts) rest := by
  obtain ⟨used, rfl, hused⟩ := h
  exact ⟨t :: used, rfl, .plain ht hused⟩

/-- A token that is no bracket stands behind. -/
theorem snoc (ht : t.kind.opened = 0) (h : Nests ts (t :: rest)) : Nests ts rest :=
  h.append (.cons ht .nil)

/-- A bracket and the one that closes it stand around. -/
theorem enclosed {t' : Token} (ht : t.kind.closing? = some t'.kind) (h : Nests ts (t' :: rest)) :
    Nests (t :: ts) rest := by
  obtain ⟨used, rfl, hused⟩ := h
  refine ⟨t :: (used ++ [t']), by simp, .enclosed ht hused .nil⟩

/-- A bracket with something in it, and what follows. -/
theorem group {t' : Token} (ht : t.kind.closing? = some t'.kind) (h : Nests ts (t' :: ts₁))
    (h₁ : Nests ts₁ rest) : Nests (t :: ts) rest :=
  (enclosed ht h).append h₁

end Nests

/-- Whatever is read off some tokens takes a nested part of them. -/
theorem Derives.nests {phrase : Phrase} (h : Derives phrase ts rest) : Nests ts rest := by
  -- One case for each way of deriving. Every bracket that a form has is closed by the form itself.
  induction h with
  | name => exact .cons rfl .nil
  | index _ _ ihc ihi => exact ihc.append (.enclosed rfl ihi)
  | ofTarget _ ih => exact ih
  | number _ => exact .cons rfl .nil
  | string => exact .cons rfl .nil
  | trueWord => exact .cons rfl .nil
  | falseWord => exact .cons rfl .nil
  | array _ ih => exact .enclosed rfl ih
  | assoc _ _ ihk ihv => exact .group rfl ihk (.cons rfl (.enclosed rfl ihv))
  | property _ _ ih => exact ih.append (.cons rfl (.cons rfl .nil))
  | propertyCall _ _ ih => exact ih.append (.cons rfl (.cons rfl (.enclosed rfl .nil)))
  | propertyWith _ _ _ iho iha => exact iho.append (.cons rfl (.cons rfl (.enclosed rfl iha)))
  | filter _ _ ihc ihp =>
    -- The predicate stands in braces, and these in parentheses.
    exact ihc.append (.cons rfl (.cons rfl (.enclosed rfl (.cons rfl (.cons rfl (.enclosed rfl ihp))))))
  | fetch _ ih => exact .cons rfl (.enclosed rfl ih)
  | call _ ih => exact .cons rfl (.enclosed rfl ih)
  | ofPrimary _ ih => exact ih
  | unary _ _ ih => exact .snoc rfl ih
  | binary _ _ _ ihl ihr => exact ihl.append (.cons rfl ihr)
  | ofOperand _ ih => exact ih
  | comparison _ _ ihl ihr => exact ihl.append (.cons rfl ihr)
  | ofComparison _ ih => exact ih
  | chain _ _ _ ih ihs => exact ih.append ihs
  | linksNil => exact .nil
  | @linksCons kind _ _ _ _ _ _ _ _ hk _ _ ih ihs =>
    have hkind : kind.opened = 0 := by
      rcases hk with rfl | rfl <;> rfl
    exact .cons hkind (ih.append ihs)
  | itemsNil => exact .nil
  | itemsLast _ ih => exact ih
  | itemsCons _ _ ih ihs => exact (Nests.snoc rfl ih).append ihs
  | parametersNil => exact .nil
  | parametersLast => exact .cons rfl .nil
  | parametersCons _ ih => exact .cons rfl (.cons rfl ih)
  | declare _ ih => exact .cons rfl (.cons rfl (.cons rfl ih))
  | assign _ ih => exact .cons rfl (.cons rfl ih)
  | updateAssign _ ih => exact ih
  | updateExpression _ ih => exact ih
  | ofStart _ ih => exact ih
  | ofExpression _ ih => exact ih
  | indexAssign _ _ ihp ihv => exact .cons rfl (.group rfl ihp (.cons rfl ihv))
  | ifThen _ _ iht ihb => exact .cons rfl (.group rfl iht ihb)
  | ifElse _ _ _ iht ihb iho => exact .cons rfl (.group rfl iht (ihb.append (.cons rfl iho)))
  | elseIf _ _ _ iht ihb iho => exact .cons rfl (.group rfl iht (ihb.append (.cons rfl iho)))
  | forLoop _ _ _ _ ihs iht ihu ihb =>
    have hhead := (Nests.snoc rfl ihs).append ((Nests.snoc rfl iht).append ihu)
    exact .cons rfl (.group rfl hhead ihb)
  | whileLoop _ _ iht ihb => exact .cons rfl (.group rfl iht ihb)
  | forEach _ _ ihc ihb =>
    have hhead := ihc.append (.cons rfl (.cons rfl .nil))
    exact .cons rfl (.group rfl hhead ihb)
  | function _ _ ihp ihb => exact .cons rfl (.cons rfl (.group rfl ihp ihb))
  | ret => exact .cons rfl .nil
  | retWith _ ih => exact .cons rfl ih
  | comment => exact .cons rfl (.cons rfl .nil)
  | print _ ih => exact .cons rfl (.enclosed rfl ih)
  | blockNil => exact .nil
  | blockCons _ _ ih ihs => exact ih.append ihs
  | blockSemicolon _ _ ih ihs => exact (Nests.snoc rfl ih).append ihs
  | body _ _ ih => exact .enclosed rfl ih

end Grammar

/-! ## Sources

What is nested by kind has no bracket left open, so that the prompt asks for no more lines once a program is
complete. -/

/-- A source that is a program is read to its end, so all of its tokens are nested. -/
theorem Token.nested_of_parse {source : Text} {program : Program}
    (h : Program.parse source = .ok program) : Nested (scan source) := by
  obtain ⟨used, hused, hnested⟩ := (Grammar.derives_of_ofTokens h).nests
  rw [List.append_nil] at hused
  exact hused ▸ hnested

/-- No bracket of a program is left open, so a reader does not wait for more of it. -/
theorem Token.needsMore_of_parse {source : Text} {program : Program}
    (h : Program.parse source = .ok program) : needsMore source = false := by
  rw [← Bool.not_eq_true, needsMore_iff, (nested_of_parse h).depth]
  exact Int.lt_irrefl 0

/-- The source that an interactive session has once it has read a line. -/
def Repl.joined (r : Repl) (line : Text) : Text :=
  if r.pending.isEmpty then line else r.pending ++ "\n" ++ line

/-- A line that completes a program is not kept for later. -/
theorem Repl.feed_of_parse {r : Repl} {line : Text} {program : Program}
    (h : Program.parse (r.joined line) = .ok program) (fuel : Nat) (s : Settings) :
    r.feed fuel s line = { r with pending := [] }.obey fuel s (r.joined line) := by
  have hcomplete : ¬ Token.needsMore (r.joined line) = true :=
    Bool.not_eq_true _ ▸ Token.needsMore_of_parse h
  exact if_neg hcomplete

/-- The brackets of a source that is a program are nested and matched by their form, so that no reader asks
for more of it: a source that leaves a bracket open is no program, and an interactive session takes the
program with the line that completes it. -/
theorem Program.parse_nested (source : Text) :
    (∀ program, Program.parse source = .ok program →
      Token.Nested (Token.scan source) ∧ Token.needsMore source = false ∧
      ∀ (fuel : Nat) (s : Settings) (r : Repl) (line : Text), r.joined line = source →
        r.feed fuel s line = { r with pending := [] }.obey fuel s source) ∧
    (Token.needsMore source = true → ∃ e, Program.parse source = .error e) := by
  constructor
  · intro program h
    refine ⟨Token.nested_of_parse h, Token.needsMore_of_parse h, ?_⟩
    rintro fuel s r line rfl
    exact Repl.feed_of_parse h fuel s
  · intro hopen
    cases hparse : Program.parse source with
    | error e => exact ⟨e, rfl⟩
    | ok program =>
      rw [Token.needsMore_of_parse hparse] at hopen
      exact absurd hopen Bool.false_ne_true

/-- All three forms of brackets inside of each other, in one source closed on a later line and in another one
left open. -/
theorem Program.parse_nested_function :
    let start : Text := "hawara f(x) \x7b x[\"(\"] = g([1, [2] : [3]]); "
    let source : Text := start ++ "\n" ++ "\x7d"
    (∃ program, Program.parse source = .ok program) ∧ Token.Nested (Token.scan source) ∧
      Token.needsMore source = false ∧ Token.needsMore start = true ∧
      ∃ e, Program.parse start = .error e := by
  intro start source
  obtain ⟨program, h⟩ : ∃ program, Program.parse source = .ok program := ⟨_, rfl⟩
  have hopen : Token.needsMore start = true := by decide +kernel
  obtain ⟨hnested, hcomplete, -⟩ := (Program.parse_nested source).1 program h
  exact ⟨⟨program, h⟩, hnested, hcomplete, hopen, (Program.parse_nested start).2 hopen⟩

end Mundart
