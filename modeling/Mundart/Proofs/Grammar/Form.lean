import Mundart.Node.Statement
import Mundart.Proofs.Token.Lexeme

/-!
# Well-formed programs

Nodes of one type stand for everything in a program, and most of their combinations mean nothing: a
loop as an argument, a chain with too few operators, a body without a statement. `Formed` says which
node may stand in which place of a program.

* **`Formed number place node`** — the node may stand at the place, where `number` says which
  values number literals have;
* **`Program.WellFormed`** — every statement of a program may stand where statements stand, and
  number literals are the integers from `0` up to the largest one.

Names, texts and operator words are those that tokens carry (`Token.Kind.Carries`).
-/

namespace Mundart

namespace Grammar

open Token

/-- The places of a program where a node may stand, the narrower ones first. -/
inductive Place where
  /-- What an index or a property is taken of. -/
  | target
  | primary
  | operand
  | comparison
  | expression
  /-- The start of a counting loop. -/
  | start
  /-- The update of a counting loop. -/
  | update
  | statement
  deriving DecidableEq, Repr

/-- The nodes that may stand at a place. -/
inductive Formed (number : Value → Prop) : Place → Node → Prop where
  -- Targets are names and indexed names; nothing else can be indexed.
  | name {name : Text} (hname : Kind.identifier.Carries name) : Formed number .target (.identifier name)
  | index {collection position : Node} (hc : Formed number .target collection)
      (hp : Formed number .expression position) : Formed number .target (.index collection position)
  -- Primary expressions.
  | ofTarget {n : Node} (h : Formed number .target n) : Formed number .primary n
  | number {v : Value} (hv : number v) : Formed number .primary (.literal v)
  | string {text : Text} (ht : Kind.string.Carries text) :
      Formed number .primary (.literal (.text text))
  | truth (b : Bool) : Formed number .primary (.literal (.bool b))
  | array {elements : List Node} (he : ∀ n ∈ elements, Formed number .expression n) :
      Formed number .primary (.array elements)
  | assoc {keys values : List Node} (hk : ∀ n ∈ keys, Formed number .expression n)
      (hv : ∀ n ∈ values, Formed number .expression n) : Formed number .primary (.assoc keys values)
  | property {object : Node} {name : Text} (ho : Formed number .target object)
      (hname : Kind.identifier.Carries name) (hf : name ≠ filterWord) :
      Formed number .primary (.property object name)
  | propertyCall {object : Node} {name : Text} (ho : Formed number .target object)
      (hname : Kind.identifier.Carries name) (hf : name ≠ filterWord) :
      Formed number .primary (.propertyCall object name)
  | propertyWith {object arg : Node} {name : Text} (ho : Formed number .target object)
      (hname : Kind.identifier.Carries name) (hf : name ≠ filterWord)
      (ha : Formed number .expression arg) : Formed number .primary (.propertyWith object name arg)
  | filter {collection predicate : Node} {item : Text} (hc : Formed number .target collection)
      (hitem : Kind.identifier.Carries item) (hp : Formed number .expression predicate) :
      Formed number .primary (.filter collection item predicate)
  | fetch {url : Node} (hu : Formed number .expression url) : Formed number .primary (.fetch url)
  | call {name : Text} {args : List Node} (hname : Kind.identifier.Carries name)
      (ha : ∀ n ∈ args, Formed number .expression n) : Formed number .primary (.call name args)
  -- Operators. The left side is primary, so arithmetic nests to the right.
  | ofPrimary {n : Node} (h : Formed number .primary n) : Formed number .operand n
  | unary {op : Text} {n : Node} (hop : Kind.arithmetic.Carries op) (hpost : isPostfix op = true)
      (h : Formed number .primary n) : Formed number .operand (.unary op n)
  | binary {left right : Node} {op : Text} (hop : Kind.arithmetic.Carries op)
      (hpost : isPostfix op = false) (hl : Formed number .primary left)
      (hr : Formed number .operand right) : Formed number .operand (.binary left op right)
  | ofOperand {n : Node} (h : Formed number .operand n) : Formed number .comparison n
  | comparison {left right : Node} {op : Text} (hop : Kind.comparison.Carries op)
      (hl : Formed number .operand left) (hr : Formed number .operand right) :
      Formed number .comparison (.comparison left op right)
  | ofComparison {n : Node} (h : Formed number .comparison n) : Formed number .expression n
  | chain {operands : List Node} {ops : List Text} (htwo : 2 ≤ operands.length)
      (hlen : ops.length + 1 = operands.length)
      (hop : ∀ op ∈ ops, Kind.andWord.Carries op ∨ Kind.orWord.Carries op)
      (h : ∀ n ∈ operands, Formed number .comparison n) :
      Formed number .expression (.chain operands ops)
  -- Statements. A body holds at least one of them.
  | declare {name : Text} {init : Node} (hname : Kind.identifier.Carries name)
      (hi : Formed number .expression init) : Formed number .start (.declare name init)
  | assign {name : Text} {value : Node} (hname : Kind.identifier.Carries name)
      (hv : Formed number .expression value) : Formed number .start (.assign name value)
  | updateAssign {name : Text} {value : Node} (h : Formed number .start (.assign name value)) :
      Formed number .update (.assign name value)
  | updateExpression {n : Node} (h : Formed number .expression n) : Formed number .update n
  | ofStart {n : Node} (h : Formed number .start n) : Formed number .statement n
  | ofExpression {n : Node} (h : Formed number .expression n) : Formed number .statement n
  | indexAssign {name : Text} {position value : Node} (hname : Kind.identifier.Carries name)
      (hp : Formed number .expression position) (hv : Formed number .expression value) :
      Formed number .statement (.indexAssign name position value)
  | ifThen {test : Node} {body : List Node} (ht : Formed number .expression test) (hne : body ≠ [])
      (hb : ∀ n ∈ body, Formed number .statement n) : Formed number .statement (.ifThen test body)
  | ifElse {test : Node} {body otherwise : List Node} (ht : Formed number .expression test)
      (hne : body ≠ []) (hb : ∀ n ∈ body, Formed number .statement n) (hne' : otherwise ≠ [])
      (ho : ∀ n ∈ otherwise, Formed number .statement n) :
      Formed number .statement (.ifElse test body otherwise)
  | forLoop {start left right update : Node} {op : Text} {body : List Node}
      (hs : Formed number .start start)
      (ht : Formed number .comparison (.comparison left op right))
      (hu : Formed number .update update) (hne : body ≠ [])
      (hb : ∀ n ∈ body, Formed number .statement n) :
      Formed number .statement (.forLoop start (.comparison left op right) update body)
  | whileLoop {test : Node} {body : List Node} (ht : Formed number .expression test)
      (hne : body ≠ []) (hb : ∀ n ∈ body, Formed number .statement n) :
      Formed number .statement (.whileLoop test body)
  | forEach {collection : Node} {item : Text} {body : List Node}
      (hc : Formed number .operand collection) (hitem : Kind.identifier.Carries item)
      (hne : body ≠ []) (hb : ∀ n ∈ body, Formed number .statement n) :
      Formed number .statement (.forEach collection item body)
  | function {name : Text} {params : List Text} {body : List Node}
      (hname : Kind.identifier.Carries name) (hparams : ∀ p ∈ params, Kind.identifier.Carries p)
      (hne : body ≠ []) (hb : ∀ n ∈ body, Formed number .statement n) :
      Formed number .statement (.function name params body)
  | ret : Formed number .statement .ret
  | retWith {value : Node} (hv : Formed number .expression value) :
      Formed number .statement (.retWith value)
  | comment {text : Text} (ht : Kind.string.Carries text) : Formed number .statement (.comment text)
  | print {values : List Node} (hv : ∀ n ∈ values, Formed number .expression n) :
      Formed number .statement (.print values)

/-- The bound below which numbers are integers. -/
def integerBound : Nat := Nat.pow 2 63

/-- Digits that write an integer. -/
def Integral (digits : Text) : Prop := Text.digitsValue digits < integerBound

/-- The values of number literals that are integers. -/
def IntegerLiteral (v : Value) : Prop := ∃ n < integerBound, v = .int (Int64.ofNat n)

end Grammar

/-- A program that source texts with integer numbers can be. -/
def Program.WellFormed (program : Program) : Prop :=
  ∀ n ∈ program, Grammar.Formed Grammar.IntegerLiteral .statement n

end Mundart
