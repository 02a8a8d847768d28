import Mundart.Node.Basic
import Mundart.Failure
import Mundart.Number.Reading

/-!
# Reading expressions

A production looks at the tokens that are left and either finds no match, or finds a node and
leaves the tokens after it, or meets a syntax error, which ends all reading. Alternatives are tried
in order and the first match counts.

An expression contains smaller expressions. Each production here takes the reader of those as its
argument; `expressionAt` ties the knot with a nesting bound, and since every nested expression
starts at least one token later, the number of tokens is bound enough (`expression`).
-/

namespace Mundart

/-- A grammar rule: no match, a node with the tokens after it, or a syntax error. -/
abbrev Production := List Token → Except SyntaxError (Option (Node × List Token))

namespace Grammar

/-- A complaint about the first of the tokens that are left. -/
def complain {α : Type} (ts : List Token) (c : Complaint) : Except SyntaxError α :=
  .error ⟨ts.head?.map Token.position, c⟩

/-- Whether the next token is of a kind. -/
def nextIs (kind : Token.Kind) : List Token → Bool
  | [] => false
  | t :: _ => t.kind == kind

/-- The tokens after one of the given kind, which has to come next. -/
def expect (kind : Token.Kind) (construct : Text) (ts : List Token) :
    Except SyntaxError (List Token) :=
  match ts with
  | t :: rest => if t.kind = kind then .ok rest else complain ts (.expected construct kind)
  | [] => complain ts (.expected construct kind)

/-- The first match among alternatives. -/
def firstOf : List Production → Production
  | [], _ => .ok none
  | p :: ps, ts => do
    match ← p ts with
    | some found => .ok (some found)
    | none => firstOf ps ts

/-- A node that has to come next. -/
def require (p : Production) (c : Complaint) (ts : List Token) :
    Except SyntaxError (Node × List Token) := do
  match ← p ts with
  | some found => .ok found
  | none => complain ts c

/-! ### Lists

Expressions with commas between them are the items of a list, the arguments of a call and both halves of an
associative array. -/

/-- Expressions with commas between them, after those read (the last one first). -/
def items (expr : Production) : Nat → List Node → List Token →
    Except SyntaxError (List Node × List Token)
  | 0, read, ts => .ok (read.reverse, ts)
  | n + 1, read, ts => do
    match ← expr ts with
    | none => .ok (read.reverse, ts)
    | some (item, ⟨.separator, _, _⟩ :: rest) => items expr n (item :: read) rest
    | some (item, rest) => .ok ((item :: read).reverse, rest)

/-- A list of expressions up to its closing token, which is left. A comma may end the list. -/
def list (expr : Production) (closing : Token.Kind) (ts : List Token) :
    Except SyntaxError (List Node × List Token) :=
  if nextIs closing ts then .ok ([], ts) else items expr (ts.length + 1) [] ts

/-- `[e1, e2]`, and `[k1, k2] : [v1, v2]`. -/
def arrayLiteral (expr : Production) : Production
  | ⟨.leftBracket, _, _⟩ :: ts => do
    match ← list expr .rightBracket ts with
    | (keys, ⟨.rightBracket, _, _⟩ :: ⟨.colon, _, _⟩ :: rest) =>
      match rest with
      | ⟨.leftBracket, _, _⟩ :: rest => do
        let (values, rest) ← list expr .rightBracket rest
        let rest ← expect .rightBracket "Werteliste" rest
        .ok (some (.assoc keys values, rest))
      | _ => complain rest .noValueList
    | (elements, ⟨.rightBracket, _, _⟩ :: rest) => .ok (some (.array elements, rest))
    | _ => .ok none
  | _ => .ok none

/-! ### Names, indexes and properties

What starts with a name goes on as far as it can: with indexes in brackets, and then with one property. -/

def identifier : Production
  | ⟨.identifier, name, _⟩ :: ts => .ok (some (.identifier name, ts))
  | _ => .ok none

/-- Further `[index]` after a node. -/
def indexChain (expr : Production) : Nat → Node → List Token →
    Except SyntaxError (Node × List Token)
  | 0, node, ts => .ok (node, ts)
  | n + 1, node, ts =>
    match ts with
    | ⟨.leftBracket, _, _⟩ :: rest => do
      match ← expr rest with
      | some (position, ⟨.rightBracket, _, _⟩ :: rest) =>
        indexChain expr n (.index node position) rest
      | _ => .ok (node, ts)
    | _ => .ok (node, ts)

/-- `name[index]`, possibly with more indexes. -/
def indexAccess (expr : Production) : Production
  | ⟨.identifier, name, _⟩ :: ts => do
    if !nextIs .leftBracket ts then .ok none
    else
      match ← indexChain expr (ts.length + 1) (.identifier name) ts with
      | (.index collection position, rest) => .ok (some (.index collection position, rest))
      | _ => .ok none
  | _ => .ok none

/-- The property that selects elements. -/
def filterWord : Text := "nimmAusse"

/-- `(item => { predicate })` after the filter property. -/
def filterTail (expr : Production) (collection : Node) (ts : List Token) :
    Except SyntaxError (Option (Node × List Token)) := do
  let ts ← expect .leftParen filterWord ts
  match ts with
  | ⟨.identifier, item, _⟩ :: ts => do
    let ts ← expect .filterArrow filterWord ts
    let ts ← expect .leftBrace filterWord ts
    let (predicate, ts) ← require expr (.noPredicate filterWord) ts
    let ts ← expect .rightBrace filterWord ts
    let ts ← expect .rightParen filterWord ts
    .ok (some (.filter collection item predicate, ts))
  | _ => complain ts (.noFilterName filterWord)

/-- What follows `object.name`: nothing, `()` or `(arg)`. -/
def propertyTail (expr : Production) (object : Node) (name : Text) (ts : List Token) :
    Except SyntaxError (Option (Node × List Token)) :=
  match ts with
  | ⟨.leftParen, _, _⟩ :: ⟨.rightParen, _, _⟩ :: rest =>
    .ok (some (.propertyCall object name, rest))
  | ⟨.leftParen, _, _⟩ :: rest => do
    let (arg, rest) ← require expr (.noArgument name) rest
    let rest ← expect .rightParen name rest
    .ok (some (.propertyWith object name arg, rest))
  | _ => .ok (some (.property object name, ts))

/-- `object.property`, where the object is a name or an indexed name. -/
def propertyAccess (expr : Production) : Production := fun ts => do
  match ← firstOf [indexAccess expr, identifier] ts with
  | some (object, ⟨.dot, _, _⟩ :: rest) =>
    match rest with
    | ⟨.identifier, name, _⟩ :: rest =>
      if name = filterWord then filterTail expr object rest else propertyTail expr object name rest
    | _ => complain rest .noPropertyName
  | _ => .ok none

/-! ### Calls and literals

Once its first token is read a call of `holma` has to be complete. A name with a parenthesis that turns out
to be no call is read as a name. -/

/-- `holma(url)` -/
def fetch (expr : Production) : Production
  | ⟨.fetch, _, _⟩ :: ts => do
    let ts ← expect .leftParen "holma" ts
    let (url, ts) ← require expr .noUrl ts
    let ts ← expect .rightParen "holma" ts
    .ok (some (.fetch url, ts))
  | _ => .ok none

/-- `name(args)` -/
def call (expr : Production) : Production
  | ⟨.identifier, name, _⟩ :: ⟨.leftParen, _, _⟩ :: ts => do
    match ← list expr .rightParen ts with
    | (args, ⟨.rightParen, _, _⟩ :: rest) => .ok (some (.call name args, rest))
    | _ => .ok none
  | _ => .ok none

/-- The value of a number token: an integer, or a double where it is too large for one. -/
def numberValue? (digits : Text) : Option Value :=
  match Number.readInt64 digits, Number.readDouble digits with
  | .ok n, _ => some (.int n)
  | .error _, .ok x => some (.double x)
  | .error _, .error _ => none

def literal : Production
  | ts@(⟨.number, digits, _⟩ :: rest) =>
    match numberValue? digits with
    | some v => .ok (some (.literal v, rest))
    | none => complain ts (.badNumber digits)
  | ⟨.string, text, _⟩ :: rest => .ok (some (.literal (.text text), rest))
  | ⟨.trueWord, _, _⟩ :: rest => .ok (some (.literal (.bool true), rest))
  | ⟨.falseWord, _, _⟩ :: rest => .ok (some (.literal (.bool false), rest))
  | _ => .ok none

/-- An expression without operators. A property is looked for before an index, so that the index is
not taken alone. -/
def primary (expr : Production) : Production :=
  firstOf [arrayLiteral expr, propertyAccess expr, indexAccess expr, fetch expr, call expr, literal,
    identifier]

/-! ### Operators

Arithmetic binds more tightly than comparison, and comparison more tightly than `und` and `oda`. There is no
precedence within these three: arithmetic is grouped to the right, and a chain stays flat. -/

/-- The operators that stand after their one operand. -/
def isPostfix (op : Text) : Bool := op == "plusplus" || op == "minusminus"

/-- A primary expression and the arithmetic built on it. The right side takes all the arithmetic
that follows: `a mal b plus c` is `a mal (b plus c)`. -/
def operandAt (primary : Production) : Nat → Production
  | 0, _ => .ok none
  | n + 1, ts => do
    match ← primary ts with
    | none => .ok none
    | some (left, ⟨.arithmetic, op, _⟩ :: rest) =>
      if isPostfix op then .ok (some (.unary op left, rest))
      else do
        let (right, rest) ← require (operandAt primary n) (.noOperand op) rest
        .ok (some (.binary left op right, rest))
    | some found => .ok (some found)

def operandWith (expr : Production) : Production := fun ts =>
  operandAt (primary expr) (ts.length + 1) ts

/-- An operand, or two with a comparison between them. -/
def comparisonWith (expr : Production) : Production := fun ts => do
  match ← operandWith expr ts with
  | none => .ok none
  | some (left, ⟨.comparison, op, _⟩ :: rest) => do
    let (right, rest) ← require (operandWith expr) (.noRightSide op) rest
    .ok (some (.comparison left op right, rest))
  | some found => .ok (some found)

/-- More operands joined by `und` or `oda`, after those read (the last one first). -/
def chainFrom (operand : Production) : Nat → List Node → List Text → List Token →
    Except SyntaxError (Node × List Token)
  | 0, operands, ops, ts => .ok (.chain operands.reverse ops.reverse, ts)
  | n + 1, operands, ops, ts =>
    match ts with
    | ⟨kind, op, _⟩ :: rest =>
      if kind = .andWord ∨ kind = .orWord then do
        let (next, rest) ← require operand (.noChainOperand op) rest
        chainFrom operand n (next :: operands) (op :: ops) rest
      else .ok (.chain operands.reverse ops.reverse, ts)
    | [] => .ok (.chain operands.reverse ops.reverse, ts)

/-- A comparison, or a flat chain of them. -/
def expressionWith (expr : Production) : Production := fun ts => do
  match ← comparisonWith expr ts with
  | none => .ok none
  | some (left, rest) =>
    if nextIs .andWord rest || nextIs .orWord rest then do
      let chain ← chainFrom (comparisonWith expr) (rest.length + 1) [left] [] rest
      .ok (some chain)
    else .ok (some (left, rest))

/-- Expressions nested less deeply than a bound. -/
def expressionAt : Nat → Production
  | 0, _ => .ok none
  | n + 1, ts => expressionWith (expressionAt n) ts

/-- An expression. -/
def expression : Production := fun ts => expressionAt (ts.length + 1) ts

/-- An expression without comparisons and `und` or `oda` on its top level. -/
def operand : Production := fun ts => operandWith (expressionAt ts.length) ts

end Grammar

end Mundart
