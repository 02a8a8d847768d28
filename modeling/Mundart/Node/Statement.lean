import Mundart.Node.Expression
import Mundart.Token.Scan

/-!
# Reading programs

Statements, blocks and whole programs. As with expressions, a statement contains smaller ones in
its bodies, `statementAt` bounds the nesting and the number of tokens is bound enough.
-/

namespace Mundart

namespace Grammar

/-- Statements one after the other, each with at most one semicolon behind it, until none matches;
those read stand in front (the last one first). -/
def statements (statement : Production) : Nat → List Node → List Token →
    Except SyntaxError (Program × List Token)
  | 0, read, ts => .ok (read.reverse, ts)
  | n + 1, read, ts => do
    match ← statement ts with
    | none => .ok (read.reverse, ts)
    | some (node, ⟨.semicolon, _, _⟩ :: rest) => statements statement n (node :: read) rest
    | some (node, rest) => statements statement n (node :: read) rest

def block (statement : Production) (ts : List Token) : Except SyntaxError (Program × List Token) :=
  statements statement (ts.length + 1) [] ts

/-- `{ statements }` with at least one statement. -/
def body (statement : Production) (construct : Text) (ts : List Token) :
    Except SyntaxError (Program × List Token) := do
  let ts ← expect .leftBrace construct ts
  let (nodes, ts) ← block statement ts
  let rest ← expect .rightBrace construct ts
  if nodes.isEmpty then complain ts (.emptyBody construct) else .ok (nodes, rest)

/-- `( expression )` -/
def parenCondition (construct : Text) (ts : List Token) :
    Except SyntaxError (Node × List Token) := do
  let ts ← expect .leftParen construct ts
  let (test, ts) ← require expression (.noCondition construct) ts
  let ts ← expect .rightParen construct ts
  .ok (test, ts)

/-- `wenn (test) { … }`, then nothing, `sonst { … }` or `sonst wenn …`. -/
def ifStatement (statement : Production) : Production
  | ⟨.ifWord, _, _⟩ :: ts => do
    let (test, ts) ← parenCondition "wenn" ts
    let (nodes, ts) ← body statement "wenn" ts
    match ts with
    | ⟨.elseWord, _, _⟩ :: rest =>
      if nextIs .ifWord rest then do
        match ← statement rest with
        | some (nested, rest) => .ok (some (.ifElse test nodes [nested], rest))
        | none => .ok none
      else do
        let (otherwise, rest) ← body statement "sonst" rest
        .ok (some (.ifElse test nodes otherwise, rest))
    | _ => .ok (some (.ifThen test nodes, ts))
  | _ => .ok none

/-- Only a plain `=` assigns. -/
def checkAssign (ts : List Token) (op : Text) : Except SyntaxError Unit :=
  if op = "=" then .ok () else complain ts (.assignOperator op)

/-- `heast name = value` -/
def declaration : Production
  | ⟨.letWord, _, _⟩ :: ts =>
    match ts with
    | ⟨.identifier, name, _⟩ :: ts =>
      match ts with
      | ⟨.assign, op, _⟩ :: rest => do
        checkAssign ts op
        let (init, rest) ← require expression (.noInitial name) rest
        .ok (some (.declare name init, rest))
      | _ => complain ts (.noEquals name)
    | _ => complain ts .noVariableName
  | _ => .ok none

/-- `name = value` -/
def assignment : Production
  | ⟨.identifier, name, _⟩ :: ts =>
    match ts with
    | ⟨.assign, op, _⟩ :: rest => do
      checkAssign ts op
      let (value, rest) ← require expression (.noValue name) rest
      .ok (some (.assign name value, rest))
    | _ => .ok none
  | _ => .ok none

/-- `name[index] = value` -/
def indexAssignment : Production
  | ⟨.identifier, name, _⟩ :: ⟨.leftBracket, _, _⟩ :: ts => do
    match ← expression ts with
    | some (position, ⟨.rightBracket, _, _⟩ :: ts) =>
      match ts with
      | ⟨.assign, op, _⟩ :: rest => do
        checkAssign ts op
        let (value, rest) ← require expression (.noIndexValue name) rest
        .ok (some (.indexAssign name position value, rest))
      | _ => .ok none
    | _ => .ok none
  | _ => .ok none

/-- `aufi (start; test; update) { … }`, where the test is a comparison. -/
def forStatement (statement : Production) : Production
  | ⟨.forWord, _, _⟩ :: ts => do
    let ts ← expect .leftParen "aufi" ts
    let (start, ts) ← require (firstOf [declaration, assignment]) .noStart ts
    let ts ← expect .semicolon "aufi" ts
    let (test, ts) ← require expression .noComparison ts
    match test with
    | .comparison left op right => do
      let ts ← expect .semicolon "aufi" ts
      let (update, ts) ← require (firstOf [assignment, expression]) .noUpdate ts
      let ts ← expect .rightParen "aufi" ts
      let (nodes, ts) ← body statement "aufi" ts
      .ok (some (.forLoop start (.comparison left op right) update nodes, ts))
    | _ => complain ts .noComparison
  | _ => .ok none

/-- `geh weida (test) { … }` -/
def whileStatement (statement : Production) : Production
  | ⟨.whileWord, _, _⟩ :: ts => do
    let (test, ts) ← parenCondition "geh weida" ts
    let (nodes, ts) ← body statement "geh weida" ts
    .ok (some (.whileLoop test nodes, ts))
  | _ => .ok none

/-- `fiaOis (collection als item) { … }` -/
def forEachStatement (statement : Production) : Production
  | ⟨.forEach, _, _⟩ :: ts => do
    let ts ← expect .leftParen "fiaOis" ts
    let (collection, ts) ← require operand .noCollection ts
    let ts ← expect .asWord "fiaOis" ts
    match ts with
    | ⟨.identifier, item, _⟩ :: ts => do
      let ts ← expect .rightParen "fiaOis" ts
      let (nodes, ts) ← body statement "fiaOis" ts
      .ok (some (.forEach collection item nodes, ts))
    | _ => complain ts .noItemName
  | _ => .ok none

/-- Parameter names with commas between them, a last comma allowed. -/
def parameters : List Token → List Text × List Token
  | ⟨.identifier, name, _⟩ :: ⟨.separator, _, _⟩ :: rest =>
    let (names, rest) := parameters rest
    (name :: names, rest)
  | ⟨.identifier, name, _⟩ :: rest => ([name], rest)
  | ts => ([], ts)

/-- `hawara name(params) { … }` -/
def functionDefinition (statement : Production) : Production
  | ⟨.function, _, _⟩ :: ts =>
    match ts with
    | ⟨.identifier, name, _⟩ :: ts => do
      let ts ← expect .leftParen "hawara" ts
      let (params, ts) := parameters ts
      let construct : Text := "hawara " ++ name
      let ts ← expect .rightParen construct ts
      let (nodes, ts) ← body statement construct ts
      .ok (some (.function name params nodes, ts))
    | _ => complain ts .noFunctionName
  | _ => .ok none

/-- `speicher`, with a value if an expression follows. -/
def returnStatement : Production
  | ⟨.returnWord, _, _⟩ :: ts => do
    match ← expression ts with
    | some (value, rest) => .ok (some (.retWith value, rest))
    | none => .ok (some (.ret, ts))
  | _ => .ok none

/-- `kommentar "text"` -/
def comment : Production
  | ⟨.comment, _, _⟩ :: ts =>
    match ts with
    | ⟨.string, text, _⟩ :: rest => .ok (some (.comment text, rest))
    | _ => complain ts .noCommentText
  | _ => .ok none

/-- `oida.sag(values)` -/
def printStatement : Production
  | ⟨.print, _, _⟩ :: ts => do
    let ts ← expect .leftParen "oida.sag" ts
    let (values, ts) ← list expression .rightParen ts
    let ts ← expect .rightParen "oida.sag" ts
    .ok (some (.print values, ts))
  | _ => .ok none

/-- A statement whose bodies are read by the given production. -/
def statementWith (statement : Production) : Production :=
  firstOf [ifStatement statement, forStatement statement, whileStatement statement,
    forEachStatement statement, functionDefinition statement, indexAssignment, declaration,
    assignment, returnStatement, comment, printStatement, expression]

/-- Statements nested less deeply than a bound. -/
def statementAt : Nat → Production
  | 0, _ => .ok none
  | n + 1, ts => statementWith (statementAt n) ts

/-- A statement. -/
def statement : Production := fun ts => statementAt (ts.length + 1) ts

end Grammar

namespace Program

/-- The program that a list of tokens is; all of them have to be used. -/
def ofTokens (ts : List Token) : Except SyntaxError Program := do
  let (program, rest) ← Grammar.block (Grammar.statementAt (ts.length + 1)) ts
  match rest with
  | [] => .ok program
  | t :: _ => Grammar.complain rest (.leftover t.kind t.value)

/-- The program that a source text is. -/
def parse (source : Text) : Except SyntaxError Program := ofTokens (Token.scan source)

end Program

end Mundart
