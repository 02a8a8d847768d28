import Mundart.Run.Action
import Mundart.Value.Arithmetic

/-!
# Evaluation

`eval` gives a node its value, `exec` runs a node as a statement: it counts a step and may end the
enclosing call. `loop` repeats a body while a test holds. What each of them does with a node is said
in terms of `Evaluators` for the node's parts. Calls and loops make the three recursive without a
bound of their own, so they take one, the first argument, which every nested evaluation lowers by
one. An evaluation that ends within some bound ends the same way within every larger one.

The conditions and bodies of `wenn` and of the loops run in the scope around them; only a call opens
a new frame.
-/

namespace Mundart

/-- How a statement ends: the next one follows, or the enclosing call ends with a value. -/
inductive Flow where
  | next (v : Value)
  | returned (v : Value)

def Flow.value : Flow → Value
  | .next v => v
  | .returned v => v

namespace Eval

open Mundart.Action

/-! ### Sequences of evaluations

Lists of nodes are evaluated from left to right, and a failure leaves out what is behind it. The evaluator
of a single node is an argument here. -/

/-- The values of nodes from left to right. -/
def values (eval : Node → Action Value) : List Node → Action (List Value)
  | [] => pure []
  | n :: ns => do
    let v ← eval n
    let vs ← values eval ns
    pure (v :: vs)

/-- The truth of nodes from left to right; all of them are evaluated. -/
def truths (eval : Node → Action Value) : List Node → Action (List Bool)
  | [] => pure []
  | n :: ns => do
    let v ← eval n
    let vs ← truths eval ns
    pure (v.truthy :: vs)

/-- Statements in order up to the first that returns; the value is that of the last one. -/
def block (exec : Node → Action Flow) : Value → List Node → Action Flow
  | last, [] => pure (.next last)
  | _, n :: ns => do
    match ← exec n with
    | .returned v => pure (.returned v)
    | .next v => block exec v ns

/-- Keys and values in turn, written into an associative array. -/
def entries (eval : Node → Action Value) : Dict Value → List (Node × Node) → Action (Dict Value)
  | written, [] => pure written
  | written, (k, v) :: rest => do
    let key ← ofExcept (← eval k).asKey
    let value ← eval v
    entries eval (written.set key value) rest

/-- The elements for which a predicate holds, with the item's name bound to each in turn. -/
def select (eval : Node → Action Value) (item : Text) (predicate : Node) {α : Type}
    (element : α → Value) : List α → Action (List α)
  | [] => pure []
  | x :: xs => do
    define item (element x)
    let keep := (← eval predicate).truthy
    let rest ← select eval item predicate element xs
    pure (if keep then x :: rest else rest)

/-- A body for each element, with the item's name bound to it. -/
def forEach (run : Action Flow) (item : Text) : List Value → Action Flow
  | [] => pure (.next .absent)
  | v :: vs => do
    define item v
    match ← run with
    | .returned v => pure (.returned v)
    | .next _ => forEach run item vs

/-! ### Single nodes

What a node does with the values of its parts, in the order in which these are evaluated. The evaluator of
the parts is an argument. -/

/-- A name is a variable, or else a function. -/
def identifier (name : Text) : Action Value := do
  let s ← scope
  match s.lookupVar? name, s.lookupFunc? name with
  | some v, _ => pure v
  | none, some _ => pure (.func name)
  | none, none => fail (.unknownVariable name)

/-- An associative array, if there are as many keys as values. -/
def assoc? (eval : Node → Action Value) (keys vals : List Node) : Action (Option Value) :=
  if keys.length = vals.length then do
    let pairs ← ofExcept (Trusted.pairs keys vals)
    let es ← entries eval [] pairs
    pure (some (.assoc es))
  else pure none

/-- A declaration. One with unpaired keys and values binds nothing. -/
def declare (eval : Node → Action Value) (name : Text) (init : Node) : Action Value := do
  match init with
  | .assoc keys vals =>
    match ← assoc? eval keys vals with
    | some v => do
      define name v
      pure v
    | none => do
      note (.unpaired name keys.length vals.length)
      pure .absent
  | init => do
    let v ← eval init
    define name v
    pure v

/-- Writes one place of the collection that a variable held before index and value were evaluated. -/
def indexAssign (eval : Node → Action Value) (name : Text) (position value : Node) :
    Action Value := do
  let current ← ofExcept ((← scope).getVar name)
  let index ← eval position
  let v ← eval value
  let updated ← ofExcept (Value.withItem name current index v)
  define name updated
  pure v

/-- The value of an argument, if there is one. -/
def argument (eval : Node → Action Value) : Option Node → Action (Option Value)
  | none => pure none
  | some node => do
    let v ← eval node
    pure (some v)

/-- Calls a method. One that stores back needs a variable to store to and then has no value itself. -/
def useMethod (object : Node) (method : Method) (receiver : Value) (arg : Option Value) :
    Action Value :=
  if method.storesBack then
    match object with
    | .identifier target => do
      let result ← invoke method receiver arg
      define target result
      pure .absent
    | _ => fail (.mismatch (.receiverNotVariable method.name))
  else invoke method receiver arg

/-- A property. The method is looked up before the receiver is evaluated. -/
def property (eval : Node → Action Value) (object : Node) (name : Text) (arg : Option Node) :
    Action Value :=
  match Method.ofName? name with
  | none => fail (.unknownProperty name)
  | some method => do
    let receiver ← eval object
    let arg ← argument eval arg
    useMethod object method receiver arg

/-- The elements of a collection for which a predicate holds; the collection stays as it is. -/
def filter (eval : Node → Action Value) (collection : Node) (item : Text) (predicate : Node) :
    Action Value := do
  let v ← eval collection
  match v.kind with
  | .array => do
    let items ← ofExcept v.asArray
    let kept ← select eval item predicate id items
    pure (.array kept)
  | .assoc => do
    let entries ← ofExcept v.asAssoc
    let kept ← select eval item predicate Prod.snd entries
    pure (.assoc kept)
  | kind => fail (.mismatch (.filtered kind))

/-- Counts up or down; a variable keeps the new value. -/
def unary (eval : Node → Action Value) (op : Text) (operand : Node) : Action Value := do
  let v ← eval operand
  let result ← ofExcept (v.step op)
  match operand with
  | .identifier name => do
    define name result
    pure result
  | _ => pure result

/-- Calls a function with the values of its arguments: its body runs in a frame of its own on top of
the caller's scope. -/
def enter (exec : Node → Action Flow) (fn : Function) (vs : List Value) : Action Value :=
  if vs.length ≠ fn.params.length then
    fail (.arity fn.name fn.params.length vs.length)
  else do
    let max := (← settings).maxDepth
    if max ≤ (← machine).depth then fail (.recursionLimit max)
    else do
      let vars ← ofExcept (Trusted.pairs fn.params vs)
      let flow ← inFrame { vars := Dict.ofWrites vars } (block exec .absent fn.body)
      pure flow.value

/-- A call. Its arguments are evaluated in the caller's scope, after the function was looked up. -/
def call (eval : Node → Action Value) (exec : Node → Action Flow) (name : Text) (args : List Node) :
    Action Value := do
  let fn ← function name
  let vs ← values eval args
  enter exec fn vs

def fetchFrom (v : Value) : Action Value :=
  if v.kind = .text then do
    let url ← ofExcept v.asText
    Action.fetch url
  else fail (.mismatch (.url v.kind))

end Eval

/-! ### All nodes

`value`, `effect` and `turn` say what is done with a node, a statement and a turn of a loop in terms of
evaluators for the parts. The three recursive functions at the end do nothing but lower the bound. -/

/-- How the parts of a node are evaluated, run as statements and repeated. -/
structure Evaluators where
  eval : Node → Action Value
  exec : Node → Action Flow
  loop : (test : Node) → (body : List Node) → (update : Option Node) → Action Flow

namespace Evaluators

open Mundart.Action

/-- The value of a node, from evaluators for its parts. -/
def value (e : Evaluators) (node : Node) : Action Value :=
  match node with
  | .literal v => pure v
  | .identifier name => Eval.identifier name
  | .declare name init => Eval.declare e.eval name init
  | .assign name value => do
    let v ← e.eval value
    define name v
    pure v
  | .array elements => do
    let vs ← Eval.values e.eval elements
    pure (.array vs)
  | .assoc keys vals => do
    let v ← Eval.assoc? e.eval keys vals
    pure (v.getD .absent)
  | .index collection position => do
    let c ← e.eval collection
    let i ← e.eval position
    ofExcept (c.itemAt i)
  | .indexAssign name position value => Eval.indexAssign e.eval name position value
  | .property object name => Eval.property e.eval object name none
  | .propertyCall object name => Eval.property e.eval object name none
  | .propertyWith object name arg => Eval.property e.eval object name (some arg)
  | .filter collection item predicate => Eval.filter e.eval collection item predicate
  | .binary left op right => do
    let a ← e.eval left
    let b ← e.eval right
    ofExcept (Value.arithmetic op a b)
  | .unary op operand => Eval.unary e.eval op operand
  | .comparison left op right => do
    let a ← e.eval left
    let b ← e.eval right
    let holds ← ofExcept (Value.compareBy op a b)
    pure (.bool holds)
  | .chain operands ops => do
    let results ← Eval.truths e.eval operands
    let holds ← ofExcept (Value.foldChain results ops)
    pure (.bool holds)
  | .function name params body => do
    defineFunc ⟨name, params, body⟩
    pure .absent
  | .call name args => Eval.call e.eval e.exec name args
  | .print vals => do
    let vs ← Eval.values e.eval vals
    print (Value.displayAll vs ++ "\n")
    pure .absent
  | .fetch url => do
    let v ← e.eval url
    Eval.fetchFrom v
  | .comment _ => pure .absent
  | .missing => fail (.unknownNode node.kind)
  | .foreign kind => fail (.unknownNode kind)
  | .ifThen _ _ | .ifElse _ _ _ | .forLoop _ _ _ _ | .whileLoop _ _ | .forEach _ _ _ | .ret
  | .retWith _ => do
    let flow ← e.exec node
    pure flow.value

/-- What a statement does once it is counted. -/
def effect (e : Evaluators) (node : Node) : Action Flow :=
  match node with
  | .ret => pure (.returned .absent)
  | .retWith value => do
    let v ← e.eval value
    pure (.returned v)
  | .ifThen test body => do
    let v ← e.eval test
    if v.truthy then Eval.block e.exec .absent body else pure (.next .absent)
  | .ifElse test body otherwise => do
    let v ← e.eval test
    Eval.block e.exec .absent (if v.truthy then body else otherwise)
  | .whileLoop test body => e.loop test body none
  | .forLoop start test update body => do
    let _ ← e.eval start
    e.loop test body (some update)
  | .forEach collection item body => do
    let v ← e.eval collection
    match v.elements? with
    | some vs => Eval.forEach (Eval.block e.exec .absent body) item vs
    | none => fail (.mismatch (.iterated v.kind))
  | node => do
    let v ← e.eval node
    pure (.next v)

/-- Runs a node as a statement, from evaluators for its parts. -/
def statement (e : Evaluators) (node : Node) : Action Flow := do
  tick
  e.effect node

/-- What follows a turn of a loop: its update, if there is one, and the next turn. -/
def proceed (e : Evaluators) (test : Node) (body : List Node) (update : Option Node) : Action Flow :=
  match update with
  | some node => do
    let _ ← e.eval node
    e.loop test body update
  | none => e.loop test body update

/-- A test, and as far as it holds a turn of a loop and what follows it. -/
def turn (e : Evaluators) (test : Node) (body : List Node) (update : Option Node) : Action Flow := do
  let v ← e.eval test
  if v.truthy then do
    match ← Eval.block e.exec .absent body with
    | .returned v => pure (.returned v)
    | .next _ => e.proceed test body update
  else pure (.next .absent)

end Evaluators

mutual

/-- The value of a node. -/
def eval (fuel : Nat) (node : Node) : Action Value :=
  match fuel with
  | 0 => Action.starve
  | fuel + 1 => Evaluators.value ⟨eval fuel, exec fuel, loop fuel⟩ node

/-- Runs a node as a statement. -/
def exec (fuel : Nat) (node : Node) : Action Flow :=
  match fuel with
  | 0 => Action.starve
  | fuel + 1 => Evaluators.statement ⟨eval fuel, exec fuel, loop fuel⟩ node

/-- Runs a body, and after it an update if there is one, as long as a test holds. -/
def loop (fuel : Nat) (test : Node) (body : List Node) (update : Option Node) : Action Flow :=
  match fuel with
  | 0 => Action.starve
  | fuel + 1 => Evaluators.turn ⟨eval fuel, exec fuel, loop fuel⟩ test body update

end

end Mundart
