import Mundart.Proofs.Value.Orderly
import Mundart.Run.Session

/-!
# What an evaluation is built from

The evaluators are defined by recursion on a bound, and what they do with a node is put together from
a few kinds of actions: reading, binding a name, printing, fetching, calling a method, evaluating a
part, running a body in a new frame. `Built` says that an action is put together this way and uses no
more than an `Access` allows it. The analysis of all kinds of nodes is done once, here; every law of
evaluation then needs one case for each kind of action.

* **`Access.Covers`** — an access allows what the value of a node needs;
* **`value_built`**, **`effect_built`**, **`turn_built`** — the evaluators are built from what the
  access to a node allows.
-/

namespace Mundart

open Mundart.Action

namespace Action

variable {α β γ : Type}

/-! ## Actions

How actions behave on a machine: one after the other, and each of those that look at the machine. An action
is done, fails or has used up its bound, and only the first of these lets the next one begin. -/

/-- What comes next starts where the first action is done. -/
theorem bind_of_done {x : Action α} {next : α → Action β} {s : Settings} {m m' : Machine} {a : α}
    (h : x s m = .done a m') : (x >>= next) s m = next a s m' := by
  show Action.bind x next s m = _
  rw [Action.bind, h]

/-- A failure ends the actions that would come next. -/
theorem bind_of_failed {x : Action α} {next : α → Action β} {s : Settings} {m m' : Machine}
    {f : Failure} (h : x s m = .failed f m') : (x >>= next) s m = .failed f m' := by
  show Action.bind x next s m = _
  rw [Action.bind, h]

/-- A bound that is used up ends the actions that would come next. -/
theorem bind_of_starved {x : Action α} {next : α → Action β} {s : Settings} {m : Machine}
    (h : x s m = .starved) : (x >>= next) s m = .starved := by
  show Action.bind x next s m = _
  rw [Action.bind, h]

/-- Two actions are done one after the other only if both of them are. -/
theorem bind_eq_done {x : Action α} {next : α → Action β} {s : Settings} {m m' : Machine} {b : β}
    (h : (x >>= next) s m = .done b m') :
    ∃ a m₁, x s m = .done a m₁ ∧ next a s m₁ = .done b m' := by
  cases hx : x s m with
  | done a m₁ =>
    rw [bind_of_done hx] at h
    exact ⟨a, m₁, rfl, h⟩
  | failed f m₁ =>
    rw [bind_of_failed hx] at h
    exact nomatch h
  | starved =>
    rw [bind_of_starved hx] at h
    exact nomatch h

/-- A name that means a function gives it. -/
theorem function_of_some {name : Text} {fn : Function} {s : Settings} {m : Machine}
    (h : m.scope.lookupFunc? name = some fn) : function name s m = .done fn m := by
  show ofExcept (m.scope.getFunc name) s m = _
  rw [Scope.getFunc, h]
  rfl

/-- A name that means none fails. -/
theorem function_of_none {name : Text} {s : Settings} {m : Machine}
    (h : m.scope.lookupFunc? name = none) :
    function name s m = .failed (.unknownFunction name) m := by
  show ofExcept (m.scope.getFunc name) s m = _
  rw [Scope.getFunc, h]
  rfl

section

variable {url : Text} {method : Method} {receiver v : Value} {arg : Option Value} {f : Failure} {s : Settings}
  {m : Machine} {cause : Option Interruption}

/-- A fetch that is answered is noted and counted; it may interrupt the machine. -/
theorem fetch_of_ok (hcause : (if (s.fetcher m.fetches url).cancels then
      m.interruption <|> some .cancelled else m.interruption) = cause)
    (h : (s.fetcher m.fetches url).result = .ok v) :
    fetch url s m = .done v
      { m with events := .fetching url :: m.events, fetches := m.fetches + 1, interruption := cause } := by
  unfold fetch
  dsimp only
  rw [h, hcause]

/-- A fetch that fails is noted twice. -/
theorem fetch_of_error (hcause : (if (s.fetcher m.fetches url).cancels then
      m.interruption <|> some .cancelled else m.interruption) = cause)
    (h : (s.fetcher m.fetches url).result = .error f) :
    fetch url s m = .failed f
      { m with
        events := .fetchFailed url f :: .fetching url :: m.events, fetches := m.fetches + 1
        interruption := cause } := by
  unfold fetch
  dsimp only
  rw [h, hcause]

/-- A method that gives a value may use up randomness. -/
theorem invoke_of_ok (h : (method.invoke receiver arg m.random).1 = .ok v) :
    invoke method receiver arg s m =
      .done v { m with random := (method.invoke receiver arg m.random).2 } := by
  unfold invoke
  dsimp only
  rw [h]

/-- So may one that fails. -/
theorem invoke_of_error (h : (method.invoke receiver arg m.random).1 = .error f) :
    invoke method receiver arg s m =
      .failed f { m with random := (method.invoke receiver arg m.random).2 } := by
  unfold invoke
  dsimp only
  rw [h]

end

/-- It does not matter how actions in a row are grouped. -/
theorem bind_assoc (x : Action α) (f : α → Action β) (g : β → Action γ) :
    (x >>= f) >>= g = x >>= fun a => f a >>= g := by
  funext s m
  show Action.bind (Action.bind x f) g s m = Action.bind x (fun a => Action.bind (f a) g) s m
  unfold Action.bind
  cases x s m with
  | done a m => rfl
  | failed f m => rfl
  | starved => rfl

/-- Fails where as many calls are active as there may be. -/
def checkDepth : Action Unit := do
  let max := (← settings).maxDepth
  if max ≤ (← machine).depth then fail (.recursionLimit max) else pure ()

/-- There is room for one more call, or a failure that says how many there may be. -/
theorem checkDepth_cases (s : Settings) (m : Machine) :
    (m.depth < s.maxDepth ∧ checkDepth s m = .done () m) ∨
      (s.maxDepth ≤ m.depth ∧ checkDepth s m = .failed (.recursionLimit s.maxDepth) m) := by
  have hcheck : checkDepth s m =
      (if s.maxDepth ≤ m.depth then fail (.recursionLimit s.maxDepth) else pure () : Action Unit) s m :=
    rfl
  rw [hcheck]
  by_cases hdepth : s.maxDepth ≤ m.depth
  · rw [if_pos hdepth]
    exact .inr ⟨hdepth, rfl⟩
  · rw [if_neg hdepth]
    exact .inl ⟨by omega, rfl⟩

/-- The test for the depth of calls is an action of its own, before everything else of a call. -/
theorem checkDepth_bind (next : Action α) :
    (settings >>= fun s => machine >>= fun m =>
      if s.maxDepth ≤ m.depth then fail (.recursionLimit s.maxDepth) else next) =
      checkDepth >>= fun _ => next := by
  funext s m
  show (if s.maxDepth ≤ m.depth then fail (.recursionLimit s.maxDepth) else next) s m = _
  -- The limit is reached or not, and the action behind the test is run or not.
  obtain ⟨hdepth, hcheck⟩ | ⟨hdepth, hcheck⟩ := checkDepth_cases s m
  · rw [bind_of_done hcheck, if_neg (by omega)]
  · rw [bind_of_failed hcheck, if_pos hdepth]
    rfl

end Action

/-- A call with as many arguments as parameters runs the body in a frame of its own, if there is room for one
more call. -/
theorem Eval.enter_eq (exec : Node → Action Flow) (fn : Function) (vs : List Value) :
    Eval.enter exec fn vs =
      if vs.length ≠ fn.params.length then fail (.arity fn.name fn.params.length vs.length)
      else (checkDepth >>= fun _ => inFrame { vars := Dict.ofWrites (fn.params.zip vs) }
        (Eval.block exec .absent fn.body)) >>= fun flow => pure flow.value := by
  unfold Eval.enter
  split
  · rfl
  · next hlen =>
    -- The arguments were counted before they are paired with the parameters.
    have hpairs : Trusted.pairs fn.params vs = .ok (fn.params.zip vs) := if_pos (by simp at hlen; omega)
    simp only [checkDepth_bind]
    rw [hpairs, Action.bind_assoc]
    rfl

/-! ## Built actions

One constructor for each kind of action that an evaluation is made of. Whatever is said of a name, a
function, a failure or a node is left to the access, so that every law can ask for what it needs. -/

/-- The failure of a statement that an event is about. -/
def Event.failure? : Event → Option Failure
  | .failed _ f => some f
  | _ => none

/-- What an action may use. -/
structure Access where
  /-- The variables that it may bind. -/
  writes : Text → Prop
  /-- The functions that it may define. -/
  defines : Function → Prop
  /-- What is known of the functions that names mean. -/
  knows : Function → Prop
  /-- How it may fail by itself. -/
  fails : Failure → Prop
  /-- The nodes that it may evaluate. -/
  evals : Node → Prop
  /-- The nodes that it may run as statements. -/
  execs : Node → Prop
  /-- The tests, bodies and updates that it may repeat. -/
  loops : Node → List Node → Option Node → Prop
  /-- Ordinary failures are always allowed. -/
  tolerates : ∀ f : Failure, f.Ordinary → fails f

/-- Actions put together from what an access allows, given evaluators for parts. -/
inductive Built (A : Access) : (α : Type) → (Evaluators → Action α) → Prop where
  | pure {α : Type} (a : α) : Built A α fun _ => pure a
  | bind {α β : Type} {x : Evaluators → Action α} {next : Evaluators → α → Action β}
      (hx : Built A α x) (hnext : ∀ a, Built A β fun e => next e a) :
      Built A β fun e => x e >>= next e
  | fail {α : Type} {f : Failure} (h : A.fails f) : Built A α fun _ => fail f
  | scope : Built A Scope fun _ => scope
  | function {β : Type} {name : Text} {next : Evaluators → Function → Action β}
      (hnext : ∀ fn, A.knows fn → Built A β fun e => next e fn) :
      Built A β fun e => function name >>= next e
  | define {name : Text} (h : A.writes name) (v : Value) : Built A Unit fun _ => define name v
  | defineFunc {fn : Function} (h : A.defines fn) : Built A Unit fun _ => defineFunc fn
  | note {event : Event} (h : event.failure? = none) : Built A Unit fun _ => note event
  | print (t : Text) : Built A Unit fun _ => print t
  | fetch (url : Text) : Built A Value fun _ => fetch url
  | invoke (method : Method) (receiver : Value) (arg : Option Value) :
      Built A Value fun _ => invoke method receiver arg
  | eval {n : Node} (h : A.evals n) : Built A Value fun e => e.eval n
  | exec {n : Node} (h : A.execs n) : Built A Flow fun e => e.exec n
  | loop {test : Node} {body : List Node} {update : Option Node} (h : A.loops test body update) :
      Built A Flow fun e => e.loop test body update
  | body {fn : Function} (h : A.knows fn) (vars : Dict Value) :
      Built A Flow fun e => checkDepth >>= fun _ =>
        inFrame { vars := vars } (Eval.block e.exec .absent fn.body)

namespace Built

variable {A : Access} {α : Type}

/-- A computation without a machine, if it may fail as it does. -/
theorem ofExcept {x : Except Failure α} (h : ∀ f, x = .error f → A.fails f) :
    Built A α fun _ => ofExcept x := by
  cases x with
  | ok a => exact .pure a
  | error f => exact .fail (h f rfl)

/-- One that fails in ordinary ways only. -/
theorem ofOrderly {x : Except Failure α} (h : Orderly x) : Built A α fun _ => Action.ofExcept x :=
  ofExcept fun f hf => A.tolerates f (h f hf)

/-- An ordinary failure. -/
theorem failOrdinary {f : Failure} (h : f.Ordinary) : Built A α fun _ => Action.fail f :=
  .fail (A.tolerates f h)

/-! ## Sequences

Evaluations that go through a list, by induction on it. -/

/-- The values of some nodes, one after the other. -/
theorem values {ns : List Node} (h : ∀ n ∈ ns, A.evals n) :
    Built A (List Value) fun e => Eval.values e.eval ns := by
  induction ns with
  | nil => exact .pure []
  | cons n ns ih =>
    obtain ⟨hn, hns⟩ := List.forall_mem_cons.mp h
    refine .bind (.eval hn) fun v => ?_
    exact .bind (ih hns) fun vs => .pure _

/-- The statements of a block, up to one that returns. -/
theorem block {ns : List Node} (h : ∀ n ∈ ns, A.execs n) : ∀ last : Value,
    Built A Flow fun e => Eval.block e.exec last ns := by
  induction ns with
  | nil => exact fun last => .pure _
  | cons n ns ih =>
    intro last
    obtain ⟨hn, hns⟩ := List.forall_mem_cons.mp h
    refine .bind (.exec hn) fun flow => ?_
    -- A statement that returns ends the block with its value.
    cases flow with
    | returned v => exact .pure _
    | next v => exact ih hns v

/-- The keys and values of an association, pair by pair. -/
theorem entries {pairs : List (Node × Node)} (h : ∀ p ∈ pairs, A.evals p.1 ∧ A.evals p.2) :
    ∀ written : Dict Value, Built A (Dict Value) fun e => Eval.entries e.eval written pairs := by
  induction pairs with
  | nil => exact fun written => .pure written
  | cons p pairs ih =>
    intro written
    obtain ⟨⟨hkey, hvalue⟩, hpairs⟩ := List.forall_mem_cons.mp h
    refine .bind (.eval hkey) fun k => ?_
    refine .bind (.ofOrderly (Value.asKey_orderly k)) fun key => ?_
    exact .bind (.eval hvalue) fun v => ih hpairs _

/-- The elements that a predicate keeps, each bound to the name of the item. -/
theorem select {item : Text} {predicate : Node} (hitem : A.writes item) (hp : A.evals predicate)
    {β : Type} (element : β → Value) (xs : List β) :
    Built A (List β) fun e => Eval.select e.eval item predicate element xs := by
  induction xs with
  | nil => exact .pure []
  | cons x xs ih =>
    refine .bind (.define hitem _) fun _ => ?_
    refine .bind (.eval hp) fun v => ?_
    exact .bind ih fun rest => .pure _

/-- The rounds of a loop over some values, each bound to the name of the item. -/
theorem forEach {item : Text} (hitem : A.writes item) {run : Evaluators → Action Flow}
    (hrun : Built A Flow run) (vs : List Value) :
    Built A Flow fun e => Eval.forEach (run e) item vs := by
  induction vs with
  | nil => exact .pure _
  | cons v vs ih =>
    refine .bind (.define hitem v) fun _ => ?_
    refine .bind hrun fun flow => ?_
    cases flow with
    | returned v => exact .pure _
    | next _ => exact ih

/-! ## Single nodes

The evaluations of the nodes that take more than one or two steps. -/

/-- A name is a variable or a function, or it means nothing. -/
theorem identifier (name : Text) : Built A Value fun _ => Eval.identifier name := by
  refine .bind .scope fun s => ?_
  split
  · exact .pure _
  · exact .pure _
  · exact failOrdinary trivial

/-- An association, if there are as many values as keys. -/
theorem assoc? {keys vals : List Node} (hk : ∀ n ∈ keys, A.evals n) (hv : ∀ n ∈ vals, A.evals n) :
    Built A (Option Value) fun e => Eval.assoc? e.eval keys vals := by
  unfold Eval.assoc?
  split
  · next hlen =>
    -- The lengths agree, so no key is without its value.
    have hpairs : Trusted.pairs keys vals = .ok (keys.zip vals) := if_pos (Nat.le_of_eq hlen)
    rw [hpairs]
    show Built A _ fun e => Eval.entries e.eval [] (keys.zip vals) >>= fun es =>
      Pure.pure (some (Value.assoc es))
    refine .bind (entries (fun p hp => ?_) []) fun es => .pure _
    obtain ⟨hkey, hvalue⟩ := List.of_mem_zip hp
    exact ⟨hk _ hkey, hv _ hvalue⟩
  · exact .pure _

/-- A declaration; with an association, the keys and values are evaluated and not the node. -/
theorem declare {name : Text} {init : Node} (hname : A.writes name) (hinit : A.evals init)
    (hparts : ∀ keys vals, init = .assoc keys vals → ∀ n ∈ keys ++ vals, A.evals n) :
    Built A Value fun e => Eval.declare e.eval name init := by
  unfold Eval.declare
  split
  · next keys vals =>
    obtain ⟨hk, hv⟩ := List.forall_mem_append.mp (hparts keys vals rfl)
    refine .bind (assoc? hk hv) fun found => ?_
    -- Keys without values are noted, and the name is not bound.
    cases found with
    | some v => exact .bind (.define hname v) fun _ => .pure v
    | none => exact .bind (.note rfl) fun _ => .pure _
  · refine .bind (.eval hinit) fun v => ?_
    exact .bind (.define hname v) fun _ => .pure v

/-- An assignment to an index reads the variable, changes a copy and writes it back. -/
theorem indexAssign {name : Text} {position value : Node} (hname : A.writes name)
    (hp : A.evals position) (hv : A.evals value) :
    Built A Value fun e => Eval.indexAssign e.eval name position value := by
  refine .bind .scope fun s => ?_
  have hvar : Orderly (s.getVar name) := by
    unfold Scope.getVar
    split
    · exact orderly_ok _
    · exact orderly_error trivial
  refine .bind (.ofOrderly hvar) fun current => ?_
  refine .bind (.eval hp) fun index => ?_
  refine .bind (.eval hv) fun v => ?_
  refine .bind (.ofOrderly (Value.withItem_orderly name current index v)) fun updated => ?_
  exact .bind (.define hname updated) fun _ => .pure v

/-- The argument of a method, if there is one. -/
theorem argument {arg : Option Node} (h : ∀ n, arg = some n → A.evals n) :
    Built A (Option Value) fun e => Eval.argument e.eval arg := by
  cases arg with
  | none => exact .pure none
  | some n => exact .bind (.eval (h n rfl)) fun v => .pure (some v)

/-- A method is called on a receiver, and its result is stored if it is one that changes it. -/
theorem useMethod {object : Node} {method : Method} (receiver : Value) (arg : Option Value)
    (hstore : ∀ target, method.storesBack = true → object = .identifier target → A.writes target) :
    Built A Value fun _ => Eval.useMethod object method receiver arg := by
  unfold Eval.useMethod
  split
  · next hback =>
    split
    -- It can only be stored where the receiver was a variable.
    · next target =>
      refine .bind (.invoke method receiver arg) fun result => ?_
      exact .bind (.define (hstore target hback rfl) result) fun _ => .pure _
    · exact failOrdinary trivial
  · exact .invoke method receiver arg

/-- A property is a method that is called on the value of an object. -/
theorem property {object : Node} {name : Text} {arg : Option Node} (ho : A.evals object)
    (ha : ∀ n, arg = some n → A.evals n)
    (hstore : ∀ method target, Method.ofName? name = some method → method.storesBack = true →
      object = .identifier target → A.writes target) :
    Built A Value fun e => Eval.property e.eval object name arg := by
  unfold Eval.property
  split
  · exact failOrdinary trivial
  · next method hmethod =>
    refine .bind (.eval ho) fun receiver => ?_
    refine .bind (argument ha) fun arg => ?_
    exact useMethod receiver arg fun target => hstore method target hmethod

/-- A filter goes through an array or through the values of an association. -/
theorem filter {collection predicate : Node} {item : Text} (hc : A.evals collection)
    (hitem : A.writes item) (hp : A.evals predicate) :
    Built A Value fun e => Eval.filter e.eval collection item predicate := by
  refine .bind (.eval hc) fun v => ?_
  split
  · next hkind =>
    refine .bind (.ofOrderly (Value.asArray_orderly hkind)) fun items => ?_
    exact .bind (select hitem hp id items) fun kept => .pure _
  · next hkind =>
    refine .bind (.ofOrderly (Value.asAssoc_orderly hkind)) fun entries => ?_
    exact .bind (select hitem hp Prod.snd entries) fun kept => .pure _
  · exact failOrdinary trivial

/-- A postfix operator changes a variable or gives the changed value. -/
theorem unary {op : Text} {operand : Node} (hop : ∀ v f, Value.step op v = .error f → A.fails f)
    (ho : A.evals operand) (hname : ∀ name, operand = .identifier name → A.writes name) :
    Built A Value fun e => Eval.unary e.eval op operand := by
  refine .bind (.eval ho) fun v => ?_
  refine .bind (.ofExcept (hop v)) fun result => ?_
  split
  · next name => exact .bind (.define (hname name rfl) result) fun _ => .pure _
  · exact .pure _

/-- A function that is known runs its body in a frame of its own. -/
theorem enter {fn : Function} (hfn : A.knows fn) (vs : List Value) :
    Built A Value fun e => Eval.enter e.exec fn vs := by
  simp only [Eval.enter_eq]
  split
  · exact failOrdinary trivial
  · exact .bind (.body hfn _) fun flow => .pure _

/-- A function is looked up before its arguments are evaluated. -/
theorem call {name : Text} {args : List Node} (ha : ∀ n ∈ args, A.evals n) :
    Built A Value fun e => Eval.call e.eval e.exec name args := by
  refine .function fun fn hfn => ?_
  exact .bind (values ha) fun vs => enter hfn vs

/-- An address must be a text. -/
theorem fetchFrom (v : Value) : Built A Value fun _ => Eval.fetchFrom v := by
  unfold Eval.fetchFrom
  split
  · next hkind => exact .bind (.ofOrderly (Value.asText_orderly hkind)) fun url => .fetch url
  · exact failOrdinary trivial

/-- The truth of as many nodes as were asked for. -/
theorem truths_bind {β : Type} {ns : List Node} (h : ∀ n ∈ ns, A.evals n) :
    ∀ {next : Evaluators → List Bool → Action β},
    (∀ results, results.length = ns.length → Built A β fun e => next e results) →
    Built A β fun e => Eval.truths e.eval ns >>= next e := by
  induction ns with
  | nil => exact fun hnext => hnext [] rfl
  | cons n ns ih =>
    intro next hnext
    obtain ⟨hn, hns⟩ := List.forall_mem_cons.mp h
    -- The recursion is turned inside out: the first truth is known when the others are asked for.
    have hassoc : (fun e => Eval.truths e.eval (n :: ns) >>= next e) = fun (e : Evaluators) =>
        e.eval n >>= fun v => Eval.truths e.eval ns >>= fun vs => next e (v.truthy :: vs) := by
      funext e
      rw [Eval.truths, Action.bind_assoc]
      refine congrArg _ (funext fun v => ?_)
      rw [Action.bind_assoc]
      rfl
    rw [hassoc]
    refine .bind (.eval hn) fun v => ih hns fun results hlen => ?_
    exact hnext _ (by rw [List.length_cons, List.length_cons, hlen])

end Built

/-! ## All nodes

What an access must allow for a node follows its parts. It is a definition by cases and not a relation, so
that it can be looked up for the node at hand. -/

/-- An access allows what the value of a node needs. -/
def Access.Covers (A : Access) : Node → Prop
  | .literal _ | .identifier _ | .comment _ => True
  | .declare name init => A.writes name ∧ A.evals init ∧
      ∀ keys vals, init = .assoc keys vals → ∀ n ∈ keys ++ vals, A.evals n
  | .assign name value => A.writes name ∧ A.evals value
  | .array elements => ∀ n ∈ elements, A.evals n
  | .assoc keys vals => (∀ n ∈ keys, A.evals n) ∧ ∀ n ∈ vals, A.evals n
  | .index collection position => A.evals collection ∧ A.evals position
  | .indexAssign name position value => A.writes name ∧ A.evals position ∧ A.evals value
  | .property object name | .propertyCall object name => A.evals object ∧
      ∀ method target, Method.ofName? name = some method → method.storesBack = true →
        object = .identifier target → A.writes target
  | .propertyWith object name arg => A.evals object ∧ A.evals arg ∧
      ∀ method target, Method.ofName? name = some method → method.storesBack = true →
        object = .identifier target → A.writes target
  | .filter collection item predicate => A.evals collection ∧ A.writes item ∧ A.evals predicate
  | .binary left op right => A.evals left ∧ A.evals right ∧
      ∀ a b f, Value.arithmetic op a b = .error f → A.fails f
  | .unary op operand => A.evals operand ∧ (∀ v f, Value.step op v = .error f → A.fails f) ∧
      ∀ name, operand = .identifier name → A.writes name
  | .comparison left op right => A.evals left ∧ A.evals right ∧
      ∀ a b f, Value.compareBy op a b = .error f → A.fails f
  | .chain operands ops => (∀ n ∈ operands, A.evals n) ∧ ∀ results : List Bool,
      results.length = operands.length → ∀ f, Value.foldChain results ops = .error f → A.fails f
  | .function name params body => A.defines ⟨name, params, body⟩
  | .call _ args => ∀ n ∈ args, A.evals n
  | .print vals => ∀ n ∈ vals, A.evals n
  | .fetch url => A.evals url
  | .missing => A.fails (.unknownNode Node.missing.kind)
  | .foreign kind => A.fails (.unknownNode kind)
  | node => A.execs node

/-- An access allows what running a node as a statement needs once it is counted. -/
def Access.CoversEffect (A : Access) : Node → Prop
  | .ret => True
  | .retWith value => A.evals value
  | .ifThen test body => A.evals test ∧ ∀ n ∈ body, A.execs n
  | .ifElse test body otherwise =>
    A.evals test ∧ (∀ n ∈ body, A.execs n) ∧ ∀ n ∈ otherwise, A.execs n
  | .whileLoop test body => A.loops test body none
  | .forLoop start test update body => A.evals start ∧ A.loops test body (some update)
  | .forEach collection item body =>
    A.evals collection ∧ A.writes item ∧ ∀ n ∈ body, A.execs n
  | node => A.evals node

/-- An access allows what a turn of a loop and the turns after it need. -/
structure Access.CoversTurn (A : Access) (test : Node) (body : List Node) (update : Option Node) :
    Prop where
  tests : A.evals test
  runs : ∀ n ∈ body, A.execs n
  updates : ∀ n, update = some n → A.evals n
  again : A.loops test body update

section

variable {A : Access}

/-- The value of a node, one case for each kind of it. -/
theorem value_built {n : Node} (h : A.Covers n) : Built A Value fun e => e.value n := by
  cases n with
  | literal v => exact .pure v
  | identifier name => exact .identifier name
  | comment text => exact .pure _
  | declare name init => exact .declare h.1 h.2.1 h.2.2
  | assign name value =>
    refine .bind (.eval h.2) fun v => ?_
    exact .bind (.define h.1 v) fun _ => .pure v
  | array elements => exact .bind (.values h) fun vs => .pure _
  | assoc keys vals => exact .bind (.assoc? h.1 h.2) fun v => .pure _
  | index collection position =>
    refine .bind (.eval h.1) fun c => ?_
    exact .bind (.eval h.2) fun i => .ofOrderly (Value.itemAt_orderly c i)
  | indexAssign name position value => exact .indexAssign h.1 h.2.1 h.2.2
  | property object name =>
    show Built A Value fun e => Eval.property e.eval object name none
    exact .property h.1 (by simp) h.2
  | propertyCall object name =>
    show Built A Value fun e => Eval.property e.eval object name none
    exact .property h.1 (by simp) h.2
  | propertyWith object name arg =>
    exact .property h.1 (fun n hn => Option.some.inj hn ▸ h.2.1) h.2.2
  | filter collection item predicate => exact .filter h.1 h.2.1 h.2.2
  | binary left op right =>
    refine .bind (.eval h.1) fun a => ?_
    exact .bind (.eval h.2.1) fun b => .ofExcept (h.2.2 a b)
  | unary op operand => exact .unary h.2.1 h.1 h.2.2
  | comparison left op right =>
    refine .bind (.eval h.1) fun a => ?_
    refine .bind (.eval h.2.1) fun b => ?_
    exact .bind (.ofExcept (h.2.2 a b)) fun holds => .pure _
  | chain operands ops =>
    refine .truths_bind h.1 fun results hlen => ?_
    exact .bind (.ofExcept (h.2 results hlen)) fun holds => .pure _
  | function name params body => exact .bind (.defineFunc h) fun _ => .pure _
  | call name args => exact .call h
  | print vals =>
    refine .bind (.values h) fun vs => ?_
    exact .bind (.print _) fun _ => .pure _
  | fetch url => exact .bind (.eval h) fun v => .fetchFrom v
  | missing => exact .fail h
  | foreign kind => exact .fail h
  -- Statements in the place of an expression are run, and only their value is kept.
  | ifThen test body => exact .bind (.exec h) fun flow => .pure _
  | ifElse test body otherwise => exact .bind (.exec h) fun flow => .pure _
  | forLoop start test update body => exact .bind (.exec h) fun flow => .pure _
  | whileLoop test body => exact .bind (.exec h) fun flow => .pure _
  | forEach collection item body => exact .bind (.exec h) fun flow => .pure _
  | ret => exact .bind (.exec h) fun flow => .pure _
  | retWith value => exact .bind (.exec h) fun flow => .pure _

/-- Running a node as a statement, once it is counted. -/
theorem effect_built {n : Node} (h : A.CoversEffect n) : Built A Flow fun e => e.effect n := by
  cases n with
  | ret => exact .pure _
  | retWith value => exact .bind (.eval h) fun v => .pure _
  | ifThen test body =>
    refine .bind (.eval h.1) fun v => ?_
    split
    · exact .block h.2 _
    · exact .pure _
  | ifElse test body otherwise =>
    refine .bind (.eval h.1) fun v => ?_
    split
    · exact .block h.2.1 _
    · exact .block h.2.2 _
  | whileLoop test body => exact .loop h
  | forLoop start test update body => exact .bind (.eval h.1) fun _ => .loop h.2
  | forEach collection item body =>
    refine .bind (.eval h.1) fun v => ?_
    split
    · exact .forEach h.2.1 (.block h.2.2 _) _
    · exact .failOrdinary trivial
  -- Everything else is an expression.
  | _ => exact .bind (.eval h) fun v => .pure _

/-- What comes after a turn: the update, if there is one, and the next turn. -/
theorem proceed_built {test : Node} {body : List Node} {update : Option Node}
    (h : A.CoversTurn test body update) : Built A Flow fun e => e.proceed test body update := by
  unfold Evaluators.proceed
  split
  · next n => exact .bind (.eval (h.updates n rfl)) fun _ => .loop h.again
  · exact .loop h.again

/-- A turn of a loop and the turns after it. -/
theorem turn_built {test : Node} {body : List Node} {update : Option Node}
    (h : A.CoversTurn test body update) : Built A Flow fun e => e.turn test body update := by
  refine .bind (.eval h.tests) fun v => ?_
  split
  · refine .bind (.block h.runs _) fun flow => ?_
    -- The loop ends if its body returns, and goes on otherwise.
    cases flow with
    | returned v => exact .pure _
    | next v => exact proceed_built h
  · exact .pure _

end

end Mundart
