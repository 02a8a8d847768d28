import Mundart.Scope
import Mundart.Method

/-!
# Actions of a running program

A running program reads its settings and changes the state of its machine: the scope, the counters,
what was printed, the random state. An action ends in one of three ways: it is done with a value, it
failed, or it was starved, which means that the bound given to the evaluator was too small to tell.
Whatever was changed before a failure stays changed.
-/

namespace Mundart

/-- What a fetch comes back with. It may also tell that the run was cancelled meanwhile. -/
structure Fetched where
  result : Except Failure Value
  cancels : Bool := false

/-- Answers a fetch of an address. -/
abbrev Fetcher := Text → Fetched

/-- The fetcher of a place without network access. -/
def Fetcher.disabled : Fetcher := fun url =>
  { result := .error (.fetch 0 ("holma is deaktiviert (" ++ url ++ ")")) }

/-- What bounds a run and how it reaches the outside. -/
structure Settings where
  /-- The largest number of statements, no bound if it is not positive. -/
  maxSteps : Int := 0
  /-- The largest number of active calls. -/
  maxDepth : Nat := 1000
  /-- Who answers a fetch, given how many fetches came before it: the outside may answer for the same
  address now this way and now that way. -/
  fetcher : Nat → Fetcher := fun _ => Fetcher.disabled
  /-- How many writes work before the output is full. -/
  writeLimit : Option Nat := none

/-- What a run notes besides its output, in the order it happens. -/
inductive Event where
  /-- A statement of some kind failed and the program went on. -/
  | failed (node : Text) (failure : Failure)
  /-- A declaration bound nothing, because its keys and values do not pair up. -/
  | unpaired (name : Text) (keys values : Nat)
  | fetching (url : Text)
  | fetchFailed (url : Text) (failure : Failure)
  /-- The source was no program. -/
  | unreadable (error : SyntaxError)

structure Machine where
  scope : Scope := Scope.root
  steps : Nat := 0
  depth : Nat := 0
  /-- What was printed, one text per write, the last one first. -/
  printed : List Text := []
  /-- What was noted, the last one first. -/
  events : List Event := []
  random : Random := Random.ofSeed 1 2
  /-- How many fetches there were. -/
  fetches : Nat := 0
  interruption : Option Interruption := none

namespace Machine

/-- The machine inside a new frame on top of the scope, with one more active call. -/
def enter (m : Machine) (frame : Frame) : Machine :=
  { m with scope := frame :: m.scope, depth := m.depth + 1 }

/-- The machine without the innermost frame and its call. -/
def leave (m : Machine) : Machine := { m with scope := m.scope.tail, depth := m.depth - 1 }

end Machine

/-- How an action ends. -/
inductive Outcome (α : Type) where
  | done (a : α) (m : Machine)
  | failed (f : Failure) (m : Machine)
  | starved

def Action (α : Type) : Type := Settings → Machine → Outcome α

namespace Action

variable {α β : Type}

@[inline] protected def pure (a : α) : Action α := fun _ m => .done a m

@[inline] protected def bind (x : Action α) (f : α → Action β) : Action β := fun s m =>
  match x s m with
  | .done a m => f a s m
  | .failed e m => .failed e m
  | .starved => .starved

instance : Monad Action where
  pure := Action.pure
  bind := Action.bind

/-- The bound was too small. -/
def starve : Action α := fun _ _ => .starved

def fail (f : Failure) : Action α := fun _ m => .failed f m

def ofExcept (x : Except Failure α) : Action α := fun _ m =>
  match x with
  | .ok a => .done a m
  | .error f => .failed f m

def settings : Action Settings := fun s m => .done s m

def machine : Action Machine := fun _ m => .done m m

def modify (change : Machine → Machine) : Action Unit := fun _ m => .done () (change m)

/-! ### Names

Names are looked up in the whole scope and bound in its innermost frame. -/

def scope : Action Scope := fun _ m => .done m.scope m

/-- The function that a name means. -/
def function (name : Text) : Action Function := do
  ofExcept ((← scope).getFunc name)

/-- Binds a variable in the innermost frame. -/
def define (name : Text) (v : Value) : Action Unit :=
  modify fun m => { m with scope := m.scope.defineVar name v }

def defineFunc (fn : Function) : Action Unit :=
  modify fun m => { m with scope := m.scope.defineFunc fn }

/-- Runs an action in a new frame on top of the scope, as an active call. The frame and the call are
gone afterwards, however the action ends. -/
def inFrame (frame : Frame) (x : Action α) : Action α := fun s m =>
  match x s (m.enter frame) with
  | .done a m => .done a m.leave
  | .failed f m => .failed f m.leave
  | .starved => .starved

/-! ### Effects

What a program does besides computing: it counts, prints, notes, fetches and draws random numbers. Each of
these changes the machine also where it fails. -/

/-- Counts a statement. It fails at the bound, and once the run was stopped from outside. -/
def tick : Action Unit := fun s m =>
  let m := { m with steps := m.steps + 1 }
  if 0 < s.maxSteps && s.maxSteps < m.steps then .failed (.stepLimit s.maxSteps) m
  else
    match m.interruption with
    | some cause => .failed (.interrupted cause) m
    | none => .done () m

/-- Prints one text, if the output still takes it. -/
def print (t : Text) : Action Unit := fun s m =>
  let full : Bool := match s.writeLimit with
    | some limit => decide (limit ≤ m.printed.length)
    | none => false
  if full then .failed (.output "disk full") m else .done () { m with printed := t :: m.printed }

def note (e : Event) : Action Unit := modify fun m => { m with events := e :: m.events }

/-- Fetches an address. A cancellation during the fetch takes hold at the next statement. -/
def fetch (url : Text) : Action Value := fun s m =>
  let reply := s.fetcher m.fetches url
  let interruption := if reply.cancels then m.interruption <|> some .cancelled else m.interruption
  let m := { m with events := .fetching url :: m.events, fetches := m.fetches + 1
                    interruption := interruption }
  match reply.result with
  | .ok v => .done v m
  | .error f => .failed f { m with events := .fetchFailed url f :: m.events }

/-- Calls a method with the machine's random state. -/
def invoke (method : Method) (receiver : Value) (arg : Option Value) : Action Value := fun _ m =>
  let (result, random) := method.invoke receiver arg m.random
  let m := { m with random := random }
  match result with
  | .ok v => .done v m
  | .error f => .failed f m

end Action

end Mundart
