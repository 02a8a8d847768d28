import Mundart.Run.Eval
import Mundart.Node.Statement

/-!
# Runs and sessions

A program runs statement by statement. A failure ends only the statement it happens in: it is
recorded and the next statement follows. Three things end a run early: a `speicher` on the top
level, the step limit, and a cancellation from outside.

A session keeps its machine from one source to the next: variables, functions and the random state
stay, the counters start anew.
-/

namespace Mundart

/-- What stops a run before its end. -/
inductive Stop where
  | stepLimit (max : Int)
  | cancelled (cause : Interruption)
  deriving DecidableEq, Repr

def Stop.report : Stop → Report
  | .stepLimit max => (Failure.stepLimit max).report
  | .cancelled cause => ((Failure.interrupted cause).report).within "run cancelled: "

/-- What a run leaves behind besides its machine. -/
structure Result where
  /-- The failures of single statements, in order. -/
  failures : List Failure := []
  /-- Whether a `speicher` on the top level ended the program. -/
  returned : Bool := false
  /-- The value of the last statement that was done, or of that `speicher`. -/
  value : Value := .absent
  stop : Option Stop := none
  steps : Nat := 0
  output : Text := []

def Result.diagnostics (r : Result) : List Text := r.failures.map Failure.message

/-- A recorded failure on the error stream. -/
def failureLine (message : Text) : Text := "Fehler: " ++ message ++ "\n"

namespace Machine

/-- The machine for the next source of a session. -/
def restart (m : Machine) : Machine := { m with steps := 0, depth := 0 }

/-- What was printed after the first `n` writes. -/
def outputSince (m : Machine) (n : Nat) : Text :=
  (m.printed.take (m.printed.length - n)).reverse.flatten

end Machine

/-- Runs the statements of a program, adding to a result (whose failures stand last first). None if
the bound was too small. -/
def runStatements (fuel : Nat) (s : Settings) : Program → Result → Machine → Option (Result × Machine)
  | [], r, m => some (r, m)
  | n :: ns, r, m =>
    match m.interruption with
    | some cause => some ({ r with stop := some (.cancelled cause) }, m)
    | none =>
      match exec fuel n s m with
      | .starved => none
      | .done (.next v) m => runStatements fuel s ns { r with value := v } m
      | .done (.returned v) m => some ({ r with value := v, returned := true }, m)
      | .failed f m =>
        match f with
        | .interrupted cause => some ({ r with stop := some (.cancelled cause) }, m)
        | f =>
          let r := { r with failures := f :: r.failures }
          let m := { m with events := .failed n.kind f :: m.events }
          match f with
          | .stepLimit max => some ({ r with stop := some (.stepLimit max) }, m)
          | _ => runStatements fuel s ns r m

/-- Runs a program on a machine. -/
def runProgram (fuel : Nat) (s : Settings) (program : Program) (m : Machine) :
    Option (Result × Machine) :=
  let start := m.restart
  (runStatements fuel s program {} start).map fun (r, m) =>
    ({ r with failures := r.failures.reverse, steps := m.steps
              output := m.outputSince start.printed.length }, m)

namespace Session

/-- Reads and runs a source in a session. A source that is no program changes nothing. -/
def eval (fuel : Nat) (s : Settings) (source : Text) (m : Machine) :
    Option (Except SyntaxError Result × Machine) :=
  match Program.parse source with
  | .error e => some (.error e, { m with events := .unreadable e :: m.events })
  | .ok program => (runProgram fuel s program m).map fun (r, m) => (.ok r, m)

/-- The value of a single node in the session's scope, with counters of its own. -/
def evalNode (fuel : Nat) (s : Settings) (node : Node) (m : Machine) :
    Option (Except Failure Value × Machine) :=
  match Mundart.eval fuel node s m.restart with
  | .starved => none
  | .done v m => some (.ok v, m)
  | .failed f m => some (.error f, m)

end Session

/-- A whole run with its output, as the hosting surfaces use it. -/
structure Execution where
  output : Text
  diagnostics : List Text
  steps : Nat
  value : Value
  /-- A syntax error, a step limit or a cancellation. -/
  error : Option Report

def Execution.ofAnswer : Except SyntaxError Result → Execution
  | .error e => ⟨[], [], 0, .absent, some (Failure.badSyntax e).report⟩
  | .ok r => ⟨r.output, r.diagnostics, r.steps, r.value, r.stop.map Stop.report⟩

/-- Runs a source on a machine. The output is kept in memory, so it is never full. -/
def execute (fuel : Nat) (s : Settings) (source : Text) (m : Machine) :
    Option (Execution × Machine) :=
  (Session.eval fuel { s with writeLimit := none } source m).map fun (answer, m) =>
    (Execution.ofAnswer answer, m)

/-- What is told about a run whose bound on statements was the time it had: it was cancelled at its
deadline, and the bound itself is not told. -/
def Execution.outOfTime (e : Execution) : Execution :=
  match e.error with
  | some r =>
    if r.kind = some .stepLimit then
      { e with diagnostics := e.diagnostics.dropLast, error := some (Stop.cancelled .deadline).report }
    else e
  | none => e

/-- Runs a source that has time for so many statements, if its time is limited at all. -/
def executeWithin (fuel : Nat) (time : Option Nat) (s : Settings) (source : Text) (m : Machine) :
    Option (Execution × Machine) :=
  match time with
  | none => execute fuel s source m
  | some n =>
    if 0 < s.maxSteps && s.maxSteps ≤ n then execute fuel s source m
    else
      (execute fuel { s with maxSteps := (max 1 n : Nat) } source m).map fun (e, m) =>
        (e.outOfTime, m)

end Mundart
