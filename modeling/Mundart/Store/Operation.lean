import Mundart.Store.Basic

/-!
# The store

The store keeps the scripts and, under the id of each script, its runs. An operation that can change the
store is answered or refused, and in both cases it leaves a store behind: that a refused operation has
changed nothing is not part of its type. What an operation takes from outside, the time and a fresh name, is
handed to it as a `Stamp`.
-/

namespace Mundart

/-- What the clock and the source of fresh names give to an operation. -/
structure Stamp where
  time : Instant
  token : Text
  deriving DecidableEq, Repr

structure Store where
  scripts : Dict Script := []
  /-- The runs of every script by their ids, under the id of the script. -/
  runs : Dict (Dict Run) := []
  /-- How many revisions were handed out. -/
  revisions : Nat := 0
  deriving DecidableEq, Repr

namespace Store

/-- Why an operation is refused. -/
inductive Refusal where
  | scriptMissing (id : Text)
  | runMissing (id : Text)
  | scriptExists (id : Text)
  | runFinished (id : Text) (state : Run.State)
  deriving DecidableEq, Repr

def Refusal.message : Refusal → Text
  | .scriptMissing id => "script '" ++ id ++ "': not found"
  | .runMissing id => "run '" ++ id ++ "': not found"
  | .scriptExists id => "script '" ++ id ++ "': already exists"
  | .runFinished id state => "run '" ++ id ++ "' is " ++ state.name ++ ": not active"

/-! ### Scripts

Every change of a script takes the next revision. A script and the shelf of its runs come and go together.
-/

/-- The revision of the next change. -/
def nextRevision (s : Store) (stamp : Stamp) : Revision := ⟨s.revisions + 1, stamp.token.take 3⟩

/-- Saves a new script. -/
def createScript (s : Store) (id source description : Text) (stamp : Stamp) :
    Except Refusal Script × Store :=
  if s.scripts.has id then (.error (.scriptExists id), s)
  else
    let script : Script :=
      { id := id, source := source, description := description, revision := s.nextRevision stamp
        created := stamp.time, updated := stamp.time }
    (.ok script, { scripts := s.scripts.set id script, runs := s.runs.set id []
                   revisions := s.revisions + 1 })

def getScript (s : Store) (id : Text) : Except Refusal Script :=
  match s.scripts.get? id with
  | some script => .ok script
  | none => .error (.scriptMissing id)

/-- All scripts in the order of their ids. -/
def listScripts (s : Store) : List Script := s.scripts.byKey.values

/-- Changes a script; an empty source or description keeps the old one. -/
def updateScript (s : Store) (id source description : Text) (stamp : Stamp) :
    Except Refusal Script × Store :=
  match s.getScript id with
  | .error r => (.error r, s)
  | .ok old =>
    let script : Script :=
      { old with
        source := if source.isEmpty then old.source else source
        description := if description.isEmpty then old.description else description
        revision := s.nextRevision stamp
        updated := stamp.time }
    (.ok script, { s with scripts := s.scripts.set id script, revisions := s.revisions + 1 })

/-- Removes a script and its runs. -/
def deleteScript (s : Store) (id : Text) : Except Refusal Unit × Store :=
  match s.getScript id with
  | .error r => (.error r, s)
  | .ok _ => (.ok (), { s with scripts := s.scripts.erase id, runs := s.runs.erase id })

/-! ### Runs

A run belongs to its script and shows the revision of the script at its start. It is active until it is
finished, once. -/

/-- Starts a run of the script's current revision. -/
def createRun (s : Store) (script : Text) (stamp : Stamp) : Except Refusal Run × Store :=
  match s.getScript script with
  | .error r => (.error r, s)
  | .ok owner =>
    let run : Run :=
      { id := stamp.token, script := script, revision := owner.revision, started := stamp.time }
    let shelf := (s.runs.get? script).getD []
    (.ok run, { s with runs := s.runs.set script (shelf.set run.id run) })

def getRun (s : Store) (script id : Text) : Except Refusal Run :=
  match s.runs.get? script with
  | none => .error (.scriptMissing script)
  | some shelf =>
    match shelf.get? id with
    | some run => .ok run
    | none => .error (.runMissing id)

/-- Runs with the latest start first. -/
def newestFirst (runs : List Run) : List Run := runs.mergeSort fun a b => b.started ≤ a.started

/-- The runs of a script, the newest first. -/
def listRuns (s : Store) (script : Text) : Except Refusal (List Run) :=
  match s.runs.get? script with
  | none => .error (.scriptMissing script)
  | some shelf => .ok (newestFirst shelf.values)

/-- The newest runs of all scripts; a limit that is not positive is none. -/
def recentRuns (s : Store) (limit : Int) : List Run :=
  let all := newestFirst (s.runs.values.flatMap Dict.values)
  if 0 < limit then all.take limit.toNat else all

/-- Finishes an active run. -/
def finishRun (s : Store) (script id : Text) (ending : Run.Ending) (now : Instant) :
    Except Refusal Unit × Store :=
  match s.getRun script id with
  | .error r => (.error r, s)
  | .ok run =>
    if run.finished then (.error (.runFinished id run.state), s)
    else
      let shelf := (s.runs.get? script).getD []
      (.ok (), { s with runs := s.runs.set script (shelf.set id (run.finish ending now)) })

end Store

end Mundart
