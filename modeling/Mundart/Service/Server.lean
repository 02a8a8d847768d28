import Mundart.Service.Endpoint
import Mundart.Service.Record
import Mundart.Service.Submission
import Mundart.Page.Dashboard
import Mundart.Page.Playground

/-!
# The server

The server answers requests from a store of scripts and starts runs in the background. A request is
a function of the server's state: `handle` gives the response and the state after it, `settle`
carries out the runs that were started. A response never waits for a run.

A bound on the evaluator's work goes through all functions that execute programs; they give nothing
when it was too small.
-/

namespace Mundart

namespace Server

/-- What holds for all requests. -/
structure Config where
  /-- The largest number of statements of a program. Zero stands for the usual bound, a negative
  number for none. -/
  maxSteps : Int := 0
  fetcher : Nat → Fetcher := fun _ => Fetcher.disabled
  /-- How submitted bodies are read that are neither JSON nor a plain form. -/
  decoder : Submission.Decoder := Submission.noDecoder
  /-- How many statements a background run has time for. -/
  runTime : Option Nat := none
  /-- How many statements a program in the playground has time for. -/
  playgroundTime : Option Nat := none
  /-- The random state that every program starts from. -/
  random : Random := Random.ofSeed 1 2

def defaultMaxSteps : Int := 1000000

/-- The settings of programs that come over the programming interface. -/
def Config.settings (c : Config) : Settings :=
  { maxSteps := if c.maxSteps = 0 then defaultMaxSteps else max 0 c.maxSteps, fetcher := c.fetcher }

/-- The settings of programs in the playground, where zero is no bound. -/
def Config.playgroundSettings (c : Config) : Settings :=
  { maxSteps := c.maxSteps, fetcher := c.fetcher }

def Config.machine (c : Config) : Machine := { random := c.random }

/-- A run in the background. -/
structure Job where
  /-- The script as it was when the run was started. -/
  script : Script
  run : Text
  cancelled : Bool := false

end Server

structure Server where
  store : Store := {}
  /-- The runs that were started and have not ended, in the order of their start. -/
  jobs : List Server.Job := []

namespace Server

open Http (Request Response)

/-! ### Errors as documents

A problem is told by a document with its code, its words and a message. The refusals of the store are among
them, each under the status that fits it. -/

/-- The words that go with a status in an error document. -/
inductive Problem where
  | invalidArgument | notFound | alreadyExists | failedPrecondition
  deriving DecidableEq, Repr

def Problem.status : Problem → Nat
  | .invalidArgument | .failedPrecondition => 400
  | .notFound => 404
  | .alreadyExists => 409

def Problem.name : Problem → Text
  | .invalidArgument => "INVALID_ARGUMENT"
  | .notFound => "NOT_FOUND"
  | .alreadyExists => "ALREADY_EXISTS"
  | .failedPrecondition => "FAILED_PRECONDITION"

def problem (p : Problem) (message : Text) : Response :=
  .ofJson (.object [("error", .object [("code", Json.ofNat p.status), ("message", .string message),
    ("status", .string p.name)])]) p.status

def refused (r : Store.Refusal) : Response :=
  match r with
  | .scriptMissing _ | .runMissing _ => problem .notFound r.message
  | .scriptExists _ => problem .alreadyExists r.message
  | .runFinished _ _ => problem .failedPrecondition r.message

def badBody (d : Submission.Defect) : Response :=
  problem .invalidArgument ("invalid request body: " ++ d.message)

/-- The answer to an operation that only reads. -/
def reading {α : Type} (x : Except Store.Refusal α) (encode : α → Response) : Response :=
  match x with
  | .ok a => encode a
  | .error r => refused r

/-- The answer to an operation that can change the store, and the server with the store that it leaves. -/
def changing {α : Type} (s : Server) (x : Except Store.Refusal α × Store) (encode : α → Response) :
    Response × Server :=
  (reading x.1 encode, { s with store := x.2 })

/-! ### Programs

A program is run for its answer alone. The server does not change, and the answer fails where its value has
no text in JSON. -/

/-- Runs a submitted program and tells what it did. -/
def eval (fuel : Nat) (c : Config) (r : Request) : Option Response :=
  match Submission.read c.decoder [.source] r with
  | .error d => some (badBody d)
  | .ok submission =>
    (execute fuel c.settings submission.source c.machine).map fun (e, _) =>
      match e.error with
      | some ⟨some .syntaxFailure, message, _⟩ => problem .invalidArgument message
      | _ =>
        match e.toJson with
        | .ok document => .ofJson document 200
        | .error x => .plain 500 ("json: unsupported value: " ++ Double.display x)

/-! ### Scripts

A request is checked before the store is asked, and the store may refuse what has passed the checks. -/

/-- Why a source is not saved, if it is no program. -/
def sourceProblem? (source : Text) : Option Response :=
  match Program.parse source with
  | .ok _ => none
  | .error e => some (problem .invalidArgument ("invalid script: " ++ e.message))

def createScript (c : Config) (s : Server) (r : Request) (stamp : Stamp) : Response × Server :=
  let id := Http.fieldValue "scriptId" r.query
  if id.isEmpty then (problem .invalidArgument "scriptId query parameter is required", s)
  else if !Script.validId id then
    (problem .invalidArgument ("invalid scriptId " ++ id.quoted), s)
  else
    match Submission.read c.decoder [.source, .description] r with
    | .error d => (badBody d, s)
    | .ok submission =>
      if (Text.trim submission.source).isEmpty then
        (problem .invalidArgument "source is required", s)
      else
        match sourceProblem? submission.source with
        | some response => (response, s)
        | none =>
          s.changing (s.store.createScript id submission.source submission.description stamp)
            fun script => .ofJson script.toJson 200

def updateScript (c : Config) (s : Server) (id : Text) (r : Request) (stamp : Stamp) : Response × Server :=
  match Submission.read c.decoder [.source, .description] r with
  | .error d => (badBody d, s)
  | .ok submission =>
    let bad := if submission.source.isEmpty then none else sourceProblem? submission.source
    match bad with
    | some response => (response, s)
    | none =>
      s.changing (s.store.updateScript id submission.source submission.description stamp)
        fun script => .ofJson script.toJson 200

def deleteScript (s : Server) (id : Text) : Response × Server :=
  s.changing (s.store.deleteScript id) fun _ =>
    .ofJson (.object [("deleted", .bool true), ("id", .string id)]) 200

/-! ### Runs

A run is answered as soon as it is recorded. It is executed later, from the source that was found when it
was started. -/

/-- Records a run and starts it in the background. -/
def createRun (s : Server) (script : Text) (stamp : Stamp) : Response × Server :=
  match s.store.getScript script with
  | .error r => (refused r, s)
  | .ok found =>
    match s.store.createRun script stamp with
    | (.error r, store) => (refused r, { s with store := store })
    | (.ok run, store) =>
      (.ofJson run.toJson 200, { store := store, jobs := s.jobs ++ [⟨found, run.id, false⟩] })

/-- Tells a background run to stop. -/
def Job.cancelIf (run : Text) (j : Job) : Job := if j.run = run then { j with cancelled := true } else j

/-- Records the cancellation of a run and tells it to stop. -/
def cancelRun (s : Server) (script run : Text) (now : Instant) : Response × Server :=
  match s.store.finishRun script run .cancelled now with
  | (.error r, store) => (refused r, { s with store := store })
  | (.ok _, store) =>
    (reading (store.getRun script run) fun run => .ofJson run.toJson 200,
      { store := store, jobs := s.jobs.map (Job.cancelIf run) })

/-- Carries out a background run and records how it ended; a run that was finished or removed
meanwhile stays as it is. -/
def Job.perform (fuel : Nat) (c : Config) (now : Instant) (store : Store) (j : Job) : Option Store :=
  let machine :=
    { c.machine with interruption := if j.cancelled then some .cancelled else none }
  (executeWithin fuel c.runTime c.settings j.script.source machine).map fun (e, _) =>
    (store.finishRun j.script.id j.run e.ending now).2

/-- Carries out all background runs. -/
def settle (fuel : Nat) (c : Config) (now : Instant) (s : Server) : Option Server :=
  (s.jobs.foldlM (Job.perform fuel c now) s.store).map fun store => { store := store, jobs := [] }

/-! ### Pages

Pages show the store, and the playground runs the program of its form. -/

def scriptPage (s : Server) (id : Text) (now : Instant) : Response :=
  match s.store.getScript id, s.store.listRuns id with
  | .ok script, .ok runs => .page (Page.scriptDetail script runs now) 200
  | _, _ => .page (Page.notFound ("Script '" ++ id ++ "' not found")) 404

def runPage (s : Server) (script run : Text) (now : Instant) : Response :=
  match s.store.getRun script run, s.store.getScript script with
  | .ok run, .ok script => .page (Page.runDetail script run now) 200
  | .ok _, .error _ => .page (Page.notFound ("Script '" ++ script ++ "' not found")) 404
  | .error _, _ => .page (Page.notFound ("Run '" ++ run ++ "' not found")) 404

/-- Runs the program of the playground's form. -/
def tryProgram (fuel : Nat) (c : Config) (r : Request) : Option Response :=
  let source := r.formValue "source"
  (executeWithin fuel c.playgroundTime c.playgroundSettings source c.machine).map fun (e, _) =>
    .page (Page.playground source (some e)) 200

/-! ### Requests

The endpoint is found by method and path. A path that is only known under other methods is told apart from
one that is not known at all. -/

/-- Answers a request for an endpoint. -/
def answer (fuel : Nat) (c : Config) (stamp : Stamp) (s : Server) (r : Request) :
    Endpoint → Option (Response × Server)
  | .eval => (eval fuel c r).map (·, s)
  | .createScript => some (s.createScript c r stamp)
  | .listScripts =>
    some (.ofJson (.object [("scripts", .array (s.store.listScripts.map Script.toJson))]) 200, s)
  | .getScript id =>
    some (reading (s.store.getScript id) fun script => .ofJson script.toJson 200, s)
  | .updateScript id => some (s.updateScript c id r stamp)
  | .deleteScript id => some (s.deleteScript id)
  | .createRun script => some (s.createRun script stamp)
  | .listRuns script =>
    some (reading (s.store.listRuns script) fun runs =>
      .ofJson (.object [("runs", .array (runs.map Run.toJson))]) 200, s)
  | .getRun script run =>
    some (reading (s.store.getRun script run) fun run => .ofJson run.toJson 200, s)
  | .cancelRun script run => some (s.cancelRun script run stamp.time)
  | .dashboard => some (.page (Page.dashboard s.store stamp.time) 200, s)
  | .scriptPage id => some (s.scriptPage id stamp.time, s)
  | .runPage script run => some (s.runPage script run stamp.time, s)
  | .playground => some (.page (Page.playground (r.formValue "source") none) 200, s)
  | .tryProgram => (tryProgram fuel c r).map (·, s)
  | .home => some (.redirect "/ui", s)

/-- A path in an error text. -/
def shownPath (path : Text) : Text :=
  path.flatMap fun b => if b == ascii '+' || b == 0 then [b] else Page.escapeByte b

/-- Answers a request. -/
def handle (fuel : Nat) (c : Config) (stamp : Stamp) (s : Server) (r : Request) :
    Option (Response × Server) :=
  match Endpoint.Method.ofName? r.method with
  | none => some (.plain 400 "Invalid http method", s)
  | some method =>
    let reply : Option (Response × Server) :=
      match Endpoint.find? method r.path with
      | some endpoint => answer fuel c stamp s r endpoint
      | none =>
        if Endpoint.existsAt r.path then some (.plain 405 "Method Not Allowed", s)
        else some (.plain 404 ("Cannot " ++ r.method ++ " " ++ shownPath r.path), s)
    if method = .head then reply.map fun (response, s) => (response.withoutBody, s) else reply

/-! ### Folders

At the start the server takes in the programs of a folder. Files that hold no program, or whose names are no
ids, are passed over. -/

/-- The lower-case form of a character, as far as it can be part of a script's id. -/
def lowerChar (c : Char) : Char :=
  if c = '\u212a' then 'k' else if c = '\u0130' then 'i' else c.toLower

/-- The id of the script in a file, if the file's name ends like a program's. -/
def scriptIdOf? (file : Text) : Option Text :=
  if (utf8 ".oida").isSuffixOf file then
    some (Text.ofChars ((Text.chars (Text.dropEnding ".oida" file)).map lowerChar))
  else none

/-- Saves one file of a folder, if it holds a program under a name that can be an id and is free. -/
def loadFile (stamp : Stamp) (state : Store × Nat) (file : Text × Option Text) : Store × Nat :=
  match scriptIdOf? file.1, file.2 with
  | some id, some source =>
    if Script.validId id && (Program.parse source).isOk then
      match state.1.createScript id source [] stamp with
      | (.ok _, store) => (store, state.2 + 1)
      | (.error _, store) => (store, state.2)
    else state
  | _, _ => state

/-- Saves the programs of a folder, in the order of the files' names, and counts them. A folder in it
has no content. -/
def loadFolder (s : Server) (files : List (Text × Option Text)) (stamp : Stamp) : Nat × Server :=
  let (store, count) := (Dict.byKey files).foldl (loadFile stamp) (s.store, 0)
  (count, { s with store := store })

end Server

end Mundart
