import Mundart.Command.Basic
import Mundart.Command.Repl
import Mundart.Outline.Yaml

/-!
# What commands do

A command is a function of what it sees of its surroundings: `perform` gives everything that it
writes. Programs run under a bound on the evaluator's work, and nothing is told about a command whose
bound was too small.
-/

namespace Mundart.Command

/-- Why a file cannot be read. -/
inductive FileTrouble where
  | missing
  | isFolder
  | other (cause : Text)
  deriving DecidableEq, Repr

def FileTrouble.message (name : Text) : FileTrouble → Text
  | .missing => "open " ++ name ++ ": no such file or directory"
  | .isFolder => "read " ++ name ++ ": is a directory"
  | .other cause => "open " ++ name ++ ": " ++ cause

/-- The surroundings of a command. -/
structure Host where
  /-- The variables of the environment, empty where they are not set. -/
  env : Text → Text := fun _ => []
  file : Text → Except FileTrouble Text := fun _ => .error .missing
  input : Text := []
  /-- The file of the history of interactive sessions, empty if there is none. -/
  history : Text := []
  network : Fetch.Network := fun _ => .failed "no route"
  random : Random := Random.ofSeed 1 2

/-- What a command leaves behind. -/
structure Outcome where
  output : Text := []
  notes : List Log.Note := []
  exit : Nat := 0
  /-- The new file of the history, after an interactive session. -/
  history : Option Text := none

/-- A command that failed and only tells why. -/
def Outcome.failed (message : Text) : Outcome := { notes := [.told message], exit := 1 }

/-- The error stream of a command, with the records stamped by a time. -/
def Outcome.errorText (stamp elapsed : Text) (o : Outcome) : Text :=
  o.notes.flatMap (Log.Note.text stamp elapsed)

/-- The version of the program. -/
def versionText : Text := program ++ " version dev (commit=unknown, built=unknown)\n"

/-- The variable that gives the threshold of the log. -/
def thresholdVariable : Text := "OIDA_LOG_LEVEL"

/-- The threshold that a text names. -/
def readThreshold (text : Text) : Except Misuse Log.Threshold :=
  match Log.Threshold.read? text with
  | some t => .ok t
  | none => .error (.badThreshold text)

/-- The threshold of the log: the flag's, else the environment's, else warnings. -/
def threshold (env : Text → Text) (flag : Text) : Except Misuse Log.Threshold :=
  readThreshold (if flag.isEmpty then Setup.variableOr env thresholdVariable "warn" else flag)

namespace Host

def machine (h : Host) : Machine := { random := h.random }

/-- The text of a program, from a file or, for a hyphen, from the input. -/
def source (h : Host) (name : Text) : Except Text Text :=
  if name == utf8 "-" then .ok h.input
  else (h.file name).mapError fun trouble => "reading program: " ++ trouble.message name

/-- The settings of a program that may fetch. -/
def settings (h : Host) (maxSteps : Int) (timeout : Span) : Settings :=
  { maxSteps := maxSteps, fetcher := fun _ => Fetcher.http h.network timeout }

end Host

/-- The last record about a run. -/
def finishedNote (r : Result) : Log.Note :=
  .logged ⟨.debug, "program finished", [("steps", .text (Text.ofNat r.steps)),
    ("diagnostics", .text (Text.ofNat r.failures.length)), ("duration", .elapsed)]⟩

/-- Runs a program. A step limit was told like every other failure, so it only shows in the exit
code. -/
def runSource (fuel : Nat) (s : Settings) (m : Machine) (source : Text) : Option Outcome :=
  (Session.eval fuel s source m).map fun (answer, after) =>
    let notes := after.notesSince m.events.length
    match answer with
    | .error e => { notes := notes ++ [.told e.message], exit := 1 }
    | .ok r =>
      let notes := notes ++ [finishedNote r]
      match r.stop with
      | none => { output := r.output, notes := notes }
      | some (.stepLimit _) => { output := r.output, notes := notes, exit := 1 }
      | some (.cancelled cause) =>
        { output := r.output, exit := 1
          notes := notes ++ [.told (Stop.cancelled cause).report.message] }

/-- The listing of tokens, one on a line. -/
def tokenListing (source : Text) : Text :=
  (Token.scan source).flatMap fun t => t.line ++ "\n"

/-- The outline of a program in a format. -/
def outline (format source : Text) : Except Text Text :=
  match Program.parse source with
  | .error e => .error e.message
  | .ok p => (Outline.write format (Outline.ofProgram p)).mapError Outline.WriteError.message

def Outcome.ofExcept : Except Text Text → Outcome
  | .ok output => { output := output }
  | .error message => .failed message

/-- An interactive session over the whole input. -/
def converse (fuel : Nat) (h : Host) : Option Outcome :=
  let start : Repl := { machine := h.machine, history := Repl.readHistory h.history }
  let lines := (Text.lines h.input).map Text.Line.content
  (start.converse fuel (h.settings 0 Fetch.defaultTimeout) lines).map fun a =>
    { output := Repl.banner ++ a.output, notes := a.notes, history := some a.repl.historyText }

/-- Does a task. There is no place to listen at, so a server with a good setup cannot start. -/
def Task.perform (fuel : Nat) (h : Host) : Task → Option Outcome
  | .run file maxSteps timeout =>
    match h.source file with
    | .error message => some (.failed message)
    | .ok source => runSource fuel (h.settings maxSteps.toInt timeout) h.machine source
  | .tokens file => some (.ofExcept ((h.source file).map tokenListing))
  | .ast file format => some (.ofExcept ((h.source file).bind (outline format)))
  | .repl => converse fuel h
  | .serve a =>
    match Setup.resolve h.env a with
    | .error defect => some (.failed defect.message)
    | .ok setup => some (.failed ("listen " ++ setup.address ++ ": no network"))

/-- Carries out a command line. -/
def perform (fuel : Nat) (h : Host) (args : List Text) : Option Outcome :=
  match Request.read args with
  | .error misuse => some (.failed misuse.message)
  | .ok .help => some {}
  | .ok .version => some { output := versionText }
  | .ok (.perform flag task) =>
    match threshold h.env flag with
    | .error misuse => some (.failed misuse.message)
    | .ok t =>
      (task.perform fuel h).map fun o => { o with notes := o.notes.filter (·.shownUnder t) }

end Mundart.Command
