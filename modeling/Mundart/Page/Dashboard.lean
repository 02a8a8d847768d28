import Mundart.Page.Basic
import Mundart.Store.Operation

/-!
# The pages about scripts and runs

The dashboard lists all scripts and the newest runs; a script and a run have a page each. The ids of
scripts are lower-case words, so they stand in addresses and in the page's program as they are.
-/

namespace Mundart.Page

/-- How many runs the dashboard shows. -/
def recentLimit : Int := 10

def countState (state : Run.State) (runs : List Run) : Nat := runs.countP fun r => r.state = state

/-- One card with a number. -/
def card (state : Run.State) (label : String) (runs : List Run) : Text :=
  "  <div class=\"card\"><div class=\"num " ++ stateClass state ++ "\">"
    ++ Text.ofNat (countState state runs) ++ "</div>" ++ utf8 label ++ "</div>\n"

def scriptRow (now : Instant) (script : Script) (runs : List Run) : Text :=
  let active := countState .active runs
  let note : Text := if active = 0 then [] else " (" ++ Text.ofNat active ++ " active)"
  "\n  <tr>\n    <td>" ++ scriptLink script.id ++ "</td>\n    <td>"
    ++ escape (truncate script.description 60) ++ "</td>\n    <td>"
    ++ Text.ofNat (countLines script.source) ++ "</td>\n    <td>"
    ++ Text.ofNat runs.length ++ note ++ "</td>\n    <td>"
    ++ (Span.between script.updated now).agoText ++ "</td>\n  </tr>\n  "

def recentRow (now : Instant) (r : Run) : Text :=
  "\n  <tr>\n    <td class=\"" ++ stateClass r.state ++ "\">" ++ stateIcon (some r.state)
    ++ "</td>\n    <td>" ++ runLink r ++ "</td>\n    <td>" ++ scriptLink r.script
    ++ "</td>\n    <td>" ++ (Span.between r.started now).agoText ++ "</td>\n    <td>"
    ++ durationText now r.started r.ended ++ "</td>\n  </tr>\n  "

def scriptTable (rows : Text) : Text :=
  "\n<table>\n  <tr><th>ID</th><th>Description</th><th>Lines</th><th>Runs</th><th>Updated</th></tr>\n  "
    ++ rows ++ "\n</table>\n"

def recentTable (rows : Text) : Text :=
  "\n<table>\n  <tr><th></th><th>Run</th><th>Script</th><th>Started</th><th>Duration</th></tr>\n  "
    ++ rows ++ "\n</table>\n"

/-- The runs of a script that is there. -/
def runsOf (s : Store) (script : Script) : List Run :=
  match s.listRuns script.id with
  | .ok runs => runs
  | .error _ => []

/-- The page of all scripts and the newest runs. -/
def dashboard (s : Store) (now : Instant) : Text :=
  let scripts := s.listScripts
  let runs := scripts.flatMap (runsOf s)
  let recent := s.recentRuns recentLimit
  layout (some .dashboard)
    ("\n<h1>Dashboard</h1>\n<div class=\"cards\">\n"
    ++ card .active "Active" runs ++ card .succeeded "Succeeded" runs
    ++ card .failed "Failed" runs ++ card .cancelled "Cancelled" runs
    ++ "</div>\n\n<h2>Scripts</h2>\n"
    ++ (if scripts.isEmpty then
          utf8 "\n<p class=\"empty\">No scripts deployed. Create one with POST /v1/scripts?scriptId=NAME.</p>\n"
        else scriptTable (scripts.flatMap fun script => scriptRow now script (runsOf s script)))
    ++ "\n\n<h2>Recent runs</h2>\n"
    ++ (if recent.isEmpty then utf8 "\n<p class=\"empty\">No runs yet.</p>\n"
        else recentTable (recent.flatMap (recentRow now)))
    ++ "\n")

def runRow (now : Instant) (r : Run) : Text :=
  "\n  <tr>\n    <td class=\"" ++ stateClass r.state ++ "\">" ++ stateIcon (some r.state)
    ++ "</td>\n    <td>" ++ runLink r ++ "</td>\n    <td class=\"" ++ stateClass r.state ++ "\">"
    ++ r.state.name ++ "</td>\n    <td>" ++ Instant.text r.started ++ "</td>\n    <td>"
    ++ durationText now r.started r.ended ++ "</td>\n    <td>" ++ escape r.revision.text
    ++ "</td>\n  </tr>\n  "

/-- The program of a script's page, which starts a run and goes to its page. -/
def runButton (id : Text) : Text :=
  "<button id=\"run-button\">Start run</button>\n<script>\n"
  ++ "document.getElementById(\"run-button\").addEventListener(\"click\", function () \x7b\n"
  ++ "  fetch(\"/v1/scripts/" ++ id ++ "/runs\", \x7bmethod: \"POST\"\x7d)\n"
  ++ "    .then(function (r) \x7b return r.json(); \x7d)\n"
  ++ "    .then(function (run) \x7b window.location = \"/ui/runs/" ++ id ++ "/\" + run.id; \x7d);\n"
  ++ "\x7d);\n</script>\n"

/-- The page of a script. -/
def scriptDetail (script : Script) (runs : List Run) (now : Instant) : Text :=
  let description : Text :=
    if script.description.isEmpty then [] else "<p>" ++ escape script.description ++ "</p>"
  let table : Text :=
    "\n<table>\n  <tr><th></th><th>Run</th><th>State</th><th>Started</th><th>Duration</th><th>Revision</th></tr>\n  "
      ++ runs.flatMap (runRow now) ++ "\n</table>\n"
  layout (some .dashboard)
    ("\n<h1>" ++ escape script.id ++ "</h1>\n" ++ description
    ++ "\n<p>Revision " ++ escape script.revision.text ++ ", updated "
    ++ Instant.text script.updated ++ "</p>\n\n" ++ runButton script.id
    ++ "\n<h2>Source</h2>\n<pre>" ++ escape script.source ++ "</pre>\n\n<h2>Runs</h2>\n"
    ++ (if runs.isEmpty then utf8 "\n<p class=\"empty\">This script has not been run yet.</p>\n"
        else table)
    ++ "\n")

/-- One line of the table about a run. -/
def fact (name : String) (markup : Text) : Text :=
  "  <tr><th>" ++ utf8 name ++ "</th>" ++ markup ++ "</tr>\n"

/-- The page of a run. -/
def runDetail (script : Script) (r : Run) (now : Instant) : Text :=
  let cell (markup : Text) : Text := "<td>" ++ markup ++ "</td>"
  let changed : Text := if r.revision = script.revision then [] else " (script changed since)"
  let error : Text := match r.error with
    | some e =>
      "\n<h2>Error</h2>\n<p class=\"diag\">" ++ escape e.kind ++ ": " ++ escape e.message ++ "</p>\n"
    | none => []
  layout (some .dashboard)
    ("\n<h1>Run " ++ escape (shortId r.id) ++ "</h1>\n<table>\n"
    ++ fact "Script" (cell (scriptLink script.id))
    ++ fact "State" ("<td class=\"" ++ stateClass r.state ++ "\">" ++ stateIcon (some r.state) ++ " "
        ++ r.state.name ++ "</td>")
    ++ fact "Started" (cell (Instant.text r.started))
    ++ fact "Finished" (cell (momentText r.ended))
    ++ fact "Duration" (cell (durationText now r.started r.ended))
    ++ fact "Steps" (cell (Text.ofInt r.steps))
    ++ fact "Revision" (cell (escape r.revision.text ++ changed))
    ++ "</table>\n\n" ++ error ++ "\n\n" ++ outputSection r.output ++ "\n"
    ++ diagnosticsSection r.diagnostics ++ "\n")

end Mundart.Page
