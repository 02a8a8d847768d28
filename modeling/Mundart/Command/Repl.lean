import Mundart.Log.Event
import Mundart.Text.Lines

/-!
# Interactive sessions

An interactive session takes one line at a time. Lines are collected until no bracket is open, then
they are a source: a word for the session itself if it starts with a colon, else a program to run.
The sources that were run are remembered.
-/

namespace Mundart

/-- An interactive session. -/
structure Repl where
  /-- The lines of a source that is not complete. -/
  pending : Text := []
  machine : Machine := {}
  /-- The sources that were run, the last one first. -/
  history : List Text := []

namespace Repl

def banner : Text := "oida dev. Mit :baba oder Ctrl-D beenden.\n"

/-- What asks for the next line. -/
def prompt (r : Repl) : Text := if r.pending.isEmpty then "oida> " else "  ... "

/-! ### History

What was entered is remembered up to a limit, the last one first. In the file the order is the other way
round, with a line for each source. -/

/-- How many sources are remembered. -/
def historyLimit : Nat := 1000

/-- Remembers a source on one line, unless it is the one that was remembered last. -/
def remember (source : Text) (r : Repl) : Repl :=
  let entry := Text.replaceByte 10 " " source
  if r.history.head? = some entry then r
  else { r with history := (entry :: r.history).take historyLimit }

/-- The history in a file. What follows a line that is too long or no UTF-8 is not read. -/
def readHistory (t : Text) : List Text :=
  let lines := (Text.lines t).takeWhile fun line => line.whole && line.content.isUtf8
  (lines.reverse.map Text.Line.content).take historyLimit

/-- The file of the history, a line for each source. -/
def historyText (r : Repl) : Text := r.history.reverse.flatMap (· ++ utf8 "\n")

/-! ### Lines

A line is a command, or it is put behind what was entered before. Source is run once nothing is missing from
it. -/

/-- What a session answers to a line. -/
structure Answer where
  output : Text := []
  notes : List Log.Note := []
  /-- Whether the session is over. -/
  ended : Bool := false
  repl : Repl

/-- What is shown of a result: its value, if no statement failed and there is one. -/
def resultText (result : Result) : Text :=
  if result.failures.isEmpty && !result.value.isAbsent && result.stop.isNone
  then "=> " ++ result.value.display ++ "\n" else []

/-- Runs a source. -/
def run (fuel : Nat) (s : Settings) (source : Text) (r : Repl) : Option Answer :=
  (Session.eval fuel s source r.machine).map fun (answer, m) =>
    let notes := m.notesSince r.machine.events.length
    match answer with
    | .error e => { notes := notes ++ [.told e.message], repl := { r with machine := m } }
    | .ok result =>
      { output := result.output ++ resultText result, notes := notes, repl := { r with machine := m } }

/-- Takes a complete source. -/
def obey (fuel : Nat) (s : Settings) (source : Text) (r : Repl) : Option Answer :=
  let word := source.trim
  if word.isEmpty then some { repl := r }
  else if word == utf8 ":baba" || word == utf8 ":quit" then some { ended := true, repl := r }
  else if word.head? == some (ascii ':') then
    some { output := "Unbekannter Befehl. Mit :baba beenden.\n", repl := r }
  else (r.remember source).run fuel s source

/-- Takes one line. -/
def feed (fuel : Nat) (s : Settings) (line : Text) (r : Repl) : Option Answer :=
  let source := if r.pending.isEmpty then line else r.pending ++ "\n" ++ line
  if Token.needsMore source then some { repl := { r with pending := source } }
  else { r with pending := [] }.obey fuel s source

/-- A whole session: all its output with the prompts, all notes, and what is remembered. The end of
the input ends a session with a line break. -/
def converse (fuel : Nat) (s : Settings) (r : Repl) : List Text → Option Answer
  | [] => some { output := r.prompt ++ "\n", ended := true, repl := r }
  | line :: lines => do
    let a ← r.feed fuel s line
    let shown := r.prompt ++ a.output
    if a.ended then return { a with output := shown }
    else
      let b ← a.repl.converse fuel s lines
      return { b with output := shown ++ b.output, notes := a.notes ++ b.notes }

end Repl

end Mundart
