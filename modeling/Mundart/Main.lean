import Std.Time.DateTime.Timestamp
import Mundart.Command.Outcome

/-!
# The program

The outermost layer: it looks up what a command needs to see, lets the command do its work, and
writes the result. Only an interactive session takes turns with its reader.
-/

namespace Mundart.Main

open Command (Host Task Request Outcome FileTrouble)

/-- The bound on the evaluator's work, out of reach of any real run. -/
def bound : Nat := Nat.pow 2 60

def ofBytes (b : ByteArray) : Text := b.data.toList

def toBytes (t : Text) : ByteArray := ⟨t.toArray⟩

def write (stream : IO.FS.Stream) (t : Text) : IO Unit := do
  stream.write (toBytes t)
  stream.flush

/-- Everything that is left on a stream. -/
partial def readAll (stream : IO.FS.Stream) (read : ByteArray) : IO ByteArray := do
  let piece ← stream.read 4096
  if piece.isEmpty then return read else readAll stream (read ++ piece)

/-- The bytes up to the next line break, which belongs to them. -/
partial def readLine (stream : IO.FS.Stream) (read : Text) : IO Text := do
  match ofBytes (← stream.read 1) with
  | [] => return read.reverse
  | b :: _ => if b == 10 then return (b :: read).reverse else readLine stream (b :: read)

def readFile (name : Text) : IO (Except FileTrouble Text) := do
  try
    return .ok (ofBytes (← IO.FS.readBinFile name.toString))
  catch
    | .noFileOrDirectory .. => return .error .missing
    | .inappropriateType .. => return .error .isFolder
    | e => return .error (.other (utf8 (toString e)))

def environment : IO (Dict Text) := do
  let names := Command.thresholdVariable :: Command.Setup.variableNames
  names.mapM fun name => do return (name, utf8 ((← IO.getEnv name.toString).getD ""))

def now : IO Instant := do
  return (← Std.Time.Timestamp.now).toNanosecondsSinceUnixEpoch.val

/-- The notes of a command on the error stream. -/
def tell (start : Nat) (notes : List Log.Note) : IO Unit := do
  let elapsed : Span := ((← IO.monoNanosNow) - start : Nat)
  let stamp := Log.stampText (← now)
  write (← IO.getStderr) (notes.flatMap (Log.Note.text stamp elapsed.exactText))

/-- The file that remembers interactive sessions. -/
def historyPath : IO (Option String) := do
  return (← IO.getEnv "HOME").map (· ++ "/.oida_history")

def readHistory : IO Text := do
  let some path ← historyPath | return []
  return (← readFile (utf8 path)).toOption.getD []

def writeHistory (t : Text) : IO Unit := do
  let some path ← historyPath | return
  IO.FS.writeBinFile path (toBytes t)

/-- An interactive session: the lines in `waiting` come before those that are still to be read. -/
partial def interact (s : Settings) (t : Log.Threshold) (r : Repl) (waiting : List Text) :
    IO Repl := do
  let output ← IO.getStdout
  write output r.prompt
  let lines ← match waiting with
    | [] => pure ((Text.lines (← readLine (← IO.getStdin) [])).map Text.Line.content)
    | lines => pure lines
  match lines with
  | [] =>
    write output "\n"
    return r
  | line :: waiting =>
    match r.feed bound s line with
    | none => return r
    | some a =>
      write output a.output
      tell 0 (a.notes.filter (·.shownUnder t))
      if a.ended then return a.repl else interact s t a.repl waiting

/-- Runs an interactive session with the reader. -/
def converse (h : Host) (t : Log.Threshold) : IO UInt32 := do
  write (← IO.getStdout) Repl.banner
  let start : Repl := { machine := h.machine, history := Repl.readHistory h.history }
  let done ← interact (h.settings 0 Fetch.defaultTimeout) t start []
  writeHistory done.historyText
  return 0

/-- The surroundings of a request. -/
def hostFor (request : Except Command.Misuse Request) : IO Host := do
  let env ← environment
  let seed ← IO.monoNanosNow
  let host : Host :=
    { env := fun name => (env.get? name).getD [], random := Random.ofSeed seed (seed / 128) }
  match request with
  | .ok (.perform _ .repl) => return { host with history := ← readHistory }
  | .ok (.perform _ task) =>
    match task.file? with
    | none => return host
    | some name =>
      if name == utf8 "-" then return { host with input := ofBytes (← readAll (← IO.getStdin) .empty) }
      else
        let content ← readFile name
        return { host with file := fun _ => content }
  | _ => return host

end Mundart.Main

open Mundart in
/-- Carries out the command line. -/
def main (args : List String) : IO UInt32 := do
  let start ← IO.monoNanosNow
  let args := args.map utf8
  let request := Command.Request.read args
  let host ← Main.hostFor request
  match request with
  | .ok (.perform flag .repl) =>
    match Command.threshold host.env flag with
    | .ok t => return ← Main.converse host t
    | .error _ => pure ()
  | _ => pure ()
  match Command.perform Main.bound host args with
  | none => return 2
  | some o =>
    Main.write (← IO.getStdout) o.output
    Main.tell start o.notes
    return o.exit.toUInt32
