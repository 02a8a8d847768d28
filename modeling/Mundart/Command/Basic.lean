import Mundart.Command.Arguments
import Mundart.Command.Setup
import Mundart.Command.Suggestion
import Mundart.Fetch

/-!
# Commands

A command line names a command and gives it flags and words. `Request.read` finds out what is asked
for. Faults are found in this order: an unknown command, a fault in the flags, and then, unless help
or the version is asked for, a wrong number of words.
-/

namespace Mundart

/-- The commands of the program; `top` is a command line that names none. -/
inductive Command where
  | top | run | tokens | ast | repl | serve | help | completion
  deriving DecidableEq, Repr

namespace Command

/-- The name of the program. -/
def program : Text := "oida"

def name : Command → Text
  | .top => program
  | .run => "run"
  | .tokens => "tokens"
  | .ast => "ast"
  | .repl => "repl"
  | .serve => "serve"
  | .help => "help"
  | .completion => "completion"

/-- The program and the command, as messages name it. -/
def path : Command → Text
  | .top => program
  | c => program ++ " " ++ c.name

/-- The commands that a word can name. -/
def all : List Command := [.run, .tokens, .ast, .repl, .serve, .help, .completion]

def named? (word : Text) : Option Command := all.find? fun c => c.name == word

/-- The names close to a word; help is never suggested. -/
def suggestions (word : Text) : List Text :=
  ((all.filter (· != .help)).map name).filter (suggests word)

/-- The flag that every command has. -/
def commonFlags : List Flag := [⟨"log-level", .text, none⟩]

def ownFlags : Command → List Flag
  | .top => [⟨"version", .switch, some (ascii 'v')⟩]
  | .run => [⟨"max-steps", .int, none⟩, ⟨"fetch-timeout", .span, none⟩]
  | .ast => [⟨"format", .text, none⟩]
  | .serve => Setup.flags
  | .tokens | .repl | .help | .completion => []

def flags (c : Command) : List Flag :=
  ⟨"help", .switch, some (ascii 'h')⟩ :: c.ownFlags ++ commonFlags

/-- The command that a command line names, and its arguments. -/
def find (args : List Text) : Except Misuse (Command × List Text) :=
  match wordsAmong commonFlags args with
  | [] => .ok (.top, args)
  | word :: _ =>
    match named? word with
    | some c => .ok (c, withoutWord commonFlags word args)
    | none => .error (.unknownCommand word program (suggestions word))

/-- Something to do. -/
inductive Task where
  | run (file : Text) (maxSteps : Int64) (timeout : Span)
  | tokens (file : Text)
  | ast (file format : Text)
  | repl
  | serve (arguments : Arguments)

/-- The file that a task reads. -/
def Task.file? : Task → Option Text
  | .run file _ _ | .tokens file | .ast file _ => some file
  | .repl | .serve _ => none

/-- What a command line asks for. -/
inductive Request where
  | help
  | version
  /-- A task, and the threshold for its log as the flag gives it, empty if it does not. -/
  | perform (threshold : Text) (task : Task)

/-- The one word of a command that takes one. -/
def oneWord (a : Arguments) : Except Misuse Text :=
  match a.words with
  | [word] => .ok word
  | words => .error (.wordCount words.length)

/-- Refuses words, for a command that takes none. -/
def noWord (c : Command) (a : Arguments) : Except Misuse Unit :=
  match a.words with
  | [] => .ok ()
  | word :: _ => .error (.unknownCommand word c.path [])

/-- The task of a command with its arguments; there is none where only help can be given. -/
def task? (c : Command) (a : Arguments) : Except Misuse (Option Task) :=
  match c with
  | .top | .help | .completion => .ok none
  | .run => do
    let file ← oneWord a
    return some (.run file (a.intOr "max-steps" 0) (a.spanOr "fetch-timeout" Fetch.defaultTimeout))
  | .tokens => do return some (.tokens (← oneWord a))
  | .ast => do return some (.ast (← oneWord a) (a.textOr "format" "yaml"))
  | .repl => do noWord c a; return some .repl
  | .serve => do noWord c a; return some (.serve a)

/-- Reads a command line. -/
def Request.read (args : List Text) : Except Misuse Request := do
  let (c, args) ← find args
  let a ← Arguments.read c.flags args
  if a.isOn "help" then return .help
  else if a.isOn "version" then return .version
  else
    match ← c.task? a with
    | none => return .help
    | some task => return .perform (a.textOr "log-level" []) task

end Command

end Mundart
