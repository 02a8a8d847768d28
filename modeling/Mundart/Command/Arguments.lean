import Mundart.Command.Flag
import Mundart.Dict

/-!
# Arguments

What stands on a command line after the program's name is flags and words in any order. A flag is
written `--name=value`, `--name value` or, for a switch, `--name`; switches with a letter may be
written together as in `-hv`. After `--` everything is a word, and a lone hyphen is one.
-/

namespace Mundart.Command

/-- What is wrong with a command line. -/
inductive Misuse where
  | badFlag (argument : Text)
  | unknownFlag (name : Text)
  | unknownLetter (letter : UInt8) (letters : Text)
  | valueMissing (name : Text)
  | badValue (value : Text) (flag : Flag) (defect : Flag.Defect)
  /-- A command takes one word and got another number of them. -/
  | wordCount (count : Nat)
  | unknownCommand (word path : Text) (suggestions : List Text)
  | badThreshold (text : Text)
  deriving DecidableEq, Repr

namespace Misuse

/-- A letter in single quotes. A byte past ASCII is shown by the first byte of its own two-byte
form. -/
def letterText (b : UInt8) : Text :=
  let inner : Text :=
    if 0xC0 ≤ b then "Ã"
    else if 0x80 ≤ b then "Â"
    else if b == ascii '\'' then "\\'"
    else if b == ascii '"' then "\""
    else Text.quotedRune (.char (Char.ofNat b.toNat))
  "'" ++ inner ++ "'"

def suggestionText (words : List Text) : Text :=
  let lines : List Text := words.map fun word => "\t" ++ word ++ "\n"
  if words.isEmpty then [] else "\n\nDid you mean this?\n" ++ lines.flatten

def message : Misuse → Text
  | .badFlag argument => "bad flag syntax: " ++ argument
  | .unknownFlag name => "unknown flag: --" ++ name
  | .unknownLetter letter letters =>
    "unknown shorthand flag: " ++ letterText letter ++ " in -" ++ letters
  | .valueMissing name => "flag needs an argument: --" ++ name
  | .badValue value flag defect =>
    "invalid argument " ++ value.quoted ++ " for " ++ flag.label.quoted ++ " flag: " ++ defect.message
  | .wordCount count => "accepts 1 arg(s), received " ++ Text.ofNat count
  | .unknownCommand word path suggestions =>
    "unknown command " ++ word.quoted ++ " for " ++ path.quoted ++ suggestionText suggestions
  | .badThreshold text => "invalid log level " ++ text.quoted

end Misuse

structure Arguments where
  /-- The values of the flags that were given; a later one replaces an earlier one. -/
  given : Dict Flag.Value := []
  words : List Text := []

namespace Arguments

/-- Gives a flag a value. -/
def set (a : Arguments) (flag : Flag) (value : Text) : Except Misuse Arguments :=
  match flag.kind.read value with
  | .ok v => .ok { a with given := a.given.set flag.name v }
  | .error defect => .error (.badValue value flag defect)

/-- Gives the flag of a name a value. -/
def setNamed (flags : List Flag) (a : Arguments) (name value : Text) : Except Misuse Arguments :=
  match Flag.named? flags name with
  | some flag => a.set flag value
  | none => .error (.unknownFlag name)

/-- The switches written together after one hyphen. After an equals sign the value of the last one
follows, if the text does not end there. Words of a test runner are passed over. -/
def setLetters (flags : List Flag) : Text → Arguments → Except Misuse Arguments
  | [], a => .ok a
  | b :: t, a =>
    if (utf8 "test.").isPrefixOf (b :: t) then .ok a
    else
      match Flag.lettered? flags b with
      | none => .error (.unknownLetter b (b :: t))
      | some flag =>
        match t with
        | 61 :: v :: value => a.set flag (v :: value)
        | t => do setLetters flags t (← a.set flag "true")

/-- Reads arguments, adding to the ones already read (whose words stand last first). -/
def readFrom (flags : List Flag) (a : Arguments) : List Text → Except Misuse Arguments
  | [] => .ok { a with words := a.words.reverse }
  | arg :: rest =>
    match arg with
    | [45, 45] => .ok { a with words := a.words.reverse ++ rest }
    | 45 :: 45 :: body =>
      if body.head? == some 45 || body.head? == some 61 then .error (.badFlag arg)
      else
        let (name, value?) := Text.cut 61 body
        match Flag.named? flags name, value? with
        | none, _ => .error (.unknownFlag name)
        | some flag, some value => do readFrom flags (← a.set flag value) rest
        | some flag, none =>
          if flag.isSwitch then do readFrom flags (← a.set flag "true") rest
          else
            match rest with
            | [] => .error (.valueMissing name)
            | value :: rest => do readFrom flags (← a.set flag value) rest
    | 45 :: b :: letters => do readFrom flags (← setLetters flags (b :: letters) a) rest
    | word => readFrom flags { a with words := word :: a.words } rest

/-- Reads the arguments of a command with the given flags. -/
def read (flags : List Flag) (args : List Text) : Except Misuse Arguments := readFrom flags {} args

/-! ### Values of flags

What was given for a flag, as the type of its values. A flag that was not given has the value that its
setting has otherwise. -/

def textOr (a : Arguments) (name default : Text) : Text :=
  match a.given.get? name with
  | some (.text t) => t
  | _ => default

def intOr (a : Arguments) (name : Text) (default : Int64) : Int64 :=
  match a.given.get? name with
  | some (.int n) => n
  | _ => default

def spanOr (a : Arguments) (name : Text) (default : Span) : Span :=
  match a.given.get? name with
  | some (.span d) => d
  | _ => default

def switch? (a : Arguments) (name : Text) : Option Bool :=
  match a.given.get? name with
  | some (.switch on) => some on
  | _ => none

/-- Whether a switch was turned on. -/
def isOn (a : Arguments) (name : Text) : Bool := a.switch? name == some true

end Arguments

/-! ### Words among flags

Which command is meant is told by the first word, before any flag of that command is known. A flag
without a value of its own is then taken to have the next argument as its value, unless it is known
to be a switch. -/

/-- Whether the argument after this one is taken for its value. -/
def takesNext (flags : List Flag) (arg : Text) : Bool :=
  let isSwitch (f : Option Flag) : Bool := (f.map Flag.isSwitch).getD false
  match arg with
  | 45 :: 45 :: name => !arg.contains 61 && !isSwitch (Flag.named? flags name)
  | [45, letter] => letter != 61 && !isSwitch (Flag.lettered? flags letter)
  | _ => false

/-- Whether an argument is a word and no flag. -/
def isWordArgument (arg : Text) : Bool := arg.head? != some 45

/-- The words among arguments. The last argument is not looked at when it may be a value. -/
def wordsAmong (flags : List Flag) : List Text → List Text
  | [] => []
  | arg :: rest =>
    if arg == utf8 "--" then []
    else if takesNext flags arg then
      match rest with
      | _ :: next :: rest => wordsAmong flags (next :: rest)
      | _ => []
    else if isWordArgument arg && !arg.isEmpty then arg :: wordsAmong flags rest
    else wordsAmong flags rest

/-- The arguments without the first word that is the given one. -/
def withoutWord (flags : List Flag) (word : Text) : List Text → List Text
  | [] => []
  | arg :: rest =>
    if arg == utf8 "--" then arg :: rest
    else if takesNext flags arg then
      match rest with
      | value :: rest => arg :: value :: withoutWord flags word rest
      | [] => [arg]
    else if isWordArgument arg && arg == word then rest
    else arg :: withoutWord flags word rest

end Mundart.Command
