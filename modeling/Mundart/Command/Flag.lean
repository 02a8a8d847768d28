import Mundart.Number.Based
import Mundart.Time.Reading

/-!
# Flags

A flag of a command has a name and takes a value of one kind. A switch, the kind that takes a truth
value, may also stand alone, which means true.
-/

namespace Mundart.Command

namespace Flag

/-- What a flag takes. -/
inductive Kind where
  | text | int | switch | span
  deriving DecidableEq, Repr

inductive Value where
  | text (t : Text)
  | int (n : Int64)
  | switch (on : Bool)
  | span (d : Span)
  deriving DecidableEq, Repr

/-- Why a text is no value for a flag. -/
inductive Defect where
  | int (refusal : Number.Refusal) (text : Text)
  | switch (refusal : Number.Refusal) (text : Text)
  | span (defect : Span.Defect)
  deriving DecidableEq, Repr

def Defect.message : Defect → Text
  | .int refusal t => refusal.message "ParseInt" t
  | .switch refusal t => refusal.message "ParseBool" t
  | .span defect => defect.message

/-- Reads a value. -/
def Kind.read (kind : Kind) (t : Text) : Except Defect Value :=
  match kind with
  | .text => .ok (.text t)
  | .int =>
    match Number.readBased t with
    | .ok n => .ok (.int n)
    | .error refusal => .error (.int refusal t)
  | .switch =>
    match Number.readBool t with
    | .ok on => .ok (.switch on)
    | .error refusal => .error (.switch refusal t)
  | .span =>
    match Span.read t with
    | .ok d => .ok (.span d)
    | .error defect => .error (.span defect)

end Flag

structure Flag where
  name : Text
  kind : Flag.Kind
  /-- The single letter that some switches also go by. -/
  letter : Option UInt8 := none
  deriving DecidableEq, Repr

namespace Flag

def isSwitch (f : Flag) : Bool := f.kind == .switch

/-- How a flag is called in messages. -/
def label (f : Flag) : Text :=
  match f.letter with
  | some b => "-" ++ [b] ++ ", --" ++ f.name
  | none => "--" ++ f.name

/-- The flag of a name. -/
def named? (flags : List Flag) (name : Text) : Option Flag := flags.find? (·.name == name)

/-- The switch of a letter. -/
def lettered? (flags : List Flag) (letter : UInt8) : Option Flag :=
  flags.find? (·.letter == some letter)

end Flag

end Mundart.Command
