import Mundart.Dict
import Mundart.Time.Basic

/-!
# Scripts and runs

A script is a saved program. Every change gives it a new revision. A run is one execution of a
script: it starts active and is finished once, by success, failure or cancellation, and remembers
which revision it was started from.
-/

namespace Mundart

/-- The number of a change, counted over all scripts, with three letters to tell stores apart. -/
structure Revision where
  number : Nat
  suffix : Text
  deriving DecidableEq, Repr

def Revision.text (r : Revision) : Text := Text.padNat 6 r.number ++ "-" ++ r.suffix

/-- A saved program. -/
structure Script where
  id : Text
  source : Text
  description : Text
  revision : Revision
  created : Instant
  updated : Instant
  deriving DecidableEq, Repr

/-- A script has no other state than being there. -/
def Script.stateName : Text := "ACTIVE"

/-- Whether a text can name a script: a lower-case letter, then lower-case letters, digits, underscores
and hyphens, at most 128 bytes in all. -/
def Script.validId (id : Text) : Bool :=
  id.length ≤ 128 &&
    match id with
    | [] => false
    | b :: rest =>
      Text.isLower b &&
        rest.all fun b => Text.isLower b || Text.isDigit b || b == ascii '_' || b == ascii '-'

/-- Where a run stands. -/
inductive Run.State where
  | active | succeeded | failed | cancelled
  deriving DecidableEq, Repr

def Run.State.name : Run.State → Text
  | .active => "ACTIVE"
  | .succeeded => "SUCCEEDED"
  | .failed => "FAILED"
  | .cancelled => "CANCELLED"

def Run.State.all : List Run.State := [.active, .succeeded, .failed, .cancelled]

def Run.State.ofName? (name : Text) : Option Run.State :=
  Run.State.all.find? fun s => s.name == name

/-- Why a run failed; the kind is empty when the program is not to blame. -/
structure Run.Error where
  message : Text
  kind : Text
  deriving DecidableEq, Repr

/-- One execution of a script. -/
structure Run where
  id : Text
  script : Text
  revision : Revision
  started : Instant
  state : Run.State := .active
  output : Text := []
  diagnostics : List Text := []
  error : Option Run.Error := none
  steps : Int := 0
  ended : Option Instant := none
  deriving DecidableEq, Repr

namespace Run

/-- What ends a run. -/
inductive Ending where
  | completed (output : Text) (diagnostics : List Text) (steps : Int)
  /-- What was printed before the failure is kept, the steps are not. -/
  | failed (output : Text) (diagnostics : List Text) (error : Error)
  | cancelled
  deriving DecidableEq, Repr

def finished (r : Run) : Bool := r.state != .active

/-- The run after its end. -/
def finish (r : Run) (ending : Ending) (now : Instant) : Run :=
  match ending with
  | .completed output diagnostics steps =>
    { r with state := .succeeded, output := output, diagnostics := diagnostics, steps := steps
             ended := some now }
  | .failed output diagnostics error =>
    { r with state := .failed, output := output, diagnostics := diagnostics, error := some error
             ended := some now }
  | .cancelled => { r with state := .cancelled, ended := some now }

theorem finish_state_ne_active (r : Run) (ending : Ending) (now : Instant) :
    (r.finish ending now).state ≠ .active := by
  cases ending <;> simp [finish]

@[simp] theorem finish_id (r : Run) (ending : Ending) (now : Instant) :
    (r.finish ending now).id = r.id := by
  cases ending <;> rfl

end Run

end Mundart
