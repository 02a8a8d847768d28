import Mundart.Command.Arguments
import Mundart.Service.Server

/-!
# The setup of a server

Where a server listens and what it allows. A flag wins over a variable of the environment, and that
over the usual value. A number flag counts unless it is zero, a text flag unless it is empty; a
variable that is empty counts as not set.
-/

namespace Mundart.Command

structure Setup where
  address : Text
  rpcAddress : Text
  /-- The folder of scripts to load at the start, empty for none. -/
  scriptsFolder : Text
  maxSteps : Int64
  allowsFetch : Bool
  deriving DecidableEq, Repr

namespace Setup

/-- The flags of a server. -/
def flags : List Flag := [
  ⟨"port", .int, none⟩, ⟨"grpc-port", .int, none⟩, ⟨"host", .text, none⟩,
  ⟨"scripts-dir", .text, none⟩, ⟨"max-steps", .int, none⟩, ⟨"allow-fetch", .switch, none⟩]

/-- The variables of the environment that a setup depends on. -/
def variableNames : List Text := ["PORT", "GRPC_PORT", "HOST", "SCRIPTS_DIR", "MAX_STEPS", "ALLOW_FETCH"]

/-- Which variable is no value for its setting. -/
inductive Defect where
  | maxSteps (refusal : Number.Refusal) (text : Text)
  | allowFetch (refusal : Number.Refusal) (text : Text)
  deriving DecidableEq, Repr

def Defect.message : Defect → Text
  | .maxSteps refusal t => "invalid MAX_STEPS: " ++ refusal.message "Atoi" t
  | .allowFetch refusal t => "invalid ALLOW_FETCH: " ++ refusal.message "ParseBool" t

/-- The value of a variable, or another text if it is empty. -/
def variableOr (env : Text → Text) (name default : Text) : Text :=
  if (env name).isEmpty then default else env name

/-- The text of a number flag, if that counts. -/
def numberOr (n : Int64) (default : Text) : Text := if n == 0 then default else Text.ofInt n.toInt

/-- The setup that flags and environment make. -/
def resolve (env : Text → Text) (a : Arguments) : Except Defect Setup := do
  let port := numberOr (a.intOr "port" 0) (variableOr env "PORT" "8787")
  let rpcPort := numberOr (a.intOr "grpc-port" 0) (variableOr env "GRPC_PORT" "8788")
  let hostFlag := a.textOr "host" []
  let host := if hostFlag.isEmpty then variableOr env "HOST" "0.0.0.0" else hostFlag
  let folderFlag := a.textOr "scripts-dir" []
  let folder := if folderFlag.isEmpty then env "SCRIPTS_DIR" else folderFlag
  let stepsText := variableOr env "MAX_STEPS" (Text.ofInt Server.defaultMaxSteps)
  let steps ← (Number.readDecimal stepsText).mapError (Defect.maxSteps · stepsText)
  let stepsFlag := a.intOr "max-steps" 0
  let fetchText := variableOr env "ALLOW_FETCH" "false"
  let fetch ← (Number.readBool fetchText).mapError (Defect.allowFetch · fetchText)
  return {
    address := host ++ ":" ++ port
    rpcAddress := host ++ ":" ++ rpcPort
    scriptsFolder := folder
    maxSteps := if stepsFlag == 0 then steps else stepsFlag
    allowsFetch := (a.switch? "allow-fetch").getD fetch }

end Setup

end Mundart.Command
