import Mundart.Store.Operation
import Mundart.Run.Session
import Mundart.Value.Json

/-!
# Records of the service

The documents in which the service tells about scripts, runs and executed programs. Optional fields
are left out where there is nothing to tell.
-/

namespace Mundart

namespace Json

/-- An object of the members that have a value. -/
def record (members : List (String × Option Json)) : Json :=
  .object (members.filterMap fun m => m.2.map fun v => (utf8 m.1, v))

def texts (ts : List Text) : Json := .array (ts.map .string)

end Json

def Script.toJson (s : Script) : Json :=
  .object [("createTime", .string (Instant.rfc3339 s.created)),
    ("description", .string s.description), ("id", .string s.id),
    ("revisionId", .string s.revision.text), ("source", .string s.source),
    ("state", .string Script.stateName), ("updateTime", .string (Instant.rfc3339 s.updated))]

def Run.Error.toJson (e : Run.Error) : Json :=
  .object [("kind", .string e.kind), ("message", .string e.message)]

/-- A run as the service tells it: the steps only once it has ended, output and diagnostics only if
there are any. -/
def Run.toJson (r : Run) : Json :=
  Json.record
    [("diagnostics", if r.diagnostics.isEmpty then none else some (Json.texts r.diagnostics)),
      ("endTime", r.ended.map fun t => .string (Instant.rfc3339 t)),
      ("error", r.error.map Run.Error.toJson),
      ("id", some (.string r.id)),
      ("output", if r.output.isEmpty then none else some (.string r.output)),
      ("scriptId", some (.string r.script)),
      ("scriptRevisionId", some (.string r.revision.text)),
      ("startTime", some (.string (Instant.rfc3339 r.started))),
      ("state", some (.string r.state.name)),
      ("steps", r.ended.map fun _ => Json.ofInt r.steps)]

def Report.toJson (r : Report) : Json :=
  .object [("code", Json.ofInt r.status), ("kind", .string r.kindName),
    ("message", .string r.message)]

/-- An execution as a document, or the number in its value for which there is no text. -/
def Execution.toJson (e : Execution) : Except Float Json :=
  match e.value.toJson? with
  | some value =>
    .ok (Json.record
      [("diagnostics", some (Json.texts e.diagnostics)), ("error", e.error.map Report.toJson),
        ("output", some (.string e.output)), ("steps", some (Json.ofNat e.steps)),
        ("value", some value)])
  | none => .error (e.value.unwritable?.getD 0.0)

/-- How an execution ends a run. -/
def Execution.ending (e : Execution) : Run.Ending :=
  match e.error with
  | some r => .failed e.output e.diagnostics ⟨r.message, r.kindName⟩
  | none => .completed e.output e.diagnostics e.steps

end Mundart
