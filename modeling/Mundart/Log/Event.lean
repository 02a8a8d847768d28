import Mundart.Log.Basic
import Mundart.Run.Session

/-!
# What a run tells on the error stream

The events of a run become notes: a failed statement is told to the reader and logged, everything
else is only logged.
-/

namespace Mundart

/-- One note on the error stream of a command. -/
inductive Log.Note where
  /-- Told to the reader, whatever the threshold is. -/
  | told (message : Text)
  | logged (record : Log.Record)
  deriving DecidableEq, Repr

namespace Event

open Log (Note Content)

/-- The notes about an event. -/
def notes : Event → List Note
  | .failed node f =>
    [.told f.message, .logged ⟨.warn, "statement failed",
      [("node", .text node), ("kind", .text f.report.kindName), ("error", .text f.message)]⟩]
  | .unpaired name keys values =>
    [.logged ⟨.debug, "associative literal with mismatched keys and values, no binding",
      [("name", .text name), ("keys", .text (Text.ofNat keys)), ("values", .text (Text.ofNat values))]⟩]
  | .fetching url => [.logged ⟨.debug, "fetching", [("url", .text url)]⟩]
  | .fetchFailed url f =>
    [.logged ⟨.warn, "fetch failed", [("url", .text url), ("error", .text f.message)]⟩]
  | .unreadable e => [.logged ⟨.debug, "parse failed", [("error", .text e.message)]⟩]

end Event

namespace Log

/-- Whether a note is shown under a threshold. -/
def Note.shownUnder (t : Threshold) : Note → Bool
  | .told _ => true
  | .logged r => t.admits r.severity

/-- A note as text; a record is preceded by the stamp of its time. -/
def Note.text (stamp elapsed : Text) : Note → Text
  | .told message => failureLine message
  | .logged r => stamp ++ r.text elapsed

end Log

/-- The notes about everything that happened on a machine after its first `n` events. -/
def Machine.notesSince (m : Machine) (n : Nat) : List Log.Note :=
  (m.events.take (m.events.length - n)).reverse.flatMap Event.notes

end Mundart
