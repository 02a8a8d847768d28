import Mundart.Text.Basic

/-!
# Lines from a buffered reader

A reader with a buffer of fixed size hands out one line at a time. A line that does not fit into the
buffer comes in pieces, each as long as the buffer; a carriage return at the end of such a piece
waits for the next one, so that a line break of two bytes is never torn.
-/

namespace Mundart.Text

/-- The size of the buffer. -/
def lineBuffer : Nat := 4096

/-- What a reader hands out. -/
structure Line where
  content : Text
  /-- Whether this is a line, and not a piece of one that goes on. -/
  whole : Bool
  deriving DecidableEq, Repr

/-- The next line of a text and the number of bytes that it takes up. -/
def nextLine (t : Text) : Line × Nat :=
  let window := t.take lineBuffer
  let (line, rest) := window.span (· != 10)
  if rest.isEmpty then
    if line.length < lineBuffer then (⟨line, true⟩, line.length)
    else if line.getLast? == some 13 then (⟨line.dropLast, false⟩, lineBuffer - 1)
    else (⟨line, false⟩, lineBuffer)
  else
    (⟨if line.getLast? == some 13 then line.dropLast else line, true⟩, line.length + 1)

/-- All lines of a text. A last line needs no line break. -/
def lines (t : Text) : List Line :=
  if t.isEmpty then []
  else
    let (line, used) := nextLine t
    line :: lines (t.drop (max 1 used))
termination_by t.length
decreasing_by
  cases t with
  | nil => simp at *
  | cons b t => simp only [List.length_drop, List.length_cons]; omega

end Mundart.Text
