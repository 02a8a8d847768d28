import Mundart.Text.Basic

/-!
# Suggestions for a mistyped word

A known word is suggested when few edits lead to it from the one that was typed, or when that one is
the start of it. Case makes no difference.
-/

namespace Mundart.Command

/-- One row of the table of distances: the distances from a start of the typed word, extended by
`b`, to all starts of the known word. `diagonal` and `above` come from the row before, `left` is the
entry last made. -/
def distanceRow (b : UInt8) : (diagonal left : Nat) → (known : Text) → (above : List Nat) → List Nat
  | diagonal, left, k :: known, up :: above =>
    let entry := if k == b then diagonal else 1 + min (min left up) diagonal
    entry :: distanceRow b up entry known above
  | _, _, _, _ => []

/-- The rows one after another, of which the last entry of the last one is the distance. -/
def distanceFrom (known : Text) : (row : List Nat) → Text → Nat
  | row, [] => row.getLastD 0
  | [], _ :: _ => 0
  | first :: above, b :: typed =>
    distanceFrom known ((first + 1) :: distanceRow b first (first + 1) known above) typed

/-- The least number of bytes to insert, delete or replace that leads from one word to the other. -/
def distance (typed known : Text) : Nat := distanceFrom known (List.range (known.length + 1)) typed

/-- How many edits a suggestion may be away. -/
def suggestionDistance : Nat := 2

def suggests (typed known : Text) : Bool :=
  let typed := typed.toLower
  let known := known.toLower
  distance typed known ≤ suggestionDistance || typed.isPrefixOf known

end Mundart.Command
