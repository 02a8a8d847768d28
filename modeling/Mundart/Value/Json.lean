import Mundart.Json.Read
import Mundart.Value.Display
import Mundart.Number.Reading

/-!
# Values and JSON

Two ways out and one way in. `writeJson?` writes a value as JSON text directly, associative arrays
in their own order; `toJson?` gives a document whose objects are ordered by key, for the answers of
the services. Both fail where JSON has no text: at an infinity or a NaN. The text of a list is also
refused if an item of it nests deeper than a reader would follow. `ofJson?` reads a document; members
of an object come in key order, the last of two equal keys counting.
-/

namespace Mundart.Value

mutual

/-- How deep lists and associative arrays are nested in a value. -/
def nesting : Value → Nat
  | .array items => nestingItems items + 1
  | .assoc entries => nestingEntries entries + 1
  | .absent | .bool _ | .int _ | .double _ | .text _ | .func _ => 0

def nestingItems : List Value → Nat
  | [] => 0
  | v :: vs => max (nesting v) (nestingItems vs)

def nestingEntries : List (Text × Value) → Nat
  | [] => 0
  | (_, v) :: es => max (nesting v) (nestingEntries es)

end

/-- No item is nested deeper than its list. -/
theorem nesting_le_items {items : List Value} {v : Value} (hv : v ∈ items) :
    v.nesting ≤ nestingItems items := by
  induction items with
  | nil => exact nomatch hv
  | cons w ws ih =>
    obtain rfl | hv := List.mem_cons.mp hv
    · exact Nat.le_max_left _ _
    · exact Nat.le_trans (ih hv) (Nat.le_max_right _ _)

/-- No value is nested deeper than the entries that it stands in. -/
theorem nesting_le_entries {entries : List (Text × Value)} {e : Text × Value} (he : e ∈ entries) :
    e.2.nesting ≤ nestingEntries entries := by
  induction entries with
  | nil => exact nomatch he
  | cons f fs ih =>
    obtain rfl | he := List.mem_cons.mp he
    · exact Nat.le_max_left _ _
    · exact Nat.le_trans (ih he) (Nat.le_max_right _ _)

theorem nestingEntries_le {entries : List (Text × Value)} {n : Nat} (h : ∀ e ∈ entries, e.2.nesting ≤ n) :
    nestingEntries entries ≤ n := by
  induction entries with
  | nil => exact Nat.zero_le n
  | cons e es ih =>
    exact Nat.max_le.mpr ⟨h e List.mem_cons_self, ih fun f hf => h f (List.mem_cons_of_mem _ hf)⟩

mutual

/-- A value as JSON text, associative arrays in their own order. -/
def writeJson? : Value → Option Text
  | .absent => some "null"
  | .bool b => some (if b then "true" else "false")
  | .int n => some (Text.ofInt n.toInt)
  | .double x => Double.json? x
  | .text t => some (Mundart.Json.quote t)
  | .func name => some (Mundart.Json.quote (nested (.func name)))
  | .array items => (writeItems? items).map fun ts => "[" ++ Text.join "," ts ++ "]"
  | .assoc entries =>
    (writeEntries? entries).map fun ts => "\x7b" ++ Text.join "," ts ++ "\x7d"

/-- The items of a list, each of them a text that can be read by itself. -/
def writeItems? : List Value → Option (List Text)
  | [] => some []
  | v :: vs => do
    let t ← writeJson? v
    guard (nesting v ≤ Mundart.Json.maxDepth)
    let ts ← writeItems? vs
    pure (t :: ts)

def writeEntries? : List (Text × Value) → Option (List Text)
  | [] => some []
  | (k, v) :: es => do
    let t ← writeJson? v
    let ts ← writeEntries? es
    pure ((Mundart.Json.quote k ++ ":" ++ t) :: ts)

end

mutual

/-- A value as a document with the members of every object in key order. -/
def toJson? : Value → Option Json
  | .absent => some .null
  | .bool b => some (.bool b)
  | .int n => some (Mundart.Json.ofInt n.toInt)
  | .double x => (Double.json? x).map .number
  | .text t => some (.string t)
  | .func name => some (.string (nested (.func name)))
  | .array items => (itemsToJson? items).map .array
  | .assoc entries => (entriesToJson? entries).map fun ms => .object (Dict.byKey ms)

def itemsToJson? : List Value → Option (List Json)
  | [] => some []
  | v :: vs => do
    let j ← toJson? v
    let js ← itemsToJson? vs
    pure (j :: js)

def entriesToJson? : List (Text × Value) → Option (List (Text × Json))
  | [] => some []
  | (k, v) :: es => do
    let j ← toJson? v
    let js ← entriesToJson? es
    pure ((k, j) :: js)

end

mutual

/-- The first infinity or NaN of a value, the members of an associative array taken in key order. -/
def unwritable? : Value → Option Float
  | .double x => if (Double.json? x).isNone then some x else none
  | .array items => unwritableItem? items
  | .assoc entries => (unwritableEntries entries).byKey.values.findSome? id
  | .absent | .bool _ | .int _ | .text _ | .func _ => none

def unwritableItem? : List Value → Option Float
  | [] => none
  | v :: vs => (unwritable? v).or (unwritableItem? vs)

def unwritableEntries : List (Text × Value) → Dict (Option Float)
  | [] => []
  | (k, v) :: es => (k, unwritable? v) :: unwritableEntries es

end

/-- How the numbers of a document are read. -/
inductive NumberReading where
  /-- As doubles; a whole one that fits becomes an integer. -/
  | rounded
  /-- By their text: an integer that fits, else a double, else the text itself. -/
  | exact
  deriving DecidableEq, Repr

/-- The value of a number's literal; a double out of range makes a rounded document unreadable. -/
def ofNumber? : NumberReading → Text → Option Value
  | .rounded, literal =>
    match Number.readDouble literal with
    | .ok x =>
      some <| match Double.toInt64? x with
        | some n => .int n
        | none => .double x
    | .error _ => none
  | .exact, literal =>
    some <| match Number.readInt64 literal, Number.readDouble literal with
      | .ok n, _ => .int n
      | .error _, .ok x => .double x
      | .error _, .error _ => .text literal

mutual

/-- The value that a document stands for. -/
def ofJson? (reading : NumberReading) : Json → Option Value
  | .null => some .absent
  | .bool b => some (.bool b)
  | .number literal => ofNumber? reading literal
  | .string t => some (.text t)
  | .array items => (itemsOfJson? reading items).map .array
  | .object members => (membersOfJson? reading members).map fun es => .assoc (Dict.ofWrites es).byKey

def itemsOfJson? (reading : NumberReading) : List Json → Option (List Value)
  | [] => some []
  | j :: js => do
    let v ← ofJson? reading j
    let vs ← itemsOfJson? reading js
    pure (v :: vs)

def membersOfJson? (reading : NumberReading) : List (Text × Json) → Option (List (Text × Value))
  | [] => some []
  | (k, j) :: js => do
    let v ← ofJson? reading j
    let vs ← membersOfJson? reading js
    pure ((k, v) :: vs)

end

end Mundart.Value
