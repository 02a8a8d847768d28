import Std.Data.HashMap
import Mundart.Dict

/-!
# Maps in order of first write

A map of texts keeps its keys twice. A list has them in the order of their first write, and a hash table has
them with their values. The list alone knows the order and the table alone the values, so every write has to
keep the two in step; nothing in the type does.

The language itself works on dictionaries, which are one list and cannot get out of step. That a map shows
the same as a dictionary is proved elsewhere.
-/

namespace Mundart

/-- A list of keys and a table of values. -/
structure OrderedMap (α : Type) where
  keys : List Text := []
  table : Std.HashMap Text α := {}

namespace OrderedMap

variable {α : Type}

/-- The value of a key, from the table. -/
def get? (m : OrderedMap α) (key : Text) : Option α := m.table[key]?

/-- Writes a key. It is put at the end of the list, unless the table has it already. -/
def set (m : OrderedMap α) (key : Text) (a : α) : OrderedMap α :=
  { keys := if m.table.contains key then m.keys else m.keys ++ [key]
    table := m.table.insert key a }

/-- The values in the order of the list of keys; a key that the table lacks has the default value. -/
def values [Inhabited α] (m : OrderedMap α) : List α := m.keys.map fun key => m.table.getD key default

def length (m : OrderedMap α) : Nat := m.keys.length

end OrderedMap

end Mundart
