import Mundart.OrderedMap
import Mundart.Value.Basic

/-!
# Lists and maps in memory

Below the values of the language there is a memory of objects. A list or a map is an object at some address,
and what refers to it, an item of a list or an entry of a map, only holds the address: whoever changes an
object changes it for all that refer to it. A value is kept apart from others by copying it, part by part,
before it is changed.

* `hold` puts a value into new objects, `read` gives the value that something in memory shows;
* `copy` makes a copy at all depths, `copyObject` that of one object;
* `Maps` are maps under names, which are written to and copied.

What follows addresses is bounded by a number of steps into the depth, since objects could contain
themselves; it gives nothing when the bound was too small.
-/

namespace Mundart

/-- The place of an object. -/
abbrev Address := Nat

/-- What an item or an entry holds: a plain value, or the address of a list or map. -/
inductive Held where
  | plain (v : Value) (hv : v.isCollection = false)
  | ref (a : Address)

instance : Inhabited Held := ⟨.plain .absent rfl⟩

/-- What stands at an address. -/
inductive Object where
  | list (items : List Held)
  | map (m : OrderedMap Held)

/-- The objects by their addresses. -/
abbrev Memory := List Object

namespace Memory

/-- Puts a new object into the memory, at an address that no other object has. -/
def new (mem : Memory) (o : Object) : Address × Memory := (mem.length, mem ++ [o])

/-- The map at an address. -/
def mapAt (mem : Memory) (a : Address) : OrderedMap Held :=
  match mem[a]? with
  | some (.map m) => m
  | _ => {}

/-! ### Values

A list or an associative array is an object of its own, and what it holds are references to further objects.
To hold a value is to make all of them anew; to read a reference is to follow them as deep as a bound
allows. -/

mutual

/-- Puts a value into new objects, the parts of a list or associative array before the whole. -/
def hold : Value → Memory → Held × Memory
  | .array items, mem =>
    let (items, mem) := holdItems items mem
    let (a, mem) := new mem (.list items)
    (.ref a, mem)
  | .assoc entries, mem =>
    let (m, mem) := holdEntries entries {} mem
    let (a, mem) := new mem (.map m)
    (.ref a, mem)
  | .absent, mem => (.plain .absent rfl, mem)
  | .bool b, mem => (.plain (.bool b) rfl, mem)
  | .int n, mem => (.plain (.int n) rfl, mem)
  | .double x, mem => (.plain (.double x) rfl, mem)
  | .text t, mem => (.plain (.text t) rfl, mem)
  | .func name, mem => (.plain (.func name) rfl, mem)

def holdItems : List Value → Memory → List Held × Memory
  | [], mem => ([], mem)
  | v :: vs, mem =>
    let (h, mem) := hold v mem
    let (hs, mem) := holdItems vs mem
    (h :: hs, mem)

def holdEntries : List (Text × Value) → OrderedMap Held → Memory → OrderedMap Held × Memory
  | [], m, mem => (m, mem)
  | (key, v) :: es, m, mem =>
    let (h, mem) := hold v mem
    holdEntries es (m.set key h) mem

end

/-- The entries of a map, read one by one. -/
def readEntries (readPart : Held → Option Value) (m : OrderedMap Held) :
    List Text → Option (List (Text × Value))
  | [] => some []
  | key :: keys => do
    let v ← readPart (← m.get? key)
    let es ← readEntries readPart m keys
    return (key, v) :: es

/-- The value that is shown, down to some depth. -/
def read (mem : Memory) : (fuel : Nat) → Held → Option Value
  | _, .plain v _ => some v
  | 0, .ref _ => none
  | fuel + 1, .ref a =>
    match mem[a]? with
    | none => none
    | some (.list items) => (items.mapM (read mem fuel)).map .array
    | some (.map m) => (readEntries (read mem fuel) m m.keys).map .assoc

/-! ### Copies

A copy is made of new objects at every depth, so that a change to one of them does not show in the original.
-/

section

variable (copyPart : Held → Memory → Option (Held × Memory))

def copyItems : List Held → Memory → Option (List Held × Memory)
  | [], mem => some ([], mem)
  | h :: hs, mem => do
    let (h, mem) ← copyPart h mem
    let (hs, mem) ← copyItems hs mem
    return (h :: hs, mem)

/-- Writes copies of the values of some keys to a map that is being made. -/
def copyEntries (m : OrderedMap Held) :
    List Text → OrderedMap Held → Memory → Option (OrderedMap Held × Memory)
  | [], made, mem => some (made, mem)
  | key :: keys, made, mem => do
    let (h, mem) ← copyPart (m.table.getD key default) mem
    copyEntries m keys (made.set key h) mem

/-- Makes an object like the one at an address, out of copies of its parts. -/
def copyObject (a : Address) (mem : Memory) : Option (Address × Memory) :=
  match mem[a]? with
  | none => none
  | some (.list items) => (copyItems copyPart items mem).map fun (items, mem) => new mem (.list items)
  | some (.map m) => (copyEntries copyPart m m.keys {} mem).map fun (m, mem) => new mem (.map m)

end

/-- Copies what is held, down to some depth. A plain value is its own copy. -/
def copy : (fuel : Nat) → Held → Memory → Option (Held × Memory)
  | _, .plain v hv, mem => some (.plain v hv, mem)
  | 0, .ref _, _ => none
  | fuel + 1, .ref a, mem => (copyObject (copy fuel) a mem).map fun (c, mem) => (.ref c, mem)

end Memory

/-! ### Maps under names

A name has the place of a map. A write changes the map where it is, and is the only thing that does; a copy
gives its name a new place. -/

/-- Maps in one memory, by names. -/
structure Maps where
  memory : Memory := []
  places : Dict Address := []

namespace Maps

/-- A key of a map is written, or a map is copied under a name. -/
inductive Step where
  | write (name key : Text) (v : Value)
  | copy (origin name : Text)

/-- The map under a name, empty if there is none. -/
def find (ms : Maps) (name : Text) : OrderedMap Held :=
  match ms.places.get? name with
  | some a => ms.memory.mapAt a
  | none => {}

/-- Puts a map that was just made under a name. -/
def settle (ms : Maps) (name : Text) (made : Address × Memory) : Maps :=
  { memory := made.2, places := ms.places.set name made.1 }

/-- The place of the map under a name. If there is none, an empty one is made. -/
def locate (ms : Maps) (name : Text) : Address × Maps :=
  match ms.places.get? name with
  | some a => (a, ms)
  | none => (ms.memory.length, ms.settle name (ms.memory.new (.map {})))

/-- Carries out a step. What is written is put into objects of its own first, and the map itself is changed
where it is. -/
def apply (fuel : Nat) (ms : Maps) : Step → Option Maps
  | .write name key v =>
    let (a, ms) := ms.locate name
    let (h, memory) := ms.memory.hold v
    some { ms with memory := memory.set a (.map ((memory.mapAt a).set key h)) }
  | .copy origin name =>
    match ms.places.get? origin with
    | none => some (ms.settle name (ms.memory.new (.map {})))
    | some a => (ms.memory.copyObject (Memory.copy fuel) a).map (ms.settle name)

/-- All maps after some steps, starting with none. -/
def run (fuel : Nat) (steps : List Step) : Option Maps := steps.foldlM (apply fuel) {}

end Maps

end Mundart
