import Mathlib.Data.List.Perm.Basic
import Mundart.Proofs.Dict
import Mundart.Proofs.Json.RoundTrip

/-!
# Documents up to the order of members

Two documents are alike if they differ by the order of the members of their objects only. Reading is not
disturbed by texts that are not well-formed: they are written with U+FFFD for every stray byte, and so they
are read back.

* **`Json.nestedInduction`** — induction over documents, with a hypothesis for every item and member;
* **`Json.Alike`** — documents that are the same up to the order of members;
* **`Json.repaired`**, **`Within.read?_render`** — what is read back from the text of any document;
* **`Json.sorted`**, **`alike_sorted`** — a document with the members of every object in key order.
-/

namespace Mundart.Json

open Mundart.Text (repair)

/-! ## Induction

One case for each sort of document, with the items and members as lists of documents. -/

section

variable {P : Json → Prop} (null : P .null) (bool : ∀ b, P (.bool b)) (number : ∀ t, P (.number t))
  (string : ∀ t, P (.string t)) (array : ∀ items, (∀ j ∈ items, P j) → P (.array items))
  (object : ∀ members, (∀ m ∈ members, P m.2) → P (.object members))

include null bool number string array object

/-- What holds of the scalars, and of a list or an object if it holds of everything in it, holds of every
document. -/
@[elab_as_elim]
theorem nestedInduction (j : Json) : P j :=
  Json.rec (motive_1 := P) null bool number string array object nofun
    (fun _ _ hj hjs => List.forall_mem_cons.mpr ⟨hj, hjs⟩) nofun
    (fun _ _ hm hms => List.forall_mem_cons.mpr ⟨hm, hms⟩) (fun _ _ h => h) j

end

/-! ## Texts that are not well-formed

A writer that meets a byte which belongs to no character writes the replacement character, so that the text
which is read back is the repaired one. Two documents that are the same after repair are written alike. -/

/-- A repaired text is well-formed UTF-8. -/
theorem isUtf8_repair (t : Text) : (repair t).isUtf8 = true := by
  rw [Text.isUtf8, repair, Text.runes_ofChars, List.all_map, List.all_eq_true]
  exact fun _ _ => rfl

/-- A stray byte is written as the character that it is read as. -/
theorem escapeRune_toChar (r : Rune) : escapeRune (.char r.toChar) = escapeRune r := by
  cases r with
  | char c => rfl
  | stray b => rfl

/-- A repaired text is written as before, since the writer repairs what it quotes. -/
theorem quote_repair (t : Text) : quote (repair t) = quote t := by
  have hescaped : (fun c => escapeRune (.char c)) ∘ Rune.toChar = escapeRune := funext escapeRune_toChar
  rw [repair, quote_ofChars, Text.chars, List.flatMap_map, quote]
  exact congrArg (fun f => 34 :: (Text.runes t).flatMap f ++ [34]) hescaped

mutual

/-- The document with U+FFFD for every stray byte of its texts. -/
def repaired : Json → Json
  | .string t => .string (repair t)
  | .array items => .array (repairedItems items)
  | .object members => .object (repairedMembers members)
  | .null => .null
  | .bool b => .bool b
  | .number literal => .number literal

def repairedItems : List Json → List Json
  | [] => []
  | j :: js => repaired j :: repairedItems js

def repairedMembers : List (Text × Json) → List (Text × Json)
  | [] => []
  | (name, j) :: ms => (repair name, repaired j) :: repairedMembers ms

end

/-- Items are repaired one by one. -/
theorem repairedItems_eq (js : List Json) : repairedItems js = js.map repaired := by
  induction js with
  | nil => rfl
  | cons j js ih => rw [repairedItems, ih, List.map_cons]

/-- Members are repaired one by one, names included. -/
theorem repairedMembers_eq (ms : List (Text × Json)) :
    repairedMembers ms = ms.map fun m => (repair m.1, m.2.repaired) := by
  induction ms with
  | nil => rfl
  | cons m ms ih => rw [repairedMembers, ih, List.map_cons]

/-- Repaired items are written as before if each of them is. -/
theorem renderItems_repaired {js : List Json} (h : ∀ j ∈ js, render j.repaired = render j) :
    renderItems (repairedItems js) = renderItems js := by
  induction js with
  | nil => rfl
  | cons j js ih =>
    obtain ⟨hj, hjs⟩ := List.forall_mem_cons.mp h
    rw [repairedItems, renderItems, renderItems, hj, ih hjs]

/-- Repaired members are written as before if their values are. -/
theorem renderMembers_repaired {ms : List (Text × Json)} (h : ∀ m ∈ ms, render m.2.repaired = render m.2) :
    renderMembers (repairedMembers ms) = renderMembers ms := by
  induction ms with
  | nil => rfl
  | cons m ms ih =>
    obtain ⟨hm, hms⟩ := List.forall_mem_cons.mp h
    rw [repairedMembers, renderMembers, renderMembers, quote_repair, hm, ih hms]

/-- A document and the repaired one have the same text. -/
theorem render_repaired (j : Json) : render j.repaired = render j := by
  induction j using nestedInduction with
  | null | bool | number => rfl
  | string t => exact quote_repair t
  | array items ih => rw [repaired, render, render, renderItems_repaired ih]
  | object members ih => rw [repaired, render, render, renderMembers_repaired ih]

/-- A document whose numbers are numerals, nested no deeper than a given depth. -/
inductive Within : (depth : Nat) → Json → Prop where
  | null {depth : Nat} : Within depth .null
  | bool {depth : Nat} (b : Bool) : Within depth (.bool b)
  | number {depth : Nat} {literal : Text} (h : Numeral literal) : Within depth (.number literal)
  | string {depth : Nat} (t : Text) : Within depth (.string t)
  | array {depth : Nat} {items : List Json} (hitems : ∀ j ∈ items, Within depth j) :
      Within (depth + 1) (.array items)
  | object {depth : Nat} {members : List (Text × Json)} (hmembers : ∀ m ∈ members, Within depth m.2) :
      Within (depth + 1) (.object members)

/-- A document that is not nested too deep is read back once it is repaired. -/
theorem Within.plain {depth : Nat} {j : Json} (h : Within depth j) : Plain depth j.repaired := by
  induction h with
  | null => exact .null
  | bool b => exact .bool b
  | number h => exact .number h
  | string t => exact .string (isUtf8_repair t)
  | array _ ih =>
    rw [repaired, repairedItems_eq]
    refine .array fun i hi => ?_
    obtain ⟨j, hj, rfl⟩ := List.mem_map.mp hi
    exact ih j hj
  | object _ ih =>
    rw [repaired, repairedMembers_eq]
    refine .object (fun n hn => ?_) fun n hn => ?_
    · obtain ⟨m, -, rfl⟩ := List.mem_map.mp hn
      exact isUtf8_repair m.1
    · obtain ⟨m, hm, rfl⟩ := List.mem_map.mp hn
      exact ih m hm

/-- What is read from the text of a document is the repaired document. -/
theorem Within.read?_render {j : Json} (h : Within maxDepth j) : read? (render j) = some j.repaired := by
  rw [← render_repaired]
  exact Json.read?_render h.plain

/-! ## Key order

Sorting the keys of every object, at every depth, as one of the encoders does. -/

mutual

/-- The document with the members of every object in key order. -/
def sorted : Json → Json
  | .array items => .array (sortedItems items)
  | .object members => .object (Dict.byKey (sortedMembers members))
  | .null => .null
  | .bool b => .bool b
  | .number literal => .number literal
  | .string t => .string t

def sortedItems : List Json → List Json
  | [] => []
  | j :: js => sorted j :: sortedItems js

def sortedMembers : List (Text × Json) → List (Text × Json)
  | [] => []
  | (name, j) :: ms => (name, sorted j) :: sortedMembers ms

end

/-- Items are sorted each by itself. -/
theorem sortedItems_eq (js : List Json) : sortedItems js = js.map sorted := by
  induction js with
  | nil => rfl
  | cons j js ih => rw [sortedItems, ih, List.map_cons]

/-- The values of members are sorted before the members change places. -/
theorem sortedMembers_eq (ms : List (Text × Json)) : sortedMembers ms = Dict.mapValues sorted ms := by
  induction ms with
  | nil => rfl
  | cons m ms ih =>
    rw [sortedMembers, ih]
    rfl

/-- Sorting an object first puts its members in order and then sorts each of them. -/
theorem sorted_object (ms : List (Text × Json)) :
    sorted (.object ms) = .object ((Dict.byKey ms).map fun m => (m.1, m.2.sorted)) := by
  rw [sorted, sortedMembers_eq, ← Dict.mapValues_byKey, Dict.mapValues]

/-- Sorting does not make a document deeper. -/
theorem Within.sorted {depth : Nat} {j : Json} (h : Within depth j) : Within depth j.sorted := by
  induction h with
  | null => exact .null
  | bool b => exact .bool b
  | number h => exact .number h
  | string t => exact .string t
  | array _ ih =>
    rw [Json.sorted, sortedItems_eq]
    refine .array fun i hi => ?_
    obtain ⟨j, hj, rfl⟩ := List.mem_map.mp hi
    exact ih j hj
  | object _ ih =>
    rw [sorted_object]
    refine .object fun n hn => ?_
    obtain ⟨m, hm, rfl⟩ := List.mem_map.mp hn
    exact ih m ((Dict.byKey_perm _).mem_iff.mp hm)

/-! ## Up to the order of members

Documents are alike if the one is the other after moving members. It is the most that two encoders with
different orders can have in common. -/

/-- Two documents are the same up to the order of the members of their objects, at every depth. -/
inductive Alike : Json → Json → Prop where
  | null : Alike .null .null
  | bool (b : Bool) : Alike (.bool b) (.bool b)
  | number (literal : Text) : Alike (.number literal) (.number literal)
  | string (t : Text) : Alike (.string t) (.string t)
  | array {items items' : List Json} (hitems : List.Forall₂ Alike items items') :
      Alike (.array items) (.array items')
  | object {members shuffled members' : List (Text × Json)} (hperm : members.Perm shuffled)
      (hnames : Dict.keys shuffled = Dict.keys members')
      (hvalues : List.Forall₂ Alike (Dict.values shuffled) (Dict.values members')) :
      Alike (.object members) (.object members')

/-- A document and the sorted one are read alike. -/
theorem alike_sorted (j : Json) : Alike j.repaired j.sorted.repaired := by
  induction j using nestedInduction with
  | null => exact .null
  | bool b => exact .bool b
  | number t => exact .number t
  | string t => exact .string _
  | array items ih =>
    rw [sorted, repaired, repaired, repairedItems_eq, repairedItems_eq, sortedItems_eq, List.map_map]
    refine .array (List.forall₂_map_left_iff.mpr (List.forall₂_map_right_iff.mpr ?_))
    exact List.forall₂_same.mpr ih
  | object members ih =>
    have hvalues : ∀ m ∈ Dict.byKey members, Alike m.2.repaired m.2.sorted.repaired := fun m hm =>
      ih m ((Dict.byKey_perm members).mem_iff.mp hm)
    rw [sorted_object, repaired, repaired, repairedMembers_eq, repairedMembers_eq, List.map_map]
    refine .object ((Dict.byKey_perm members).symm.map _) ?_ ?_
    · rw [Dict.keys, Dict.keys, List.map_map, List.map_map]
      rfl
    · rw [Dict.values, Dict.values, List.map_map, List.map_map, List.forall₂_map_left_iff,
        List.forall₂_map_right_iff]
      exact List.forall₂_same.mpr hvalues

end Mundart.Json
