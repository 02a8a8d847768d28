import Mathlib.Data.List.Perm.Basic
import Mundart.Proofs.Dict
import Mundart.Proofs.Json.RoundTrip
import Mundart.Value.Json

/-!
# Values through JSON

A value that is written as JSON and read back is the same value, except that the entries of its
associative arrays stand in the order of their keys. Numbers are read by their text, so that an integer
stays what it is. The one limit is the depth to which a document is read.

* **`Storable`** — values without doubles and functions, all of whose texts are well-formed;
* **`Reordered`** — a value with the entries of every associative array in ascending order of their keys;
* **`Storable.kept`** — a storable value has a document that it is written as and read back from;
* **`writeJson?_read_back`** — the text of a value is read back as the reordered value;
* **`writeJson?_too_deep`** — one level more is written, but not read.
-/

namespace Mundart.Value

open Mundart.Json (Plain)

/-- A value made of absence, truth values, integers and well-formed texts. No key of an associative
array stands twice. -/
inductive Storable : Value → Prop where
  | absent : Storable .absent
  | bool (b : Bool) : Storable (.bool b)
  | int (n : Int64) : Storable (.int n)
  | text {t : Text} (ht : t.isUtf8 = true) : Storable (.text t)
  | array {items : List Value} (hitems : ∀ v ∈ items, Storable v) : Storable (.array items)
  | assoc {entries : List (Text × Value)} (hkeys : (Dict.keys entries).Nodup)
      (hutf8 : ∀ e ∈ entries, e.1.isUtf8 = true) (hvalues : ∀ e ∈ entries, Storable e.2) :
      Storable (.assoc entries)

/-- The second value is the first one with the entries of every associative array, at every depth, in
ascending order of their keys. -/
inductive Reordered : Value → Value → Prop where
  | absent : Reordered .absent .absent
  | bool (b : Bool) : Reordered (.bool b) (.bool b)
  | int (n : Int64) : Reordered (.int n) (.int n)
  | text (t : Text) : Reordered (.text t) (.text t)
  | array {items items' : List Value} (hitems : List.Forall₂ Reordered items items') :
      Reordered (.array items) (.array items')
  | assoc {entries shuffled entries' : List (Text × Value)} (hperm : entries.Perm shuffled)
      (hkeys : Dict.keys shuffled = Dict.keys entries')
      (hvalues : List.Forall₂ Reordered (Dict.values shuffled) (Dict.values entries'))
      (hascending : (Dict.keys entries').Pairwise fun a b => Text.before a b = true) :
      Reordered (.assoc entries) (.assoc entries')

/-- A value is written as a document, as deep as the value is nested, and the reordered value is read
back from it. -/
structure Kept (v : Value) (j : Json) : Prop where
  written : v.nesting ≤ Json.maxDepth → v.writeJson? = some (Json.render j)
  plain : ∀ {depth}, v.nesting ≤ depth → Plain depth j
  read : ∃ w, ofJson? .exact j = some w ∧ v.Reordered w

/-! ## Lists

The document of a list is the one of its items. Writing checks every item by itself, as the encoder does: an
item that is nested too deep is refused although the list around it would be written. -/

/-- Lists whose members are related one by one. -/
theorem exists_forall₂ {α β : Type} {R : α → β → Prop} (as : List α) (h : ∀ a ∈ as, ∃ b, R a b) :
    ∃ bs, List.Forall₂ R as bs := by
  induction as with
  | nil => exact ⟨[], .nil⟩
  | cons a as ih =>
    obtain ⟨b, hb⟩ := h a List.mem_cons_self
    obtain ⟨bs, hbs⟩ := ih fun a ha => h a (List.mem_cons_of_mem _ ha)
    exact ⟨b :: bs, .cons hb hbs⟩

/-- An item is written if it is not nested too deep to be read by itself. -/
theorem writeItems?_cons {v : Value} {t : Text} (hv : writeJson? v = some t)
    (hdepth : nesting v ≤ Json.maxDepth) (vs : List Value) :
    writeItems? (v :: vs) = (writeItems? vs).map (t :: ·) := by
  have hguard : (guard (nesting v ≤ Json.maxDepth) : Option Unit) = some () := if_pos hdepth
  show (do
    let t ← writeJson? v
    guard (nesting v ≤ Json.maxDepth)
    let ts ← writeItems? vs
    pure (t :: ts)) = _
  rw [hv, hguard]
  cases writeItems? vs with
  | none => rfl
  | some ts => rfl

/-- An item that is not written leaves the list unwritten. -/
theorem writeItems?_none {v : Value} (hv : writeJson? v = none) (vs : List Value) :
    writeItems? (v :: vs) = none := by
  show (do
    let t ← writeJson? v
    guard (nesting v ≤ Json.maxDepth)
    let ts ← writeItems? vs
    pure (t :: ts)) = _
  rw [hv]
  rfl

/-- An item that is nested too deep leaves the list unwritten. -/
theorem writeItems?_deep {v : Value} (hdepth : ¬ nesting v ≤ Json.maxDepth) (vs : List Value) :
    writeItems? (v :: vs) = none := by
  have hguard : (guard (nesting v ≤ Json.maxDepth) : Option Unit) = none := if_neg hdepth
  show (do
    let t ← writeJson? v
    guard (nesting v ≤ Json.maxDepth)
    let ts ← writeItems? vs
    pure (t :: ts)) = _
  rw [hguard]
  cases writeJson? v with
  | none => rfl
  | some t => rfl

/-- Items that are kept are written one after the other. -/
theorem writeItems?_kept {items : List Value} {js : List Json} (h : List.Forall₂ Kept items js)
    (hdepth : nestingItems items ≤ Json.maxDepth) :
    writeItems? items = some (Json.renderItems js) := by
  induction h with
  | nil => rfl
  | @cons v j vs js hv _ ih =>
    rw [nestingItems, Nat.max_le] at hdepth
    rw [writeItems?_cons (hv.written hdepth.1) hdepth.1, ih hdepth.2]
    rfl

/-- Their documents have only what the reader takes, down to the same depth. -/
theorem plain_items {items : List Value} {js : List Json} (h : List.Forall₂ Kept items js) {depth : Nat}
    (hdepth : nestingItems items ≤ depth) : ∀ j ∈ js, Plain depth j := by
  induction h with
  | nil => exact nofun
  | @cons v j vs js hv _ ih =>
    rw [nestingItems, Nat.max_le] at hdepth
    intro i hi
    obtain rfl | hi := List.mem_cons.mp hi
    · exact hv.plain hdepth.1
    · exact ih hdepth.2 i hi

/-- The items are read back one by one. -/
theorem itemsOfJson?_kept {items : List Value} {js : List Json} (h : List.Forall₂ Kept items js) :
    ∃ ws, itemsOfJson? .exact js = some ws ∧ List.Forall₂ Reordered items ws := by
  induction h with
  | nil => exact ⟨[], rfl, .nil⟩
  | @cons v j vs js hv _ ih =>
    obtain ⟨w, hw, hreordered⟩ := hv.read
    obtain ⟨ws, hws, hrest⟩ := ih
    refine ⟨w :: ws, ?_, .cons hreordered hrest⟩
    rw [itemsOfJson?, hw, hws]
    rfl

/-- So a list is kept if its items are. -/
theorem kept_array {items : List Value} {js : List Json} (h : List.Forall₂ Kept items js) :
    Kept (.array items) (.array js) := by
  refine ⟨fun hdepth => ?_, fun {depth} hdepth => ?_, ?_⟩
  · rw [writeJson?, writeItems?_kept h (Nat.le_of_succ_le hdepth)]
    rfl
  · match depth with
    | depth + 1 => exact .array (plain_items h (Nat.le_of_succ_le_succ hdepth))
  · obtain ⟨ws, hws, hreordered⟩ := itemsOfJson?_kept h
    refine ⟨.array ws, ?_, .array hreordered⟩
    rw [ofJson?, hws]
    rfl

/-! ## Associative arrays

Entries are written in their order, and read back into a dictionary that is then sorted by its keys. So the
values that come back belong to the entries in another order: `Reordered` gives it as a permutation. -/

/-- An entry and the member that it is kept as. -/
def KeptEntry (e : Text × Value) (m : Text × Json) : Prop := e.1 = m.1 ∧ Kept e.2 m.2

/-- An entry and what it is read back as. -/
def ReorderedEntry (e e' : Text × Value) : Prop := e.1 = e'.1 ∧ e.2.Reordered e'.2

/-- Entries that are kept are written one after the other. -/
theorem writeEntries?_kept {es : List (Text × Value)} {ms : List (Text × Json)}
    (h : List.Forall₂ KeptEntry es ms) (hdepth : nestingEntries es ≤ Json.maxDepth) :
    writeEntries? es = some (Json.renderMembers ms) := by
  induction h with
  | nil => rfl
  | @cons e m es ms he _ ih =>
    obtain ⟨key, v⟩ := e
    obtain ⟨name, j⟩ := m
    obtain ⟨rfl, hv⟩ := he
    rw [nestingEntries, Nat.max_le] at hdepth
    rw [writeEntries?, hv.written hdepth.1, ih hdepth.2]
    rfl

/-- The documents of entries that are kept have only what the reader takes. -/
theorem plain_members {es : List (Text × Value)} {ms : List (Text × Json)}
    (h : List.Forall₂ KeptEntry es ms) {depth : Nat} (hdepth : nestingEntries es ≤ depth)
    (hutf8 : ∀ e ∈ es, e.1.isUtf8 = true) :
    (∀ m ∈ ms, m.1.isUtf8 = true) ∧ ∀ m ∈ ms, Plain depth m.2 := by
  induction h with
  | nil => exact ⟨nofun, nofun⟩
  | @cons e m es ms he _ ih =>
    obtain ⟨key, v⟩ := e
    obtain ⟨name, j⟩ := m
    obtain ⟨rfl, hv⟩ := he
    rw [nestingEntries, Nat.max_le] at hdepth
    obtain ⟨hnames, hplain⟩ := ih hdepth.2 fun e he => hutf8 e (List.mem_cons_of_mem _ he)
    exact ⟨List.forall_mem_cons.mpr ⟨hutf8 _ List.mem_cons_self, hnames⟩,
      List.forall_mem_cons.mpr ⟨hv.plain hdepth.1, hplain⟩⟩

/-- The documents of entries that are kept are read back in the same order. -/
theorem membersOfJson?_kept {es : List (Text × Value)} {ms : List (Text × Json)}
    (h : List.Forall₂ KeptEntry es ms) :
    ∃ ws, membersOfJson? .exact ms = some ws ∧ List.Forall₂ ReorderedEntry es ws := by
  induction h with
  | nil => exact ⟨[], rfl, .nil⟩
  | @cons e m es ms he _ ih =>
    obtain ⟨key, v⟩ := e
    obtain ⟨name, j⟩ := m
    obtain ⟨rfl, hv⟩ := he
    obtain ⟨w, hw, hreordered⟩ := hv.read
    obtain ⟨ws, hws, hrest⟩ := ih
    refine ⟨(_, w) :: ws, ?_, .cons ⟨rfl, hreordered⟩ hrest⟩
    rw [membersOfJson?, hw, hws]
    rfl

/-- What is read back has the same keys in the same places. -/
theorem keys_of_forall₂ {es es' : List (Text × Value)} (h : List.Forall₂ ReorderedEntry es es') :
    Dict.keys es = Dict.keys es' := by
  induction h with
  | nil => rfl
  | cons he _ ih => rw [Dict.keys_cons, Dict.keys_cons, he.1, ih]

/-- What is read back in key order is the reordered array. -/
theorem reordered_assoc {es ws : List (Text × Value)} (hkeys : (Dict.keys es).Nodup)
    (h : List.Forall₂ ReorderedEntry es ws) :
    (Value.assoc es).Reordered (.assoc (Dict.byKey ws)) := by
  have hws : (Dict.keys ws).Nodup := keys_of_forall₂ h ▸ hkeys
  -- Reading and sorting change places: the entries can be moved first and read afterwards.
  obtain ⟨shuffled, hperm, hsame⟩ : Relation.Comp List.Perm (List.Forall₂ ReorderedEntry) es
      (Dict.byKey ws) := by
    rw [← List.forall₂_comp_perm_eq_perm_comp_forall₂]
    exact ⟨ws, h, (Dict.byKey_perm ws).symm⟩
  refine .assoc hperm (keys_of_forall₂ hsame) ?_ (Dict.ascending_byKey hws)
  rw [Dict.values, Dict.values, List.forall₂_map_left_iff, List.forall₂_map_right_iff]
  exact hsame.imp fun _ _ he => he.2

/-- So an associative array is kept if its values are. -/
theorem kept_assoc {es : List (Text × Value)} {ms : List (Text × Json)}
    (hkeys : (Dict.keys es).Nodup) (hutf8 : ∀ e ∈ es, e.1.isUtf8 = true)
    (h : List.Forall₂ KeptEntry es ms) : Kept (.assoc es) (.object ms) := by
  refine ⟨fun hdepth => ?_, fun {depth} hdepth => ?_, ?_⟩
  · rw [writeJson?, writeEntries?_kept h (Nat.le_of_succ_le hdepth)]
    rfl
  · match depth with
    | depth + 1 =>
      obtain ⟨hnames, hplain⟩ := plain_members h (Nat.le_of_succ_le_succ hdepth) hutf8
      exact .object hnames hplain
  · obtain ⟨ws, hws, hreordered⟩ := membersOfJson?_kept h
    have hnodup : (Dict.keys ws).Nodup := keys_of_forall₂ hreordered ▸ hkeys
    refine ⟨.assoc (Dict.byKey ws), ?_, reordered_assoc hkeys hreordered⟩
    rw [ofJson?, hws, Option.map_some, Dict.ofWrites_of_nodup hnodup]

/-! ## Values

By induction on the value, with the document built along the way. It is this document that both directions
meet in: the writer renders it, and the reader parses what was rendered. -/

/-- A storable value has a document that it is written as and read back from. -/
theorem Storable.kept {v : Value} (h : Storable v) : ∃ j, Kept v j := by
  induction h with
  | absent => exact ⟨.null, fun _ => rfl, fun _ => .null, .absent, rfl, .absent⟩
  | bool b => exact ⟨.bool b, fun _ => rfl, fun _ => .bool b, .bool b, rfl, .bool b⟩
  | int n =>
    refine ⟨.ofInt n.toInt, fun _ => rfl, fun _ => .number (Json.numeral_ofInt _), .int n, ?_, .int n⟩
    -- A number is read by its text, which is that of the integer.
    show ofNumber? .exact (Text.ofInt n.toInt) = some (.int n)
    rw [ofNumber?, Number.readInt64_ofInt]
  | text ht => exact ⟨.string _, fun _ => rfl, fun _ => .string ht, .text _, rfl, .text _⟩
  | array _ ih =>
    obtain ⟨js, hjs⟩ := exists_forall₂ _ ih
    exact ⟨.array js, kept_array hjs⟩
  | @assoc entries hkeys hutf8 _ ih =>
    have hentries : ∀ e ∈ entries, ∃ m, KeptEntry e m := by
      intro e he
      obtain ⟨j, hj⟩ := ih e he
      exact ⟨(e.1, j), rfl, hj⟩
    obtain ⟨ms, hms⟩ := exists_forall₂ _ hentries
    exact ⟨.object ms, kept_assoc hkeys hutf8 hms⟩

/-- The text of a value is read back as the value with its associative arrays in key order, if the
value is not nested deeper than documents are read. -/
theorem writeJson?_read_back {v : Value} (h : Storable v) (hdepth : v.nesting ≤ Json.maxDepth) :
    ∃ t d w, v.writeJson? = some t ∧ Json.read? t = some d ∧ ofJson? .exact d = some w ∧
      v.Reordered w := by
  obtain ⟨j, hj⟩ := h.kept
  obtain ⟨w, hread, hreordered⟩ := hj.read
  exact ⟨Json.render j, j, w, hj.written hdepth, Json.read?_render (hj.plain hdepth), hread, hreordered⟩

/-- Keys out of order, a negative number and characters with and without an escape: the entries change
places, and nothing else. -/
theorem writeJson?_read_back_scattered :
    let v : Value := .assoc [("zwa", .array [.int (-5), .text "<ö>\n\"", .absent]), ("ans", .bool true)]
    v.Storable ∧ v.nesting ≤ Json.maxDepth ∧ ∃ t d w, v.writeJson? = some t ∧ Json.read? t = some d ∧
      ofJson? .exact d = some w ∧ v.Reordered w ∧
      t = "\x7b\"zwa\":[-5,\"\\u003cö\\u003e\\n\\\"\",null],\"ans\":true\x7d" := by
  intro v
  have hitems : ∀ w ∈ [Value.int (-5), .text "<ö>\n\"", .absent], Storable w :=
    List.forall_mem_cons.mpr ⟨.int _, List.forall_mem_cons.mpr ⟨.text (by decide +kernel),
      List.forall_mem_cons.mpr ⟨.absent, nofun⟩⟩⟩
  have hstorable : v.Storable := by
    refine .assoc (by decide +kernel) (by decide +kernel) ?_
    exact List.forall_mem_cons.mpr ⟨.array hitems, List.forall_mem_cons.mpr ⟨.bool true, nofun⟩⟩
  have hdepth : v.nesting ≤ Json.maxDepth := by decide
  obtain ⟨t, d, w, hwritten, hread, hvalue, hreordered⟩ := writeJson?_read_back hstorable hdepth
  refine ⟨hstorable, hdepth, t, d, w, hwritten, hread, hvalue, hreordered, ?_⟩
  have htext : v.writeJson? =
      some "\x7b\"zwa\":[-5,\"\\u003cö\\u003e\\n\\\"\",null],\"ans\":true\x7d" := by
    decide +kernel
  exact Option.some.inj (hwritten.symm.trans htext)

/-! ## Too deep

A value that is kept but for its depth. Writing has no bound of its own; it checks items only, so that the
outermost list is one more than can be read. -/

/-- An empty list inside of so many lists. -/
def wrapped : Nat → Value
  | 0 => .array []
  | n + 1 => .array [wrapped n]

/-- Every list around adds one level. -/
theorem nesting_wrapped (n : Nat) : (wrapped n).nesting = n + 1 := by
  induction n with
  | zero => rfl
  | succ n ih => rw [wrapped, nesting, nestingItems, nestingItems, ih, Nat.max_zero]

/-- Lists inside of each other are storable. -/
theorem storable_wrapped (n : Nat) : (wrapped n).Storable := by
  induction n with
  | zero => exact .array nofun
  | succ n ih => exact .array (List.forall_mem_singleton.mpr ih)

/-- What is written is a row of brackets that open and one of brackets that close. -/
theorem writeJson?_wrapped {n : Nat} (h : n ≤ Json.maxDepth) :
    (wrapped n).writeJson? = some (List.replicate (n + 1) 91 ++ List.replicate (n + 1) 93) := by
  induction n with
  | zero => rfl
  | succ n ih =>
    -- The list inside is written by itself, as it is not too deep yet.
    have hitem : (wrapped n).nesting ≤ Json.maxDepth := by rwa [nesting_wrapped]
    have hitems : writeItems? [wrapped n] =
        some [List.replicate (n + 1) 91 ++ List.replicate (n + 1) 93] := by
      rw [writeItems?_cons (ih (Nat.le_of_succ_le h)) hitem]
      rfl
    rw [wrapped, writeJson?, hitems, Option.map_some, Json.join_singleton,
      List.replicate_succ (n := n + 1), List.replicate_succ' (n := n + 1) (a := 93), List.append_assoc,
      List.append_assoc]
    rfl

/-- One level more than a document may have is written, but not read. A further one is not even
written. -/
theorem writeJson?_too_deep :
    (wrapped Json.maxDepth).Storable ∧
    (∃ t, (wrapped Json.maxDepth).writeJson? = some t ∧ Json.read? t = none) ∧
    (wrapped (Json.maxDepth + 1)).writeJson? = none := by
  refine ⟨storable_wrapped _, ⟨_, writeJson?_wrapped (Nat.le_refl _), Json.read?_too_deep _⟩, ?_⟩
  have hitem : ¬ (wrapped Json.maxDepth).nesting ≤ Json.maxDepth := by
    rw [nesting_wrapped]
    exact Nat.not_succ_le_self _
  rw [wrapped, writeJson?, writeItems?_deep hitem]
  rfl

end Mundart.Value
