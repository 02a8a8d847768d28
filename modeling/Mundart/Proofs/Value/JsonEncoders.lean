import Mundart.Proofs.Json.Alike
import Mundart.Proofs.Json.Double
import Mundart.Proofs.Value.JsonRoundTrip

/-!
# The two ways to JSON

A value is written as JSON in two ways: as a text with the entries of its associative arrays in their own
order, and as a document in key order. Both stem from one document, so that they fail for the same doubles
and their texts are read alike. Only the first one minds how deep the items of a list are nested.

* **`Value.Unwritable`**, **`Value.HasDeepItem`** — what keeps a value from being written;
* **`Value.document?`** — the document of a value, its entries in their own order;
* **`toJson?_eq`**, **`writeJson?_eq`** — both ways by this document;
* **`encoders_agree`** — when each of them fails, and that their texts are read alike;
* **`encoders_too_deep`** — one list more than is read, and two.
-/

namespace Mundart.Value

open Mundart.Json (Within)

/-! ## Induction

Both encoders follow the value: one by its items and its entries as they stand, the other by its entries in
key order. The same induction serves for all that is said of either. -/

section

variable {P : Value → Prop} (absent : P .absent) (bool : ∀ b, P (.bool b)) (int : ∀ n, P (.int n))
  (double : ∀ x, P (.double x)) (text : ∀ t, P (.text t)) (func : ∀ name, P (.func name))
  (array : ∀ items, (∀ v ∈ items, P v) → P (.array items))
  (assoc : ∀ entries, (∀ e ∈ entries, P e.2) → P (.assoc entries))

include absent bool int double text func array assoc

/-- What holds of the scalars, and of a list or an associative array if it holds of everything in it, holds of
every value. -/
@[elab_as_elim]
theorem nestedInduction (v : Value) : P v :=
  Value.rec (motive_1 := P) absent bool int double text array assoc func nofun
    (fun _ _ hv hvs => List.forall_mem_cons.mpr ⟨hv, hvs⟩) nofun
    (fun _ _ he hes => List.forall_mem_cons.mpr ⟨he, hes⟩) (fun _ _ h => h) v

end

/-! ## What is not written

A value has a document unless a NaN or an infinity is in it, at any depth. A list fails as a whole if one of
its items does. -/

/-- An infinity or a NaN stands somewhere in a value. -/
inductive Unwritable : Value → Prop where
  | double {x : Float} (h : x.isNaN = true ∨ x.isInf = true) : Unwritable (.double x)
  | item {v : Value} {items : List Value} (hv : v ∈ items) (h : v.Unwritable) : Unwritable (.array items)
  | entry {key : Text} {v : Value} {entries : List (Text × Value)} (hv : (key, v) ∈ entries)
      (h : v.Unwritable) : Unwritable (.assoc entries)

/-- Somewhere in a value there is a list with an item that is nested deeper than JSON is read. -/
inductive HasDeepItem : Value → Prop where
  | here {items : List Value} {v : Value} (hv : v ∈ items) (hdeep : Json.maxDepth < v.nesting) :
      HasDeepItem (.array items)
  | item {items : List Value} {v : Value} (hv : v ∈ items) (h : HasDeepItem v) : HasDeepItem (.array items)
  | entry {entries : List (Text × Value)} {e : Text × Value} (he : e ∈ entries) (h : HasDeepItem e.2) :
      HasDeepItem (.assoc entries)

/-- A value with a deep item is deeper itself. -/
theorem HasDeepItem.nesting {v : Value} (h : v.HasDeepItem) : Json.maxDepth < v.nesting := by
  induction h with
  | here hv hdeep => exact Nat.lt_succ_of_lt (Nat.lt_of_lt_of_le hdeep (nesting_le_items hv))
  | item hv _ ih => exact Nat.lt_succ_of_lt (Nat.lt_of_lt_of_le ih (nesting_le_items hv))
  | entry he _ ih => exact Nat.lt_succ_of_lt (Nat.lt_of_lt_of_le ih (nesting_le_entries he))

/-! ## One document

The document that both encoders are compared with. It keeps the order of the entries, so that one of them
renders it as it is and the other one after sorting. -/

mutual

/-- The document of a value with its entries in their own order, unless a double in it has no text. -/
def document? : Value → Option Json
  | .absent => some .null
  | .bool b => some (.bool b)
  | .int n => some (Json.ofInt n.toInt)
  | .double x => (Double.json? x).map .number
  | .text t => some (.string t)
  | .func name => some (.string (nested (.func name)))
  | .array items => (documents? items).map .array
  | .assoc entries => (members? entries).map .object

def documents? : List Value → Option (List Json)
  | [] => some []
  | v :: vs => do
    let j ← document? v
    let js ← documents? vs
    pure (j :: js)

def members? : List (Text × Value) → Option (List (Text × Json))
  | [] => some []
  | (k, v) :: es => do
    let j ← document? v
    let ms ← members? es
    pure ((k, j) :: ms)

end

/-- Items have no documents together if one of them has none. -/
theorem documents?_eq_none_iff (vs : List Value) :
    documents? vs = none ↔ ∃ v ∈ vs, v.document? = none := by
  induction vs with
  | nil => simp [documents?]
  | cons v vs ih =>
    rw [List.exists_mem_cons_iff, ← ih, documents?]
    cases v.document? <;> cases documents? vs <;> simp

/-- Entries have no members together if one of their values has no document. -/
theorem members?_eq_none_iff (es : List (Text × Value)) :
    members? es = none ↔ ∃ e ∈ es, e.2.document? = none := by
  induction es with
  | nil => simp [members?]
  | cons e es ih =>
    rw [List.exists_mem_cons_iff, ← ih, members?]
    cases e.2.document? <;> cases members? es <;> simp

/-- Only infinities and NaN keep a value from having a document. -/
theorem document?_eq_none_iff (v : Value) : v.document? = none ↔ v.Unwritable := by
  induction v using nestedInduction with
  -- These always have a document, and no reason not to have one.
  | absent | bool | int | text | func => exact iff_of_false nofun fun h => nomatch h
  | double x =>
    rw [document?, Option.map_eq_none_iff, Double.json?_eq_none_iff]
    constructor
    · exact .double
    · intro h
      cases h with
      | double hx => exact hx
  | array items ih =>
    rw [document?, Option.map_eq_none_iff, documents?_eq_none_iff]
    constructor
    · rintro ⟨v, hv, h⟩
      exact .item hv ((ih v hv).mp h)
    · intro h
      cases h with
      | item hv h => exact ⟨_, hv, (ih _ hv).mpr h⟩
  | assoc entries ih =>
    rw [document?, Option.map_eq_none_iff, members?_eq_none_iff]
    constructor
    · rintro ⟨e, he, h⟩
      exact .entry he ((ih e he).mp h)
    · intro h
      cases h with
      | entry he h => exact ⟨_, he, (ih _ he).mpr h⟩

/-- Every document of a list is that of one of its items. -/
theorem exists_of_mem_documents {vs : List Value} {ds : List Json} (h : documents? vs = some ds) {d : Json}
    (hd : d ∈ ds) : ∃ v ∈ vs, v.document? = some d := by
  induction vs generalizing ds with
  | nil =>
    obtain rfl := Option.some.inj h
    exact nomatch hd
  | cons v vs ih =>
    -- There are documents only if the first item has one and the others do.
    obtain ⟨j, hj, h⟩ := Option.bind_eq_some_iff.mp h
    obtain ⟨js, hjs, h⟩ := Option.bind_eq_some_iff.mp h
    obtain rfl := Option.some.inj h
    obtain rfl | hd := List.mem_cons.mp hd
    · exact ⟨v, List.mem_cons_self, hj⟩
    · obtain ⟨w, hw, hdocument⟩ := ih hjs hd
      exact ⟨w, List.mem_cons_of_mem _ hw, hdocument⟩

/-- Every member of an object has the document of one of the entries. -/
theorem exists_of_mem_members {es : List (Text × Value)} {ms : List (Text × Json)}
    (h : members? es = some ms) {m : Text × Json} (hm : m ∈ ms) :
    ∃ e ∈ es, e.2.document? = some m.2 := by
  induction es generalizing ms with
  | nil =>
    obtain rfl := Option.some.inj h
    exact nomatch hm
  | cons e es ih =>
    obtain ⟨j, hj, h⟩ := Option.bind_eq_some_iff.mp h
    obtain ⟨js, hjs, h⟩ := Option.bind_eq_some_iff.mp h
    obtain rfl := Option.some.inj h
    obtain rfl | hm := List.mem_cons.mp hm
    · exact ⟨e, List.mem_cons_self, hj⟩
    · obtain ⟨f, hf, hdocument⟩ := ih hjs hm
      exact ⟨f, List.mem_cons_of_mem _ hf, hdocument⟩

/-- The document of a value is nested as deep as the value. -/
theorem within_of_document {v : Value} : ∀ {depth : Nat} {d : Json}, v.nesting ≤ depth →
    v.document? = some d → Within depth d := by
  induction v using nestedInduction with
  | absent =>
    rintro depth d - ⟨⟩
    exact .null
  | bool b =>
    rintro depth d - ⟨⟩
    exact .bool b
  | int n =>
    rintro depth d - ⟨⟩
    exact .number (Json.numeral_ofInt _)
  | double x =>
    intro depth d _ h
    obtain ⟨t, ht, rfl⟩ := Option.map_eq_some_iff.mp h
    exact .number (Double.numeral_of_json? ht)
  | text t =>
    rintro depth d - ⟨⟩
    exact .string t
  -- a function is written as a text with its name in it
  | func name =>
    rintro depth d - ⟨⟩
    exact .string _
  | array items ih =>
    intro depth d hdepth h
    obtain ⟨ds, hds, rfl⟩ := Option.map_eq_some_iff.mp h
    -- A list is nested at least once, so that the bound is not zero.
    match depth with
    | depth + 1 =>
      refine .array fun d hd => ?_
      obtain ⟨v, hv, hdocument⟩ := exists_of_mem_documents hds hd
      exact ih v hv (Nat.le_trans (nesting_le_items hv) (Nat.le_of_succ_le_succ hdepth)) hdocument
  | assoc entries ih =>
    intro depth d hdepth h
    obtain ⟨ms, hms, rfl⟩ := Option.map_eq_some_iff.mp h
    match depth with
    | depth + 1 =>
      refine .object fun m hm => ?_
      obtain ⟨e, he, hdocument⟩ := exists_of_mem_members hms hm
      exact ih e he (Nat.le_trans (nesting_le_entries he) (Nat.le_of_succ_le_succ hdepth)) hdocument

/-! ## As a document in key order

The encoder by way of a document sorts the keys of every object. Sorting the document of the value
afterwards has the same result, at every depth. -/

/-- Items are sorted each by itself. -/
theorem itemsToJson?_eq {vs : List Value} (ih : ∀ v ∈ vs, v.toJson? = v.document?.map Json.sorted) :
    itemsToJson? vs = (documents? vs).map Json.sortedItems := by
  induction vs with
  | nil => rfl
  | cons v vs ihs =>
    obtain ⟨hv, hvs⟩ := List.forall_mem_cons.mp ih
    rw [itemsToJson?, documents?, hv, ihs hvs]
    cases v.document? with
    | none => rfl
    | some j => cases documents? vs <;> rfl

/-- The values of entries are sorted each by itself. -/
theorem entriesToJson?_eq {es : List (Text × Value)}
    (ih : ∀ e ∈ es, e.2.toJson? = e.2.document?.map Json.sorted) :
    entriesToJson? es = (members? es).map Json.sortedMembers := by
  induction es with
  | nil => rfl
  | cons e es ihs =>
    obtain ⟨he, hes⟩ := List.forall_mem_cons.mp ih
    rw [entriesToJson?, members?, he, ihs hes]
    cases e.2.document? with
    | none => rfl
    | some j => cases members? es <;> rfl

/-- The document in key order is the sorted one. -/
theorem toJson?_eq (v : Value) : v.toJson? = v.document?.map Json.sorted := by
  induction v using nestedInduction with
  | absent | bool | int | text | func => rfl
  | double x =>
    rw [toJson?, document?, Option.map_map]
    rfl
  | array items ih =>
    rw [toJson?, document?, itemsToJson?_eq ih, Option.map_map, Option.map_map]
    rfl
  | assoc entries ih =>
    rw [toJson?, document?, entriesToJson?_eq ih, Option.map_map, Option.map_map]
    rfl

/-! ## As a text

The encoder of single values writes the text of an item before that of the list, and refuses an item that is
nested too deep by itself. Below that depth it renders the document. -/

/-- Items that are not too deep are rendered one by one. -/
theorem writeItems?_eq {vs : List Value} (hdepth : ∀ v ∈ vs, v.nesting ≤ Json.maxDepth)
    (ih : ∀ v ∈ vs, v.writeJson? = v.document?.map Json.render) :
    writeItems? vs = (documents? vs).map Json.renderItems := by
  induction vs with
  | nil => rfl
  | cons v vs ihs =>
    obtain ⟨hflat, hdepth⟩ := List.forall_mem_cons.mp hdepth
    obtain ⟨hv, hvs⟩ := List.forall_mem_cons.mp ih
    rw [documents?]
    -- One item without a document leaves the list without a text on both sides.
    cases hj : v.document? with
    | none =>
      rw [hj] at hv
      rw [writeItems?_none hv]
      rfl
    | some j =>
      rw [hj] at hv
      rw [writeItems?_cons hv hflat, ihs hdepth hvs]
      cases documents? vs <;> rfl

/-- Entries are rendered one by one, as deep as they may be. -/
theorem writeEntries?_eq {es : List (Text × Value)}
    (ih : ∀ e ∈ es, e.2.writeJson? = e.2.document?.map Json.render) :
    writeEntries? es = (members? es).map Json.renderMembers := by
  induction es with
  | nil => rfl
  | cons e es ihs =>
    obtain ⟨he, hes⟩ := List.forall_mem_cons.mp ih
    rw [writeEntries?, members?, he, ihs hes]
    cases e.2.document? with
    | none => rfl
    | some j => cases members? es <;> rfl

/-- The text of a value without deep items is the text of its document. -/
theorem writeJson?_eq {v : Value} (h : ¬ v.HasDeepItem) : v.writeJson? = v.document?.map Json.render := by
  induction v using nestedInduction with
  | absent | bool | int | text | func => rfl
  | double x =>
    rw [writeJson?, document?, Option.map_map]
    exact Option.map_id'.symm
  -- Only items are checked for their depth; entries are not.
  | array items ih =>
    have hdepth : ∀ v ∈ items, v.nesting ≤ Json.maxDepth := fun v hv =>
      Nat.not_lt.mp fun hdeep => h (.here hv hdeep)
    rw [writeJson?, document?, writeItems?_eq hdepth fun v hv => ih v hv fun hdeep => h (.item hv hdeep),
      Option.map_map, Option.map_map]
    rfl
  | assoc entries ih =>
    rw [writeJson?, document?, writeEntries?_eq fun e he => ih e he fun hdeep => h (.entry he hdeep),
      Option.map_map, Option.map_map]
    rfl

/-- A list is not written if one of its items is not, or is too deep to be read by itself. -/
theorem writeItems?_eq_none {vs : List Value} {v : Value} (hv : v ∈ vs)
    (h : v.writeJson? = none ∨ Json.maxDepth < v.nesting) : writeItems? vs = none := by
  induction vs with
  | nil => exact nomatch hv
  | cons w ws ih =>
    obtain rfl | hv := List.mem_cons.mp hv
    · obtain h | hdeep := h
      · exact writeItems?_none h ws
      · exact writeItems?_deep (Nat.not_le_of_lt hdeep) ws
    -- An earlier item may fail already; otherwise the later one does.
    · by_cases hdepth : w.nesting ≤ Json.maxDepth
      · cases hw : w.writeJson? with
        | none => exact writeItems?_none hw ws
        | some t =>
          rw [writeItems?_cons hw hdepth, ih hv]
          rfl
      · exact writeItems?_deep hdepth ws

/-- An entry whose value is not written leaves all of them unwritten. -/
theorem writeEntries?_eq_none {es : List (Text × Value)} {e : Text × Value} (he : e ∈ es)
    (h : e.2.writeJson? = none) : writeEntries? es = none := by
  induction es with
  | nil => exact nomatch he
  | cons f fs ih =>
    rw [writeEntries?]
    obtain rfl | he := List.mem_cons.mp he
    · rw [h]
      rfl
    · rw [ih he]
      cases f.2.writeJson? <;> rfl

/-- A value with a deep item has no text. -/
theorem HasDeepItem.not_written {v : Value} (h : v.HasDeepItem) : v.writeJson? = none := by
  induction h with
  | here hv hdeep => rw [Value.writeJson?, writeItems?_eq_none hv (.inr hdeep)]; rfl
  | item hv _ ih => rw [Value.writeJson?, writeItems?_eq_none hv (.inl ih)]; rfl
  | entry he _ ih => rw [Value.writeJson?, writeEntries?_eq_none he ih]; rfl

/-! ## Both together

The two fail for different reasons: the one for what has no document, the other also for an item that is too
deep. Where neither fails both texts come from one document. -/

/-- Exactly the values with an infinity or a NaN somewhere have no document. -/
theorem toJson?_eq_none_iff (v : Value) : v.toJson? = none ↔ v.Unwritable := by
  rw [toJson?_eq, Option.map_eq_none_iff, document?_eq_none_iff]

/-- The encoder of single values fails for these two reasons only. -/
theorem writeJson?_eq_none_iff (v : Value) : v.writeJson? = none ↔ v.Unwritable ∨ v.HasDeepItem := by
  by_cases hdeep : v.HasDeepItem
  · exact iff_of_true hdeep.not_written (.inr hdeep)
  · rw [writeJson?_eq hdeep, Option.map_eq_none_iff, document?_eq_none_iff, or_iff_left hdeep]

/-- The texts of both ways are read alike, if the value is not nested deeper than JSON is read. -/
theorem read_alike {v : Value} (hdepth : v.nesting ≤ Json.maxDepth) {t : Text} {j : Json}
    (ht : v.writeJson? = some t) (hj : v.toJson? = some j) :
    ∃ d d', Json.read? t = some d ∧ Json.read? (Json.render j) = some d' ∧ d.Alike d' := by
  rw [writeJson?_eq fun hdeep => Nat.not_lt_of_le hdepth hdeep.nesting] at ht
  rw [toJson?_eq] at hj
  obtain ⟨document, hdocument, rfl⟩ := Option.map_eq_some_iff.mp ht
  rw [hdocument] at hj
  obtain rfl := Option.some.inj hj
  have hwithin : Within Json.maxDepth document := within_of_document hdepth hdocument
  exact ⟨_, _, hwithin.read?_render, hwithin.sorted.read?_render, Json.alike_sorted document⟩

/-- A value has no document in key order exactly if it holds an infinity or a NaN, and no text exactly if it
holds one of these or a list with an item that is nested too deep. Where JSON is read, both fail alike, and
what is read of both is the same up to the order of members. -/
theorem encoders_agree (v : Value) :
    (v.toJson? = none ↔ v.Unwritable) ∧
    (v.writeJson? = none ↔ v.Unwritable ∨ v.HasDeepItem) ∧
    (v.nesting ≤ Json.maxDepth → (v.writeJson? = none ↔ v.toJson? = none) ∧
      ∀ t j, v.writeJson? = some t → v.toJson? = some j →
        ∃ d d', Json.read? t = some d ∧ Json.read? (Json.render j) = some d' ∧ d.Alike d') := by
  refine ⟨toJson?_eq_none_iff v, writeJson?_eq_none_iff v, fun hdepth => ⟨?_, fun t j ht hj => ?_⟩⟩
  · have hflat : ¬ v.HasDeepItem := fun hdeep => Nat.not_lt_of_le hdepth hdeep.nesting
    rw [writeJson?_eq_none_iff, toJson?_eq_none_iff, or_iff_left hflat]
  · exact read_alike hdepth ht hj

/-- A key out of order, a function and characters that are escaped. -/
theorem encoders_agree_shuffled :
    let v : Value := .assoc [("zwa", .array [.func "f", .absent]), ("ans", .text "<ö>")]
    let t : Text := "\x7b\"zwa\":[\"\\u003chawara f\\u003e\",null],\"ans\":\"\\u003cö\\u003e\"\x7d"
    let j : Json := .object (Dict.byKey
      [("zwa", .array [.string "<hawara f>", .null]), ("ans", .string "<ö>")])
    v.nesting ≤ Json.maxDepth ∧ v.writeJson? = some t ∧ v.toJson? = some j ∧
      ∃ d d', Json.read? t = some d ∧ Json.read? (Json.render j) = some d' ∧ d.Alike d' := by
  intro v t j
  have hdepth : v.nesting ≤ Json.maxDepth := by decide
  have hwritten : v.writeJson? = some t := by decide +kernel
  have hdocument : v.toJson? = some j := rfl
  exact ⟨hdepth, hwritten, hdocument, ((encoders_agree v).2.2 hdepth).2 t j hwritten hdocument⟩

/-! ## Too deep

Lists inside of each other have a document, however deep they are. -/

/-- There is nothing in them that could not be written. -/
theorem writable_wrapped (n : Nat) : ¬ (wrapped n).Unwritable := by
  induction n with
  | zero =>
    intro h
    cases h with
    | item hv _ => exact nomatch hv
  | succ n ih =>
    intro h
    cases h with
    | item hv h =>
      obtain rfl := List.mem_singleton.mp hv
      exact ih h

/-- Lists inside of each other have the same text both ways. -/
theorem toJson?_wrapped (n : Nat) : ∃ j, (wrapped n).toJson? = some j ∧
    Json.render j = List.replicate (n + 1) 91 ++ List.replicate (n + 1) 93 := by
  induction n with
  | zero => exact ⟨.array [], rfl, rfl⟩
  | succ n ih =>
    obtain ⟨j, hj, htext⟩ := ih
    refine ⟨.array [j], ?_, ?_⟩
    · rw [wrapped, toJson?, itemsToJson?, hj]
      rfl
    · rw [Json.render, Json.renderItems, Json.renderItems, Json.join_singleton, htext,
        List.replicate_succ (n := n + 1), List.replicate_succ' (n := n + 1) (a := 93), List.append_assoc,
        List.append_assoc]
      rfl

/-- One list more than is read is written both ways, but neither text is read. Two lists more are still a
document in key order, but have no text. -/
theorem encoders_too_deep :
    (∃ t j, (wrapped Json.maxDepth).writeJson? = some t ∧ (wrapped Json.maxDepth).toJson? = some j ∧
      Json.render j = t ∧ Json.read? t = none) ∧
    ¬ (wrapped (Json.maxDepth + 1)).Unwritable ∧ (wrapped (Json.maxDepth + 1)).writeJson? = none ∧
    ∃ j, (wrapped (Json.maxDepth + 1)).toJson? = some j := by
  obtain ⟨j, hj, htext⟩ := toJson?_wrapped Json.maxDepth
  obtain ⟨j', hj', -⟩ := toJson?_wrapped (Json.maxDepth + 1)
  have hdeep : Json.maxDepth < (wrapped Json.maxDepth).nesting := by
    rw [nesting_wrapped]
    exact Nat.lt_succ_self _
  have hitem : (wrapped (Json.maxDepth + 1)).HasDeepItem := .here List.mem_cons_self hdeep
  exact ⟨⟨_, j, writeJson?_wrapped (Nat.le_refl _), hj, htext, Json.read?_too_deep _⟩,
    writable_wrapped _, hitem.not_written, j', hj'⟩

end Mundart.Value
