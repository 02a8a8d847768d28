import Mundart.Outline.Basic
import Mundart.Proofs.Json.RoundTrip

/-!
# Outlines as JSON

An outline is written as JSON if it is not nested deeper than JSON is read, and what is read back is its
document. Whatever else could go wrong is ruled out by its scalars.

* **`Outline.nesting`** — how deep lists and mappings stand inside of each other;
* **`Outline.Legible`** — outlines whose scalars all have a text in JSON;
* **`Legible.checks`** — the one fault of such an outline is a nesting deeper than allowed;
* **`Legible.plain`** — its document needs the depth of the outline, and no more;
* **`Legible.writeJson_read`**, **`Legible.writeJson_tooDeep`** — it is written and read back, or refused.
-/

namespace Mundart.Outline

open Mundart.Json (Plain)

mutual

/-- How deep lists and mappings are nested in an outline. -/
def nesting : Outline → Nat
  | .scalar _ _ => 0
  | .sequence items => nestingOfItems items + 1
  | .mapping fields => nestingOfFields fields + 1

def nestingOfItems : List Outline → Nat
  | [] => 0
  | o :: os => max (nesting o) (nestingOfItems os)

def nestingOfFields : List (Text × Outline) → Nat
  | [] => 0
  | (_, o) :: fs => max (nesting o) (nestingOfFields fs)

end

/-- An outline of well-formed texts, integers, truth values and nothing, in lists and mappings. -/
inductive Legible : Outline → Prop where
  | text {t : Text} (ht : t.isUtf8 = true) : Legible (text t)
  | int (i : Int) : Legible (.scalar .int (Text.ofInt i))
  | bool (b : Bool) : Legible (.scalar .bool (if b then "true" else "false"))
  | null : Legible null
  | sequence {items : List Outline} (hitems : ∀ o ∈ items, Legible o) : Legible (.sequence items)
  | mapping {fields : List (Text × Outline)} (hnames : ∀ f ∈ fields, f.1.isUtf8 = true)
      (hfields : ∀ f ∈ fields, Legible f.2) : Legible (.mapping fields)

/-! ## Faults

The writer checks depth and kinds as it goes, and the first fault ends it. For the outlines of programs
depth is the only fault. -/

/-- Something has a fault just if it is nested deeper than the levels that are left. -/
def Checks (levels depth : Nat) (fault? : Option WriteError) : Prop :=
  (depth ≤ levels ∧ fault? = none) ∨ (levels < depth ∧ fault? = some .tooDeep)

/-- What is no sequence or mapping needs no level. -/
theorem checks_flat (levels : Nat) : Checks levels 0 none := .inl ⟨Nat.zero_le levels, rfl⟩

/-- Of two things the first fault counts. -/
theorem Checks.or {levels depth depth' : Nat} {fault? fault'? : Option WriteError}
    (h : Checks levels depth fault?) (h' : Checks levels depth' fault'?) :
    Checks levels (max depth depth') (fault?.or fault'?) := by
  obtain ⟨hdepth, rfl⟩ | ⟨hdepth, rfl⟩ := h
  · obtain ⟨hdepth', rfl⟩ | ⟨hdepth', hfault'⟩ := h'
    · exact .inl ⟨Nat.max_le.mpr ⟨hdepth, hdepth'⟩, rfl⟩
    · exact .inr ⟨Nat.lt_of_lt_of_le hdepth' (Nat.le_max_right _ _), hfault'⟩
  · exact .inr ⟨Nat.lt_of_lt_of_le hdepth (Nat.le_max_left _ _), rfl⟩

/-- A list or mapping uses up one level. -/
theorem Checks.enclose {levels depth : Nat} {fault? : Option WriteError} (h : Checks levels depth fault?) :
    Checks (levels + 1) (depth + 1) fault? :=
  h.imp (And.imp_left Nat.succ_le_succ) (And.imp_left Nat.succ_lt_succ)

/-- Without a level left anything that is nested is too deep. -/
theorem checks_none_left (depth : Nat) : Checks 0 (depth + 1) (some .tooDeep) :=
  .inr ⟨Nat.succ_pos depth, rfl⟩

/-- The items of a sequence are checked one after the other. -/
theorem checks_items {levels : Nat} {items : List Outline}
    (h : ∀ o ∈ items, Checks levels o.nesting (o.jsonFault? levels)) :
    Checks levels (nestingOfItems items) (jsonFaultOfItems? levels items) := by
  induction items with
  | nil => exact checks_flat levels
  | cons o os ih =>
    exact (h o List.mem_cons_self).or (ih fun o ho => h o (List.mem_cons_of_mem _ ho))

/-- The fields of a mapping are checked one after the other. -/
theorem checks_fields {levels : Nat} {fields : List (Text × Outline)}
    (h : ∀ f ∈ fields, Checks levels f.2.nesting (f.2.jsonFault? levels)) :
    Checks levels (nestingOfFields fields) (jsonFaultOfFields? levels fields) := by
  induction fields with
  | nil => exact checks_flat levels
  | cons f fs ih =>
    exact (h f List.mem_cons_self).or (ih fun f hf => h f (List.mem_cons_of_mem _ hf))

/-- The one fault of a legible outline is a list or mapping that is nested too deep. -/
theorem Legible.checks {o : Outline} (h : o.Legible) : ∀ levels : Nat,
    Checks levels o.nesting (o.jsonFault? levels) := by
  induction h with
  | text | int | bool | null => exact checks_flat
  | @sequence items _ ih =>
    intro levels
    match levels with
    | 0 => exact checks_none_left _
    | levels + 1 => exact (checks_items fun o ho => ih o ho levels).enclose
  | @mapping fields _ _ ih =>
    intro levels
    match levels with
    | 0 => exact checks_none_left _
    | levels + 1 => exact (checks_fields fun f hf => ih f hf levels).enclose

/-! ## Documents

The document of an outline is one that the reader takes, as deep as the outline is. -/

/-- The documents of items are plain as far as the items are not nested too deep. -/
theorem plain_items {depth : Nat} {items : List Outline}
    (h : ∀ o ∈ items, o.nesting ≤ depth → Plain depth o.toJson)
    (hdepth : nestingOfItems items ≤ depth) : ∀ j ∈ itemsToJson items, Plain depth j := by
  induction items with
  | nil => exact nofun
  | cons o os ih =>
    rw [nestingOfItems, Nat.max_le] at hdepth
    rw [itemsToJson, List.forall_mem_cons]
    exact ⟨h o List.mem_cons_self hdepth.1, ih (fun o ho => h o (List.mem_cons_of_mem _ ho)) hdepth.2⟩

/-- The documents of fields are plain, and so are their names. -/
theorem plain_fields {depth : Nat} {fields : List (Text × Outline)}
    (h : ∀ f ∈ fields, f.2.nesting ≤ depth → Plain depth f.2.toJson)
    (hnames : ∀ f ∈ fields, f.1.isUtf8 = true) (hdepth : nestingOfFields fields ≤ depth) :
    (∀ m ∈ fieldsToJson fields, m.1.isUtf8 = true) ∧ ∀ m ∈ fieldsToJson fields, Plain depth m.2 := by
  induction fields with
  | nil => exact ⟨nofun, nofun⟩
  | cons f fs ih =>
    obtain ⟨name, o⟩ := f
    rw [nestingOfFields, Nat.max_le] at hdepth
    obtain ⟨hmore, hplain⟩ := ih (fun f hf => h f (List.mem_cons_of_mem _ hf))
      (fun f hf => hnames f (List.mem_cons_of_mem _ hf)) hdepth.2
    rw [fieldsToJson, List.forall_mem_cons, List.forall_mem_cons]
    exact ⟨⟨hnames _ List.mem_cons_self, hmore⟩, h _ List.mem_cons_self hdepth.1, hplain⟩

/-- A truth value is told by its word. -/
theorem toJson_bool (b : Bool) : toJson (.scalar .bool (if b then "true" else "false")) = .bool b := by
  cases b <;> rfl

/-- The document of a legible outline needs the depth that the outline has. -/
theorem Legible.plain {o : Outline} (h : o.Legible) : ∀ {depth : Nat}, o.nesting ≤ depth →
    Plain depth o.toJson := by
  induction h with
  | text ht => exact fun _ => .string ht
  | int i => exact fun _ => .number (Json.numeral_ofInt i)
  | bool b => exact fun _ => toJson_bool b ▸ .bool b
  | null => exact fun _ => .null
  | sequence _ ih =>
    intro depth hdepth
    match depth with
    | depth + 1 => exact .array (plain_items (fun o ho => ih o ho) (Nat.le_of_succ_le_succ hdepth))
  | mapping hnames _ ih =>
    intro depth hdepth
    match depth with
    | depth + 1 =>
      obtain ⟨hnames, hplain⟩ := plain_fields (fun f hf => ih f hf) hnames (Nat.le_of_succ_le_succ hdepth)
      exact .object hnames hplain

/-- A legible outline that is not nested too deep is written, and its document is read back. -/
theorem Legible.writeJson_read {o : Outline} (h : o.Legible) (hdepth : o.nesting ≤ Json.maxDepth) :
    o.writeJson = .ok (o.toJson.renderIndented ++ "\n") ∧
      Json.read? (o.toJson.renderIndented ++ "\n") = some o.toJson := by
  refine ⟨?_, Json.read?_renderIndented (h.plain hdepth)⟩
  obtain ⟨-, hfault⟩ | ⟨hdeep, -⟩ := h.checks Json.maxDepth
  · rw [writeJson, hfault]
  · exact absurd hdepth (Nat.not_le_of_lt hdeep)

/-- A legible outline that is nested deeper is refused. -/
theorem Legible.writeJson_tooDeep {o : Outline} (h : o.Legible) (hdepth : Json.maxDepth < o.nesting) :
    o.writeJson = .error .tooDeep := by
  obtain ⟨hflat, -⟩ | ⟨-, hfault⟩ := h.checks Json.maxDepth
  · exact absurd hdepth (Nat.not_lt_of_le hflat)
  · rw [writeJson, hfault]

end Mundart.Outline
