import Mundart.Proofs.Json.Lexical

/-!
# Reading JSON back

A document is read back from its text, if its strings are well-formed, its numbers are numerals and it
is not nested too deep. Blanks may stand between its parts.

* **`Writes`** — a text is written for a document, with any blanks between its parts;
* **`Writes.reads`** — such a document is read off the start of a text, and nothing behind it;
* **`Plain`** — the documents that have a text to be read back from, by the depth that they need;
* **`read?_render`**, **`read?_renderIndented`** — both forms of a document are read back;
* **`read?_too_deep`** — lists that are nested deeper are not read.
-/

namespace Mundart.Json

open Mundart.Text

/-! ## Texts of documents

A relation and not a function: both forms of a document, with blanks and without, are texts that are written
for it, and the reader treats them alike. -/

/-- What is read in one go: a value, or what follows the start of a list or of an object. -/
inductive Part where
  | value (j : Json)
  | items (vs : List Json)
  | members (ms : List (Text × Json))

/-- A text is written for a part of a document that is nested no deeper than given. Blanks may stand
wherever two of its parts meet. -/
inductive Writes : (depth : Nat) → Part → Text → Prop where
  | null {depth : Nat} : Writes depth (.value .null) "null"
  | bool {depth : Nat} (b : Bool) : Writes depth (.value (.bool b)) (if b then "true" else "false")
  | number {depth : Nat} {literal : Text} (h : Numeral literal) :
      Writes depth (.value (.number literal)) literal
  | string {depth : Nat} {t : Text} (ht : isUtf8 t = true) : Writes depth (.value (.string t)) (quote t)
  | emptyArray {depth : Nat} {gap : Text} (hgap : Blank gap) :
      Writes (depth + 1) (.value (.array [])) (91 :: (gap ++ [93]))
  | array {depth : Nat} {vs : List Json} {gap t : Text} (hgap : Blank gap)
      (h : Writes depth (.items vs) t) : Writes (depth + 1) (.value (.array vs)) (91 :: (gap ++ t))
  | emptyObject {depth : Nat} {gap : Text} (hgap : Blank gap) :
      Writes (depth + 1) (.value (.object [])) (123 :: (gap ++ [125]))
  | object {depth : Nat} {ms : List (Text × Json)} {gap t : Text} (hgap : Blank gap)
      (h : Writes depth (.members ms) t) : Writes (depth + 1) (.value (.object ms)) (123 :: (gap ++ t))
  | lastItem {depth : Nat} {v : Json} {t gap : Text} (hv : Writes depth (.value v) t) (hgap : Blank gap) :
      Writes depth (.items [v]) (t ++ (gap ++ [93]))
  | item {depth : Nat} {v : Json} {vs : List Json} {t gap gap' u : Text}
      (hv : Writes depth (.value v) t) (hgap : Blank gap) (hgap' : Blank gap')
      (hvs : Writes depth (.items vs) u) :
      Writes depth (.items (v :: vs)) (t ++ (gap ++ 44 :: (gap' ++ u)))
  | lastMember {depth : Nat} {name : Text} {v : Json} {before behind t gap : Text}
      (hname : isUtf8 name = true) (hbefore : Blank before) (hbehind : Blank behind)
      (hv : Writes depth (.value v) t) (hgap : Blank gap) :
      Writes depth (.members [(name, v)])
        (quote name ++ (before ++ 58 :: (behind ++ (t ++ (gap ++ [125])))))
  | member {depth : Nat} {name : Text} {v : Json} {ms : List (Text × Json)}
      {before behind t gap gap' u : Text} (hname : isUtf8 name = true) (hbefore : Blank before)
      (hbehind : Blank behind) (hv : Writes depth (.value v) t) (hgap : Blank gap) (hgap' : Blank gap')
      (hms : Writes depth (.members ms) u) :
      Writes depth (.members ((name, v) :: ms))
        (quote name ++ (before ++ 58 :: (behind ++ (t ++ (gap ++ 44 :: (gap' ++ u))))))

/-- A string starts with a quote. -/
theorem solid_quote (t : Text) : Solid (quote t) := ⟨_, _, rfl, by decide, by decide, by decide⟩

/-- A part of a document starts with a byte that tells it from the end of a list or an object. -/
theorem Writes.solid {depth : Nat} {part : Part} {t : Text} (h : Writes depth part t) : Solid t := by
  induction h with
  | null => exact ⟨_, _, rfl, by decide, by decide, by decide⟩
  | bool b => cases b <;> exact ⟨_, _, rfl, by decide, by decide, by decide⟩
  -- A number starts with a sign or a digit, and none of these is a blank or a closing bracket.
  | number h =>
    have hnone : (93 :: 125 :: blanks).all (fun c => !(c == 45 || isDigit c)) = true := rfl
    obtain ⟨b, u, rfl, hb⟩ := h.head
    have hne : b ∉ 93 :: 125 :: blanks := by
      intro hmem
      have hother := List.all_eq_true.mp hnone b hmem
      obtain rfl | hdigit := hb
      · exact nomatch hother
      · rw [hdigit, Bool.or_true] at hother
        exact nomatch hother
    rw [List.mem_cons, List.mem_cons, not_or, not_or] at hne
    exact ⟨b, u, rfl, hne.2.2, hne.1, hne.2.1⟩
  | string _ => exact solid_quote _
  | emptyArray _ => exact ⟨_, _, rfl, by decide, by decide, by decide⟩
  | array _ _ => exact ⟨_, _, rfl, by decide, by decide, by decide⟩
  | emptyObject _ => exact ⟨_, _, rfl, by decide, by decide, by decide⟩
  | object _ _ => exact ⟨_, _, rfl, by decide, by decide, by decide⟩
  | lastItem _ _ ih => exact ih.append _
  | item _ _ _ _ ih => exact ih.append _
  | lastMember => exact (solid_quote _).append _
  | member => exact (solid_quote _).append _

/-! ## Reading parts

The fuel of the reader bounds its calls, and a text is long enough for all that are made while it is read:
every part uses up at least one byte. -/

/-- A part is read off the start of a text, and nothing of what follows. -/
def Part.Reads (depth : Nat) (t : Text) : Part → Prop
  | .value j => ∀ (fuel : Nat) (rest : Text), t.length ≤ fuel → Closes rest →
      value? fuel depth (t ++ rest) = some (j, rest)
  | .items vs => ∀ (fuel : Nat) (read : List Json) (rest : Text), t.length ≤ fuel →
      items? fuel depth read (t ++ rest) = some (.array (read.reverse ++ vs), rest)
  | .members ms => ∀ (fuel : Nat) (read : List (Text × Json)) (rest : Text), t.length ≤ fuel →
      members? fuel depth read (t ++ rest) = some (.object (read.reverse ++ ms), rest)

/-- What starts with a sign or a digit is a number. -/
theorem value?_number {b : UInt8} (hb : b = 45 ∨ isDigit b = true) (fuel depth : Nat) (t : Text) :
    value? (fuel + 1) depth (b :: t) = (number? (b :: t)).map fun (n, rest) => (.number n, rest) := by
  -- A sign or a digit is none of the bytes that other values start with.
  have hne : ∀ c, c ≠ 45 → isDigit c = false → b ≠ c := by
    rintro c h45 hc rfl
    rcases hb with rfl | hb
    · exact h45 rfl
    · exact Bool.false_ne_true (hc.symm.trans hb)
  have hafter : ∀ (c : UInt8) (word : Text), b ≠ c → Text.after? (c :: word) (b :: t) = none := by
    intro c word h
    rw [Text.after?, if_neg]
    simp [Ne.symm h]
  have hnull := hafter 110 [117, 108, 108] (hne 110 (by decide) rfl)
  have htrue := hafter 116 [114, 117, 101] (hne 116 (by decide) rfl)
  have hfalse := hafter 102 [97, 108, 115, 101] (hne 102 (by decide) rfl)
  unfold value?
  split
  · next heq => exact absurd (List.cons.inj heq).1 (hne 91 (by decide) rfl)
  · next heq => exact absurd (List.cons.inj heq).1 (hne 123 (by decide) rfl)
  · next heq => exact absurd (List.cons.inj heq).1 (hne 34 (by decide) rfl)
  · rw [show utf8 "null" = 110 :: [117, 108, 108] from rfl, hnull,
      show utf8 "true" = 116 :: [114, 117, 101] from rfl, htrue,
      show utf8 "false" = 102 :: [97, 108, 115, 101] from rfl, hfalse]

/-- What starts with a quote is a string. -/
theorem value?_quote {t : Text} (h : isUtf8 t = true) (fuel depth : Nat) (rest : Text) :
    value? (fuel + 1) depth (quote t ++ rest) = some (.string t, rest) := by
  obtain ⟨u, hquote, hstring⟩ := string?_quote h rest
  rw [hquote, value?, hstring]
  rfl

/-- A list that is not empty is read item by item. -/
theorem value?_array {t : Text} (h : Solid t) {gap : Text} (hgap : Blank gap) (fuel depth : Nat) :
    value? (fuel + 1) (depth + 1) (91 :: (gap ++ t)) = items? fuel depth [] t := by
  rw [value?, if_neg (Nat.succ_ne_zero depth), h.skipBlanks hgap]
  obtain ⟨b, u, rfl, -, hclose, -⟩ := h
  split
  · next heq => exact absurd (List.cons.inj heq).1 hclose
  · rfl

/-- An object that is not empty is read member by member. -/
theorem value?_object {t : Text} (h : Solid t) {gap : Text} (hgap : Blank gap) (fuel depth : Nat) :
    value? (fuel + 1) (depth + 1) (123 :: (gap ++ t)) = members? fuel depth [] t := by
  rw [value?, if_neg (Nat.succ_ne_zero depth), h.skipBlanks hgap]
  obtain ⟨b, u, rfl, -, -, hclose⟩ := h
  split
  · next heq => exact absurd (List.cons.inj heq).1 hclose
  · rfl

/-- What follows an item decides how its list goes on. -/
def afterItem? (fuel depth : Nat) (read : List Json) (rest : Text) : Option (Json × Text) :=
  match skipBlanks rest with
  | 44 :: t => items? fuel depth read (skipBlanks t)
  | 93 :: t => some (.array read.reverse, t)
  | _ => none

/-- An item is read, and then what follows it. -/
theorem items?_item {fuel depth : Nat} {t rest : Text} {v : Json} (read : List Json)
    (hv : value? fuel depth t = some (v, rest)) :
    items? (fuel + 1) depth read t = afterItem? fuel depth (v :: read) rest := by
  rw [items?, hv]
  rfl

/-- What follows a member decides how its object goes on. -/
def afterMember? (fuel depth : Nat) (read : List (Text × Json)) (rest : Text) : Option (Json × Text) :=
  match skipBlanks rest with
  | 44 :: t => members? fuel depth read (skipBlanks t)
  | 125 :: t => some (.object read.reverse, t)
  | _ => none

/-- A member is read, and then what follows it. -/
theorem members?_member {fuel depth : Nat} {name before behind t rest : Text} {v : Json}
    (read : List (Text × Json)) (hname : isUtf8 name = true) (hbefore : Blank before)
    (hbehind : Blank behind) (ht : Solid t) (hv : value? fuel depth t = some (v, rest)) :
    members? (fuel + 1) depth read (quote name ++ (before ++ 58 :: (behind ++ t))) =
      afterMember? fuel depth ((name, v) :: read) rest := by
  obtain ⟨u, hquote, hstring⟩ := string?_quote hname (before ++ 58 :: (behind ++ t))
  have hcolon : skipBlanks (before ++ 58 :: (behind ++ t)) = 58 :: (behind ++ t) := by
    rw [skipBlanks_append hbefore, skipBlanks_cons (by decide)]
  rw [hquote, members?, hstring]
  simp only [hcolon, ht.skipBlanks hbehind, hv]
  rfl

/-- Blanks and a byte that is none. -/
theorem skipBlanks_sign {gap : Text} (hgap : Blank gap) {b : UInt8} (hb : b ∉ blanks) (t : Text) :
    skipBlanks (gap ++ b :: t) = b :: t := by
  rw [skipBlanks_append hgap, skipBlanks_cons hb]

/-- A part of a document is read off the start of a text that it is written in. -/
theorem Writes.reads {depth : Nat} {part : Part} {t : Text} (h : Writes depth part t) :
    part.Reads depth t := by
  -- One case for every way to write a part. The fuel that is left is enough for the parts inside, since
  -- something was read before each of them.
  induction h with
  | null =>
    intro fuel rest hfuel _
    match fuel with
    | fuel + 1 => rfl
  | bool b =>
    intro fuel rest hfuel _
    match fuel, b with
    | fuel + 1, true => rfl
    | fuel + 1, false => rfl
  | number h =>
    intro fuel rest hfuel hrest
    have hread := number?_numeral h hrest
    obtain ⟨b, u, rfl, hb⟩ := h.head
    match fuel with
    | fuel + 1 =>
      rw [List.cons_append] at hread ⊢
      rw [value?_number hb, hread]
      rfl
  | string ht =>
    intro fuel rest hfuel _
    match fuel with
    | fuel + 1 => exact value?_quote ht fuel _ rest
  | emptyArray hgap =>
    intro fuel rest hfuel _
    match fuel with
    | fuel + 1 =>
      rw [List.cons_append, List.append_assoc, value?, if_neg (Nat.succ_ne_zero _), List.singleton_append,
        skipBlanks_sign hgap (by decide)]
      rfl
  | array hgap h ih =>
    intro fuel rest hfuel _
    match fuel with
    | fuel + 1 =>
      rw [List.length_cons, List.length_append] at hfuel
      rw [List.cons_append, List.append_assoc, value?_array (h.solid.append rest) hgap,
        ih fuel [] rest (by omega)]
      rfl
  | emptyObject hgap =>
    intro fuel rest hfuel _
    match fuel with
    | fuel + 1 =>
      rw [List.cons_append, List.append_assoc, value?, if_neg (Nat.succ_ne_zero _), List.singleton_append,
        skipBlanks_sign hgap (by decide)]
      rfl
  | object hgap h ih =>
    intro fuel rest hfuel _
    match fuel with
    | fuel + 1 =>
      rw [List.length_cons, List.length_append] at hfuel
      rw [List.cons_append, List.append_assoc, value?_object (h.solid.append rest) hgap,
        ih fuel [] rest (by omega)]
      rfl
  | @lastItem depth v t gap hv hgap ih =>
    intro fuel read rest hfuel
    match fuel with
    | 0 =>
      rw [List.length_append, List.length_append] at hfuel
      exact absurd hfuel (by simp)
    | fuel + 1 =>
      rw [List.length_append, List.length_append, List.length_singleton] at hfuel
      have hitem := ih fuel (gap ++ 93 :: rest) (by omega) (closes_blank hgap (closes_cons (by decide) _))
      rw [List.append_assoc, List.append_assoc, List.singleton_append, items?_item read hitem,
        afterItem?, skipBlanks_sign hgap (by decide)]
      show some (Json.array (v :: read).reverse, rest) = _
      rw [List.reverse_cons]
  | @item depth v vs t gap gap' u hv hgap hgap' hvs ih ihs =>
    intro fuel read rest hfuel
    rw [List.length_append, List.length_append, List.length_cons, List.length_append] at hfuel
    match fuel with
    | fuel + 1 =>
      -- A comma follows the item, with blanks around it; then the list goes on behind the items that were
      -- read.
      have hitem := ih fuel (gap ++ 44 :: (gap' ++ (u ++ rest))) (by omega)
        (closes_blank hgap (closes_cons (by decide) _))
      have hmore := ihs fuel (v :: read) rest (by omega)
      rw [List.append_assoc, List.append_assoc, List.cons_append, List.append_assoc, items?_item read hitem,
        afterItem?, skipBlanks_sign hgap (by decide)]
      show items? fuel depth (v :: read) (skipBlanks (gap' ++ (u ++ rest))) = _
      rw [(hvs.solid.append rest).skipBlanks hgap', hmore, List.reverse_cons, List.append_assoc]
      rfl
  | @lastMember depth name v before behind t gap hname hbefore hbehind hv hgap ih =>
    intro fuel read rest hfuel
    simp only [List.length_append, List.length_cons] at hfuel
    match fuel with
    | fuel + 1 =>
      have hvalue := ih fuel (gap ++ 125 :: rest) (by omega)
        (closes_blank hgap (closes_cons (by decide) _))
      simp only [List.append_assoc, List.cons_append, List.nil_append]
      rw [members?_member read hname hbefore hbehind (hv.solid.append _) hvalue, afterMember?,
        skipBlanks_sign hgap (by decide)]
      show some (Json.object ((name, v) :: read).reverse, rest) = _
      rw [List.reverse_cons]
  | @member depth name v ms before behind t gap gap' u hname hbefore hbehind hv hgap hgap' hms ih ihs =>
    intro fuel read rest hfuel
    simp only [List.length_append, List.length_cons] at hfuel
    match fuel with
    | fuel + 1 =>
      have hvalue := ih fuel (gap ++ 44 :: (gap' ++ (u ++ rest))) (by omega)
        (closes_blank hgap (closes_cons (by decide) _))
      have hmore := ihs fuel ((name, v) :: read) rest (by omega)
      simp only [List.append_assoc, List.cons_append]
      rw [members?_member read hname hbefore hbehind (hv.solid.append _) hvalue, afterMember?,
        skipBlanks_sign hgap (by decide)]
      show members? fuel depth ((name, v) :: read) (skipBlanks (gap' ++ (u ++ rest))) = _
      rw [(hms.solid.append rest).skipBlanks hgap', hmore, List.reverse_cons, List.append_assoc]
      rfl

/-- A document is read back from a text of it, with blanks around it too. -/
theorem Writes.read? {j : Json} {t gap gap' : Text} (h : Writes maxDepth (.value j) t) (hgap : Blank gap)
    (hgap' : Blank gap') : Json.read? (gap ++ (t ++ gap')) = some j := by
  have hvalue := h.reads ((gap ++ (t ++ gap')).length + 1) gap'
    (by simp only [List.length_append]; omega) (List.append_nil gap' ▸ closes_blank hgap' closes_nil)
  have hend : skipBlanks gap' = [] := List.append_nil gap' ▸ skipBlanks_append hgap' []
  rw [Json.read?, (h.solid.append gap').skipBlanks hgap, hvalue]
  simp only [hend]
  rfl

/-! ## Both forms of a document

One form has no blanks at all, the other one a line for every item and member, indented by its depth. -/

/-- A document whose numbers are numerals and whose strings and names are well-formed, nested no deeper
than a given depth. -/
inductive Plain : (depth : Nat) → Json → Prop where
  | null {depth : Nat} : Plain depth .null
  | bool {depth : Nat} (b : Bool) : Plain depth (.bool b)
  | number {depth : Nat} {literal : Text} (h : Numeral literal) : Plain depth (.number literal)
  | string {depth : Nat} {t : Text} (ht : isUtf8 t = true) : Plain depth (.string t)
  | array {depth : Nat} {items : List Json} (hitems : ∀ v ∈ items, Plain depth v) :
      Plain (depth + 1) (.array items)
  | object {depth : Nat} {members : List (Text × Json)} (hnames : ∀ m ∈ members, isUtf8 m.1 = true)
      (hmembers : ∀ m ∈ members, Plain depth m.2) : Plain (depth + 1) (.object members)

/-- One text needs no comma. -/
theorem join_singleton (t : Text) : Text.join "," [t] = t := List.intercalate_singleton

/-- Between two texts a comma stands. -/
theorem join_cons (t t' : Text) (ts : List Text) :
    Text.join "," (t :: t' :: ts) = t ++ 44 :: Text.join "," (t' :: ts) := rfl

/-- The items of a list without blanks, up to the closing bracket. -/
theorem writes_items {depth : Nat} (vs : List Json) : ∀ v : Json,
    (∀ w ∈ v :: vs, Writes depth (.value w) (render w)) →
    Writes depth (.items (v :: vs)) (Text.join "," (renderItems (v :: vs)) ++ [93]) := by
  induction vs with
  | nil =>
    intro v h
    rw [renderItems, renderItems, join_singleton]
    exact .lastItem (h v List.mem_cons_self) blank_nil
  -- Behind the comma the rest is a list of items again, so that the induction needs no first item.
  | cons v' vs ih =>
    intro v h
    have hrest := ih v' fun w hw => h w (List.mem_cons_of_mem _ hw)
    have hitem := Writes.item (h v List.mem_cons_self) blank_nil blank_nil hrest
    rw [renderItems, renderItems, join_cons, List.append_assoc]
    exact hitem

/-- The members of an object without blanks, up to the closing brace. -/
theorem writes_members {depth : Nat} (ms : List (Text × Json)) : ∀ m : Text × Json,
    (∀ w ∈ m :: ms, isUtf8 w.1 = true) → (∀ w ∈ m :: ms, Writes depth (.value w.2) (render w.2)) →
    Writes depth (.members (m :: ms)) (Text.join "," (renderMembers (m :: ms)) ++ [125]) := by
  induction ms with
  | nil =>
    rintro ⟨name, v⟩ hnames h
    rw [renderMembers, renderMembers, join_singleton, List.append_assoc, List.append_assoc]
    exact .lastMember (hnames _ List.mem_cons_self) blank_nil blank_nil (h _ List.mem_cons_self) blank_nil
  | cons m' ms ih =>
    rintro ⟨name, v⟩ hnames h
    have hrest := ih m' (fun w hw => hnames w (List.mem_cons_of_mem _ hw))
      fun w hw => h w (List.mem_cons_of_mem _ hw)
    -- The name is taken apart for the member that follows the comma.
    obtain ⟨name', v'⟩ := m'
    have hmember := Writes.member (hnames _ List.mem_cons_self) blank_nil blank_nil
      (h _ List.mem_cons_self) blank_nil blank_nil hrest
    rw [renderMembers, renderMembers, join_cons, List.append_assoc, List.append_assoc, List.append_assoc]
    exact hmember

/-- A plain document is written without blanks. -/
theorem Plain.writes {depth : Nat} {j : Json} (h : Plain depth j) : Writes depth (.value j) (render j) := by
  induction h with
  | null => exact .null
  | bool b => exact .bool b
  | number h => exact .number h
  | string ht => exact .string ht
  -- What is inside is written one level less deep.
  | @array depth items _ ih =>
    cases items with
    | nil => exact .emptyArray blank_nil
    | cons v vs =>
      have harray := Writes.array blank_nil (writes_items vs v ih)
      exact harray
  | @object depth members hnames _ ih =>
    cases members with
    | nil => exact .emptyObject blank_nil
    | cons m ms =>
      have hobject := Writes.object blank_nil (writes_members ms m hnames ih)
      exact hobject

/-- A line break and an indentation are blanks. -/
theorem blank_newline (indent : Nat) : Blank (newline indent) := by
  rw [newline, Blank, List.forall_mem_cons]
  refine ⟨by decide, fun b hb => ?_⟩
  rw [List.eq_of_mem_replicate hb]
  decide

/-- The text of the items behind the first one. -/
theorem flatten_moreItems (indent : Nat) (v : Json) (vs : List Json) :
    (moreItems indent (v :: vs)).flatten = 44 :: (newline (indent + 1) ++
      ((indentedPieces (indent + 1) v).flatten ++ (moreItems indent vs).flatten)) := by
  rw [moreItems, List.cons_append, List.cons_append, List.flatten_cons, List.flatten_cons,
    List.flatten_append]
  rfl

/-- The text of the members behind the first one. -/
theorem flatten_moreMembers (indent : Nat) (name : Text) (v : Json) (ms : List (Text × Json)) :
    (moreMembers indent ((name, v) :: ms)).flatten = 44 :: (newline (indent + 1) ++ (quote name ++
      58 :: 32 :: ((indentedPieces (indent + 1) v).flatten ++ (moreMembers indent ms).flatten))) := by
  rw [moreMembers, List.cons_append, List.cons_append, List.cons_append, List.cons_append,
    List.flatten_cons, List.flatten_cons, List.flatten_cons, List.flatten_cons, List.flatten_append]
  rfl

/-- The text of a list that is not empty. -/
theorem flatten_array (indent : Nat) (v : Json) (vs : List Json) :
    (indentedPieces indent (.array (v :: vs))).flatten = 91 :: (newline (indent + 1) ++
      ((indentedPieces (indent + 1) v).flatten ++ (moreItems indent vs).flatten)) := by
  rw [indentedPieces, List.cons_append, List.cons_append, List.flatten_cons, List.flatten_cons,
    List.flatten_append]
  rfl

/-- The text of an object that is not empty. -/
theorem flatten_object (indent : Nat) (name : Text) (v : Json) (ms : List (Text × Json)) :
    (indentedPieces indent (.object ((name, v) :: ms))).flatten = 123 :: (newline (indent + 1) ++
      (quote name ++ 58 :: 32 ::
        ((indentedPieces (indent + 1) v).flatten ++ (moreMembers indent ms).flatten))) := by
  rw [indentedPieces, List.cons_append, List.cons_append, List.cons_append, List.cons_append,
    List.flatten_cons, List.flatten_cons, List.flatten_cons, List.flatten_cons, List.flatten_append]
  rfl

/-- The items of a list, each on a line of its own. -/
theorem writes_moreItems {depth : Nat} (indent : Nat) (vs : List Json) : ∀ (v : Json) (t : Text),
    Writes depth (.value v) t →
    (∀ w ∈ vs, Writes depth (.value w) (indentedPieces (indent + 1) w).flatten) →
    Writes depth (.items (v :: vs)) (t ++ (moreItems indent vs).flatten) := by
  induction vs with
  | nil => exact fun v t hv _ => .lastItem hv (blank_newline indent)
  | cons v' vs ih =>
    intro v t hv h
    have hrest := ih v' _ (h v' List.mem_cons_self) fun w hw => h w (List.mem_cons_of_mem _ hw)
    have hitem := Writes.item hv blank_nil (blank_newline (indent + 1)) hrest
    rw [flatten_moreItems]
    exact hitem

/-- The members of an object, each on a line of its own. -/
theorem writes_moreMembers {depth : Nat} (indent : Nat) (ms : List (Text × Json)) :
    ∀ (name : Text) (v : Json) (t : Text), isUtf8 name = true → Writes depth (.value v) t →
    (∀ w ∈ ms, isUtf8 w.1 = true) →
    (∀ w ∈ ms, Writes depth (.value w.2) (indentedPieces (indent + 1) w.2).flatten) →
    Writes depth (.members ((name, v) :: ms))
      (quote name ++ 58 :: 32 :: (t ++ (moreMembers indent ms).flatten)) := by
  -- Behind the colon stands a space, which is the only blank inside a line.
  have hspace : Blank [32] := by decide
  induction ms with
  | nil =>
    intro name v t hname hv _ _
    exact .lastMember hname blank_nil hspace hv (blank_newline indent)
  | cons m ms ih =>
    obtain ⟨name', v'⟩ := m
    intro name v t hname hv hnames h
    have hrest := ih name' v' _ (hnames _ List.mem_cons_self) (h _ List.mem_cons_self)
      (fun w hw => hnames w (List.mem_cons_of_mem _ hw)) fun w hw => h w (List.mem_cons_of_mem _ hw)
    have hmember := Writes.member hname blank_nil hspace hv blank_nil (blank_newline (indent + 1)) hrest
    rw [flatten_moreMembers]
    exact hmember

/-- A plain document is written over several lines. -/
theorem Plain.writes_indented {depth : Nat} {j : Json} (h : Plain depth j) : ∀ indent : Nat,
    Writes depth (.value j) (indentedPieces indent j).flatten := by
  induction h with
  | null => exact fun _ => .null
  | bool b => exact fun _ => List.flatten_singleton ▸ .bool b
  | number h => exact fun _ => List.flatten_singleton ▸ .number h
  | string ht => exact fun _ => List.flatten_singleton ▸ .string ht
  | @array depth items _ ih =>
    intro indent
    cases items with
    | nil => exact .emptyArray blank_nil
    | cons v vs =>
      -- The items go on lines of their own, one level further in.
      have hitems := writes_moreItems indent vs v _ (ih v List.mem_cons_self (indent + 1))
        fun w hw => ih w (List.mem_cons_of_mem _ hw) (indent + 1)
      have harray := Writes.array (blank_newline (indent + 1)) hitems
      rw [flatten_array]
      exact harray
  | @object depth members hnames _ ih =>
    intro indent
    cases members with
    | nil => exact .emptyObject blank_nil
    | cons m ms =>
      obtain ⟨name, v⟩ := m
      have hmembers := writes_moreMembers indent ms name v _ (hnames _ List.mem_cons_self)
        (ih _ List.mem_cons_self (indent + 1)) (fun w hw => hnames w (List.mem_cons_of_mem _ hw))
        fun w hw => ih w (List.mem_cons_of_mem _ hw) (indent + 1)
      have hobject := Writes.object (blank_newline (indent + 1)) hmembers
      rw [flatten_object]
      exact hobject

/-- A document by itself is read back. -/
theorem read?_render {j : Json} (h : Plain maxDepth j) : read? (render j) = some j := by
  have hread := h.writes.read? blank_nil blank_nil
  rwa [List.append_nil] at hread

/-- A document over several lines, with a line break at its end, is read back. -/
theorem read?_renderIndented {j : Json} (h : Plain maxDepth j) :
    read? (renderIndented j ++ "\n") = some j :=
  (h.writes_indented 0).read? blank_nil (show Blank [10] by decide)

/-! ## Too deep

The reader counts how many lists and objects it is in, and gives up at the first bracket beyond what is
allowed, whatever follows it. -/

/-- Lists that are nested deeper than is allowed are not read. -/
theorem value?_too_deep (depth : Nat) : ∀ (fuel : Nat) (rest : Text),
    value? fuel depth (List.replicate (depth + 1) 91 ++ rest) = none := by
  -- By induction on the depth that is still allowed: each bracket is an item that cannot be read.
  induction depth with
  | zero =>
    intro fuel rest
    cases fuel <;> rfl
  | succ depth ih =>
    intro fuel rest
    match fuel with
    | 0 | 1 => rfl
    | fuel + 2 =>
      show items? (fuel + 1) depth [] (List.replicate (depth + 1) 91 ++ rest) = none
      rw [items?, ih]

/-- A text that starts with too many brackets is no document. -/
theorem read?_too_deep (rest : Text) : read? (List.replicate (maxDepth + 1) 91 ++ rest) = none := by
  have hskip : skipBlanks (List.replicate (maxDepth + 1) 91 ++ rest) =
      List.replicate (maxDepth + 1) 91 ++ rest := skipBlanks_cons (b := 91) (by decide) _
  rw [read?, hskip, value?_too_deep]

end Mundart.Json
