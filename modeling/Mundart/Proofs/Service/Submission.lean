import Mundart.Proofs.Json.RoundTrip
import Mundart.Service.Submission

/-!
# Reading submitted programs

A request looks for certain fields of a body and passes over the rest. This module says what is read from a
JSON body: the members that are not looked for might as well be missing, whatever they hold, so a request
that looks for the source alone is not put off by a description that is no string. It also shows that there
is a body for every text that one could want to send.

* **`ofJson_filter`** — only the members that are looked for count;
* **`ofJson_source`** — the source of an object with one member of that name;
* **`read_render`** — a document that is sent as JSON is the one that is read.
-/

namespace Mundart.Submission

open Http (Request)

variable {known : List Field} {s : Submission} {m : Text × Json} {name t : Text}

/-- Whether a request that knows some fields looks for a member. -/
def looksFor (known : List Field) (m : Text × Json) : Bool := known.any (Field.isNamed m.1)

/-! ## Members

The members that are looked for are taken one after the other, the later ones in place of the earlier ones.
Members that are not looked for do not matter, whatever their values are. -/

/-- A member that is not looked for changes nothing, whatever its value is. -/
theorem addMember_of_not_looksFor (h : looksFor known m = false) : addMember known s m = .ok s := by
  have hnone : known.find? (Field.isNamed m.1) = none :=
    List.find?_eq_none.mpr (by simpa [looksFor] using h)
  rw [addMember, hnone]

/-- One after the other, too, the members that are not looked for change nothing. -/
theorem foldlM_addMember (known : List Field) (members : List (Text × Json)) : ∀ s : Submission,
    members.foldlM (addMember known) s =
      (members.filter (looksFor known)).foldlM (addMember known) s := by
  induction members with
  | nil => exact fun s => rfl
  | cons m members ih =>
    intro s
    cases hm : looksFor known m with
    | true =>
      rw [List.filter_cons_of_pos hm, List.foldlM_cons, List.foldlM_cons]
      -- Both sides go on from whatever the first member makes of the submission.
      exact congrArg (bind (addMember known s m)) (funext ih)
    | false =>
      rw [List.filter_cons_of_neg (by simp [hm]), List.foldlM_cons, addMember_of_not_looksFor hm]
      exact ih s

/-- The members of a JSON body that are not looked for might as well be missing. -/
theorem ofJson_filter (known : List Field) (members : List (Text × Json)) :
    ofJson known (.object members) =
      ofJson known (.object (members.filter (looksFor known))) :=
  foldlM_addMember known members {}

/-- Who looks for the source alone reads it from every object with one member of that name, if its value is
a string. -/
theorem ofJson_source {members : List (Text × Json)}
    (h : members.filter (looksFor [.source]) = [(name, .string t)]) :
    ofJson [.source] (.object members) = .ok ⟨t, []⟩ := by
  have hmember : (name, Json.string t) ∈ members.filter (looksFor [.source]) := by
    rw [h]
    exact List.mem_singleton_self _
  have hnamed : Field.source.isNamed name = true := by
    simpa [looksFor] using (List.mem_filter.mp hmember).2
  have hadd : addMember [.source] {} (name, .string t) = .ok ⟨t, []⟩ := by
    have hfound : [Field.source].find? (Field.isNamed name) = some .source := List.find?_cons_of_pos hnamed
    rw [addMember, hfound]
    rfl
  rw [ofJson_filter, h]
  show [(name, Json.string t)].foldlM (addMember [.source]) {} = _
  rw [List.foldlM_cons, hadd]
  rfl

/-! ## Bodies

A body that was written as a document is read as that document, and its fields are the members that are
looked for. -/

/-- A body that is the text of a document is read as that document. -/
theorem read_render {document : Json} {r : Request} (decoder : Decoder) (known : List Field)
    (hdocument : Json.Plain Json.maxDepth document) (hjson : r.isJson = true)
    (hbody : r.body = Json.render document) : read decoder known r = ofJson known document := by
  rw [read, if_pos hjson, hbody, Json.read?_render hdocument]

end Mundart.Submission
