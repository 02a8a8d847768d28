import Mundart.Number.Reading
import Mundart.Proofs.Outline.Written

/-!
# Reading outlines back

A decoder for the documents of outlines. The kind of a node comes first and says which fields follow;
where a node may leave a field out, its absence is a node of its own.

* **`Node.builders`** — for every kind of node, how a node is made of its fields;
* **`Node.ofJson?`**, **`Program.ofJson?`** — the node and the program that a document stands for;
* **`Node.Recorded`** — the outline of a node is legible and its document is decoded as the node;
* **`Node.recorded_of_fields`** — when this holds of a node, by the fields of its outline.
-/

namespace Mundart

namespace Node

/-! ## Fields of documents

A decoder would call itself for some of the fields that a kind has. So that it can recurse on the document
alone, every member is decoded in every way at once, and the kind picks what it wants. -/

/-- A field of a document with all that it can be read as. -/
structure Field where
  document : Json
  /-- The node that it stands for. -/
  node? : Option Node
  /-- The nodes of a list. -/
  nodes? : Option (List Node)

/-- The fields of a node by their names. -/
abbrev Fields := List (Text × Field)

namespace Fields

/-- The field of a name. -/
def get? (fields : Fields) (name : Text) : Option Field := (fields.find? fun f => f.1 = name).map Prod.snd

/-- The node in a field. -/
def node? (fields : Fields) (name : Text) : Option Node := (fields.get? name).bind Field.node?

/-- The nodes of a list in a field. -/
def nodes? (fields : Fields) (name : Text) : Option (List Node) := (fields.get? name).bind Field.nodes?

/-- The text of a document. -/
def textOf? : Json → Option Text
  | .string t => some t
  | _ => none

/-- The texts of a list. -/
def textsOf? : Json → Option (List Text)
  | .array items => items.mapM textOf?
  | _ => none

/-- A literal's value, numbers as integers. -/
def literalOf? : Json → Option Value
  | .bool b => some (.bool b)
  | .string t => some (.text t)
  | .number t => (Number.readInt64 t).toOption.map .int
  | _ => none

/-- The text in a field. -/
def text? (fields : Fields) (name : Text) : Option Text :=
  (fields.get? name).bind fun f => textOf? f.document

/-- The texts of a list in a field. -/
def texts? (fields : Fields) (name : Text) : Option (List Text) :=
  (fields.get? name).bind fun f => textsOf? f.document

/-- The value of a literal in a field. -/
def literal? (fields : Fields) (name : Text) : Option Value :=
  (fields.get? name).bind fun f => literalOf? f.document

end Fields

/-- How a node of each kind is made of its fields. -/
def builders : List (Text × (Fields → Option Node)) := [
  ("literal", fun f => do return .literal (← f.literal? "value")),
  ("identifier", fun f => do return .identifier (← f.text? "name")),
  ("variable_declaration", fun f => do return .declare (← f.text? "name") (← f.node? "init")),
  ("assignment", fun f => do return .assign (← f.text? "name") (← f.node? "value")),
  ("array", fun f => do return .array (← f.nodes? "elements")),
  ("associative_array", fun f => do return .assoc (← f.nodes? "keys") (← f.nodes? "values")),
  ("array_access", fun f => do return .index (← f.node? "array") (← f.node? "index")),
  ("array_assignment", fun f => do
    return .indexAssign (← f.text? "name") (← f.node? "index") (← f.node? "value")),
  ("property_access", fun f => do
    let object ← f.node? "object"
    let name ← f.text? "property"
    match f.get? "arg" with
    | none => return .property object name
    | some ⟨.null, _, _⟩ => return .propertyCall object name
    | some arg => return .propertyWith object name (← arg.node?)),
  ("arithmetic", fun f => do return .binary (← f.node? "left") (← f.text? "op") (← f.node? "right")),
  ("unary_arithmetic", fun f => do return .unary (← f.text? "op") (← f.node? "operand")),
  ("comparison", fun f => do
    return .comparison (← f.node? "left") (← f.text? "op") (← f.node? "right")),
  ("logical_chain", fun f => do return .chain (← f.nodes? "operands") (← f.texts? "ops")),
  ("if", fun f => do
    let test ← f.node? "cond"
    let body ← f.nodes? "body"
    match f.get? "else" with
    | none => return .ifThen test body
    | some otherwise => return .ifElse test body (← otherwise.nodes?)),
  ("for", fun f => do
    return .forLoop (← f.node? "init") (← f.node? "cond") (← f.node? "update") (← f.nodes? "body")),
  ("while", fun f => do return .whileLoop (← f.node? "cond") (← f.nodes? "body")),
  ("foreach", fun f => do
    return .forEach (← f.node? "array") (← f.text? "item") (← f.nodes? "body")),
  ("filter", fun f => do
    return .filter (← f.node? "array") (← f.text? "item") (← f.node? "predicate")),
  ("function", fun f => do
    return .function (← f.text? "name") (← f.texts? "params") (← f.nodes? "body")),
  ("function_call", fun f => do return .call (← f.text? "name") (← f.nodes? "args")),
  ("print", fun f => do return .print (← f.nodes? "values")),
  ("return", fun f => do
    match f.get? "value" with
    | none => return .ret
    | some value => return .retWith (← value.node?)),
  ("fetch", fun f => do return .fetch (← f.node? "url")),
  ("comment", fun f => do return .comment (← f.text? "text"))]

/-- The node of some fields, one of which names its kind. -/
def build? (fields : Fields) : Option Node := do
  let kind ← fields.text? "kind"
  let (_, make) ← builders.find? fun b => b.1 = kind
  make fields

mutual

/-- The node that a document stands for. -/
def ofJson? : Json → Option Node
  | .object members => build? (fieldsOfJson members)
  | _ => none

/-- The nodes that a list stands for. -/
def listOfJson? : Json → Option (List Node)
  | .array items => itemsOfJson? items
  | _ => none

/-- The nodes of a list, all of which must be decoded. -/
def itemsOfJson? : List Json → Option (List Node)
  | [] => some []
  | j :: js => do return (← ofJson? j) :: (← itemsOfJson? js)

/-- Members with all that they can be read as. -/
def fieldsOfJson : List (Text × Json) → Fields
  | [] => []
  | (name, j) :: ms => (name, ⟨j, ofJson? j, listOfJson? j⟩) :: fieldsOfJson ms

end

end Node

/-- The program that a document stands for. -/
def Program.ofJson? (j : Json) : Option Program := Node.listOfJson? j

namespace Node

/-! ## What fields give

For every sort of outline it is said once what its document can be read as. A node is then decoded by
evaluation: its kind picks the builder, and this one finds its fields. -/

/-- What the document of an outline can be read as. -/
def Field.of (o : Outline) : Field := ⟨o.toJson, ofJson? o.toJson, listOfJson? o.toJson⟩

/-- An outline is legible, and its document is read as a given field. -/
structure Gives (o : Outline) (f : Field) : Prop where
  legible : o.Legible
  field : Field.of o = f

/-- So it is for all fields of a node. -/
inductive GivesAll : List (Text × Outline) → Fields → Prop where
  | nil : GivesAll [] []
  | cons {name : Text} {o : Outline} {f : Field} {os : List (Text × Outline)} {fs : Fields}
      (hname : name.isUtf8 = true) (h : Gives o f) (hs : GivesAll os fs) :
      GivesAll ((name, o) :: os) ((name, f) :: fs)

/-- The names and outlines of the fields are legible. -/
theorem GivesAll.legible {os : List (Text × Outline)} {fs : Fields} (h : GivesAll os fs) :
    (∀ o ∈ os, o.1.isUtf8 = true) ∧ ∀ o ∈ os, o.2.Legible := by
  induction h with
  | nil => exact ⟨nofun, nofun⟩
  | cons hname h _ ih =>
    exact ⟨List.forall_mem_cons.mpr ⟨hname, ih.1⟩, List.forall_mem_cons.mpr ⟨h.legible, ih.2⟩⟩

/-- The members of the document are the given fields. -/
theorem GivesAll.fields {os : List (Text × Outline)} {fs : Fields} (h : GivesAll os fs) :
    fieldsOfJson (Outline.fieldsToJson os) = fs := by
  induction h with
  | nil => rfl
  | @cons name o f os fs _ h _ ih =>
    rw [Outline.fieldsToJson, fieldsOfJson, ih, ← h.field]
    rfl

/-- A well-formed text gives the text. -/
theorem gives_text {t : Text} (h : t.isUtf8 = true) : Gives (Outline.text t) ⟨.string t, none, none⟩ :=
  ⟨.text h, rfl⟩

/-- An absent value gives nothing else. -/
theorem gives_null : Gives Outline.null ⟨.null, none, none⟩ := ⟨.null, rfl⟩

/-- The texts of a list are read back. -/
theorem textsOf?_texts (ts : List Text) :
    Fields.textsOf? (Outline.texts ts).toJson = some ts := by
  show (Outline.itemsToJson (ts.map Outline.text)).mapM Fields.textOf? = some ts
  induction ts with
  | nil => rfl
  | cons t ts ih =>
    rw [List.map_cons, Outline.itemsToJson, List.mapM_cons, ih]
    rfl

/-- The outline of a node is legible, and its document is decoded as the node. -/
structure Recorded (n : Node) : Prop where
  legible : (Outline.ofNode n).Legible
  decoded : ofJson? (Outline.ofNode n).toJson = some n

/-- A document that is decoded as a node is an object. -/
theorem Recorded.gives_object {n : Node} (h : n.Recorded) :
    ∃ members, Gives (Outline.ofNode n) ⟨.object members, some n, none⟩ := by
  have hdecoded := h.decoded
  -- No other document is decoded as a node.
  cases hj : (Outline.ofNode n).toJson with
  | object members =>
    rw [hj] at hdecoded
    refine ⟨members, h.legible, ?_⟩
    rw [Field.of, hj, hdecoded]
    rfl
  | _ =>
    rw [hj] at hdecoded
    exact nomatch hdecoded

/-- So the outline of a node gives the node. -/
theorem Recorded.gives {n : Node} (h : n.Recorded) :
    Gives (Outline.ofNode n) ⟨(Outline.ofNode n).toJson, some n, none⟩ := by
  obtain ⟨members, hlegible, hfield⟩ := h.gives_object
  have hdocument : (Outline.ofNode n).toJson = .object members := congrArg Field.document hfield
  rw [hdocument]
  exact ⟨hlegible, hfield⟩

/-- The outlines of nodes are decoded one by one. -/
theorem recorded_items {ns : List Node} (h : ∀ n ∈ ns, n.Recorded) :
    (∀ o ∈ Outline.ofNodes ns, o.Legible) ∧
      itemsOfJson? (Outline.itemsToJson (Outline.ofNodes ns)) = some ns := by
  induction ns with
  | nil => exact ⟨nofun, rfl⟩
  | cons n ns ih =>
    obtain ⟨hn, hns⟩ := List.forall_mem_cons.mp h
    obtain ⟨hlegible, hdecoded⟩ := ih hns
    refine ⟨List.forall_mem_cons.mpr ⟨hn.legible, hlegible⟩, ?_⟩
    rw [Outline.ofNodes, Outline.itemsToJson, itemsOfJson?, hn.decoded, hdecoded]
    rfl

/-- So a list of them gives the nodes. -/
theorem gives_nodes {ns : List Node} (h : ∀ n ∈ ns, n.Recorded) :
    Gives (.sequence (Outline.ofNodes ns))
      ⟨(Outline.sequence (Outline.ofNodes ns)).toJson, none, some ns⟩ := by
  obtain ⟨hlegible, hdecoded⟩ := recorded_items h
  refine ⟨.sequence hlegible, ?_⟩
  show Field.mk _ none (itemsOfJson? (Outline.itemsToJson (Outline.ofNodes ns))) = _
  rw [hdecoded]

/-- The outline of a node with its kind and fields, from which the node can be made again. -/
theorem recorded_of_fields {n : Node} {os : List (Text × Outline)} {fs : Fields}
    (houtline : Outline.ofNode n = .mapping (("kind", Outline.text n.kind) :: os))
    (hkind : n.kind.isUtf8 = true) (h : GivesAll os fs)
    (hbuild : build? (("kind", ⟨.string n.kind, none, none⟩) :: fs) = some n) : n.Recorded := by
  have hall : GivesAll (("kind", Outline.text n.kind) :: os) _ := .cons rfl (gives_text hkind) h
  rw [← hall.fields] at hbuild
  obtain ⟨hnames, hlegible⟩ := hall.legible
  refine ⟨houtline ▸ .mapping hnames hlegible, ?_⟩
  rw [houtline]
  exact hbuild

/-! ## Nodes

What does not follow from the fields by evaluation: literals, whose text is read again, lists of texts, and
an argument that must be told from none. -/

/-- A literal is recorded if its value is read back. -/
theorem recorded_literal {v : Value} {f : Field} (h : Gives (Outline.ofLiteral v) f)
    (hvalue : Fields.literalOf? f.document = some v) : (Node.literal v).Recorded := by
  refine recorded_of_fields rfl rfl (.cons rfl h .nil) ?_
  show (do return Node.literal (← Fields.literalOf? f.document)) = _
  rw [hvalue]
  rfl

/-- The text of an integer is read as the integer. -/
theorem recorded_int (n : Int64) : (Node.literal (.int n)).Recorded := by
  refine recorded_literal ⟨.int n.toInt, rfl⟩ ?_
  show (Number.readInt64 (Text.ofInt n.toInt)).toOption.map Value.int = _
  rw [Number.readInt64_ofInt]
  rfl

/-- A truth value is told by its word. -/
theorem recorded_bool (b : Bool) : (Node.literal (.bool b)).Recorded := by
  refine recorded_literal ⟨.bool b, rfl⟩ ?_
  show Fields.literalOf? (Outline.scalar .bool (if b then "true" else "false")).toJson = _
  rw [Outline.toJson_bool]
  rfl

/-- A list of well-formed texts is legible. -/
theorem gives_texts {ts : List Text} (h : ∀ t ∈ ts, t.isUtf8 = true) :
    Gives (Outline.texts ts) (Field.of (Outline.texts ts)) := by
  refine ⟨.sequence fun o ho => ?_, rfl⟩
  obtain ⟨t, ht, rfl⟩ := List.mem_map.mp ho
  exact .text (h t ht)

/-- An argument is told from none at all, since it is an object. -/
theorem recorded_propertyWith {object arg : Node} {name : Text} (ho : object.Recorded)
    (hname : name.isUtf8 = true) (ha : arg.Recorded) : (Node.propertyWith object name arg).Recorded := by
  obtain ⟨members, harg⟩ := ha.gives_object
  exact recorded_of_fields rfl rfl
    (.cons rfl ho.gives (.cons rfl (gives_text hname) (.cons rfl harg .nil))) rfl

/-- A chain is recorded: its operators are a list of texts. -/
theorem recorded_chain {operands : List Node} {ops : List Text} (h : ∀ n ∈ operands, n.Recorded)
    (hops : ∀ op ∈ ops, op.isUtf8 = true) : (Node.chain operands ops).Recorded := by
  refine recorded_of_fields rfl rfl (.cons rfl (gives_nodes h) (.cons rfl (gives_texts hops) .nil)) ?_
  show (do return Node.chain operands (← Fields.textsOf? (Outline.texts ops).toJson)) = _
  rw [textsOf?_texts]
  rfl

/-- A function is recorded: its parameters are a list of texts. -/
theorem recorded_function {name : Text} {params : List Text} {body : List Node}
    (hname : name.isUtf8 = true) (hparams : ∀ p ∈ params, p.isUtf8 = true)
    (hb : ∀ n ∈ body, n.Recorded) : (Node.function name params body).Recorded := by
  refine recorded_of_fields rfl rfl
    (.cons rfl (gives_text hname) (.cons rfl (gives_texts hparams) (.cons rfl (gives_nodes hb) .nil))) ?_
  show (do return Node.function name (← Fields.textsOf? (Outline.texts params).toJson) body) = _
  rw [textsOf?_texts]
  rfl

end Node

end Mundart
