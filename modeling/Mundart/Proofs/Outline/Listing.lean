import Mundart.Outline.Yaml
import Mundart.Proofs.Grammar.Yield
import Mundart.Proofs.Outline.Decoding
import Mundart.Proofs.Value.JsonRoundTrip
import Mundart.Proofs.Value.Literal

/-!
# Programs by their listings

A program is listed by the outline of its nodes. The listing in JSON leaves nothing out: the program is
decoded from it, if its strings are well-formed, its numbers are integers and the outline is not nested
deeper than JSON is read.

* **`Word.isListable`** — a word keeps its meaning in JSON;
* **`Token.Kind.Carries.isUtf8`** — names and operators always do;
* **`Node.Recorded.of_formed`** — a node of a program is read back if its words keep their meaning;
* **`Program.write_decoded`** — so is a program, and no other program has its listing;
* **`Program.write_tooDeep`** — a program whose listing is refused for its depth.
-/

namespace Mundart

/-! ## Words

JSON takes well-formed texts as they are and repairs all others, and it has one sort of numbers. So a string
with a stray byte and a double do not come back as they were. Everything else in a program is a name, an
operator or a keyword, and all of these are ASCII. -/

namespace Token

/-- The words that rules spell out are well-formed texts. -/
theorem isUtf8_of_spelled : ∀ r ∈ rules, ∀ w ∈ r.2.spelled, Text.isUtf8 w = true := by
  decide +kernel

/-- Word bytes are ASCII. All 256 bytes are tried. -/
theorem ascii_of_isWord (b : UInt8) : Text.isWord b = true → b < 0x80 :=
  forall_byte (fun b => Text.isWord b = true → b < 0x80) (by decide +kernel) b

/-- A name is made of ASCII bytes. -/
theorem ascii_of_name {t : Text} (h : Pattern.name.fits t = true) : t.Ascii := by
  have hfound : Pattern.name.find false t = some t.length := eq_of_beq h
  cases t with
  | nil =>
    intro b hb
    cases hb
  | cons b t =>
    rw [Pattern.find] at hfound
    split at hfound
    · next hb =>
      have hlength : (t.takeWhile Text.isWord).length = t.length := by
        have h := Option.some.inj hfound
        rw [List.length_cons] at h
        omega
      have hall := List.takeWhile_eq_self_iff.mp ((List.takeWhile_prefix _).eq_of_length hlength)
      exact List.forall_mem_cons.mpr
        ⟨ascii_of_isWord b (Text.isWord_of_isNameStart hb), fun c hc => ascii_of_isWord c (hall c hc)⟩
    · cases hfound

/-- The kinds of names and operators. -/
def Kind.isWording : Kind → Bool
  | .identifier | .arithmetic | .comparison | .andWord | .orWord => true
  | _ => false

/-- Names and operators are well-formed texts; only strings hold any bytes. -/
theorem Kind.Carries.isUtf8 {kind : Kind} {value : Text} (h : kind.Carries value)
    (hkind : kind.isWording = true) : value.isUtf8 = true := by
  -- Names and operators are found by the rule of names or by one that spells them out.
  have hshape : ∀ r ∈ rules, r.1.isWording = true →
      (match r.2 with | .word _ | .name => true | _ => false) = true := by decide
  obtain ⟨lexeme, hclass, rfl⟩ := h.classify
  obtain ⟨r, hfind, rfl⟩ := Option.map_eq_some_iff.mp hclass
  have hr := List.mem_of_find?_eq_some hfind
  have hfits := List.find?_some hfind
  -- Only of strings anything is left out.
  have hvalue : valueOf r.1 lexeme = lexeme := by
    unfold valueOf
    split
    · next hstring =>
      rw [hstring] at hkind
      exact nomatch hkind
    · rfl
  have hspelled := isUtf8_of_spelled r hr
  specialize hshape r hr hkind
  rw [hvalue]
  cases hp : r.2 with
  | word words =>
    rw [hp] at hspelled hfits
    exact hspelled lexeme (List.contains_iff_mem.mp hfits)
  | name =>
    rw [hp] at hfits
    exact (ascii_of_name hfits).isUtf8
  | _ =>
    rw [hp] at hshape
    exact nomatch hshape

end Token

/-- Whether a word keeps its meaning in JSON: strings are well-formed texts, and numbers are integers. -/
def Word.isListable : Word → Bool
  | .spelled .string t => t.isUtf8
  | .number (.int _) => true
  | .number _ => false
  | _ => true

/-- The words of nodes one by one. -/
theorem Node.forall_words {P : Word → Prop} {ns : List Node} (h : ∀ w ∈ wordsOf ns, P w) :
    ∀ n ∈ ns, ∀ w ∈ n.words, P w := by
  induction ns with
  | nil => exact nofun
  | cons n ns ih =>
    rw [wordsOf, List.forall_mem_append] at h
    exact List.forall_mem_cons.mpr ⟨h.1, ih h.2⟩

/-- The words of the operands in a chain, which stand between its operators. -/
theorem Node.forall_linkWords {P : Word → Prop} {ns : List Node} : ∀ {ops : List Text},
    ops.length = ns.length → (∀ w ∈ linkWords ns ops, P w) → ∀ n ∈ ns, ∀ w ∈ n.words, P w := by
  induction ns with
  | nil => exact fun _ _ => nofun
  | cons n ns ih =>
    intro ops hlength h
    match ops with
    | op :: ops =>
      rw [linkWords, List.forall_mem_cons, List.forall_mem_append] at h
      exact List.forall_mem_cons.mpr ⟨h.2.1, ih (Nat.succ.inj hlength) h.2.2⟩

/-- The words of all operands of a chain. -/
theorem Node.forall_chainWords {P : Word → Prop} {ns : List Node} {ops : List Text}
    (hlength : ops.length + 1 = ns.length) (h : ∀ w ∈ chainWords ns ops, P w) :
    ∀ n ∈ ns, ∀ w ∈ n.words, P w := by
  match ns with
  | n :: ns =>
    rw [chainWords, List.forall_mem_append] at h
    exact List.forall_mem_cons.mpr ⟨h.1, forall_linkWords (Nat.succ.inj hlength) h.2⟩

/-! ## Programs

By induction on the derivation of the program: each node is told by its fields, and its words are those of
its parts and its own. One lemma of the outlines does for nearly all nodes; only chains, functions and calls
of methods have fields of another shape. -/

namespace Node

open Token Grammar

/-- The values of number literals. -/
def Numeric (v : Value) : Prop := (∃ n, v = .int n) ∨ ∃ x, v = .double x

/-- A number that is read is an integer or a double. -/
theorem numeric_of_numberValue? {digits : Text} {v : Value} (h : numberValue? digits = some v) :
    Numeric v := by
  rw [numberValue?] at h
  split at h
  · exact .inl ⟨_, (Option.some.inj h).symm⟩
  · exact .inr ⟨_, (Option.some.inj h).symm⟩
  · cases h

/-- Nodes whose words all have a text in JSON. -/
theorem recorded_of_words {ns : List Node}
    (ih : ∀ n ∈ ns, (∀ w ∈ n.words, w.isListable = true) → n.Recorded)
    (hw : ∀ w ∈ wordsOf ns, w.isListable = true) : ∀ n ∈ ns, n.Recorded :=
  fun n hn => ih n hn (forall_words hw n hn)

/-- A node of a program is read back from its outline, if its words have texts in JSON. -/
theorem Recorded.of_formed {place : Place} {n : Node} (h : Formed Numeric place n) :
    (∀ w ∈ n.words, w.isListable = true) → n.Recorded := by
  induction h with
  | name hname =>
    exact fun _ => recorded_of_fields rfl rfl (.cons rfl (gives_text (hname.isUtf8 rfl)) .nil) rfl
  | index _ _ ihc ihp =>
    intro hw
    rw [words, List.forall_mem_append] at hw
    exact recorded_of_fields rfl rfl (.cons rfl (ihc hw.1).gives (.cons rfl (ihp hw.2).gives .nil)) rfl
  | ofTarget _ ih => exact ih
  | number hv =>
    intro hw
    -- A double is excluded, as its word is not listable.
    obtain ⟨n, rfl⟩ | ⟨x, rfl⟩ := hv
    · exact recorded_int n
    · exact nomatch hw (.number (.double x)) List.mem_cons_self
  | @string t _ =>
    intro hw
    exact recorded_literal (gives_text (hw (.spelled .string t) List.mem_cons_self)) rfl
  | truth b => exact fun _ => recorded_bool b
  | array _ ih =>
    intro hw
    rw [words] at hw
    exact recorded_of_fields rfl rfl (.cons rfl (gives_nodes (recorded_of_words ih hw)) .nil) rfl
  | assoc _ _ ihk ihv =>
    intro hw
    rw [words, List.forall_mem_append, List.forall_mem_cons] at hw
    exact recorded_of_fields rfl rfl (.cons rfl (gives_nodes (recorded_of_words ihk hw.1))
      (.cons rfl (gives_nodes (recorded_of_words ihv hw.2.2)) .nil)) rfl
  | property _ hname _ ih =>
    intro hw
    rw [words, List.forall_mem_append] at hw
    exact recorded_of_fields rfl rfl
      (.cons rfl (ih hw.1).gives (.cons rfl (gives_text (hname.isUtf8 rfl)) .nil)) rfl
  | propertyCall _ hname _ ih =>
    intro hw
    rw [words, List.forall_mem_append] at hw
    exact recorded_of_fields rfl rfl (.cons rfl (ih hw.1).gives
      (.cons rfl (gives_text (hname.isUtf8 rfl)) (.cons rfl gives_null .nil))) rfl
  | propertyWith _ hname _ _ iho iha =>
    intro hw
    rw [words, List.forall_mem_append, List.forall_mem_cons, List.forall_mem_cons] at hw
    exact recorded_propertyWith (iho hw.1) (hname.isUtf8 rfl) (iha hw.2.2.2)
  | filter _ hitem _ ihc ihp =>
    intro hw
    simp only [words, List.forall_mem_append, List.forall_mem_cons] at hw
    exact recorded_of_fields rfl rfl (.cons rfl (ihc hw.1).gives
      (.cons rfl (gives_text (hitem.isUtf8 rfl)) (.cons rfl (ihp hw.2.2.2.2.2).gives .nil))) rfl
  | fetch _ ih =>
    intro hw
    rw [words, List.forall_mem_cons] at hw
    exact recorded_of_fields rfl rfl (.cons rfl (ih hw.2).gives .nil) rfl
  | call hname _ ih =>
    intro hw
    rw [words, List.forall_mem_cons] at hw
    exact recorded_of_fields rfl rfl (.cons rfl (gives_text (hname.isUtf8 rfl))
      (.cons rfl (gives_nodes (recorded_of_words ih hw.2)) .nil)) rfl
  | ofPrimary _ ih => exact ih
  | unary hop _ _ ih =>
    intro hw
    rw [words, List.forall_mem_append] at hw
    exact recorded_of_fields rfl rfl
      (.cons rfl (gives_text (hop.isUtf8 rfl)) (.cons rfl (ih hw.1).gives .nil)) rfl
  | binary hop _ _ _ ihl ihr =>
    intro hw
    rw [words, List.forall_mem_append, List.forall_mem_cons] at hw
    exact recorded_of_fields rfl rfl (.cons rfl (ihl hw.1).gives
      (.cons rfl (gives_text (hop.isUtf8 rfl)) (.cons rfl (ihr hw.2.2).gives .nil))) rfl
  | ofOperand _ ih => exact ih
  | comparison hop _ _ ihl ihr =>
    intro hw
    rw [words, List.forall_mem_append, List.forall_mem_cons] at hw
    exact recorded_of_fields rfl rfl (.cons rfl (ihl hw.1).gives
      (.cons rfl (gives_text (hop.isUtf8 rfl)) (.cons rfl (ihr hw.2.2).gives .nil))) rfl
  | ofComparison _ ih => exact ih
  | chain _ hlength hop _ ih =>
    intro hw
    rw [words] at hw
    -- An operator is one of two words.
    have hops := fun op hmem => (hop op hmem).elim (fun h => h.isUtf8 rfl) fun h => h.isUtf8 rfl
    exact recorded_chain (fun n hn => ih n hn (forall_chainWords hlength hw n hn)) hops
  | declare hname _ ih =>
    intro hw
    simp only [words, List.forall_mem_cons] at hw
    exact recorded_of_fields rfl rfl (.cons rfl (gives_text (hname.isUtf8 rfl))
      (.cons rfl (ih hw.2.2.2).gives .nil)) rfl
  | assign hname _ ih =>
    intro hw
    simp only [words, List.forall_mem_cons] at hw
    exact recorded_of_fields rfl rfl (.cons rfl (gives_text (hname.isUtf8 rfl))
      (.cons rfl (ih hw.2.2).gives .nil)) rfl
  | updateAssign _ ih => exact ih
  | updateExpression _ ih => exact ih
  | ofStart _ ih => exact ih
  | ofExpression _ ih => exact ih
  | indexAssign hname _ _ ihp ihv =>
    intro hw
    simp only [words, List.forall_mem_append, List.forall_mem_cons] at hw
    exact recorded_of_fields rfl rfl (.cons rfl (gives_text (hname.isUtf8 rfl))
      (.cons rfl (ihp hw.2.1).gives (.cons rfl (ihv hw.2.2.2).gives .nil))) rfl
  | ifThen _ _ _ iht ihb =>
    intro hw
    simp only [words, List.forall_mem_append, List.forall_mem_cons] at hw
    exact recorded_of_fields rfl rfl (.cons rfl (iht hw.2.1).gives
      (.cons rfl (gives_nodes (recorded_of_words ihb hw.2.2)) .nil)) rfl
  | ifElse _ _ _ _ _ iht ihb iho =>
    intro hw
    simp only [words, List.forall_mem_append, List.forall_mem_cons] at hw
    exact recorded_of_fields rfl rfl (.cons rfl (iht hw.2.1).gives
      (.cons rfl (gives_nodes (recorded_of_words ihb hw.2.2.1))
        (.cons rfl (gives_nodes (recorded_of_words iho hw.2.2.2.2)) .nil))) rfl
  | forLoop _ _ _ _ _ ihs iht ihu ihb =>
    intro hw
    rw [words, List.forall_mem_cons, List.forall_mem_append, List.forall_mem_append,
      List.forall_mem_append] at hw
    exact recorded_of_fields rfl rfl (.cons rfl (ihs hw.2.1).gives (.cons rfl (iht hw.2.2.1).gives
      (.cons rfl (ihu hw.2.2.2.1).gives
        (.cons rfl (gives_nodes (recorded_of_words ihb hw.2.2.2.2)) .nil)))) rfl
  | whileLoop _ _ _ iht ihb =>
    intro hw
    simp only [words, List.forall_mem_append, List.forall_mem_cons] at hw
    exact recorded_of_fields rfl rfl (.cons rfl (iht hw.2.1).gives
      (.cons rfl (gives_nodes (recorded_of_words ihb hw.2.2)) .nil)) rfl
  | forEach _ hitem _ _ ihc ihb =>
    intro hw
    simp only [words, List.forall_mem_append, List.forall_mem_cons] at hw
    exact recorded_of_fields rfl rfl (.cons rfl (ihc hw.2.1).gives
      (.cons rfl (gives_text (hitem.isUtf8 rfl))
        (.cons rfl (gives_nodes (recorded_of_words ihb hw.2.2.2.2)) .nil))) rfl
  | function hname hparams _ _ ih =>
    intro hw
    simp only [words, List.forall_mem_append, List.forall_mem_cons] at hw
    exact recorded_function (hname.isUtf8 rfl) (fun p hp => (hparams p hp).isUtf8 rfl)
      (recorded_of_words ih hw.2.2.2)
  | ret => exact fun _ => recorded_of_fields rfl rfl .nil rfl
  | retWith _ ih =>
    intro hw
    rw [words, List.forall_mem_cons] at hw
    exact recorded_of_fields rfl rfl (.cons rfl (ih hw.2).gives .nil) rfl
  | @comment t _ =>
    intro hw
    rw [words, List.forall_mem_cons, List.forall_mem_cons] at hw
    exact recorded_of_fields rfl rfl (.cons rfl (gives_text hw.2.1) .nil) rfl
  | print _ ih =>
    intro hw
    rw [words, List.forall_mem_cons] at hw
    exact recorded_of_fields rfl rfl (.cons rfl (gives_nodes (recorded_of_words ih hw.2)) .nil) rfl

end Node

open Token Grammar in
/-- Every statement of a source is read back from its outline, if the words of the program have texts in
JSON. -/
theorem Program.recorded_of_parse {source : Text} {program : Program}
    (h : Program.parse source = .ok program) (hwords : ∀ w ∈ program.words, w.isListable = true) :
    ∀ n ∈ program, n.Recorded := by
  have hts : Admits (fun _ => True) (scan source) := fun t ht => ⟨fits_of_mem_scan ht, fun _ => trivial⟩
  have hformed : ∀ n ∈ program, Formed Node.Numeric .statement n :=
    ((derives_of_ofTokens h).formed (fun _ _ hv => Node.numeric_of_numberValue? hv) hts).1
  exact fun n hn => .of_formed (hformed n hn) (Node.forall_words hwords n hn)

/-- The outline of a program is legible, and its document is decoded as the program. -/
theorem Program.decoded_of_recorded {program : Program} (h : ∀ n ∈ program, n.Recorded) :
    (Outline.ofProgram program).Legible ∧
      Program.ofJson? (Outline.ofProgram program).toJson = some program :=
  ⟨.sequence (Node.recorded_items h).1, (Node.recorded_items h).2⟩

/-- The program of a source whose words all keep their meaning in JSON. -/
def Program.Listable (program : Program) : Prop :=
  (∃ source, Program.parse source = .ok program) ∧ ∀ w ∈ program.words, w.isListable = true

namespace Program

/-- What is listable is decoded from the document of its outline. -/
theorem Listable.decoded {program : Program} (h : program.Listable) :
    (Outline.ofProgram program).Legible ∧
      Program.ofJson? (Outline.ofProgram program).toJson = some program := by
  obtain ⟨⟨source, hparse⟩, hwords⟩ := h
  exact decoded_of_recorded (recorded_of_parse hparse hwords)

/-- Writing in this format is the writing of JSON. -/
theorem write_json (o : Outline) : o.write "json" = o.writeJson := by
  have hother : ¬ ((utf8 "json" == utf8 "yaml") || (utf8 "json").isEmpty) = true := by decide
  rw [Outline.write, if_neg hother, if_pos (beq_self_eq_true _)]

/-- As long as it is not nested too deep, the outline of a listable program is written and read back. -/
theorem Listable.written {program : Program} (h : program.Listable)
    (hdepth : (Outline.ofProgram program).nesting ≤ Json.maxDepth) :
    ∃ text, (Outline.ofProgram program).write "json" = .ok text ∧
      Json.read? text = some (Outline.ofProgram program).toJson := by
  rw [write_json]
  exact ⟨_, h.decoded.1.writeJson_read hdepth⟩

/-- An outline that is nested too deep is refused by the writer. -/
theorem Listable.refused {program : Program} (h : program.Listable)
    (hdepth : Json.maxDepth < (Outline.ofProgram program).nesting) :
    (Outline.ofProgram program).write "json" = .error .tooDeep := by
  rw [write_json]
  exact h.decoded.1.writeJson_tooDeep hdepth

/-- A listing that is written is read back as the document of its outline. -/
theorem Listable.read_of_write {program : Program} (h : program.Listable) {text : Text}
    (hwritten : (Outline.ofProgram program).write "json" = .ok text) :
    Json.read? text = some (Outline.ofProgram program).toJson := by
  obtain hdepth | hdepth := Nat.lt_or_ge Json.maxDepth (Outline.ofProgram program).nesting
  · exact nomatch (h.refused hdepth).symm.trans hwritten
  · obtain ⟨text', htext, hread⟩ := h.written hdepth
    rwa [← Except.ok.inj (htext.symm.trans hwritten)]

/-- A program is decoded from its listing in JSON, and no other program has the same listing. Only a listing
that is nested deeper than JSON is read is refused. -/
theorem write_decoded {program : Program} (h : program.Listable) :
    ((Outline.ofProgram program).nesting ≤ Json.maxDepth → ∃ text document,
      (Outline.ofProgram program).write "json" = .ok text ∧ Json.read? text = some document ∧
      ofJson? document = some program ∧
      ∀ program' : Program, program'.Listable →
        (Outline.ofProgram program').write "json" = .ok text → program' = program) ∧
    (Json.maxDepth < (Outline.ofProgram program).nesting →
      (Outline.ofProgram program).write "json" = .error .tooDeep) := by
  refine ⟨fun hdepth => ?_, h.refused⟩
  have hdecoded := h.decoded.2
  obtain ⟨text, hwritten, hread⟩ := h.written hdepth
  refine ⟨text, _, hwritten, hread, hdecoded, fun program' h' hsame => ?_⟩
  -- Both programs have the document that is read from the text.
  have hdocument := Option.some.inj ((h'.read_of_write hsame).symm.trans hread)
  have hdecoded' := h'.decoded.2
  rw [hdocument, hdecoded] at hdecoded'
  exact (Option.some.inj hdecoded').symm

/-- Fields that may be left out, with and without them, and strings that need escapes. -/
theorem write_decoded_optional :
    let source : Text :=
      "wenn (a) \x7b oida.sag(a.c, a.d(1), \"<ö>\") \x7d sonst \x7b speicher a.e() \x7d speicher"
    let a : Node := .identifier "a"
    let program : Program := [
      .ifElse a [.print [.property a "c", .propertyWith a "d" (.literal (.int 1)), .literal (.text "<ö>")]]
        [.retWith (.propertyCall a "e")], .ret]
    Program.parse source = .ok program ∧ program.Listable ∧
      (Outline.ofProgram program).nesting ≤ Json.maxDepth ∧ ∃ text document,
      (Outline.ofProgram program).write "json" = .ok text ∧ Json.read? text = some document ∧
      ofJson? document = some program ∧
      ∀ program' : Program, program'.Listable →
        (Outline.ofProgram program').write "json" = .ok text → program' = program := by
  intro source a program
  have hparse : Program.parse source = .ok program := rfl
  have hwords : ∀ w ∈ program.words, w.isListable = true := by decide +kernel
  have hlistable : program.Listable := ⟨⟨source, hparse⟩, hwords⟩
  have hdepth : (Outline.ofProgram program).nesting ≤ Json.maxDepth := by decide
  exact ⟨hparse, hlistable, hdepth, (write_decoded hlistable).1 hdepth⟩

/-! ## Too deep

That the bound is met is shown by lists inside of each other. Their depth is computed by induction, so that
the program itself is never evaluated. -/

/-- A list with one element stands on two levels of its outline. -/
theorem nesting_singleton (n : Node) :
    (Outline.ofNode (.array [n])).nesting = (Outline.ofNode n).nesting + 2 := by
  simp [Outline.ofNode, Outline.ofNodes, Outline.nesting, Outline.nestingOfFields, Outline.nestingOfItems,
    Outline.text]

/-- So every list around adds two levels. -/
theorem nesting_wrapped (n : Nat) :
    (Outline.ofNode (Value.wrapped n).literal).nesting = 2 * n + 2 := by
  induction n with
  | zero => rfl
  | succ n ih =>
    have hliteral : (Value.wrapped (n + 1)).literal = .array [(Value.wrapped n).literal] := rfl
    rw [hliteral, nesting_singleton, ih]
    rfl

/-- A value within lists can be read back from its shown form. -/
theorem readable_wrapped (n : Nat) : (Value.wrapped n).Readable := by
  induction n with
  | zero => exact .array nofun
  | succ n ih => exact .array (List.forall_mem_singleton.mpr ih)

/-- The literal of a value within lists has no words, so that it is listable. -/
theorem words_wrapped (n : Nat) : (Value.wrapped n).literal.words = [] := by
  induction n with
  | zero => rfl
  | succ n ih =>
    have hliteral : (Value.wrapped (n + 1)).literal = .array [(Value.wrapped n).literal] := rfl
    rw [hliteral, Node.words, Node.wordsOf, Node.wordsOf, ih]
    rfl

/-- A declaration of lists inside of each other. -/
def nestedLists (n : Nat) : Program := [.declare "c" (Value.wrapped n).literal]

/-- The declaration is a source. -/
theorem parse_nestedLists (n : Nat) :
    Program.parse (utf8 "heast c = " ++ (Value.wrapped n).display) = .ok (nestedLists n) :=
  parse_display (readable_wrapped n) (by cases n <;> rfl)

/-- It has no words but its name and keyword. -/
theorem listable_nestedLists (n : Nat) : (nestedLists n).Listable := by
  refine ⟨⟨_, parse_nestedLists n⟩, ?_⟩
  rw [nestedLists, Program.words, Node.wordsOf, Node.wordsOf, Node.words, words_wrapped]
  decide

/-- The program and its declaration add two levels more. -/
theorem nesting_nestedLists (n : Nat) : (Outline.ofProgram (nestedLists n)).nesting = 2 * n + 4 := by
  have hdeclare (init : Node) : (Outline.ofProgram [.declare "c" init]).nesting =
      (Outline.ofNode init).nesting + 2 := by
    simp [Outline.ofProgram, Outline.ofNode, Outline.ofNodes, Outline.nesting, Outline.nestingOfFields,
      Outline.nestingOfItems, Outline.text]
  rw [nestedLists, hdeclare, nesting_wrapped]

/-- Five thousand lists inside of each other are a program, but one whose listing is nested too deep. -/
theorem write_tooDeep :
    Program.parse (utf8 "heast c = " ++ (Value.wrapped 4999).display) = .ok (nestedLists 4999) ∧
      (nestedLists 4999).Listable ∧
      ∃ fault, (Outline.ofProgram (nestedLists 4999)).write "json" = .error fault ∧
        fault.message = "encoding json: exceeded max depth" := by
  have hdeep : Json.maxDepth < (Outline.ofProgram (nestedLists 4999)).nesting := by
    rw [nesting_nestedLists]
    decide
  have hlistable := listable_nestedLists 4999
  exact ⟨parse_nestedLists 4999, hlistable, .tooDeep, hlistable.refused hdeep, rfl⟩

end Program

end Mundart
