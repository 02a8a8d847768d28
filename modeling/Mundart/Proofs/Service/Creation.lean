import Mundart.Proofs.Http.Field
import Mundart.Proofs.Json.RoundTrip
import Mundart.Proofs.Service.Refusal
import Mundart.Proofs.Service.Submission
import Mundart.Proofs.Token.Content

/-!
# Two ways to save a script

A script is saved by a request or by a call, and each checks for itself what it is given. Both take the same
ids, ask the same parser and write to the same store, so they should agree. They do, except for a source that
is nothing but white space: the request refuses it like an empty one, and the call takes it for a program
without statements.

* **`Program.parse_blank`** — white space is a program without statements;
* **`Rpc.reply_scriptRecord`** — every script that can be saved can be told in a message;
* **`Draft`** — what a client wants saved; **`Draft.sentBy_request`** — every draft can be sent;
* **`Draft.Agreement`** — the two answers to one draft fit together;
* **`Draft.Saved.alike`** — saving one draft twice leaves stores that differ in suffix and time only;
* **`Draft.agreement_iff`** — the two surfaces agree on a draft exactly if its source is not blank.
-/

namespace Mundart

/-! ## White space

A request removes white space at both ends of a source before it looks whether there is anything. The
scanner passes over it. So both surfaces know what a blank source is, and they disagree about what to do
with it. -/

namespace Text

/-- Nothing but white space. -/
def Blank (t : Text) : Prop := ∀ r ∈ runes t, isBlankRune r = true

instance (t : Text) : Decidable t.Blank := List.decidableBAll (fun r => isBlankRune r = true) (runes t)

/-- Every rune takes some bytes. -/
theorem bytes_ne_nil (r : Rune) : r.bytes ≠ [] := by
  cases r with
  | char c => exact String.utf8EncodeChar_ne_nil
  | stray b => exact List.cons_ne_nil b []

/-- Only of white space nothing is left between the blanks at its two ends. -/
theorem trim_isEmpty_iff (t : Text) : (trim t).isEmpty = true ↔ t.Blank := by
  unfold trim Blank
  rw [List.isEmpty_iff, List.flatMap_eq_nil_iff]
  constructor
  · intro h
    have hinner : ((runes t).dropWhile isBlankRune).reverse.dropWhile isBlankRune = [] := by
      rw [List.eq_nil_iff_forall_not_mem]
      intro r hr
      exact bytes_ne_nil r (h r (List.mem_reverse.mpr hr))
    -- What the second pass removes was kept by the first, so there was nothing to keep.
    have hfirst : (runes t).dropWhile isBlankRune = [] := by
      rw [List.dropWhile_eq_nil_iff] at hinner
      by_contra hne
      have hhead := List.head_dropWhile_not isBlankRune hne
      have hblank := hinner _ (List.mem_reverse.mpr (List.head_mem hne))
      rw [hhead] at hblank
      exact nomatch hblank
    exact List.dropWhile_eq_nil_iff.mp hfirst
  · intro h r hr
    rw [List.dropWhile_eq_nil_iff.mpr h] at hr
    exact nomatch hr

end Text

namespace Token

/-- Beyond ASCII no lexeme starts with a byte. All 256 bytes are tried. -/
theorem not_opens_high (b : UInt8) : 128 ≤ b.toNat → ∀ r ∈ rules, r.2.opens b = false :=
  forall_byte (fun b => 128 ≤ b.toNat → ∀ r ∈ rules, r.2.opens b = false) (by decide +kernel) b

/-- No lexeme starts inside white space. -/
theorem not_opens_of_blank {source : Text} (h : source.Blank) :
    ∀ b ∈ source, ∀ r ∈ rules, r.2.opens b = false := by
  intro b hb
  rw [← Text.flatMap_bytes_runes source] at hb
  obtain ⟨rune, hrune, hb⟩ := List.mem_flatMap.mp hb
  have hblank := h rune hrune
  cases rune with
  | stray b => exact nomatch hblank
  | char c =>
    -- The bytes of longer characters are past ASCII; the shorter characters are tried one by one.
    by_cases hc : c.toNat < 128
    · have hascii : ∀ n < 128, Text.isBlank (Char.ofNat n) = true →
          ∀ r ∈ rules, r.2.opens (UInt8.ofNat n) = false := by decide +kernel
      have hbyte : b = UInt8.ofNat c.toNat := by
        rw [← List.mem_singleton, ← Text.encode_ascii hc]
        exact hb
      rw [hbyte]
      refine hascii c.toNat hc ?_
      rw [Char.ofNat_toNat]
      exact hblank
    · exact not_opens_high b (Text.high_of_mem_encode (Nat.not_lt.mp hc) hb)

/-- A text in which no lexeme starts has no tokens. -/
theorem contents_of_not_opens {t : Text} : ∀ afterWord : Bool,
    (∀ b ∈ t, ∀ r ∈ rules, r.2.opens b = false) → contents afterWord t = [] := by
  induction t with
  | nil => exact fun _ _ => rfl
  | cons b t ih =>
    intro afterWord h
    have hnone : lexemeLength? afterWord (b :: t) = none :=
      List.findSome?_eq_none_iff.mpr fun r hr => find_eq_none (h b List.mem_cons_self r hr)
    rw [contents_skip hnone]
    exact ih _ fun b' hb' => h b' (List.mem_cons_of_mem b hb')

end Token

/-- White space is a program without statements. -/
theorem Program.parse_blank {source : Text} (h : source.Blank) : Program.parse source = .ok [] := by
  have hscan : Token.scan source = [] := by
    rw [← List.map_eq_nil_iff, Token.contents_scan]
    exact Token.contents_of_not_opens false (Token.not_opens_of_blank h)
  rw [Program.parse, hscan]
  rfl

/-! ## Scripts in messages

A call tells the script that it has saved, and a message takes well-formed texts only. That it never fails
behind the change has to be proved, or a call might save a script and report an error. Besides the texts of
the draft everything in the record is ASCII. -/

namespace Text

/-- Padded numbers are ASCII texts. -/
theorem ascii_padNat (width n : Nat) : Ascii (padNat width n) := by
  have hzeros : Ascii (List.replicate (width - (ofNat n).length) 48) := by
    intro b hb
    rw [List.eq_of_mem_replicate hb]
    decide
  have hdigits : Ascii (ofNat n) := by
    intro b hb
    have hdigit : 48 ≤ b.toNat ∧ b.toNat ≤ 57 := by
      simpa [isDigit, UInt8.le_iff_toNat_le] using isDigit_of_mem_ofNat hb
    rw [UInt8.lt_iff_toNat_lt]
    exact lt_of_le_of_lt hdigit.2 (by decide)
  exact hzeros.append hdigits

end Text

/-- Dates are ASCII texts. -/
theorem Date.ascii_text (d : Date) : Text.Ascii d.text := by
  have hsign : Text.Ascii (if d.year < 0 then utf8 "-" else []) := by
    split
    · decide
    · decide
  exact (((hsign.append (Text.ascii_padNat _ _)).append (by decide)).append (Text.ascii_padNat _ _)).append
    (by decide) |>.append (Text.ascii_padNat _ _)

/-- Instants are ASCII texts. -/
theorem Instant.ascii_rfc3339 (t : Instant) : Text.Ascii (Instant.rfc3339 t) := by
  have hclock : Text.Ascii (Instant.clock t) :=
    ((((Text.ascii_padNat _ _).append (by decide)).append (Text.ascii_padNat _ _)).append
      (by decide)).append (Text.ascii_padNat _ _)
  exact (((Date.ascii_text _).append (by decide)).append hclock).append (by decide)

/-- Revisions are ASCII texts if their suffix is. -/
theorem Revision.ascii_text {r : Revision} (h : Text.Ascii r.suffix) : Text.Ascii r.text :=
  ((Text.ascii_padNat _ _).append (by decide)).append h

namespace Rpc

/-- Well-formed texts under well-formed names are told as they are. -/
theorem messageEntries_texts (texts : List (Text × Text))
    (h : ∀ e ∈ texts, e.1.isUtf8 = true ∧ e.2.isUtf8 = true) :
    messageEntries (texts.map fun e => (e.1, .text e.2)) = .ok (texts.map fun e => (e.1, .text e.2)) := by
  induction texts with
  | nil => rfl
  | cons e texts ih =>
    have hrest := ih fun e' he' => h e' (List.mem_cons_of_mem e he')
    obtain ⟨hname, htext⟩ := h e List.mem_cons_self
    have htold : message (.text e.2) = .ok (.text e.2) := by
      rw [message, messageText, if_pos htext]
      rfl
    rw [List.map_cons, messageEntries, messageText, if_pos hname, htold, hrest]
    rfl

/-- Every script that can be saved can be told in a message. -/
theorem reply_scriptRecord {script : Script} (hid : script.id.isUtf8 = true)
    (hsource : script.source.isUtf8 = true) (hdescription : script.description.isUtf8 = true)
    (hsuffix : Text.Ascii script.revision.suffix) :
    reply (scriptRecord script) = .ok (scriptRecord script) := by
  have hcreated := (Instant.ascii_rfc3339 script.created).isUtf8
  have hupdated := (Instant.ascii_rfc3339 script.updated).isUtf8
  have hrevision := (Revision.ascii_text hsuffix).isUtf8
  -- All that is told is a text under a name: what came with the draft, the revision and the two times.
  have hentries := messageEntries_texts
    [("createTime", Instant.rfc3339 script.created), ("description", script.description),
      ("id", script.id), ("revisionId", script.revision.text), ("source", script.source),
      ("state", Script.stateName), ("updateTime", Instant.rfc3339 script.updated)]
    (by
      simp only [List.forall_mem_cons]
      exact ⟨⟨by decide, hcreated⟩, ⟨by decide, hdescription⟩, ⟨by decide, hid⟩, ⟨by decide, hrevision⟩,
        ⟨by decide, hsource⟩, ⟨by decide, by decide⟩, ⟨by decide, hupdated⟩, nofun⟩)
  have hmessage : message (scriptRecord script) = .ok (scriptRecord script) := by
    unfold scriptRecord
    rw [message]
    exact congrArg (Except.map Value.assoc) hentries
  rw [reply, hmessage]

end Rpc

/-! ## Stores with the same content

Two runs of one operation differ in the time and in the suffix that they draw. `Alike` passes over both, in
every script, and over nothing else. -/

/-- Scripts that differ at most in the suffix of their revision and in their times. -/
structure Script.Alike (a b : Script) : Prop where
  id : a.id = b.id
  source : a.source = b.source
  description : a.description = b.description
  number : a.revision.number = b.revision.number

/-- Stores that differ at most in the suffixes and times of their scripts. -/
structure Store.Alike (s t : Store) : Prop where
  scripts : List.Forall₂ (fun e f => e.1 = f.1 ∧ e.2.Alike f.2) s.scripts t.scripts
  runs : s.runs = t.runs
  revisions : s.revisions = t.revisions

/-- A script is like itself. -/
theorem Script.Alike.refl (a : Script) : a.Alike a := ⟨rfl, rfl, rfl, rfl⟩

/-! ## Drafts

A draft is what the two surfaces are given in common. `SentBy` and `CalledBy` say that a request and a call
hold it, each in its own form, and not how they came to hold it. -/

/-- A script as a client wants it saved. -/
structure Draft where
  id : Text
  source : Text
  description : Text
  id_isUtf8 : id.isUtf8 = true
  source_isUtf8 : source.isUtf8 = true
  description_isUtf8 : description.isUtf8 = true

namespace Draft

open Http (Request Response)

/-- A request that asks for a draft to be saved. -/
structure SentBy (d : Draft) (c : Server.Config) (r : Request) : Prop where
  method : r.method = "POST"
  endpoint : Endpoint.find? .post r.path = some .createScript
  id : Http.fieldValue "scriptId" r.query = d.id
  submission : Submission.read c.decoder [.source, .description] r = .ok ⟨d.source, d.description⟩

/-- The fields of a call that asks for a draft to be saved. -/
structure CalledBy (d : Draft) (fields : Json) : Prop where
  id : Rpc.textField "id" fields = d.id
  source : Rpc.textField "source" fields = d.source
  description : Rpc.textField "description" fields = d.description

/-- The body of a request for the draft. -/
def body (d : Draft) : Json := .object [("source", .string d.source), ("description", .string d.description)]

/-- A request for a draft, with everything where it is looked for. -/
def request (d : Draft) : Request :=
  { method := "POST", target := "/v1/scripts" ++ ascii '?' :: ("scriptId" ++ ascii '=' :: Http.encodeField d.id)
    contentType := "application/json", body := Json.render d.body }

/-- The fields of a call for the draft, with its id among them. -/
def fields (d : Draft) : Json :=
  .object [("id", .string d.id), ("source", .string d.source), ("description", .string d.description)]

/-- Every draft can be called for. -/
theorem calledBy_fields (d : Draft) : d.CalledBy d.fields := ⟨rfl, rfl, rfl⟩

/-- The request says that its body is JSON. -/
theorem isJson_request (d : Draft) : d.request.isJson = true := by
  rfl

/-- The body of the request is read as source and description of the draft, without the decoder for other
formats. -/
theorem read_request (d : Draft) (decoder : Submission.Decoder) :
    Submission.read decoder [.source, .description] d.request = .ok ⟨d.source, d.description⟩ := by
  have hplain : Json.Plain Json.maxDepth d.body := by
    refine .object ?_ ?_
    · simp only [List.forall_mem_cons]
      exact ⟨by decide, by decide, nofun⟩
    · simp only [List.forall_mem_cons]
      exact ⟨.string d.source_isUtf8, .string d.description_isUtf8, nofun⟩
  rw [Submission.read_render decoder _ hplain d.isJson_request rfl]
  rfl

/-- Every draft can be sent. -/
theorem sentBy_request (d : Draft) (c : Server.Config) : d.SentBy c d.request := by
  have hpath : d.request.path = "/v1/scripts" := Request.path_field rfl (by decide) (by decide)
  have hquery : d.request.query = [(Http.decodeField "scriptId", d.id)] :=
    Request.query_field rfl (by decide) (by decide) (by decide) (by decide) (by decide)
  refine ⟨rfl, ?_, ?_, d.read_request c.decoder⟩
  · rw [hpath]
    decide +kernel
  · rw [hquery]
    rfl

/-! ## The two answers

Both end in the store. Where they refuse a draft earlier, a status and a code have to stand for the same
reason. -/

/-- The status of a refused request and the code of a refused call that stand for the same. -/
inductive Corresponds : Nat → Rpc.Code → Prop where
  | invalidArgument : Corresponds 400 .invalidArgument
  | alreadyExists : Corresponds 409 .alreadyExists

/-- A store with a draft saved as a new script, without runs and under the next revision. -/
structure Saved (d : Draft) (s s' : Store) : Prop where
  free : s.scripts.get? d.id = none
  script : ∃ script : Script, script.id = d.id ∧ script.source = d.source ∧
    script.description = d.description ∧ script.revision.number = s.revisions + 1 ∧
    s' = { scripts := s.scripts.set d.id script, runs := s.runs.set d.id [], revisions := s.revisions + 1 }

/-- The two answers to one draft fit together: both save it, and the stores differ in suffix and time only,
or both refuse it for the same reason and change nothing. -/
inductive Agreement (d : Draft) (server : Server) (service : Rpc.Service) :
    Response × Server → Except Rpc.Problem Value × Rpc.Service → Prop where
  | saved {response : Response} {message : Value} {s t : Store} (hstatus : response.status = 200)
      (hs : d.Saved server.store s) (ht : d.Saved service.store t) (halike : s.Alike t) :
      Agreement d server service (response, { server with store := s })
        (.ok message, { service with store := t })
  | refused {response : Response} {problem : Rpc.Problem}
      (hcode : Corresponds response.status problem.code) :
      Agreement d server service (response, server) (.error problem, service)

/-- What both surfaces ask of a draft. -/
structure Sound (d : Draft) : Prop where
  id : Script.validId d.id = true
  source : d.source ≠ []
  program : (Program.parse d.source).isOk = true

/-- A draft whose only fault is a source of white space. -/
structure Blank (d : Draft) : Prop where
  id : Script.validId d.id = true
  source : d.source ≠ []
  blank : d.source.Blank

/-- A valid id is not empty, which is asked first. -/
theorem Sound.isEmpty_id {d : Draft} (h : d.Sound) : d.id.isEmpty = false := by
  cases hid : d.id with
  | nil => exact absurd h.id (by rw [hid]; decide)
  | cons b rest => rfl

/-- White space is a program without statements, so that a blank draft has nothing else against it. -/
theorem Blank.sound {d : Draft} (h : d.Blank) : d.Sound :=
  ⟨h.id, h.source, isOk_of_parse (Program.parse_blank h.blank)⟩

variable {d : Draft} {s t u : Store}

/-- Saving one draft twice leaves stores that differ in suffix and time only. -/
theorem Saved.alike (hs : d.Saved u s) (ht : d.Saved u t) : s.Alike t := by
  obtain ⟨a, haid, hasource, hadescription, hanumber, rfl⟩ := hs.script
  obtain ⟨b, hbid, hbsource, hbdescription, hbnumber, rfl⟩ := ht.script
  have hab : a.Alike b := ⟨haid.trans hbid.symm, hasource.trans hbsource.symm,
    hadescription.trans hbdescription.symm, hanumber.trans hbnumber.symm⟩
  have hnew : d.id ∉ u.scripts.keys := (Dict.get?_eq_none_iff _ _).mp hs.free
  refine ⟨?_, rfl, rfl⟩
  dsimp only
  -- The id is new in both, so that the script is added behind the others.
  rw [Dict.set_of_notMem hnew, Dict.set_of_notMem hnew]
  have hold : List.Forall₂ (fun e f => e.1 = f.1 ∧ e.2.Alike f.2) u.scripts u.scripts :=
    List.forall₂_same.mpr fun e _ => ⟨rfl, .refl e.2⟩
  exact List.rel_append hold (.cons ⟨rfl, hab⟩ .nil)

/-- Under a free id a draft is saved. -/
theorem createScript_free (hfree : s.scripts.get? d.id = none) (stamp : Stamp) : ∃ script s',
    s.createScript d.id d.source d.description stamp = (.ok script, s') ∧ d.Saved s s' ∧
    script.id = d.id ∧ script.source = d.source ∧ script.description = d.description ∧
    script.revision.suffix = stamp.token.take 3 := by
  have hhas : s.scripts.has d.id = false := by simp [Dict.has, hfree]
  unfold Store.createScript
  rw [hhas]
  exact ⟨_, _, rfl, ⟨hfree, _, rfl, rfl, rfl, rfl, rfl⟩, rfl, rfl, rfl, rfl⟩

/-- Under a taken id it is refused. -/
theorem createScript_taken {old : Script} (htaken : s.scripts.get? d.id = some old) (stamp : Stamp) :
    s.createScript d.id d.source d.description stamp = (.error (.scriptExists d.id), s) := by
  have hhas : s.scripts.has d.id = true := by simp [Dict.has, htaken]
  rw [Store.createScript, if_pos hhas]

/-! ### Requests

The handler is unfolded here, and nowhere else, for drafts that it refuses and for drafts that it hands on.
-/

section

variable {c : Server.Config} {server : Server} {r : Request} {stamp : Stamp}

/-- A request refuses a draft that is not sound, and every source of white space. -/
theorem request_refused (hsent : d.SentBy c r) (h : d.Sound → d.source.Blank) :
    ∃ message, server.createScript c r stamp = (Server.problem .invalidArgument message, server) := by
  unfold Server.createScript
  rw [hsent.id, hsent.submission]
  dsimp only
  -- no id, a bad id, an empty source, or one that is parsed
  split
  · exact ⟨_, rfl⟩
  split
  · exact ⟨_, rfl⟩
  split
  · exact ⟨_, rfl⟩
  · next hid htrim =>
    have hblank : ¬ d.source.Blank := by
      rw [← Text.trim_isEmpty_iff]
      exact htrim
    have hvalid : Script.validId d.id = true := by simpa using hid
    have hne : d.source ≠ [] := by
      intro heq
      rw [heq] at hblank
      exact hblank nofun
    -- All that is left to be wrong is the program.
    cases hparse : Program.parse d.source with
    | error e =>
      unfold Server.sourceProblem?
      rw [hparse]
      exact ⟨_, rfl⟩
    | ok program => exact absurd (h ⟨hvalid, hne, isOk_of_parse hparse⟩) hblank

/-- A request hands any other draft to the store. -/
theorem request_stored (hsent : d.SentBy c r) (hsound : d.Sound) (hblank : ¬ d.source.Blank) :
    server.createScript c r stamp =
      server.changing (server.store.createScript d.id d.source d.description stamp)
        fun script => .ofJson script.toJson 200 := by
  -- The request looks at what is left of the source without blanks.
  have htrim : (Text.trim d.source).isEmpty = false := by
    rw [← Bool.not_eq_true, Text.trim_isEmpty_iff]
    exact hblank
  obtain ⟨program, hparse⟩ := exists_program hsound.program
  have hproblem : Server.sourceProblem? d.source = none := by
    rw [Server.sourceProblem?, hparse]
  unfold Server.createScript
  rw [hsent.id, hsent.submission]
  dsimp only
  rw [hsound.isEmpty_id, hsound.id, htrim, hproblem]
  rfl

/-- A request saves exactly the drafts that are sound, not blank and free. -/
theorem request_status_iff (hsent : d.SentBy c r) : (server.createScript c r stamp).1.status = 200 ↔
    d.Sound ∧ ¬ d.Blank ∧ server.store.scripts.get? d.id = none := by
  -- what the handler refuses, and what it hands to the store
  by_cases h : d.Sound → d.source.Blank
  · obtain ⟨message, hrefused⟩ := request_refused hsent h
    rw [hrefused]
    refine iff_of_false (by decide : (400 : Nat) ≠ 200) ?_
    rintro ⟨hsound, hblank, -⟩
    exact hblank ⟨hsound.id, hsound.source, h hsound⟩
  · rw [Classical.not_imp] at h
    obtain ⟨hsound, hblank⟩ := h
    rw [request_stored hsent hsound hblank]
    cases htaken : server.store.scripts.get? d.id with
    | some old =>
      rw [createScript_taken htaken]
      exact iff_of_false (by decide : (409 : Nat) ≠ 200) fun h => nomatch h.2.2
    | none =>
      obtain ⟨script, s, hcreate, -⟩ := createScript_free htaken stamp
      rw [hcreate]
      exact iff_of_true rfl ⟨hsound, fun h => hblank h.blank, rfl⟩

end

/-! ### Calls

The same for the call. It asks for the source to be empty without trimming it, and this is the only
difference. -/

section

variable {service : Rpc.Service} {fields : Json} {x : Rpc.Context}

/-- A call refuses a draft that is not sound. -/
theorem call_refused (hcalled : d.CalledBy fields) (h : ¬ d.Sound) :
    ∃ message, Rpc.createScript x service fields = (.error ⟨.invalidArgument, message⟩, service) := by
  unfold Rpc.createScript
  rw [hcalled.id, hcalled.source]
  dsimp only
  -- no id, a bad id, or an empty source
  split
  · exact ⟨_, rfl⟩
  split
  · exact ⟨_, rfl⟩
  split
  · exact ⟨_, rfl⟩
  · next hid hsource =>
    have hvalid : Script.validId d.id = true := by simpa using hid
    have hne : d.source ≠ [] := by simpa using hsource
    cases hparse : Program.parse d.source with
    | error e => exact ⟨_, rfl⟩
    | ok program => exact absurd ⟨hvalid, hne, isOk_of_parse hparse⟩ h

/-- A call hands any other draft to the store. -/
theorem call_stored (hcalled : d.CalledBy fields) (hsound : d.Sound) :
    Rpc.createScript x service fields =
      match service.store.createScript d.id d.source d.description x.stamp with
      | (.error refusal, store) => (.error (.ofRefusal refusal), { service with store := store })
      | (.ok script, store) => (Rpc.reply (Rpc.scriptRecord script), { service with store := store }) := by
  -- The call looks at the source as it is.
  have hsource : d.source.isEmpty = false := by simpa using hsound.source
  obtain ⟨program, hparse⟩ := exists_program hsound.program
  unfold Rpc.createScript
  rw [hcalled.id, hcalled.source, hcalled.description]
  dsimp only
  rw [hsound.isEmpty_id, hsound.id, hsource, hparse]
  rfl

/-- Under a taken id a call is refused by the store. -/
theorem call_taken {old : Script} (hcalled : d.CalledBy fields) (hsound : d.Sound)
    (htaken : service.store.scripts.get? d.id = some old) :
    ∃ message, Rpc.createScript x service fields = (.error ⟨.alreadyExists, message⟩, service) := by
  rw [call_stored hcalled hsound, createScript_taken htaken]
  exact ⟨_, rfl⟩

/-- Under a free one it saves the draft and tells the script. -/
theorem call_saved (hcalled : d.CalledBy fields) (hsound : d.Sound) (htoken : Text.Ascii x.stamp.token)
    (hfree : service.store.scripts.get? d.id = none) : ∃ message t,
      Rpc.createScript x service fields = (.ok message, { service with store := t }) ∧
      d.Saved service.store t := by
  obtain ⟨script, t, hcreate, hsaved, hid, hsource, hdescription, hsuffix⟩ :=
    createScript_free hfree x.stamp
  -- The answer can be told, since the token of the revision is ASCII.
  have hreply : Rpc.reply (Rpc.scriptRecord script) = .ok (Rpc.scriptRecord script) := by
    refine Rpc.reply_scriptRecord (hid ▸ d.id_isUtf8) (hsource ▸ d.source_isUtf8)
      (hdescription ▸ d.description_isUtf8) ?_
    rw [hsuffix]
    exact fun b hb => htoken b (List.mem_of_mem_take hb)
  refine ⟨Rpc.scriptRecord script, t, ?_, hsaved⟩
  rw [call_stored hcalled hsound, hcreate]
  dsimp only
  rw [hreply]

end

/-! ### Both

The answers are compared by the draft: not sound, sound with a taken id, sound with a free one, or blank. -/

section

variable {c : Server.Config} {server : Server} {service : Rpc.Service} {response : Response}
  {stamp : Stamp} {x : Rpc.Context} {r : Request} {fields : Json}

/-- Any draft that is not blank is treated alike by a request and a call. -/
theorem agreement_of_not_blank (hstore : service.store = server.store) (hsent : d.SentBy c r)
    (hcalled : d.CalledBy fields) (htoken : Text.Ascii x.stamp.token) (h : ¬ d.Blank) :
    d.Agreement server service (server.createScript c r stamp) (Rpc.createScript x service fields) := by
  -- A sound draft gets to the store on both sides, and the store decides alike.
  by_cases hsound : d.Sound
  · have hblank : ¬ d.source.Blank := fun hblank => h ⟨hsound.id, hsound.source, hblank⟩
    rw [request_stored hsent hsound hblank]
    cases htaken : server.store.scripts.get? d.id with
    | some old =>
      obtain ⟨message, hcall⟩ := call_taken hcalled hsound (hstore ▸ htaken)
      rw [createScript_taken htaken, hcall]
      exact .refused .alreadyExists
    | none =>
      obtain ⟨script, s, hcreate, hs, -⟩ := createScript_free htaken stamp
      obtain ⟨message, t, hcall, ht⟩ := call_saved hcalled hsound htoken (hstore ▸ htaken)
      rw [hcreate, hcall]
      exact .saved rfl hs ht (hs.alike (hstore ▸ ht))
  · obtain ⟨message, hrequest⟩ := request_refused hsent fun hsound' => absurd hsound' hsound
    obtain ⟨message', hcall⟩ := call_refused hcalled hsound
    rw [hrequest, hcall]
    exact .refused .invalidArgument

/-- An invalid request does not fit together with a call that saves or finds the id taken. -/
theorem not_agreement (hstatus : response.status = 400) {outcome : Except Rpc.Problem Value × Rpc.Service}
    (houtcome : ∀ problem, outcome.1 = .error problem → problem.code = .alreadyExists) :
    ¬ d.Agreement server service (response, server) outcome := by
  intro h
  -- The answer is taken for itself, so that the cases of the agreement can be told apart.
  generalize hanswer : (response, server) = answer at h
  cases h with
  | saved hok _ _ _ =>
    rw [← (Prod.mk.inj hanswer).1, hstatus] at hok
    exact absurd hok (by decide)
  | @refused _ problem hcode =>
    rw [← (Prod.mk.inj hanswer).1, hstatus, houtcome problem rfl] at hcode
    exact nomatch hcode

end

/-- Every draft can be sent and called for, and both are answered. The two answers fit together exactly if the
draft is not blank, and it is then saved exactly if it is sound and its id is free. If it is blank, the request
refuses it and changes nothing, while the call saves it, or finds its id taken. -/
theorem agreement_iff (d : Draft) (server : Server) (random : Random) (c : Server.Config) (stamp : Stamp)
    (x : Rpc.Context) (htoken : Text.Ascii x.stamp.token) (fuel fuel' : Nat) :
    (∃ r fields, r.isJson = true ∧ d.SentBy c r ∧ d.CalledBy fields) ∧
    ∀ r fields, d.SentBy c r → d.CalledBy fields → ∃ answer outcome,
      server.handle fuel c stamp r = some answer ∧
      Rpc.handle fuel' x ⟨server.store, random⟩ (.createScript fields) = some outcome ∧
      (answer.1.status = 200 ↔ d.Sound ∧ ¬ d.Blank ∧ server.store.scripts.get? d.id = none) ∧
      (d.Agreement server ⟨server.store, random⟩ answer outcome ↔ ¬ d.Blank) ∧
      (d.Blank → answer.1.status = 400 ∧ answer.2 = server ∧
        (server.store.scripts.get? d.id = none →
          ∃ message t, outcome = (.ok message, ⟨t, random⟩) ∧ d.Saved server.store t) ∧
        (server.store.scripts.get? d.id ≠ none →
          ∃ problem, outcome = (.error problem, ⟨server.store, random⟩) ∧ problem.code = .alreadyExists)) := by
  refine ⟨⟨d.request, d.fields, d.isJson_request, d.sentBy_request c, d.calledBy_fields⟩,
    fun r fields hsent hcalled => ?_⟩
  have hhandle : server.handle fuel c stamp r = some (server.createScript c r stamp) :=
    Server.handle_post hsent.method hsent.endpoint
  refine ⟨_, _, hhandle, rfl, request_status_iff hsent, ?_⟩
  generalize hservice : Rpc.Service.mk server.store random = service
  have hstore : service.store = server.store := by rw [← hservice]
  -- A blank draft is the one case in which the two part.
  by_cases hblank : d.Blank
  · obtain ⟨message, hrequest⟩ := request_refused hsent fun _ => hblank.blank
    rw [hrequest]
    cases htaken : server.store.scripts.get? d.id with
    | none =>
      obtain ⟨told, t, hcall, hsaved⟩ := call_saved hcalled hblank.sound htoken (hstore ▸ htaken)
      rw [hcall]
      refine ⟨iff_of_false (not_agreement rfl nofun) (not_not_intro hblank), fun _ => ⟨rfl, rfl, ?_, ?_⟩⟩
      · exact fun _ => ⟨told, t, by rw [← hservice], hstore ▸ hsaved⟩
      · exact fun h => absurd rfl h
    | some old =>
      obtain ⟨told, hcall⟩ := call_taken hcalled hblank.sound (hstore ▸ htaken)
      rw [hcall]
      refine ⟨iff_of_false (not_agreement rfl ?_) (not_not_intro hblank), fun _ => ⟨rfl, rfl, nofun, ?_⟩⟩
      · rintro problem ⟨⟩
        rfl
      · exact fun _ => ⟨_, rfl, rfl⟩
  · refine ⟨iff_of_true ?_ hblank, fun h => absurd h hblank⟩
    exact agreement_of_not_blank hstore hsent hcalled htoken hblank

/-- `1 plus 1;` under the name `sum`. -/
def sum : Draft := ⟨"sum", "1 plus 1;", "", by decide, by decide, by decide⟩

def caller : Rpc.Context := { settings := {}, stamp := ⟨1, "8f0"⟩ }

/-- The sum is saved by both. -/
theorem agreement_iff_sum : ∃ answer outcome,
    Server.handle 0 {} ⟨0, "d41"⟩ {} sum.request = some answer ∧
    Rpc.handle 0 caller {} (.createScript sum.fields) = some outcome ∧
    answer.1.status = 200 ∧ sum.Agreement {} {} answer outcome := by
  have hsound : sum.Sound := ⟨by decide, by decide, by decide +kernel⟩
  have hblank : ¬ sum.Blank := fun h => absurd h.blank (by decide)
  obtain ⟨answer, outcome, hanswer, houtcome, hstatus, hagree, -⟩ :=
    (agreement_iff sum {} (Random.ofSeed 1 2) {} ⟨0, "d41"⟩ caller (by decide) 0 0).2 sum.request sum.fields
      (sum.sentBy_request {}) sum.calledBy_fields
  exact ⟨answer, outcome, hanswer, houtcome, hstatus.mpr ⟨hsound, hblank, rfl⟩, hagree.mpr hblank⟩

/-- A single blank as a source. -/
def hollow : Draft := ⟨"a", " ", "", by decide, by decide, by decide⟩

/-- It is refused by a request and saved by a call. -/
theorem hollow_disagrees : ∃ response message t,
    Server.handle 0 {} ⟨0, "d41"⟩ {} hollow.request = some (response, {}) ∧ response.status = 400 ∧
    Rpc.handle 0 caller {} (.createScript hollow.fields) = some (.ok message, { store := t }) ∧
    hollow.Saved {} t ∧ ¬ hollow.Agreement {} {} (response, {}) (.ok message, { store := t }) := by
  have hblank : hollow.Blank := ⟨by decide, by decide, by decide⟩
  -- For a request the source is blank,
  have hrefused : ∃ message, Server.createScript {} {} hollow.request ⟨0, "d41"⟩ =
      (Server.problem .invalidArgument message, {}) :=
    request_refused (hollow.sentBy_request {}) fun _ => hblank.blank
  -- and for a call it is there.
  have hkept : ∃ message t, Rpc.createScript caller {} hollow.fields = (.ok message, { store := t }) ∧
      hollow.Saved {} t :=
    call_saved hollow.calledBy_fields hblank.sound (by decide) rfl
  obtain ⟨message, hrequest⟩ := hrefused
  obtain ⟨told, t, hcall, hsaved⟩ := hkept
  have hhandle : Server.handle 0 {} ⟨0, "d41"⟩ {} hollow.request =
      some (Server.problem .invalidArgument message, {}) := by
    have hsent := hollow.sentBy_request {}
    rw [Server.handle_post hsent.method hsent.endpoint, ← hrequest]
    rfl
  exact ⟨_, told, t, hhandle, rfl, congrArg some hcall, hsaved, not_agreement rfl nofun⟩

end Draft

end Mundart
