import Mundart.Proofs.Run.Halting
import Mundart.Proofs.Service.Runnable
import Mundart.Proofs.Service.Submission
import Mundart.Proofs.Value.JsonEncoders

/-!
# What an evaluation is answered with

A request to evaluate a source always gets an answer, if the number of statements is bounded. A source that
is no program is refused, and otherwise the answer tells the outcome. One kind of outcome has no answer of
its own: a document has no text for an infinity or a NaN.

The request looks for the source and for nothing else. Every well-formed text can be sent as one, and
whatever stands beside it in the body is passed over.

* **`execute_ends`** — executions under a step limit end;
* **`Execution.toJson_tells`** — what the document of an execution tells;
* **`Server.read_evalRequest`** — every source can be sent, whatever else is sent with it;
* **`Server.eval_answered`** — when a source is refused, told about or not told about;
* **`Server.eval_unwritable`** — a program whose outcome is not told.
-/

namespace Mundart

/-! ## Executions

An execution is a run in a session of its own. Its answer is a document, which cannot be written for every
value. -/

/-- What ends within some bound ends the same way within every larger one. -/
theorem execute_extends {fuel fuel' : Nat} (hle : fuel ≤ fuel') {s : Settings} {source : Text} {m : Machine}
    {out : Execution × Machine} (h : execute fuel s source m = some out) :
    execute fuel' s source m = some out := by
  obtain ⟨answered, heval, rfl⟩ := Option.map_eq_some_iff.mp h
  rw [execute, Session.eval_extends hle heval]
  rfl

/-- Every source is executed to an end under a step limit, and larger bounds of the evaluators do not
change it. -/
theorem execute_ends {s : Settings} (hs : s.Polite) (hmax : 0 < s.maxSteps) (source : Text) {m : Machine}
    (hm : m.scope.Sound) :
    ∃ e m' bound, ∀ fuel ≥ bound, execute fuel s source m = some (e, m') := by
  have hends : ∃ e m' bound, execute bound s source m = some (e, m') := by
    unfold execute Session.eval
    cases hparse : Program.parse source with
    | error err => exact ⟨_, _, 0, rfl⟩
    -- The step limit ends every program that was read.
    | ok program =>
      obtain ⟨bound, r, m', hrun⟩ := runProgram_ends (s := { s with writeLimit := none }) hs hmax
        (Grammar.formed_of_parse hparse) hm
      refine ⟨.ofAnswer (.ok r), m', bound, ?_⟩
      dsimp only
      rw [hrun, Option.map_some, Option.map_some]
  obtain ⟨e, m', bound, hexec⟩ := hends
  exact ⟨e, m', bound, fun fuel hle => execute_extends hle hexec⟩

/-- A document tells the outcome of an execution, with an error exactly if there is one. -/
structure Json.Tells (document : Json) (e : Execution) : Prop where
  output : document.field? "output" = some (.string e.output)
  diagnostics : document.field? "diagnostics" = some (.array (e.diagnostics.map .string))
  steps : document.field? "steps" = some (.ofNat e.steps)
  value : ∃ value, e.value.toJson? = some value ∧ document.field? "value" = some value
  error : document.field? "error" = e.error.map Report.toJson

namespace Execution

/-- An execution has a document if its value has one, and it tells everything. -/
theorem toJson_tells {e : Execution} (h : ¬ e.value.Unwritable) :
    ∃ document, e.toJson = .ok document ∧ document.Tells e := by
  rw [← Value.toJson?_eq_none_iff] at h
  obtain ⟨value, hvalue⟩ := Option.ne_none_iff_exists'.mp h
  unfold Execution.toJson
  rw [hvalue]
  refine ⟨_, rfl, ?_⟩
  cases herror : e.error with
  | none => exact ⟨rfl, rfl, rfl, ⟨value, hvalue, rfl⟩, by rw [herror]; rfl⟩
  | some r => exact ⟨rfl, rfl, rfl, ⟨value, hvalue, rfl⟩, by rw [herror]; rfl⟩

/-- A value that has no document makes the answer fail. -/
theorem toJson_unwritable {e : Execution} (h : e.value.Unwritable) : ∃ x, e.toJson = .error x := by
  unfold Execution.toJson
  rw [(Value.toJson?_eq_none_iff e.value).mpr h]
  exact ⟨_, rfl⟩

end Execution

/-! ## Requests

A request is read, checked and executed; the answer is a problem, or the execution as a document. -/

namespace Server

open Http (Request Response)

variable {fuel : Nat} {c : Config} {r : Request} {submission : Submission} {e : Execution} {m : Machine}

/-- A request to evaluate the source in a JSON body. -/
def evalRequest (body : Text) : Request :=
  { method := "POST", target := "/v1/eval", contentType := "application/json", body := body }

/-- A source, and what else is sent with it. -/
def besideSource (source : Text) (others : List (Text × Json)) : List (Text × Json) :=
  ("source", .string source) :: others

/-- Every well-formed text can be sent as a source. It is read from the body whatever else is in there, as
long as that can be read at all and is not named like the source. -/
theorem read_evalRequest {source : Text} (hsource : source.isUtf8 = true) {others : List (Text × Json)}
    (hnames : ∀ m ∈ others, m.1.isUtf8 = true) (hvalues : ∀ m ∈ others, Json.Plain (Json.maxDepth - 1) m.2)
    (hothers : ∀ m ∈ others, Submission.Field.source.isNamed m.1 = false)
    (decoder : Submission.Decoder) :
    Submission.read decoder [.source] (evalRequest (Json.render (.object (besideSource source others)))) =
      .ok ⟨source, []⟩ := by
  -- The other members are one level inside the body.
  have hplain : Json.Plain Json.maxDepth (.object (besideSource source others)) := by
    refine .object (List.forall_mem_cons.mpr ⟨?_, hnames⟩) (List.forall_mem_cons.mpr ⟨.string hsource, hvalues⟩)
    show Text.isUtf8 "source" = true
    decide
  have hnamed : Submission.looksFor [.source] (utf8 "source", .string source) = true := by
    show [Submission.Field.source].any (Submission.Field.isNamed "source") = true
    decide
  have hnone : others.filter (Submission.looksFor [.source]) = [] :=
    List.filter_eq_nil_iff.mpr fun m hm => by simp [Submission.looksFor, hothers m hm]
  -- Only the source is looked for. What is passed over may have any value.
  have honly : (besideSource source others).filter (Submission.looksFor [.source]) =
      [(utf8 "source", .string source)] := by
    unfold besideSource
    rw [List.filter_cons_of_pos hnamed, hnone]
  rw [Submission.read_render decoder [.source] hplain rfl rfl, Submission.ofJson_source honly]

/-- A source that is no program is refused. -/
theorem eval_of_syntaxError {err : SyntaxError}
    (hread : Submission.read c.decoder [.source] r = .ok submission)
    (hparse : Program.parse submission.source = .error err) :
    eval fuel c r = some (problem .invalidArgument err.message) := by
  unfold eval
  rw [hread]
  dsimp only
  unfold execute Session.eval
  rw [hparse]
  rfl

/-- A program is executed and told about, as far as there is a document for it. -/
theorem eval_of_program {program : Program}
    (hread : Submission.read c.decoder [.source] r = .ok submission)
    (hparse : Program.parse submission.source = .ok program)
    (hexec : execute fuel c.settings submission.source c.machine = some (e, m)) :
    eval fuel c r = some (match e.toJson with
      | .ok document => .ofJson document 200
      | .error x => .plain 500 ("json: unsupported value: " ++ Double.display x)) := by
  have hstopped : e.Stopped := execute_stopped (isOk_of_parse hparse) hexec
  unfold eval
  rw [hread]
  dsimp only
  rw [hexec, Option.map_some]
  dsimp only
  -- An error of a program comes from a stop, so it is no syntax error.
  split
  · next message status herror =>
    obtain hkind | hkind := hstopped _ herror
    · exact nomatch hkind
    · exact nomatch hkind
  · rfl

/-- A request is handed to the endpoint of its path. -/
theorem handle_post {stamp : Stamp} {s : Server} {endpoint : Endpoint} (hmethod : r.method = "POST")
    (hpath : Endpoint.find? .post r.path = some endpoint) :
    handle fuel c stamp s r = answer fuel c stamp s r endpoint := by
  have hpost : Endpoint.Method.ofName? r.method = some .post := by
    rw [hmethod]
    decide
  unfold handle
  rw [hpost]
  dsimp only
  rw [hpath]
  rfl

/-- A request to evaluate a program leaves the server as it is. -/
theorem handle_eval {stamp : Stamp} {s : Server} (hmethod : r.method = "POST")
    (hpath : Endpoint.find? .post r.path = some .eval) :
    handle fuel c stamp s r = (eval fuel c r).map (·, s) := by
  rw [handle_post hmethod hpath]
  rfl

/-- Every submitted source is answered, and the server stays as it is. It is refused exactly if it is no
program. Otherwise the answer tells the outcome of the execution, unless an infinity or a NaN stands in the
value that the program ends with: then the answer is that of a server that failed. -/
theorem eval_answered (hfetch : ∀ n, (c.fetcher n).Polite) (hmax : 0 < c.settings.maxSteps)
    (hmethod : r.method = "POST") (hpath : Endpoint.find? .post r.path = some .eval)
    (hread : Submission.read c.decoder [.source] r = .ok submission) (stamp : Stamp) (s : Server) :
    ∃ response e m bound, (∀ fuel ≥ bound, handle fuel c stamp s r = some (response, s) ∧
        execute fuel c.settings submission.source c.machine = some (e, m)) ∧
      (response.status = 400 ↔ ∀ program, Program.parse submission.source ≠ .ok program) ∧
      ∀ program, Program.parse submission.source = .ok program →
        (¬ e.value.Unwritable → response.status = 200 ∧
          ∃ document, response.body = .json document ∧ document.Tells e) ∧
        (e.value.Unwritable → response.status = 500) := by
  obtain ⟨e, m, bound, hexec⟩ :=
    execute_ends (s := c.settings) hfetch hmax submission.source (m := c.machine) .root
  cases hparse : Program.parse submission.source with
  -- The execution ends at once with the same error, and the answer tells it.
  | error err =>
    refine ⟨problem .invalidArgument err.message, e, m, bound, fun fuel hle => ⟨?_, hexec fuel hle⟩,
      iff_of_true rfl (by simp), by simp⟩
    rw [handle_eval hmethod hpath, eval_of_syntaxError hread hparse]
    rfl
  | ok program =>
    have hanswer := fun fuel hle => eval_of_program hread hparse (hexec fuel hle)
    -- Only the value of the program may be kept out of the answer; all else in it can be written.
    by_cases hvalue : e.value.Unwritable
    · obtain ⟨x, hx⟩ := Execution.toJson_unwritable hvalue
      refine ⟨.plain 500 ("json: unsupported value: " ++ Double.display x), e, m, bound,
        fun fuel hle => ⟨?_, hexec fuel hle⟩, iff_of_false (by simp [Response.plain]) (by simp),
        fun _ _ => ⟨fun hwritable => absurd hvalue hwritable, fun _ => rfl⟩⟩
      rw [handle_eval hmethod hpath, hanswer fuel hle, hx]
      rfl
    · obtain ⟨document, hdocument, htells⟩ := Execution.toJson_tells hvalue
      refine ⟨.ofJson document 200, e, m, bound, fun fuel hle => ⟨?_, hexec fuel hle⟩,
        iff_of_false (by simp [Response.ofJson]) (by simp),
        fun _ _ => ⟨fun _ => ⟨rfl, document, rfl, htells⟩, fun hunwritable => absurd hunwritable hvalue⟩⟩
      rw [handle_eval hmethod hpath, hanswer fuel hle, hdocument]
      rfl

/-- `1 plus 1;` is told about, under the usual bound. That its body describes it by a number does not
matter. -/
theorem eval_answered_sum :
    let body : Text := "\x7b\"source\": \"1 plus 1;\", \"description\": 5\x7d"
    ∃ response e m bound,
      (∀ fuel ≥ bound, handle fuel {} ⟨0, "d41"⟩ {} (evalRequest body) = some (response, {}) ∧
        execute fuel (Config.settings {}) "1 plus 1;" (Config.machine {}) = some (e, m)) ∧
      response.status = 200 ∧ ∃ document, response.body = .json document ∧ document.Tells e := by
  intro body
  have hread : Submission.read Submission.noDecoder [.source] (evalRequest body) = .ok ⟨"1 plus 1;", ""⟩ := by
    decide +kernel
  obtain ⟨program, hparse⟩ : ∃ program, Program.parse "1 plus 1;" = .ok program := ⟨_, rfl⟩
  obtain ⟨response, e, m, bound, hends, -, htold⟩ := eval_answered (c := {})
    (fun _ => Fetcher.disabled_polite) (by decide) rfl (by decide +kernel) hread ⟨0, "d41"⟩ {}
  have hvalue : (execute 12 (Config.settings {}) "1 plus 1;" (Config.machine {})).map
      (fun x => x.1.value.toJson?.isSome) = some true := by decide +kernel
  obtain ⟨⟨e₁, m₁⟩, hexec, hsome⟩ := Option.map_eq_some_iff.mp hvalue
  -- The execution is evaluated under a small bound, and it is the one that the theorem tells of.
  have hsame := (hends _ (le_max_left bound 12)).2.symm.trans (execute_extends (le_max_right bound 12) hexec)
  obtain ⟨rfl, rfl⟩ := Prod.mk.inj (Option.some.inj hsame)
  have hwritable : ¬ e.value.Unwritable := by
    rw [← Value.toJson?_eq_none_iff]
    exact Option.isSome_iff_ne_none.mp hsome
  exact ⟨response, e, m, bound, hends, (htold program hparse).1 hwritable⟩

/-- `heast x = "NaN"; x.zuNumma;` -/
def notANumber : Request :=
  evalRequest "\x7b\"source\": \"heast x = \\\"NaN\\\"; x.zuNumma;\"\x7d"

/-- The program ends after two statements, but the answer does not tell how. -/
theorem eval_unwritable : ∃ submission program response e m,
    Submission.read Submission.noDecoder [.source] notANumber = .ok submission ∧
    Program.parse submission.source = .ok program ∧
    handle 12 {} ⟨0, "d41"⟩ {} notANumber = some (response, {}) ∧ response.status = 500 ∧
    execute 12 (Config.settings {}) submission.source (Config.machine {}) = some (e, m) ∧ e.steps = 2 ∧
    e.error = none := by
  have hread : Submission.read Submission.noDecoder [.source] notANumber =
      .ok ⟨"heast x = \"NaN\"; x.zuNumma;", ""⟩ := by decide +kernel
  have hpath : Endpoint.find? .post notANumber.path = some .eval := by decide +kernel
  -- Answer and execution are evaluated on their own, and joined by what they show.
  have hanswer : (eval 12 {} notANumber).map (fun response => response.status) = some 500 := by
    decide +kernel
  have hexecution : (execute 12 (Config.settings {}) "heast x = \"NaN\"; x.zuNumma;"
      (Config.machine {})).map (fun x => (x.1.steps, x.1.error)) = some (2, none) := by decide +kernel
  have hprogram : (Program.parse "heast x = \"NaN\"; x.zuNumma;").isOk = true := by decide +kernel
  obtain ⟨program, hparse⟩ := exists_program hprogram
  obtain ⟨response, heval, hstatus⟩ := Option.map_eq_some_iff.mp hanswer
  obtain ⟨⟨e, m⟩, hexec, hshown⟩ := Option.map_eq_some_iff.mp hexecution
  obtain ⟨hsteps, herror⟩ := Prod.mk.inj hshown
  refine ⟨_, program, response, e, m, hread, hparse, ?_, hstatus, hexec, hsteps, herror⟩
  rw [handle_eval rfl hpath, heval]
  rfl

end Server

end Mundart
