import Mathlib.Logic.Relation
import Mundart.Proofs.Store.Consistency
import Mundart.Service.Rpc
import Mundart.Service.Server

/-!
# Only programs are stored

Scripts come into the store on four ways, each with its own checks: two requests, a call and a folder.
All of them let only programs with a proper id pass, so whatever is run later was read before, and a
run can fail only because it was stopped.

* **`Operation.Allowed`** — what the service asks of its store;
* **`Store.Runnable`**, **`Runnable.next`** — the invariant, and that an allowed operation keeps it;
* **`execute_stopped`** — how a program that was read can end;
* **`handle_cases`** — a request is turned away at once, or it is answered at an endpoint;
* **`answer_serves`**, **`handle_serves`**, **`loadFolder_serves`** — requests and folders do nothing
  else to the store than allowed operations;
* **`Server.reachable_runnable`** — what holds of every service that has started empty.
-/

namespace Mundart

/-- A script that can be run. -/
structure Script.Runnable (script : Script) : Prop where
  id : Script.validId script.id = true
  source : (Program.parse script.source).isOk = true

/-- The error of a run that was stopped: by the step limit, or from outside, which has no kind. -/
def Run.Error.Stopped (e : Run.Error) : Prop :=
  e.kind = Failure.Kind.name .stepLimit ∨ e.kind = []

/-- An ending whose error, if there is one, comes from a stop. -/
def Run.Ending.Stopped : Run.Ending → Prop
  | .failed _ _ error => error.Stopped
  | _ => True

/-! ## How a program ends

The text of a stored script has been read, so executing it does not stop at a syntax error. Failures of
single statements do not make a run fail, and so only a stop is left. -/

/-- What is read without an error is a program. -/
theorem exists_program {source : Text} (h : (Program.parse source).isOk = true) :
    ∃ program, Program.parse source = .ok program := by
  cases hparse : Program.parse source with
  | error e =>
    rw [hparse] at h
    exact nomatch h
  | ok program => exact ⟨program, rfl⟩

/-- A program was read without an error. -/
theorem isOk_of_parse {source : Text} {program : Program} (h : Program.parse source = .ok program) :
    (Program.parse source).isOk = true := by
  rw [h]
  rfl

/-- A stop is reported as the step limit or without a kind. -/
theorem Stop.report_kind (stop : Stop) :
    stop.report.kind = some .stepLimit ∨ stop.report.kind = none := by
  cases stop with
  | stepLimit max => exact .inl rfl
  | cancelled cause => exact .inr rfl

/-- An execution whose error, if there is one, is a stop. -/
def Execution.Stopped (e : Execution) : Prop :=
  ∀ r, e.error = some r → r.kind = some .stepLimit ∨ r.kind = none

/-- The ending that is recorded for such an execution. -/
theorem Execution.Stopped.ending {e : Execution} (h : e.Stopped) : e.ending.Stopped := by
  unfold Execution.ending
  split
  · next r hr =>
    show r.kindName = _ ∨ r.kindName = []
    obtain hkind | hkind := h r hr
    · exact .inl (by rw [Report.kindName, hkind])
    · exact .inr (by rw [Report.kindName, hkind])
  · trivial

section

variable {fuel : Nat} {s : Settings} {source : Text} {m m' : Machine} {e : Execution}

/-- A program that was read ends by itself or is stopped. -/
theorem execute_stopped (hsource : (Program.parse source).isOk = true)
    (h : execute fuel s source m = some (e, m')) : e.Stopped := by
  obtain ⟨program, hparse⟩ := exists_program hsource
  obtain ⟨⟨answer, m₁⟩, heval, hend⟩ := Option.map_eq_some_iff.mp h
  obtain ⟨rfl, rfl⟩ := Prod.mk.inj hend
  rw [Session.eval, hparse] at heval
  obtain ⟨⟨r, m₂⟩, -, hend⟩ := Option.map_eq_some_iff.mp heval
  obtain ⟨rfl, rfl⟩ := Prod.mk.inj hend
  intro report hreport
  -- What is reported as an error of the execution is its stop.
  obtain ⟨stop, -, rfl⟩ := Option.map_eq_some_iff.mp hreport
  exact stop.report_kind

/-- Running out of time has no kind. -/
theorem Execution.Stopped.outOfTime (h : e.Stopped) : e.outOfTime.Stopped := by
  unfold Execution.outOfTime
  split
  · split
    · intro report hreport
      obtain rfl := Option.some.inj hreport
      exact .inr rfl
    · exact h
  · exact h

/-- An execution in the background, with or without a limit of time. -/
theorem executeWithin_stopped {time : Option Nat} (hsource : (Program.parse source).isOk = true)
    (h : executeWithin fuel time s source m = some (e, m')) : e.Stopped := by
  unfold executeWithin at h
  split at h
  · exact execute_stopped hsource h
  · split at h
    · exact execute_stopped hsource h
    · obtain ⟨⟨e₁, m₁⟩, hexec, hend⟩ := Option.map_eq_some_iff.mp h
      obtain ⟨rfl, rfl⟩ := Prod.mk.inj hend
      exact (execute_stopped hsource hexec).outOfTime

end

/-! ## Operations

The invariant of the store. What the service asks for is described without the service, so that the
invariant does not depend on how many ways into the store there are. -/

namespace Store

/-- What the service asks of its store: only programs are saved, under proper ids, and only stopped
runs fail. -/
def Operation.Allowed : Operation → Prop
  | .createScript id source _ _ => Script.validId id = true ∧ (Program.parse source).isOk = true
  | .updateScript _ source _ _ => source.isEmpty = true ∨ (Program.parse source).isOk = true
  | .finishRun _ _ ending _ => ending.Stopped
  | _ => True

/-- A store of scripts that can be run, and of runs that failed only by being stopped. -/
structure Runnable (s : Store) : Prop where
  scripts : ∀ e ∈ s.scripts, e.2.Runnable
  errors : ∀ e ∈ s.runs, ∀ f ∈ e.2, ∀ error, f.2.error = some error → error.Stopped

namespace Runnable

variable {s : Store}

/-- There is nothing in an empty store. -/
theorem empty : Runnable {} :=
  ⟨fun _ he => absurd he List.not_mem_nil, fun _ he => absurd he List.not_mem_nil⟩

/-- A script that is found can be run. -/
theorem of_get? (h : s.Runnable) {id : Text} {script : Script}
    (hscript : s.scripts.get? id = some script) : script.Runnable :=
  h.scripts _ (Dict.mem_of_get? hscript)

/-- A run that is found has failed only by being stopped. -/
theorem of_run? (h : s.Runnable) {script id : Text} {run : Run} (hrun : s.run? script id = some run) :
    ∀ error, run.error = some error → error.Stopped := by
  obtain ⟨shelf, hshelf, hget⟩ := Option.bind_eq_some_iff.mp hrun
  exact h.errors _ (Dict.mem_of_get? hshelf) _ (Dict.mem_of_get? hget)

/-- A run may be put in the place of another one. -/
theorem putRun (h : s.Runnable) {run : Run} (hrun : ∀ error, run.error = some error → error.Stopped)
    (script id : Text) : (s.putRun script id run).Runnable := by
  refine ⟨h.scripts, fun e he f hf => ?_⟩
  -- the shelf that was written, and in it the run that was written
  obtain rfl | he := Dict.mem_of_mem_set he
  · obtain rfl | hf := Dict.mem_of_mem_set hf
    · exact hrun
    -- A shelf may be new; then it holds nothing but this run.
    · cases hshelf : s.runs.get? script with
      | none =>
        rw [hshelf] at hf
        exact absurd hf List.not_mem_nil
      | some shelf =>
        rw [hshelf] at hf
        exact h.errors _ (Dict.mem_of_get? hshelf) f hf
  · exact h.errors e he f hf

/-- The script that an update leaves behind: what it keeps of the old one could be run as well. -/
theorem updated {old : Script} (h : old.Runnable) {source : Text}
    (hsource : source.isEmpty = true ∨ (Program.parse source).isOk = true) (description : Text)
    (revision : Revision) (updated : Instant) :
    Script.Runnable { old with source := if source.isEmpty then old.source else source
                               description := description, revision := revision
                               updated := updated } := by
  refine ⟨h.id, ?_⟩
  show (Program.parse (if source.isEmpty then old.source else source)).isOk = true
  split
  · exact h.source
  · next hne => exact hsource.resolve_left hne

/-- An allowed operation keeps the invariant. -/
theorem next (h : s.Runnable) {op : Operation} (hop : op.Allowed) : (s.next op).Runnable := by
  obtain ⟨hsame, -⟩ | ⟨answer, -, hchanges⟩ := next_cases s op
  · rw [hsame]
    exact h
  generalize s.next op = s' at hchanges ⊢
  -- One case for each operation that changes the store.
  cases hchanges with
  | @createScript id source description stamp script hnew hscript =>
    refine ⟨fun e he => ?_, fun e he => ?_⟩
    · obtain rfl | he := Dict.mem_of_mem_set he
      · rw [hscript]
        exact ⟨hop.1, hop.2⟩
      · exact h.scripts e he
    · obtain rfl | he := Dict.mem_of_mem_set he
      · exact fun f hf => absurd hf List.not_mem_nil
      · exact h.errors e he
  | @updateScript id source description stamp old script hold hscript =>
    refine ⟨fun e he => ?_, h.errors⟩
    obtain rfl | he := Dict.mem_of_mem_set he
    · rw [hscript]
      exact updated (h.of_get? hold) hop _ _ _
    · exact h.scripts e he
  | deleteScript hold =>
    refine ⟨fun e he => ?_, fun e he => ?_⟩
    · exact h.scripts e (Dict.mem_erase_iff.mp he).1
    · exact h.errors e (Dict.mem_erase_iff.mp he).1
  | @createRun script stamp owner run howner hrun =>
    refine h.putRun ?_ _ _
    rw [hrun]
    exact fun error herror => nomatch herror
  | @finishRun script id ending time run hrun hactive =>
    refine h.putRun ?_ _ _
    intro error herror
    cases ending with
    | completed output diagnostics steps => exact h.of_run? hrun error herror
    | failed output diagnostics failure =>
      obtain rfl := Option.some.inj herror
      exact hop
    | cancelled => exact h.of_run? hrun error herror

end Runnable

/-- One allowed operation. -/
def Admits (s s' : Store) : Prop := ∃ op : Operation, op.Allowed ∧ s.next op = s'

/-- Any number of allowed operations. -/
abbrev AdmitsMany : Store → Store → Prop := Relation.ReflTransGen Admits

/-- A single operation. -/
theorem admitsMany_of_next {s s' : Store} {op : Operation} (h : s.next op = s') (hop : op.Allowed) :
    AdmitsMany s s' :=
  .single ⟨op, hop, h⟩

/-- What was stored properly stays so, however many allowed operations follow. -/
theorem AdmitsMany.keeps {s s' : Store} (h : AdmitsMany s s') (hr : s.Runnable)
    (hc : s.Consistent) : s'.Runnable ∧ s'.Consistent := by
  -- By induction on the operations.
  induction h with
  | refl => exact ⟨hr, hc⟩
  | tail _ hstep ih =>
    obtain ⟨op, hop, rfl⟩ := hstep
    exact ⟨ih.1.next hop, ih.2.next op⟩

end Store

/-! ## Calls

Each call does at most two operations. Where it leaves early, it has done those before, and these were
allowed. -/

namespace Rpc

variable {fuel : Nat} {x : Context} {s s' : Service} {answer : Except Problem Value}

/-- A script comes into the store by a call. -/
theorem createScript_admits (x : Context) (s : Service) (fields : Json) :
    Store.AdmitsMany s.store (createScript x s fields).2.store := by
  unfold createScript
  dsimp only
  split
  · exact .refl
  split
  · exact .refl
  · next hid =>
    split
    · exact .refl
    split
    · exact .refl
    · next program hparse =>
      -- Both checks have been made: of the id and of the source.
      have hallowed := And.intro (by simpa using hid) (isOk_of_parse hparse)
      split
      · next refusal store hrefused =>
        exact Store.admitsMany_of_next (Store.next_of_createScript hrefused) hallowed
      · next script store hcreate =>
        exact Store.admitsMany_of_next (Store.next_of_createScript hcreate) hallowed

/-- A called run is recorded and ends within the call. -/
theorem runScript_admits {id : Text} (hs : s.store.Runnable)
    (h : runScript fuel x s id = some (answer, s')) : Store.AdmitsMany s.store s'.store := by
  unfold runScript at h
  split at h
  · obtain ⟨-, rfl⟩ := Prod.mk.inj (Option.some.inj h)
    exact .refl
  · next script hscript =>
    split at h
    · next refusal store hrefused =>
      obtain ⟨-, rfl⟩ := Prod.mk.inj (Option.some.inj h)
      exact Store.admitsMany_of_next (Store.next_of_createRun hrefused) trivial
    · next run store hrun =>
      have hstarted := Store.admitsMany_of_next (Store.next_of_createRun hrun) trivial
      have hprogram := (hs.of_get? (Store.getScript_eq_ok.mp hscript)).source
      obtain ⟨⟨e, m⟩, hexec, hend⟩ := Option.map_eq_some_iff.mp h
      -- A called run is cancelled with its call, or it ends by itself.
      have hending : Run.Ending.Stopped
          (if m.interruption.isSome then .cancelled else e.ending) := by
        split
        · trivial
        · exact (execute_stopped hprogram hexec).ending
      dsimp only at hend
      split at hend
      · next refusal store' hrefused =>
        obtain ⟨-, rfl⟩ := Prod.mk.inj hend
        exact hstarted.trans (Store.admitsMany_of_next (Store.next_of_finishRun hrefused) hending)
      · next store' hfinish =>
        -- Whatever is answered, the store is the one of the finished run.
        have hfinished := hstarted.trans
          (Store.admitsMany_of_next (Store.next_of_finishRun hfinish) hending)
        split at hend
        · obtain ⟨-, rfl⟩ := Prod.mk.inj hend
          exact hfinished
        · obtain ⟨-, rfl⟩ := Prod.mk.inj hend
          exact hfinished

/-- A call is allowed whatever it asks for. -/
theorem handle_admits {call : Call} (hs : s.store.Runnable)
    (h : handle fuel x s call = some (answer, s')) : Store.AdmitsMany s.store s'.store := by
  -- Only two of the calls change the store.
  cases call with
  | eval source =>
    obtain ⟨⟨e, m⟩, -, hend⟩ := Option.map_eq_some_iff.mp h
    dsimp only at hend
    split at hend
    all_goals
      obtain ⟨-, rfl⟩ := Prod.mk.inj hend
      exact .refl
  | check source =>
    obtain ⟨-, rfl⟩ := Prod.mk.inj (Option.some.inj h)
    exact .refl
  | createScript fields =>
    obtain ⟨-, rfl⟩ := Prod.mk.inj (Option.some.inj h)
    exact createScript_admits x s fields
  | getScript id =>
    unfold handle at h
    dsimp only at h
    split at h
    all_goals
      obtain ⟨-, rfl⟩ := Prod.mk.inj (Option.some.inj h)
      exact .refl
  | listScripts =>
    obtain ⟨-, rfl⟩ := Prod.mk.inj (Option.some.inj h)
    exact .refl
  | runScript id => exact runScript_admits hs h

end Rpc

/-! ## Requests and folders

As for calls, with the background runs besides: a run is started only of a script that was found in the
store. -/

namespace Server

open Http (Request Response)

/-- What a request or a folder does to a server: allowed operations on its store, and background runs
only of scripts that were stored. -/
structure Serves (s s' : Server) : Prop where
  store : Store.AdmitsMany s.store s'.store
  jobs : ∀ j ∈ s'.jobs, (∃ i ∈ s.jobs, i.script = j.script) ∨
    ∃ id, s.store.scripts.get? id = some j.script

variable {s s' : Server} {fuel : Nat} {c : Config} {stamp : Stamp} {r : Request}
  {response : Response}

/-- What only changes the store. -/
theorem Serves.of_store {store : Store} (h : Store.AdmitsMany s.store store) :
    Serves s { s with store := store } :=
  ⟨h, fun j hj => .inl ⟨j, hj, rfl⟩⟩

/-- What changes nothing. -/
theorem Serves.refl (s : Server) : Serves s s := .of_store .refl

/-- An answer that is encoded from an operation. -/
theorem changing_serves {α : Type} {x : Except Store.Refusal α × Store} {encode : α → Response}
    (h : Store.AdmitsMany s.store x.2) : Serves s (s.changing x encode).2 :=
  .of_store h

/-- A source without a problem is a program. -/
theorem isOk_of_sourceProblem? {source : Text} (h : sourceProblem? source = none) :
    (Program.parse source).isOk = true := by
  unfold sourceProblem? at h
  split at h
  · next program hparse => exact isOk_of_parse hparse
  · exact nomatch h

/-- A script comes into the store by a request. -/
theorem createScript_serves (c : Config) (s : Server) (r : Request) (stamp : Stamp) :
    Serves s (s.createScript c r stamp).2 := by
  unfold createScript
  dsimp only
  split
  · exact .refl s
  split
  · exact .refl s
  · next hid =>
    -- The id is proper. What is left is a body that can be read, with a source that parses.
    split
    · exact .refl s
    · split
      · exact .refl s
      split
      · exact .refl s
      · next hprogram =>
        refine changing_serves (Store.admitsMany_of_next (Store.next_of_createScript rfl) ?_)
        exact And.intro (by simpa using hid) (isOk_of_sourceProblem? hprogram)

/-- A script is changed by a request. -/
theorem updateScript_serves (c : Config) (s : Server) (id : Text) (r : Request) (stamp : Stamp) :
    Serves s (s.updateScript c id r stamp).2 := by
  unfold updateScript
  split
  · exact .refl s
  · next submission hread =>
    dsimp only
    split
    · exact .refl s
    · next hbad =>
      refine changing_serves (Store.admitsMany_of_next (Store.next_of_updateScript rfl) ?_)
      -- Without a source the old one is kept; any other one was read.
      split at hbad
      · next hempty => exact .inl hempty
      · exact .inr (isOk_of_sourceProblem? hbad)

/-- A script is deleted. -/
theorem deleteScript_serves (s : Server) (id : Text) : Serves s (s.deleteScript id).2 :=
  changing_serves (Store.admitsMany_of_next (Store.next_of_deleteScript rfl) trivial)

/-- A run is started. -/
theorem createRun_serves (s : Server) (script : Text) (stamp : Stamp) :
    Serves s (s.createRun script stamp).2 := by
  unfold createRun
  split
  · exact .refl s
  · next found hfound =>
    split
    · next refusal store hrefused =>
      exact .of_store (Store.admitsMany_of_next (Store.next_of_createRun hrefused) trivial)
    · next run store hrun =>
      -- The job has the script that was found, whatever is in the store by now.
      refine ⟨Store.admitsMany_of_next (Store.next_of_createRun hrun) trivial, fun j hj => ?_⟩
      obtain hj | hj := List.mem_append.mp hj
      · exact .inl ⟨j, hj, rfl⟩
      · obtain rfl := List.mem_singleton.mp hj
        exact .inr ⟨script, Store.getScript_eq_ok.mp hfound⟩

/-- Cancelling a job does not change its script. -/
theorem cancelIf_script (run : Text) (j : Job) : (j.cancelIf run).script = j.script := by
  unfold Job.cancelIf
  split <;> rfl

/-- A run is cancelled. -/
theorem cancelRun_serves (s : Server) (script run : Text) (now : Instant) :
    Serves s (s.cancelRun script run now).2 := by
  unfold cancelRun
  split
  · next refusal store hrefused =>
    exact .of_store (Store.admitsMany_of_next (Store.next_of_finishRun hrefused) trivial)
  · next store hfinish =>
    refine ⟨Store.admitsMany_of_next (Store.next_of_finishRun hfinish) trivial, fun j hj => ?_⟩
    obtain ⟨i, hi, rfl⟩ := List.mem_map.mp hj
    exact .inl ⟨i, hi, (cancelIf_script run i).symm⟩

/-- A request is allowed at every endpoint. -/
theorem answer_serves {endpoint : Endpoint} (h : answer fuel c stamp s r endpoint = some (response, s')) :
    Serves s s' := by
  cases endpoint with
  | createScript =>
    obtain rfl := (Prod.mk.inj (Option.some.inj h)).2
    exact createScript_serves c s r stamp
  | updateScript id =>
    obtain rfl := (Prod.mk.inj (Option.some.inj h)).2
    exact updateScript_serves c s id r stamp
  | deleteScript id =>
    obtain rfl := (Prod.mk.inj (Option.some.inj h)).2
    exact deleteScript_serves s id
  | createRun script =>
    obtain rfl := (Prod.mk.inj (Option.some.inj h)).2
    exact createRun_serves s script stamp
  | cancelRun script run =>
    obtain rfl := (Prod.mk.inj (Option.some.inj h)).2
    exact cancelRun_serves s script run stamp.time
  | eval =>
    obtain ⟨response, -, hend⟩ := Option.map_eq_some_iff.mp h
    obtain ⟨-, rfl⟩ := Prod.mk.inj hend
    exact .refl s
  | tryProgram =>
    obtain ⟨response, -, hend⟩ := Option.map_eq_some_iff.mp h
    obtain ⟨-, rfl⟩ := Prod.mk.inj hend
    exact .refl s
  -- The others only read.
  | listScripts | getScript | listRuns | getRun | dashboard | scriptPage | runPage | playground | home =>
    obtain ⟨-, rfl⟩ := Prod.mk.inj (Option.some.inj h)
    exact .refl s

/-- A request is turned away at once, or it is answered at an endpoint; the answer to a request for the
head of something has the same status. -/
theorem handle_cases (h : handle fuel c stamp s r = some (response, s')) :
    (s' = s ∧ 400 ≤ response.status) ∨
      ∃ method endpoint answered, Endpoint.Method.ofName? r.method = some method ∧
        Endpoint.find? method r.path = some endpoint ∧
        answer fuel c stamp s r endpoint = some (answered, s') ∧ answered.status = response.status := by
  unfold handle at h
  split at h
  · obtain ⟨rfl, rfl⟩ := Prod.mk.inj (Option.some.inj h)
    exact .inl ⟨rfl, Nat.le_refl 400⟩
  · next method hmethod =>
    -- A path that is known for another method is refused too.
    cases hfind : Endpoint.find? method r.path with
    | none =>
      rw [hfind] at h
      dsimp only at h
      split at h
      all_goals
        split at h
        all_goals
          obtain ⟨rfl, rfl⟩ := Prod.mk.inj (Option.some.inj h)
          refine .inl ⟨rfl, ?_⟩
          simp [Response.plain, Response.withoutBody]
    | some endpoint =>
      rw [hfind] at h
      dsimp only at h
      split at h
      · obtain ⟨⟨answered, s₁⟩, hanswer, hend⟩ := Option.map_eq_some_iff.mp h
        obtain ⟨rfl, rfl⟩ := Prod.mk.inj hend
        exact .inr ⟨method, endpoint, answered, hmethod, hfind, hanswer, rfl⟩
      · exact .inr ⟨method, endpoint, response, hmethod, hfind, h, rfl⟩

/-- A request is allowed whether it is turned away or answered. -/
theorem handle_serves (h : handle fuel c stamp s r = some (response, s')) : Serves s s' := by
  obtain ⟨rfl, -⟩ | ⟨method, endpoint, answered, -, -, hanswer, -⟩ := handle_cases h
  · exact .refl s'
  · exact answer_serves hanswer

/-- A file of a folder is saved if both checks let it pass. -/
theorem loadFile_admits (stamp : Stamp) (state : Store × Nat) (file : Text × Option Text) :
    Store.AdmitsMany state.1 (loadFile stamp state file).1 := by
  unfold loadFile
  split
  · split
    · next hchecks =>
      -- The checks are the ones of a request: a proper id and a source that parses.
      have hallowed := Bool.and_eq_true_iff.mp hchecks
      split
      · next script store hcreate =>
        exact Store.admitsMany_of_next (Store.next_of_createScript hcreate) hallowed
      · next refusal store hrefused =>
        exact Store.admitsMany_of_next (Store.next_of_createScript hrefused) hallowed
    · exact .refl
  · exact .refl

/-- The files of a folder, one after the other. -/
theorem loadFiles_admits (stamp : Stamp) (files : List (Text × Option Text)) :
    ∀ state : Store × Nat, Store.AdmitsMany state.1 (files.foldl (loadFile stamp) state).1 := by
  induction files with
  | nil => exact fun _ => .refl
  | cons file files ih => exact fun state => (loadFile_admits stamp state file).trans (ih _)

/-- A folder is allowed. -/
theorem loadFolder_serves (s : Server) (files : List (Text × Option Text)) (stamp : Stamp) :
    Serves s (s.loadFolder files stamp).2 :=
  .of_store (loadFiles_admits stamp _ (s.store, 0))

/-! ## Background runs

A job carries the script that was stored when it was started, so it does not matter what happens to the
store until it ends. -/

/-- A job ends with its run finished. -/
theorem perform_admits {now : Instant} {store store' : Store} {j : Job} (hj : j.script.Runnable)
    (h : j.perform fuel c now store = some store') : Store.AdmitsMany store store' := by
  obtain ⟨⟨e, m⟩, hexec, rfl⟩ := Option.map_eq_some_iff.mp h
  exact Store.admitsMany_of_next (Store.next_of_finishRun rfl)
    (executeWithin_stopped hj.source hexec).ending

/-! ## The service

A step is any of these, in any order and number, and so the invariant holds of whatever the service can
become. -/

/-- One thing that happens to a service. Requests, calls and folders come in any order, and a background
run may end at any time after its start. -/
inductive Step (s : Server) : Server → Prop where
  | request {fuel : Nat} {c : Config} {stamp : Stamp} {r : Request} {response : Response} {s' : Server}
      (h : handle fuel c stamp s r = some (response, s')) : Step s s'
  | call {fuel : Nat} {x : Rpc.Context} {random : Random} {call : Rpc.Call}
      {answer : Except Rpc.Problem Value} {service : Rpc.Service}
      (h : Rpc.handle fuel x ⟨s.store, random⟩ call = some (answer, service)) :
      Step s { s with store := service.store }
  | folder (files : List (Text × Option Text)) (stamp : Stamp) : Step s (s.loadFolder files stamp).2
  | background {fuel : Nat} {c : Config} {now : Instant} {before after : List Job} {j : Job}
      {store : Store} (hjobs : s.jobs = before ++ j :: after)
      (h : j.perform fuel c now s.store = some store) :
      Step s { store := store, jobs := before ++ after }

/-- What a service can become that starts with an empty store. -/
def Reachable (s : Server) : Prop := Relation.ReflTransGen Step {} s

/-- To carry out all background runs in the order of their start is one way for them to end. -/
theorem Reachable.settle {now : Instant} (h : Reachable s) (hsettle : s.settle fuel c now = some s') :
    Reachable s' := by
  obtain ⟨store, hperform, rfl⟩ := Option.map_eq_some_iff.mp hsettle
  clear hsettle
  obtain ⟨start, jobs⟩ := s
  dsimp only at hperform
  -- The induction is on the runs that are left. The first of them ends in one step.
  induction jobs generalizing start with
  | nil =>
    obtain rfl := Option.some.inj hperform
    exact h
  | cons j jobs ih =>
    rw [List.foldlM_cons] at hperform
    obtain ⟨store₁, hfirst, hothers⟩ := Option.bind_eq_some_iff.mp hperform
    have hstep : Step { store := start, jobs := j :: jobs } { store := store₁, jobs := jobs } :=
      @Step.background _ fuel c now [] jobs j store₁ rfl hfirst
    exact ih store₁ (h.tail hstep) hothers

/-- A server that stores and runs only what can be run. -/
structure Runnable (s : Server) : Prop where
  store : s.store.Runnable
  consistent : s.store.Consistent
  jobs : ∀ j ∈ s.jobs, j.script.Runnable

/-- Requests and folders keep the invariant. -/
theorem Runnable.serves (hs : s.Runnable) (h : Serves s s') : s'.Runnable := by
  obtain ⟨hstore, hconsistent⟩ := h.store.keeps hs.store hs.consistent
  refine ⟨hstore, hconsistent, fun j hj => ?_⟩
  obtain ⟨i, hi, heq⟩ | ⟨id, hfound⟩ := h.jobs j hj
  · rw [← heq]
    exact hs.jobs i hi
  · exact hs.store.of_get? hfound

/-- Whatever happens to a server keeps the invariant. -/
theorem Runnable.step (hs : s.Runnable) (h : Step s s') : s'.Runnable := by
  cases h with
  | request h => exact hs.serves (handle_serves h)
  | call h => exact hs.serves (.of_store (Rpc.handle_admits hs.store h))
  | folder files stamp => exact hs.serves (loadFolder_serves s files stamp)
  | @background _ _ _ before after j store hjobs h =>
    have hkept : ∀ i ∈ before ++ j :: after, i.script.Runnable := hjobs ▸ hs.jobs
    have hj : j.script.Runnable := hkept j (by simp)
    obtain ⟨hstore, hconsistent⟩ := (perform_admits hj h).keeps hs.store hs.consistent
    refine ⟨hstore, hconsistent, fun i hi => hkept i ?_⟩
    obtain hi | hi := List.mem_append.mp hi
    · exact List.mem_append_left _ hi
    · exact List.mem_append_right _ (List.mem_cons_of_mem _ hi)

/-- The invariant holds of every service that has started empty. -/
theorem Reachable.runnable (h : Reachable s) : s.Runnable := by
  induction h with
  | refl => exact ⟨.empty, Store.consistent_after [], fun _ hj => absurd hj List.not_mem_nil⟩
  | tail _ hstep ih => exact ih.step hstep

/-- A service that has started empty stores only programs, each under its own proper id. No run has
failed by a syntax error: where there is an error, the run was stopped by the step limit or from outside. -/
theorem reachable_runnable (h : Reachable s) :
    (∀ e ∈ s.store.scripts, e.2.id = e.1 ∧ Script.validId e.2.id = true ∧
      ∃ program, Program.parse e.2.source = .ok program) ∧
    (∀ e ∈ s.store.runs, ∀ f ∈ e.2, ∀ error, f.2.error = some error →
      error.kind ≠ Failure.Kind.name .syntaxFailure) ∧
    ∀ e ∈ s.store.runs, ∀ f ∈ e.2, f.2.state = .failed →
      ∃ error, f.2.error = some error ∧
        (error.kind = Failure.Kind.name .stepLimit ∨ error.kind = []) := by
  have hs := h.runnable
  refine ⟨fun e he => ?_, fun e he f hf error herror => ?_, fun e he f hf hfailed => ?_⟩
  · have hrunnable := hs.store.scripts e he
    exact ⟨hs.consistent.scripts e he, hrunnable.id, exists_program hrunnable.source⟩
  · have hstopped : error.Stopped := hs.store.errors e he f hf error herror
    intro hkind
    -- An error of a run that was stopped is no syntax error.
    rw [Run.Error.Stopped, hkind] at hstopped
    exact absurd hstopped (by decide)
  · have hproper := (hs.consistent.runs e he f hf).2.2
    obtain ⟨error, herror⟩ := Option.ne_none_iff_exists'.mp (hproper.error.mpr hfailed)
    exact ⟨error, herror, hs.store.errors e he f hf error herror⟩

/-- `geh weida (basst) { 1; };`, which only a stop ends. -/
def endless : Script :=
  { id := "endlos", source := "geh weida (basst) \x7b 1; \x7d;", description := []
    revision := ⟨1, "0f3"⟩, created := 0, updated := 0 }

def endlessRun : Run :=
  { id := "0f3a", script := endless.id, revision := endless.revision, started := 5 }

/-- The run after three steps were allowed and a fourth one tried. -/
def stoppedRun : Run :=
  endlessRun.finish (.failed [] [(Failure.stepLimit 3).message]
    ⟨(Failure.stepLimit 3).message, "StepLimit"⟩) 6

/-- A server with the script and some runs of it. -/
def keeping (runs : Dict Run) (jobs : List Job) : Server :=
  { store := { scripts := [(endless.id, endless)], runs := [(endless.id, runs)], revisions := 1 }
    jobs := jobs }

/-- The script is saved by a call and run by a request; the run ends in the background. -/
theorem reachable_stopped : Reachable (keeping [(stoppedRun.id, stoppedRun)] []) := by
  have hsaved : Step {} (keeping [] []) := by
    let fields : Json := .object [("id", .string endless.id), ("source", .string endless.source)]
    exact @Step.call {} 0 ⟨{}, ⟨0, "0f3a"⟩, false⟩ (Random.ofSeed 1 2) (.createScript fields) _
      ⟨_, _⟩ rfl
  have hstarted : Step (keeping [] [])
      (keeping [(endlessRun.id, endlessRun)] [⟨endless, endlessRun.id, false⟩]) :=
    @Step.request _ 0 {} ⟨5, "0f3a"⟩ { method := "POST", target := "/v1/scripts/endlos/runs" } _ _ rfl
  have hrunning := (Relation.ReflTransGen.single hsaved).tail hstarted
  exact @Reachable.settle _ _ 12 { maxSteps := 3 } 6 hrunning rfl

/-- The run failed, and by the step limit. -/
theorem reachable_runnable_stopped :
    stoppedRun.state = .failed ∧ ∃ error, stoppedRun.error = some error ∧
      (error.kind = Failure.Kind.name .stepLimit ∨ error.kind = []) :=
  ⟨rfl, (reachable_runnable reachable_stopped).2.2 _ List.mem_cons_self _ List.mem_cons_self rfl⟩

end Server

end Mundart
