import Mundart.Proofs.Service.Evaluation

/-!
# Refused requests change nothing

A handler checks a request in several places and asks the store more than once, and each of these may fail.
Whichever does, the server is as it was: all checks come before the first change, and what is asked after a
change cannot fail any more.

* **`Endpoint.shows_of_find?`** — who asks for something gets to an endpoint that only shows it;
* **`Store.Changes.ne`** — an operation that is granted and can change something does;
* **`Exact`**, **`answer_exact`** — at an endpoint that changes something, an answer tells of a problem
  exactly if nothing was changed;
* **`handle_same_iff`** — the same for all requests;
* **`Server.handle_unchanged`** — which requests and operations leave everything as it was.
-/

namespace Mundart

/-! ## Operations

A refused operation hands its store back as it was; that is part of the store's own theory. Here the other
half is shown: an operation that is granted leaves another store, so that an unchanged one proves that
nothing was granted. -/

namespace Store

/-- A run that was just finished is still there. -/
theorem getRun_of_finishRun {s s' : Store} {script id : Text} {ending : Run.Ending} {now : Instant}
    (h : s.finishRun script id ending now = (.ok (), s')) : ∃ run, s'.getRun script id = .ok run := by
  cases changes_of_finishRun h with
  | @finishRun _ _ _ _ run hrun hactive =>
    refine ⟨run.finish ending now, getRun_eq_ok.mpr ?_⟩
    rw [run?_putRun, if_pos ⟨rfl, rfl⟩]

/-- Apart from the start of a run, which may be recorded already, an operation that changes something
leaves another store behind. -/
theorem Changes.ne {s s' : Store} {op : Operation} {answer : Answer} (h : Changes s op answer s')
    (hop : ∀ script stamp, op ≠ .createRun script stamp) : s' ≠ s := by
  -- The revision counter grows, an entry is gone, or a run is no longer active.
  cases h with
  | createScript hnew hscript | updateScript hold hscript =>
    intro heq
    have hrevisions : s.revisions + 1 = s.revisions := congrArg Store.revisions heq
    omega
  | @deleteScript id old hold =>
    intro heq
    have hscripts : s.scripts.erase id = s.scripts := congrArg Store.scripts heq
    rw [← hscripts, Dict.get?_erase, if_pos rfl] at hold
    exact nomatch hold
  | createRun howner hrun => exact absurd rfl (hop _ _)
  | @finishRun script id ending time run hrun hactive =>
    intro heq
    have hfound : (s.putRun script id (run.finish ending time)).run? script id = some run := by
      rw [heq, hrun]
    rw [run?_putRun, if_pos ⟨rfl, rfl⟩] at hfound
    exact run.finish_state_ne_active ending time (by rw [Option.some.inj hfound, hactive])

end Store

/-! ## Endpoints

Methods and paths lead to endpoints by the table of routes. What holds for all of them is read off the
table, route by route. -/

namespace Endpoint

/-- An endpoint that is there to change something. -/
def Writes : Endpoint → Prop
  | .createScript | .updateScript _ | .deleteScript _ | .createRun _ | .cancelRun _ _ => True
  | _ => False

/-- An endpoint that shows what is there, without running anything. -/
def Shows : Endpoint → Prop
  | .listScripts | .getScript _ | .listRuns _ | .getRun _ _ => True
  | .dashboard | .scriptPage _ | .runPage _ _ | .playground | .home => True
  | _ => False

/-- All endpoints that a route leads to have a property. -/
def Route.Leads (route : Route) (P : Endpoint → Prop) : Prop :=
  ∀ names e, route.endpoint names = some e → P e

variable {P : Endpoint → Prop} {method : Method}

/-- A route without names leads to one endpoint. -/
theorem Route.leads_fixed {path : List String} {e : Endpoint} (h : P e) :
    (Route.fixed method path e).Leads P := by
  intro names e' he'
  obtain rfl := Option.some.inj he'
  exact h

/-- A route with one name leads to the endpoints of this form. -/
theorem Route.leads_one {pieces : List Piece} {e : Text → Endpoint} (h : ∀ a, P (e a)) :
    (Route.one method pieces e).Leads P := by
  intro names e' he'
  match names, he' with
  | [a], he' =>
    obtain rfl := Option.some.inj he'
    exact h a

/-- A route with two names leads to the endpoints of this form. -/
theorem Route.leads_two {pieces : List Piece} {e : Text → Text → Endpoint} (h : ∀ a b, P (e a b)) :
    (Route.two method pieces e).Leads P := by
  intro names e' he'
  match names, he' with
  | [a, b], he' =>
    obtain rfl := Option.some.inj he'
    exact h a b

/-- Routes for asking lead to endpoints that only show something. -/
theorem routes_get : ∀ route ∈ routes, route.method = .get → route.Leads Shows := by
  unfold routes
  simp only [List.forall_mem_cons]
  -- The routes one by one; those of other methods are not asked for.
  exact ⟨nofun, nofun, fun _ => Route.leads_fixed trivial, fun _ => Route.leads_one fun _ => trivial, nofun,
    nofun, nofun, fun _ => Route.leads_one fun _ => trivial, fun _ => Route.leads_two fun _ _ => trivial,
    nofun, fun _ => Route.leads_fixed trivial, fun _ => Route.leads_one fun _ => trivial,
    fun _ => Route.leads_two fun _ _ => trivial, fun _ => Route.leads_fixed trivial, nofun,
    fun _ => Route.leads_fixed trivial, by simp⟩

/-- To ask for something or for its head leads only to endpoints that show it. -/
theorem shows_of_find? {method : Method} {path : Text} {e : Endpoint}
    (hmethod : method = .get ∨ method = .head) (h : find? method path = some e) : e.Shows := by
  -- The head of something is looked for as the thing itself is.
  have hget : (if method = .head then .get else method) = Method.get := by
    obtain rfl | rfl := hmethod
    · rfl
    · rfl
  unfold find? at h
  dsimp only at h
  rw [hget] at h
  split at h
  · exact nomatch h
  · next segments hsegments =>
    obtain ⟨route, hroute, hfits⟩ := List.exists_of_findSome?_eq_some h
    by_cases hroutes : route.method = .get
    · rw [if_pos hroutes] at hfits
      obtain ⟨names, -, hendpoint⟩ := Option.bind_eq_some_iff.mp hfits
      exact routes_get route hroute hroutes names e hendpoint
    · rw [if_neg hroutes] at hfits
      exact nomatch hfits

end Endpoint

/-! ## Handlers

Each handler checks first and changes last. `Exact` is shown branch by branch: every early end is a problem
with the server as it was, and the last one a success that changes it. -/

namespace Server

open Http (Request Response)

/-- A reply that tells of a problem exactly if it leaves the server as it was. -/
def Exact (s : Server) (reply : Response × Server) : Prop := 400 ≤ reply.1.status ↔ reply.2 = s

variable {s s' : Server} {fuel : Nat} {c : Config} {stamp : Stamp} {r : Request} {response : Response}

/-- A problem with the server as it was is exact. -/
theorem Exact.same (s : Server) (h : 400 ≤ response.status) : Exact s (response, s) := iff_of_true h rfl

/-- A success with a changed server is exact. -/
theorem Exact.success (hstatus : response.status = 200) (h : s' ≠ s) : Exact s (response, s') := by
  refine iff_of_false ?_ h
  show ¬ 400 ≤ response.status
  omega

/-- The status of every problem is one of an error. -/
theorem le_problem_status (p : Problem) (message : Text) : 400 ≤ (problem p message).status := by
  show 400 ≤ p.status
  cases p <;> decide

/-- Every refusal of the store has the status of a problem. -/
theorem le_refused_status (refusal : Store.Refusal) : 400 ≤ (refused refusal).status := by
  cases refusal with
  | scriptMissing | runMissing | scriptExists | runFinished => exact le_problem_status _ _

/-- A source that is not accepted is answered with the status of a problem. -/
theorem le_sourceProblem_status {source : Text} (h : sourceProblem? source = some response) :
    400 ≤ response.status := by
  unfold sourceProblem? at h
  split at h
  · exact nomatch h
  · obtain rfl := Option.some.inj h
    exact le_problem_status _ _

/-- A refusal leaves everything as it is, whatever the store did before it. -/
theorem Exact.refused {refusal : Store.Refusal} {store : Store} (h : store = s.store) :
    Exact s (refused refusal, { s with store := store }) := by
  rw [h]
  exact .same s (le_refused_status refusal)

/-- A handler that ends with one operation is exact if the operation changes the store wherever it is
granted. -/
theorem changing_exact {α : Type} {x : Except Store.Refusal α × Store} {encode : α → Response}
    (hstatus : ∀ a, (encode a).status = 200)
    (hrefused : ∀ refusal store, x = (.error refusal, store) → store = s.store)
    (hgranted : ∀ a store, x = (.ok a, store) → store ≠ s.store) : Exact s (s.changing x encode) := by
  obtain ⟨answer, store⟩ := x
  cases answer with
  | error refusal => exact .refused (hrefused refusal store rfl)
  | ok a => exact .success (hstatus a) fun heq => hgranted a store rfl (congrArg Server.store heq)

/-- Creating a script: a body that cannot be read, a bad name or source, a refusal, or a new script. -/
theorem createScript_exact (c : Config) (s : Server) (r : Request) (stamp : Stamp) :
    Exact s (s.createScript c r stamp) := by
  unfold createScript
  dsimp only
  split
  · exact .same s (le_problem_status _ _)
  split
  · exact .same s (le_problem_status _ _)
  split
  · exact .same s (le_problem_status _ _)
  split
  · exact .same s (le_problem_status _ _)
  split
  · next hproblem => exact .same s (le_sourceProblem_status hproblem)
  -- All checks are passed, and only the store can refuse: the id may be taken.
  · exact changing_exact (fun _ => rfl) (fun _ _ => Store.createScript_refused)
      fun _ _ hcreate => (Store.changes_of_createScript hcreate).ne nofun

/-- Updating one: the source is checked only if the body has one. -/
theorem updateScript_exact (c : Config) (s : Server) (id : Text) (r : Request) (stamp : Stamp) :
    Exact s (s.updateScript c id r stamp) := by
  unfold updateScript
  split
  · exact .same s (le_problem_status _ _)
  dsimp only
  split
  · next hbad =>
    split at hbad
    · exact nomatch hbad
    · exact .same s (le_sourceProblem_status hbad)
  · exact changing_exact (fun _ => rfl) (fun _ _ => Store.updateScript_refused)
      fun _ _ hupdate => (Store.changes_of_updateScript hupdate).ne nofun

/-- Deleting a script has nothing to check but whether it is there. -/
theorem deleteScript_exact (s : Server) (id : Text) : Exact s (s.deleteScript id) :=
  changing_exact (fun _ => rfl) (fun _ _ => Store.deleteScript_refused)
    fun _ _ hdelete => (Store.changes_of_deleteScript hdelete).ne nofun

/-- A new run is a job more, even if it is recorded under an identifier that was taken. -/
theorem createRun_exact (s : Server) (script : Text) (stamp : Stamp) :
    Exact s (s.createRun script stamp) := by
  unfold createRun
  split
  · exact .same s (le_refused_status _)
  split
  · next refusal store hrefused => exact .refused (Store.createRun_refused hrefused)
  · refine .success rfl fun heq => ?_
    have hlength := congrArg (fun s => s.jobs.length) heq
    simp at hlength

/-- Cancelling a run asks the store twice. The second question comes after the change. -/
theorem cancelRun_exact (s : Server) (script run : Text) (now : Instant) :
    Exact s (s.cancelRun script run now) := by
  unfold cancelRun
  split
  · next refusal store hrefused => exact .refused (Store.finishRun_refused hrefused)
  · next store hfinish =>
    -- The cancellation is recorded by now, so the answer must not be a refusal.
    obtain ⟨found, hfound⟩ := Store.getRun_of_finishRun hfinish
    rw [hfound]
    refine .success rfl fun heq => ?_
    exact (Store.changes_of_finishRun hfinish).ne nofun (congrArg Server.store heq)

/-! ## Requests

A request leads to an endpoint or to none. The answer may lose its body on the way, but neither its status
nor what it did to the server. -/

/-- At an endpoint that changes something, an answer tells of a problem exactly if nothing was changed. -/
theorem answer_exact {endpoint : Endpoint} (hwrites : endpoint.Writes)
    (h : answer fuel c stamp s r endpoint = some (response, s')) : Exact s (response, s') := by
  cases endpoint with
  | createScript =>
    rw [← Option.some.inj h]
    exact createScript_exact c s r stamp
  | updateScript id =>
    rw [← Option.some.inj h]
    exact updateScript_exact c s id r stamp
  | deleteScript id =>
    rw [← Option.some.inj h]
    exact deleteScript_exact s id
  | createRun script =>
    rw [← Option.some.inj h]
    exact createRun_exact s script stamp
  | cancelRun script run =>
    rw [← Option.some.inj h]
    exact cancelRun_exact s script run stamp.time
  -- Programs that are evaluated by themselves are not stored.
  | eval | tryProgram => exact hwrites.elim
  | listScripts | getScript | listRuns | getRun | dashboard | scriptPage | runPage | playground | home =>
    exact hwrites.elim

/-- At any other endpoint nothing is changed. -/
theorem answer_of_not_writes {endpoint : Endpoint} (hwrites : ¬ endpoint.Writes)
    (h : answer fuel c stamp s r endpoint = some (response, s')) : s' = s := by
  cases endpoint with
  | createScript | updateScript | deleteScript | createRun | cancelRun => exact absurd trivial hwrites
  | eval | tryProgram =>
    obtain ⟨response, -, hend⟩ := Option.map_eq_some_iff.mp h
    exact (Prod.mk.inj hend).2.symm
  | listScripts | getScript | listRuns | getRun | dashboard | scriptPage | runPage | playground | home =>
    exact (Prod.mk.inj (Option.some.inj h)).2.symm

/-- An endpoint that only shows something answers, and does no more. -/
theorem answer_of_shows {endpoint : Endpoint} (h : endpoint.Shows) :
    ∃ response, answer fuel c stamp s r endpoint = some (response, s) := by
  cases endpoint with
  | listScripts | getScript | listRuns | getRun | dashboard | scriptPage | runPage | playground | home =>
    exact ⟨_, rfl⟩
  | eval | createScript | updateScript | deleteScript | createRun | cancelRun | tryProgram =>
    exact h.elim

/-- A request that is meant to change something. -/
def Writing (r : Request) : Prop :=
  ∃ method endpoint, Endpoint.Method.ofName? r.method = some method ∧
    Endpoint.find? method r.path = some endpoint ∧ endpoint.Writes

/-- Nothing is changed exactly by the requests that tell of a problem and by those that are not meant to
change something. -/
theorem handle_same_iff (h : handle fuel c stamp s r = some (response, s')) :
    s' = s ↔ 400 ≤ response.status ∨ ¬ Writing r := by
  -- no endpoint at all, or the answer of one
  obtain ⟨hsame, hproblem⟩ | ⟨method, endpoint, answered, hname, hfind, hanswer, hstatus⟩ := handle_cases h
  · exact iff_of_true hsame (.inl hproblem)
  · by_cases hwrites : endpoint.Writes
    · have hexact : 400 ≤ answered.status ↔ s' = s := answer_exact hwrites hanswer
      have hwriting : Writing r := ⟨method, endpoint, hname, hfind, hwrites⟩
      rw [← hexact, hstatus]
      simp [hwriting]
    · refine iff_of_true (answer_of_not_writes hwrites hanswer) (.inr ?_)
      -- A request leads to one endpoint only.
      rintro ⟨method', endpoint', hname', hfind', hwrites'⟩
      obtain rfl := Option.some.inj (hname.symm.trans hname')
      obtain rfl := Option.some.inj (hfind.symm.trans hfind')
      exact hwrites hwrites'

/-- Who only asks is always answered, and changes nothing. -/
theorem handle_of_asking {method : Endpoint.Method} (hname : Endpoint.Method.ofName? r.method = some method)
    (hmethod : method = .get ∨ method = .head) :
    ∃ response, handle fuel c stamp s r = some (response, s) := by
  unfold handle
  rw [hname]
  dsimp only
  cases hfind : Endpoint.find? method r.path with
  -- The answer is left without its body if only the head was asked for.
  | some endpoint =>
    obtain ⟨response, hanswer⟩ := answer_of_shows (Endpoint.shows_of_find? hmethod hfind)
    dsimp only
    rw [hanswer]
    split
    · exact ⟨_, rfl⟩
    · exact ⟨_, rfl⟩
  -- no such path, or a path for another method
  | none =>
    dsimp only
    split
    all_goals
      split
      · exact ⟨_, rfl⟩
      · exact ⟨_, rfl⟩

/-- A request that is answered with a status of 400 or more leaves the whole server as it was, and one that
is meant to change something and is answered otherwise does not. Every request for something or for its head
is answered and leaves the server as it was, and so does every evaluation, whatever the program does. A
refused operation leaves its store as it was. -/
theorem handle_unchanged (fuel : Nat) (c : Config) (stamp : Stamp) (s : Server) (r : Request) :
    (∀ response s', handle fuel c stamp s r = some (response, s') →
      (400 ≤ response.status → s' = s) ∧ (Writing r → response.status < 400 → s' ≠ s)) ∧
    (r.method = "GET" ∨ r.method = "HEAD" → ∃ response, handle fuel c stamp s r = some (response, s)) ∧
    (r.method = "POST" → Endpoint.find? .post r.path = some .eval →
      ∀ response s', handle fuel c stamp s r = some (response, s') → s' = s) ∧
    ∀ op refusal, s.store.reply op = .error refusal → s.store.next op = s.store := by
  refine ⟨fun response s' h => ⟨fun hproblem => ?_, fun hwriting hfine hsame => ?_⟩, fun hasks => ?_,
    fun hmethod hpath response s' h => ?_, fun op refusal => Store.next_of_refused⟩
  · exact (handle_same_iff h).mpr (.inl hproblem)
  -- A request that is meant to change something does not merely read.
  · obtain hproblem | hreading := (handle_same_iff h).mp hsame
    · omega
    · exact hreading hwriting
  · obtain hget | hhead := hasks
    · have hname : Endpoint.Method.ofName? r.method = some .get := by
        rw [hget]
        decide
      exact handle_of_asking hname (.inl rfl)
    · have hname : Endpoint.Method.ofName? r.method = some .head := by
        rw [hhead]
        decide
      exact handle_of_asking hname (.inr rfl)
  · rw [handle_eval hmethod hpath] at h
    obtain ⟨evaluated, -, hend⟩ := Option.map_eq_some_iff.mp h
    exact (Prod.mk.inj hend).2.symm

/-- A server whose only run has ended. -/
def idle : Server := keeping [("0f3a", stoppedRun)] []

/-- A request under the path of the script of that run. -/
def aboutEndless (method path : Text) : Request :=
  { method := method, target := "/v1/scripts/endlos" ++ path }

/-- A cancellation that comes too late is refused by the server and by the store. The run is then looked at
and another program evaluated, and only a new run changes the server. -/
theorem handle_unchanged_idle :
    (∃ response, handle 0 {} ⟨7, "d41"⟩ idle (aboutEndless "POST" "/runs/0f3a:cancel") =
        some (response, idle) ∧ response.status = 400) ∧
    idle.store.next (.finishRun "endlos" "0f3a" .cancelled 7) = idle.store ∧
    (∃ response, handle 0 {} ⟨8, "d42"⟩ idle (aboutEndless "GET" "/runs/0f3a") = some (response, idle)) ∧
    (∃ response, handle 12 {} ⟨9, "d43"⟩ idle (evalRequest "\x7b\"source\": \"1 plus 1;\"\x7d") =
        some (response, idle)) ∧
    ∃ response s', handle 0 {} ⟨10, "d44"⟩ idle (aboutEndless "POST" "/runs") = some (response, s') ∧
      response.status = 200 ∧ s' ≠ idle := by
  -- one request for each part of the theorem
  obtain ⟨hcancel, -, -, hrefused⟩ :=
    handle_unchanged 0 {} ⟨7, "d41"⟩ idle (aboutEndless "POST" "/runs/0f3a:cancel")
  obtain ⟨-, hlook, -⟩ := handle_unchanged 0 {} ⟨8, "d42"⟩ idle (aboutEndless "GET" "/runs/0f3a")
  obtain ⟨-, -, heval, -⟩ :=
    handle_unchanged 12 {} ⟨9, "d43"⟩ idle (evalRequest "\x7b\"source\": \"1 plus 1;\"\x7d")
  obtain ⟨hrun, -⟩ := handle_unchanged 0 {} ⟨10, "d44"⟩ idle (aboutEndless "POST" "/runs")
  refine ⟨?_, ?_, hlook (.inl rfl), ?_, ?_⟩
  · have hanswer : (handle 0 {} ⟨7, "d41"⟩ idle (aboutEndless "POST" "/runs/0f3a:cancel")).map
        (fun reply => reply.1.status) = some 400 := by decide +kernel
    obtain ⟨⟨response, s'⟩, hhandle, hstatus⟩ := Option.map_eq_some_iff.mp hanswer
    have hsame : s' = idle := (hcancel response s' hhandle).1 (Nat.le_of_eq hstatus.symm)
    rw [hsame] at hhandle
    exact ⟨response, hhandle, hstatus⟩
  -- The run has failed already, and the store says so.
  · have hreply : idle.store.reply (.finishRun "endlos" "0f3a" .cancelled 7) =
        .error (.runFinished "0f3a" .failed) := by decide +kernel
    exact hrefused _ _ hreply
  · have hanswer : (handle 12 {} ⟨9, "d43"⟩ idle
        (evalRequest "\x7b\"source\": \"1 plus 1;\"\x7d")).isSome = true := by decide +kernel
    obtain ⟨⟨response, s'⟩, hhandle⟩ := Option.isSome_iff_exists.mp hanswer
    have hsame : s' = idle := heval rfl (by decide +kernel) response s' hhandle
    rw [hsame] at hhandle
    exact ⟨response, hhandle⟩
  · have hanswer : (handle 0 {} ⟨10, "d44"⟩ idle (aboutEndless "POST" "/runs")).map
        (fun reply => reply.1.status) = some 200 := by decide +kernel
    have hwriting : Writing (aboutEndless "POST" "/runs") :=
      ⟨.post, .createRun "endlos", by decide +kernel, by decide +kernel, trivial⟩
    obtain ⟨⟨response, s'⟩, hhandle, hstatus⟩ := Option.map_eq_some_iff.mp hanswer
    have hfine : response.status < 400 := by
      change response.status = 200 at hstatus
      omega
    exact ⟨response, s', hhandle, hstatus, (hrun response s' hhandle).2 hwriting hfine⟩

end Server

end Mundart
