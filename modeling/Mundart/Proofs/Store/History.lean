import Mundart.Proofs.Dict
import Mundart.Store.Operation

/-!
# Histories of a store

Every operation on a store takes effect at once, so whatever several clients do at the same time is
some sequence of operations, a history. This module says what one operation can do and what a history
leaves behind; statements about all reachable stores are then statements about all histories, by
induction on the last operation.

* **`Changes`** — the five ways in which an operation changes a store;
* **`next_of_refused`** — a refused operation changes nothing;
* **`next_cases`** — an operation is one of these, or it changes nothing;
* **`run?_next_cases`** — where a run comes from that is found after an operation;
* **`log_concat`**, **`after_concat`** — the last operation of a history acts on the store after the
  others.
-/

namespace Mundart.Store

/-- A request to a store, with the time and the fresh names that it takes from outside. -/
inductive Operation where
  | createScript (id source description : Text) (stamp : Stamp)
  | updateScript (id source description : Text) (stamp : Stamp)
  | deleteScript (id : Text)
  | getScript (id : Text)
  | listScripts
  | createRun (script : Text) (stamp : Stamp)
  /-- Completes, fails or cancels a run. -/
  | finishRun (script id : Text) (ending : Run.Ending) (time : Instant)
  | getRun (script id : Text)
  | listRuns (script : Text)
  | recentRuns (limit : Int)
  deriving DecidableEq, Repr

/-- What a client gets back. -/
inductive Answer where
  | done
  | script (script : Script)
  | scripts (scripts : List Script)
  | run (run : Run)
  | runs (runs : List Run)
  deriving DecidableEq, Repr

/-- An operation on a store: its answer or its refusal, and the store that it leaves. -/
def apply (s : Store) : Operation → Except Refusal Answer × Store
  | .createScript id source description stamp =>
    (s.createScript id source description stamp).map (Except.map .script) fun s => s
  | .updateScript id source description stamp =>
    (s.updateScript id source description stamp).map (Except.map .script) fun s => s
  | .deleteScript id => (s.deleteScript id).map (Except.map fun _ => .done) fun s => s
  | .getScript id => ((s.getScript id).map .script, s)
  | .listScripts => (.ok (.scripts s.listScripts), s)
  | .createRun script stamp => (s.createRun script stamp).map (Except.map .run) fun s => s
  | .finishRun script id ending time =>
    (s.finishRun script id ending time).map (Except.map fun _ => .done) fun s => s
  | .getRun script id => ((s.getRun script id).map .run, s)
  | .listRuns script => ((s.listRuns script).map .runs, s)
  | .recentRuns limit => (.ok (.runs (s.recentRuns limit)), s)

/-- What an operation is told. -/
def reply (s : Store) (op : Operation) : Except Refusal Answer := (s.apply op).1

/-- The store after an operation, granted or refused. -/
def next (s : Store) (op : Operation) : Store := (s.apply op).2

/-- The store after a history that starts from the empty store. -/
def after (history : List Operation) : Store := history.foldl next {}

/-- Operations with what they are told one after the other. -/
def logFrom (s : Store) : List Operation → List (Operation × Except Refusal Answer)
  | [] => []
  | op :: ops => (op, s.reply op) :: (s.next op).logFrom ops

/-- A history with what its operations are told. -/
def log (history : List Operation) : List (Operation × Except Refusal Answer) :=
  logFrom {} history

/-- The revision that a successful create or update of a script hands out. -/
def grantedRevision? : Operation × Except Refusal Answer → Option Revision
  | (.createScript _ _ _ _, .ok (.script script)) => some script.revision
  | (.updateScript _ _ _ _, .ok (.script script)) => some script.revision
  | _ => none

/-- The id of the run that a successful start of one hands out. -/
def startedRun? : Operation × Except Refusal Answer → Option Text
  | (.createRun _ _, .ok (.run run)) => some run.id
  | _ => none

/-- The revisions that the creates and updates of a history were given. -/
def revisionsGranted (history : List Operation) : List Revision :=
  (log history).filterMap grantedRevision?

/-- The ids of the runs that a history started. -/
def runsStarted (history : List Operation) : List Text := (log history).filterMap startedRun?

/-- An operation that finishes a certain run, if it can. -/
def Operation.Finishes (script id : Text) (op : Operation) : Prop :=
  ∃ ending time, op = .finishRun script id ending time

/-- An operation that starts a run with a certain id, if it can. -/
def Operation.Starts (script id : Text) (op : Operation) : Prop :=
  ∃ stamp, op = .createRun script stamp ∧ stamp.token = id

/-! ## Histories from their end

A history is taken apart at its last operation: what comes before it is the store that the operation meets.
-/

/-- One operation more changes the store that the others left. -/
theorem after_concat (history : List Operation) (op : Operation) :
    after (history ++ [op]) = (after history).next op := by
  simp [after]

/-- The log of one operation more, from any store on. -/
theorem logFrom_concat (ops : List Operation) (op : Operation) : ∀ s : Store,
    logFrom s (ops ++ [op]) = logFrom s ops ++ [(op, (ops.foldl next s).reply op)] := by
  induction ops with
  | nil => exact fun s => rfl
  | cons first ops ih =>
    intro s
    show (first, s.reply first) :: logFrom (s.next first) (ops ++ [op]) = _
    rw [ih]
    rfl

/-- The log of one operation more. -/
theorem log_concat (history : List Operation) (op : Operation) :
    log (history ++ [op]) = log history ++ [(op, (after history).reply op)] :=
  logFrom_concat history op {}

/-- One operation more grants at most one revision more. -/
theorem revisionsGranted_concat (history : List Operation) (op : Operation) :
    revisionsGranted (history ++ [op]) =
      revisionsGranted history ++ (grantedRevision? (op, (after history).reply op)).toList := by
  rw [revisionsGranted, log_concat, List.filterMap_append]
  cases h : grantedRevision? (op, (after history).reply op) <;> simp [revisionsGranted, h]

/-- One operation more starts at most one run more. -/
theorem runsStarted_concat (history : List Operation) (op : Operation) :
    runsStarted (history ++ [op]) =
      runsStarted history ++ (startedRun? (op, (after history).reply op)).toList := by
  rw [runsStarted, log_concat, List.filterMap_append]
  cases h : startedRun? (op, (after history).reply op) <;> simp [runsStarted, h]

/-! ## One operation

What an operation can do to a store is said once, as a relation; whatever is preserved is then proved for
its five cases. -/

/-- The run of a script with an id. -/
def run? (s : Store) (script id : Text) : Option Run :=
  (s.runs.get? script).bind fun shelf => shelf.get? id

/-- The store with a run on the shelf of its script. -/
def putRun (s : Store) (script id : Text) (run : Run) : Store :=
  { s with runs := s.runs.set script (((s.runs.get? script).getD []).set id run) }

/-- How an operation changes a store, and what it is told then. -/
inductive Changes (s : Store) : Operation → Answer → Store → Prop where
  | createScript {id source description : Text} {stamp : Stamp} {script : Script}
      (hnew : s.scripts.get? id = none)
      (hscript : script =
        { id := id, source := source, description := description, revision := s.nextRevision stamp,
          created := stamp.time, updated := stamp.time }) :
      Changes s (.createScript id source description stamp) (.script script)
        { scripts := s.scripts.set id script, runs := s.runs.set id [],
          revisions := s.revisions + 1 }
  | updateScript {id source description : Text} {stamp : Stamp} {old script : Script}
      (hold : s.scripts.get? id = some old)
      (hscript : script =
        { old with
          source := if source.isEmpty then old.source else source
          description := if description.isEmpty then old.description else description
          revision := s.nextRevision stamp
          updated := stamp.time }) :
      Changes s (.updateScript id source description stamp) (.script script)
        { s with scripts := s.scripts.set id script, revisions := s.revisions + 1 }
  | deleteScript {id : Text} {old : Script} (hold : s.scripts.get? id = some old) :
      Changes s (.deleteScript id) .done
        { s with scripts := s.scripts.erase id, runs := s.runs.erase id }
  | createRun {script : Text} {stamp : Stamp} {owner : Script} {run : Run}
      (howner : s.scripts.get? script = some owner)
      (hrun : run =
        { id := stamp.token, script := script, revision := owner.revision,
          started := stamp.time }) :
      Changes s (.createRun script stamp) (.run run) (s.putRun script run.id run)
  | finishRun {script id : Text} {ending : Run.Ending} {time : Instant} {run : Run}
      (hrun : s.run? script id = some run) (hactive : run.state = .active) :
      Changes s (.finishRun script id ending time) .done
        (s.putRun script id (run.finish ending time))

/-- A script is given if it is there. -/
theorem getScript_eq_ok {s : Store} {id : Text} {script : Script} :
    s.getScript id = .ok script ↔ s.scripts.get? id = some script := by
  unfold getScript
  split <;> simp_all

/-- A run is given if it is there. -/
theorem getRun_eq_ok {s : Store} {script id : Text} {run : Run} :
    s.getRun script id = .ok run ↔ s.run? script id = some run := by
  unfold getRun run?
  split
  · next h => simp [h]
  · next shelf h =>
    rw [h, Option.bind_some]
    split
    · next h' => simp [h']
    · next h' => simp [h']

/-- A run can be finished as long as it is active. -/
theorem finishRun_of_active {s : Store} {script id : Text} {run : Run}
    (hrun : s.run? script id = some run) (hactive : run.state = .active) (ending : Run.Ending)
    (time : Instant) :
    s.finishRun script id ending time = (.ok (), s.putRun script id (run.finish ending time)) := by
  unfold finishRun
  rw [getRun_eq_ok.mpr hrun]
  simp [Run.finished, hactive, putRun]

/-- A run that is not active any more cannot be finished again. -/
theorem finishRun_of_finished {s : Store} {script id : Text} {run : Run}
    (hrun : s.run? script id = some run) (hfinished : run.state ≠ .active) (ending : Run.Ending)
    (time : Instant) :
    s.finishRun script id ending time = (.error (.runFinished id run.state), s) := by
  unfold finishRun
  rw [getRun_eq_ok.mpr hrun]
  simp [Run.finished, hfinished]

section

variable {s s' : Store} {id source description : Text} {stamp : Stamp} {script : Script}

/-- A script that is created was not there before. -/
theorem changes_of_createScript (h : s.createScript id source description stamp = (.ok script, s')) :
    Changes s (.createScript id source description stamp) (.script script) s' := by
  unfold createScript at h
  split at h
  · exact nomatch (Prod.mk.inj h).1
  · next hnew =>
    obtain ⟨hscript, rfl⟩ := Prod.mk.inj h
    obtain rfl := Except.ok.inj hscript
    exact .createScript (by simpa [Dict.has] using hnew) rfl

/-- A script that is updated was there, and keeps what is not given. -/
theorem changes_of_updateScript (h : s.updateScript id source description stamp = (.ok script, s')) :
    Changes s (.updateScript id source description stamp) (.script script) s' := by
  unfold updateScript at h
  split at h
  · exact nomatch (Prod.mk.inj h).1
  · next old hold =>
    obtain ⟨hscript, rfl⟩ := Prod.mk.inj h
    obtain rfl := Except.ok.inj hscript
    exact .updateScript (getScript_eq_ok.mp hold) rfl

/-- A script that is deleted was there. -/
theorem changes_of_deleteScript (h : s.deleteScript id = (.ok (), s')) :
    Changes s (.deleteScript id) .done s' := by
  unfold deleteScript at h
  split at h
  · exact nomatch (Prod.mk.inj h).1
  · next old hold =>
    rw [← (Prod.mk.inj h).2]
    exact .deleteScript (getScript_eq_ok.mp hold)

/-- A run that is started belongs to a script that is there. -/
theorem changes_of_createRun {owner : Text} {run : Run} (h : s.createRun owner stamp = (.ok run, s')) :
    Changes s (.createRun owner stamp) (.run run) s' := by
  unfold createRun at h
  split at h
  · exact nomatch (Prod.mk.inj h).1
  · next script howner =>
    obtain ⟨hrun, rfl⟩ := Prod.mk.inj h
    obtain rfl := Except.ok.inj hrun
    exact .createRun (getScript_eq_ok.mp howner) rfl

/-- A run that is finished was active. -/
theorem changes_of_finishRun {owner : Text} {ending : Run.Ending} {time : Instant}
    (h : s.finishRun owner id ending time = (.ok (), s')) :
    Changes s (.finishRun owner id ending time) .done s' := by
  unfold finishRun at h
  split at h
  · exact nomatch (Prod.mk.inj h).1
  · next run hget =>
    split at h
    · exact nomatch (Prod.mk.inj h).1
    · next hactive =>
      rw [← (Prod.mk.inj h).2]
      exact .finishRun (getRun_eq_ok.mp hget) (by simpa [Run.finished] using hactive)

/-! ## Refusals

An operation that is refused gives the store back as it was. The store is part of what it returns, so this
is a fact about each of the operations. -/

variable {refusal : Refusal}

/-- The id is taken. -/
theorem createScript_refused (h : s.createScript id source description stamp = (.error refusal, s')) :
    s' = s := by
  unfold createScript at h
  split at h
  · exact (Prod.mk.inj h).2.symm
  · exact nomatch (Prod.mk.inj h).1

/-- There is no such script. -/
theorem updateScript_refused (h : s.updateScript id source description stamp = (.error refusal, s')) :
    s' = s := by
  unfold updateScript at h
  split at h
  · exact (Prod.mk.inj h).2.symm
  · exact nomatch (Prod.mk.inj h).1

/-- A script that is not removed leaves the store as it was. -/
theorem deleteScript_refused (h : s.deleteScript id = (.error refusal, s')) : s' = s := by
  unfold deleteScript at h
  split at h
  · exact (Prod.mk.inj h).2.symm
  · exact nomatch (Prod.mk.inj h).1

/-- A run that is refused is not started. -/
theorem createRun_refused (h : s.createRun id stamp = (.error refusal, s')) : s' = s := by
  unfold createRun at h
  split at h
  · exact (Prod.mk.inj h).2.symm
  · exact nomatch (Prod.mk.inj h).1

/-- There is no such run, or it has ended. -/
theorem finishRun_refused {owner : Text} {ending : Run.Ending} {time : Instant}
    (h : s.finishRun owner id ending time = (.error refusal, s')) : s' = s := by
  unfold finishRun at h
  split at h
  · exact (Prod.mk.inj h).2.symm
  · split at h
    · exact (Prod.mk.inj h).2.symm
    · exact nomatch (Prod.mk.inj h).1

end

/-! ## All operations

The five operations as one, with one kind of answer. -/

/-- An answer that was mapped was given. -/
theorem map_eq_ok {α β : Type} {f : α → β} {x : Except Refusal α} {b : β} (h : x.map f = .ok b) :
    ∃ a, x = .ok a ∧ f a = b := by
  cases x with
  | error refusal => exact nomatch h
  | ok a => exact ⟨a, rfl, Except.ok.inj h⟩

/-- A refusal that was mapped was one. -/
theorem map_eq_error {α β : Type} {f : α → β} {x : Except Refusal α} {refusal : Refusal}
    (h : x.map f = .error refusal) : x = .error refusal := by
  cases x with
  | error refusal => exact congrArg Except.error (Except.error.inj h)
  | ok a => exact nomatch h

section

variable {α : Type} {s s' : Store} {x : Except Refusal α × Store} {f : α → Answer}

/-- An operation is granted together with what it stands for. -/
theorem granted_of_map {answer : Answer} (h : x.map (Except.map f) (fun s => s) = (.ok answer, s')) :
    ∃ a, x = (.ok a, s') ∧ f a = answer := by
  obtain ⟨hanswer, hstore⟩ := Prod.mk.inj h
  obtain ⟨a, hx, hf⟩ := map_eq_ok hanswer
  exact ⟨a, Prod.ext hx hstore, hf⟩

/-- It is refused together with it, too. -/
theorem refused_of_map {refusal : Refusal}
    (h : x.map (Except.map f) (fun s => s) = (.error refusal, s')) : x = (.error refusal, s') := by
  obtain ⟨hanswer, hstore⟩ := Prod.mk.inj h
  exact Prod.ext (map_eq_error hanswer) hstore

end

/-- What an operation that is granted does. Those that only read change nothing and hand out nothing. -/
theorem changes_of_apply {s s' : Store} {op : Operation} {answer : Answer}
    (h : s.apply op = (.ok answer, s')) :
    (s' = s ∧ grantedRevision? (op, .ok answer) = none ∧ startedRun? (op, .ok answer) = none) ∨
      Changes s op answer s' := by
  cases op with
  | createScript id source description stamp =>
    obtain ⟨script, hop, rfl⟩ := granted_of_map h
    exact .inr (changes_of_createScript hop)
  | updateScript id source description stamp =>
    obtain ⟨script, hop, rfl⟩ := granted_of_map h
    exact .inr (changes_of_updateScript hop)
  | deleteScript id =>
    obtain ⟨⟨⟩, hop, rfl⟩ := granted_of_map h
    exact .inr (changes_of_deleteScript hop)
  | createRun script stamp =>
    obtain ⟨run, hop, rfl⟩ := granted_of_map h
    exact .inr (changes_of_createRun hop)
  | finishRun script id ending time =>
    obtain ⟨⟨⟩, hop, rfl⟩ := granted_of_map h
    exact .inr (changes_of_finishRun hop)
  -- Listings are always granted, and to look for one thing may be refused. Neither changes the store.
  | listScripts | recentRuns limit =>
    obtain ⟨hanswer, hstore⟩ := Prod.mk.inj h
    obtain rfl := Except.ok.inj hanswer
    exact .inl ⟨hstore.symm, rfl, rfl⟩
  | getScript id | getRun script id | listRuns script =>
    obtain ⟨hanswer, hstore⟩ := Prod.mk.inj h
    obtain ⟨found, -, rfl⟩ := map_eq_ok hanswer
    exact .inl ⟨hstore.symm, rfl, rfl⟩

/-- A refused operation leaves the store that it was asked of. -/
theorem unchanged_of_apply {s s' : Store} {op : Operation} {refusal : Refusal}
    (h : s.apply op = (.error refusal, s')) : s' = s := by
  cases op with
  | createScript id source description stamp => exact createScript_refused (refused_of_map h)
  | updateScript id source description stamp => exact updateScript_refused (refused_of_map h)
  | deleteScript id => exact deleteScript_refused (refused_of_map h)
  | createRun script stamp => exact createRun_refused (refused_of_map h)
  | finishRun script id ending time => exact finishRun_refused (refused_of_map h)
  | listScripts | recentRuns limit => exact (Prod.mk.inj h).2.symm
  | getScript id | getRun script id | listRuns script => exact (Prod.mk.inj h).2.symm

/-- A refused operation changes nothing. -/
theorem next_of_refused {s : Store} {op : Operation} {refusal : Refusal}
    (h : s.reply op = .error refusal) : s.next op = s :=
  unchanged_of_apply (Prod.ext h rfl)

/-- An operation changes nothing and hands out nothing, or it does one of the five things. -/
theorem next_cases (s : Store) (op : Operation) :
    (s.next op = s ∧ grantedRevision? (op, s.reply op) = none ∧ startedRun? (op, s.reply op) = none) ∨
      ∃ answer, s.reply op = .ok answer ∧ Changes s op answer (s.next op) := by
  cases h : s.reply op with
  | error refusal => exact .inl ⟨next_of_refused h, by cases op <;> rfl, by cases op <;> rfl⟩
  | ok answer => exact (changes_of_apply (Prod.ext h rfl)).imp id fun hchanges => ⟨answer, rfl, hchanges⟩

/-! ## The store that an operation leaves

Named by the operation, for those who have run it. -/

section

variable {s s' : Store} {id source description : Text} {stamp : Stamp}

/-- Creating a script. -/
theorem next_of_createScript {x : Except Refusal Script}
    (h : s.createScript id source description stamp = (x, s')) :
    s.next (.createScript id source description stamp) = s' :=
  congrArg Prod.snd h

/-- Updating a script. -/
theorem next_of_updateScript {x : Except Refusal Script}
    (h : s.updateScript id source description stamp = (x, s')) :
    s.next (.updateScript id source description stamp) = s' :=
  congrArg Prod.snd h

/-- Deleting a script. -/
theorem next_of_deleteScript {x : Except Refusal Unit} (h : s.deleteScript id = (x, s')) :
    s.next (.deleteScript id) = s' :=
  congrArg Prod.snd h

/-- Starting a run. -/
theorem next_of_createRun {x : Except Refusal Run} (h : s.createRun id stamp = (x, s')) :
    s.next (.createRun id stamp) = s' :=
  congrArg Prod.snd h

/-- Finishing a run. -/
theorem next_of_finishRun {owner : Text} {ending : Run.Ending} {now : Instant}
    {x : Except Refusal Unit} (h : s.finishRun owner id ending now = (x, s')) :
    s.next (.finishRun owner id ending now) = s' :=
  congrArg Prod.snd h

end

/-! ## Reading after an operation

A run is found by its script and its id, so that an operation on one of them is seen by those only who ask
for it. -/

/-- A run that is put on a shelf is found there, and the others are found as before. -/
theorem run?_putRun (s : Store) (script id : Text) (run : Run) (owner other : Text) :
    (s.putRun script id run).run? owner other =
      if script = owner ∧ id = other then some run else s.run? owner other := by
  unfold run? putRun
  rw [Dict.get?_set]
  by_cases hscript : script = owner
  · subst hscript
    -- Without a shelf the run gets a new one.
    cases hshelf : s.runs.get? script with
    | none =>
      by_cases hid : id = other
      · simp [Dict.get?_set, hid]
      · simp [Dict.get?_set, Dict.get?, hid]
    | some shelf => simp [Dict.get?_set]
  · simp [hscript]

/-- A new script has no runs. -/
theorem run?_createScript (s : Store) (id owner other : Text) (scripts : Dict Script) (n : Nat) :
    Store.run? { scripts := scripts, runs := s.runs.set id [], revisions := n } owner other =
      if id = owner then none else s.run? owner other := by
  unfold run?
  rw [Dict.get?_set]
  split <;> simp [Dict.get?]

/-- With its script a run is gone. -/
theorem run?_deleteScript (s : Store) (id owner other : Text) (scripts : Dict Script) :
    Store.run? { s with scripts := scripts, runs := s.runs.erase id } owner other =
      if id = owner then none else s.run? owner other := by
  unfold run?
  rw [Dict.get?_erase]
  split <;> simp

/-- A run that is found after an operation was there before, or the operation has started it, or the
operation has finished it. -/
theorem run?_next_cases {s : Store} {op : Operation} {script id : Text} {run : Run}
    (h : (s.next op).run? script id = some run) :
    s.run? script id = some run ∨
    (∃ stamp owner, op = .createRun script stamp ∧ id = stamp.token ∧
      s.scripts.get? script = some owner ∧ s.reply op = .ok (.run run) ∧
      run = { id := stamp.token, script := script, revision := owner.revision,
              started := stamp.time }) ∨
    ∃ ending time old, op = .finishRun script id ending time ∧ s.run? script id = some old ∧
      run = old.finish ending time := by
  obtain ⟨hsame, -⟩ | ⟨answer, hreply, hchanges⟩ := next_cases s op
  · rw [hsame] at h
    exact .inl h
  generalize s.next op = s' at h hchanges
  cases hchanges with
  -- Making and removing a script change one whole shelf, on which nothing is found afterwards.
  | createScript hnew hscript =>
    rw [run?_createScript] at h
    split at h
    · exact nomatch h
    · exact .inl h
  | updateScript hold hscript => exact .inl h
  | deleteScript hold =>
    rw [run?_deleteScript] at h
    split at h
    · exact nomatch h
    · exact .inl h
  | @createRun owner stamp found started howner hrun =>
    rw [run?_putRun] at h
    split at h
    · next heq =>
      obtain ⟨rfl, rfl⟩ := heq
      obtain rfl := Option.some.inj h
      exact .inr (.inl ⟨stamp, found, rfl, by rw [hrun], howner, hreply, hrun⟩)
    · exact .inl h
  | @finishRun owner other ending time old hold hactive =>
    rw [run?_putRun] at h
    split at h
    · next heq =>
      obtain ⟨rfl, rfl⟩ := heq
      exact .inr (.inr ⟨ending, time, old, rfl, hold, (Option.some.inj h).symm⟩)
    · exact .inl h

/-- A run that an operation has not started was there before, with the same revision; if it was finished,
it is unchanged. -/
theorem run?_of_next {s : Store} {op : Operation} {script id : Text} {run : Run}
    (h : (s.next op).run? script id = some run)
    (hstart : ∀ owner stamp, op = .createRun owner stamp → stamp.token ≠ id) :
    ∃ old, s.run? script id = some old ∧ run.revision = old.revision ∧
      (old.state ≠ .active → run = old) := by
  rcases run?_next_cases h with hkept | ⟨stamp, owner, hop, hid, -⟩ | ⟨ending, time, old, hop, hold, hrun⟩
  · exact ⟨run, hkept, rfl, fun _ => rfl⟩
  · exact absurd hid.symm (hstart script stamp hop)
  · refine ⟨old, hold, by rw [hrun]; cases ending <;> rfl, fun hfinished => ?_⟩
    -- A run that was finished is not finished again.
    have hsame : s.next op = s := by
      rw [hop]
      exact next_of_finishRun (finishRun_of_finished hold hfinished ending time)
    rw [hsame, hold] at h
    exact (Option.some.inj h).symm

/-- A script that is there can be run. -/
theorem createRun_of_owner {s : Store} {script : Text} {owner : Script}
    (h : s.scripts.get? script = some owner) (stamp : Stamp) :
    let run : Run := { id := stamp.token, script := script, revision := owner.revision,
                       started := stamp.time }
    s.createRun script stamp = (.ok run, s.putRun script stamp.token run) := by
  rw [createRun, getScript_eq_ok.mpr h]
  rfl

/-- The answer to a run that was started. -/
theorem reply_createRun {s s' : Store} {script : Text} {stamp : Stamp} {run : Run}
    (h : s.createRun script stamp = (.ok run, s')) :
    s.reply (.createRun script stamp) = .ok (.run run) := by
  rw [reply, apply, h]
  rfl

/-- A run that was started is found. -/
theorem run?_next_createRun {s s' : Store} {script : Text} {stamp : Stamp} {run : Run}
    (h : s.createRun script stamp = (.ok run, s')) :
    (s.next (.createRun script stamp)).run? script run.id = some run := by
  rw [next_of_createRun h]
  cases changes_of_createRun h with
  | createRun howner hrun => rw [run?_putRun, if_pos ⟨rfl, rfl⟩]

/-- A script that is there is removed together with its runs. -/
theorem run?_next_deleteScript {s : Store} {script : Text} (h : script ∈ s.scripts.keys) (id : Text) :
    (s.next (.deleteScript script)).run? script id = none := by
  obtain ⟨found, hfound⟩ := Dict.mem_keys_iff_get?.mp h
  have hdelete : s.deleteScript script =
      (.ok (), { s with scripts := s.scripts.erase script, runs := s.runs.erase script }) := by
    rw [deleteScript, getScript_eq_ok.mpr hfound]
  rw [next_of_deleteScript hdelete, run?_deleteScript, if_pos rfl]

end Mundart.Store
