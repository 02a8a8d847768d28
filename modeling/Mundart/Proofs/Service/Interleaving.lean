import Mundart.Proofs.Store.Consistency
import Mundart.Service.Rpc
import Mundart.Service.Server

/-!
# Requests at the same time

A request to run or to cancel something is not one operation on the store but several, and whatever
other requests do may come in between. Here every request is a task that goes on turn by turn; any
number of tasks share a store and the table of the functions that cancel runs, and an interleaving is a
list of moves. A task that is never interrupted does what the service's own functions do.

* **`Task.turn`** — what a task does in one turn;
* **`createRun_alone`**, **`perform_alone`**, **`cancelRun_alone`**, **`runScript_alone`** — the
  service's functions are tasks without interruption;
* **`Turns`**, **`turns_of_turn`** — everything that a turn can do;
* **`Later`** — what no turn of another task takes back;
* **`Stable.move`**, **`Stable.reachable`** — assertions that are kept by every turn are kept by every
  move, hence hold in every interleaving.
-/

namespace Mundart.Interleaving

open Server (Config Job)

/-- On which way a run is asked for: by a request, which starts it in the background, or by a call, which
waits for its end. -/
inductive Surface where
  | request | call
  deriving DecidableEq, Repr

/-- A recorded run and the script that is executed for it. -/
structure Launch where
  run : Run
  /-- The script as it was read. -/
  script : Script
  /-- How many versions of scripts there had been when the script was read. -/
  readAt : Nat
  /-- How many there had been when the run was recorded. -/
  recordedAt : Nat
  deriving DecidableEq, Repr

/-- What a request, a call or a background run does next, with what it knows so far. -/
inductive Task where
  /-- Reads the script that is to be run. -/
  | read (surface : Surface) (script : Text)
  /-- Records the run. -/
  | record (surface : Surface) (script : Text) (found : Script) (readAt : Nat)
  /-- Enters the function that cancels the run. -/
  | register (l : Launch)
  /-- Starts the run in the background. -/
  | start (l : Launch)
  | execute (surface : Surface) (l : Launch)
  /-- Records how the execution ended. -/
  | conclude (surface : Surface) (l : Launch) (ending : Run.Ending)
  /-- Calls the function that cancels the run and removes it. -/
  | release (l : Launch)
  /-- Records the cancellation of a run. -/
  | cancel (script run : Text)
  /-- Looks up the function that cancels the run and calls it. -/
  | signal (script run : Text)
  /-- Answers with the run; `late` tells whether the look-up came after the function was entered. -/
  | confirm (script run : Text) (late : Bool)
  deriving DecidableEq, Repr

/-- What happened so far; nothing is ever taken out. -/
structure Journal where
  /-- The scripts as they were saved, one for each revision. -/
  versions : List Script := []
  /-- The ids of the recorded runs. -/
  recorded : List Text := []
  /-- The runs for which a function was entered that cancels them. -/
  registered : List Text := []
  executed : List Launch := []
  /-- The runs whose cancellation was recorded. -/
  granted : List Text := []
  /-- The look-ups of functions that cancel runs. -/
  lookups : List (Text × Bool) := []
  /-- The requests to cancel a run that were answered with success. -/
  answered : List (Text × Bool) := []
  deriving DecidableEq, Repr

/-- What all tasks see. -/
structure Shared where
  store : Store := {}
  /-- The runs with a function that cancels them. -/
  cancels : List Text := []
  /-- The runs whose context is cancelled. -/
  cancelled : List Text := []
  journal : Journal := {}
  deriving DecidableEq, Repr

/-- What a turn takes from outside. -/
structure Outside where
  stamp : Stamp
  fuel : Nat := 0
  /-- How many statements a background run has time for. -/
  time : Option Nat := none
  settings : Settings := {}
  machine : Machine := {}

/-- How the execution of a script ends. The context of a background run can be cancelled, a call brings a
context of its own. -/
def Outside.ending? (o : Outside) (w : Shared) (l : Launch) : Surface → Option Run.Ending
  | .request =>
    let machine :=
      { o.machine with interruption := if l.run.id ∈ w.cancelled then some .cancelled else none }
    (executeWithin o.fuel o.time o.settings l.script.source machine).map fun (e, _) => e.ending
  | .call =>
    (execute o.fuel o.settings l.script.source o.machine).map fun (e, m) =>
      if m.interruption.isSome then .cancelled else e.ending

/-- Cancels the context of a run, if there is a function for that. -/
def Shared.signal (w : Shared) (run : Text) : Shared :=
  { w with cancelled := if run ∈ w.cancels then run :: w.cancelled else w.cancelled }

namespace Task

/-- One turn of a task: what is shared afterwards and what is left to do. A refused request ends. None if
the bound on the evaluator's work was too small. -/
def turn (o : Outside) (w : Shared) : Task → Option (Shared × Option Task)
  | .read surface script =>
    match w.store.getScript script with
    | .error _ => some (w, none)
    | .ok found => some (w, some (.record surface script found w.journal.versions.length))
  | .record surface script found readAt =>
    match w.store.createRun script o.stamp with
    | (.error _, store) => some ({ w with store := store }, none)
    | (.ok run, store) =>
      -- Launch: the source of `found` is executed, whatever has been saved since it was read
      let l : Launch := ⟨run, found, readAt, w.journal.versions.length⟩
      let journal := { w.journal with recorded := run.id :: w.journal.recorded }
      some ({ w with store := store, journal := journal },
        some (match surface with
          | .request => .register l
          | .call => .execute .call l))
  | .register l =>
    let journal := { w.journal with registered := l.run.id :: w.journal.registered }
    some ({ w with cancels := l.run.id :: w.cancels, journal := journal }, some (.start l))
  | .start l => some (w, some (.execute .request l))
  | .execute surface l =>
    (o.ending? w l surface).map fun ending =>
      let journal := { w.journal with executed := l :: w.journal.executed }
      ({ w with journal := journal }, some (.conclude surface l ending))
  | .conclude surface l ending =>
    some ({ w with store := w.store.next (.finishRun l.script.id l.run.id ending o.stamp.time) },
      match surface with
      | .request => some (.release l)
      | .call => none)
  | .release l =>
    -- the context is cancelled behind its run too, and the function is taken out
    some ({ w.signal l.run.id with cancels := w.cancels.filter (· ≠ l.run.id) }, none)
  | .cancel script run =>
    match w.store.finishRun script run .cancelled o.stamp.time with
    | (.error _, store) => some ({ w with store := store }, none)
    | (.ok _, store) =>
      let journal := { w.journal with granted := run :: w.journal.granted }
      some ({ w with store := store, journal := journal }, some (.signal script run))
  | .signal script run =>
    -- the function can only be found once it was entered
    let late := decide (run ∈ w.journal.registered)
    let journal := { w.journal with lookups := (run, late) :: w.journal.lookups }
    some ({ w.signal run with journal := journal }, some (.confirm script run late))
  | .confirm script run late =>
    match w.store.getRun script run with
    | .error _ => some (w, none)
    | .ok _ =>
      let journal := { w.journal with answered := (run, late) :: w.journal.answered }
      some ({ w with journal := journal }, none)

/-- A few turns of a task without interruption. -/
def alone (o : Outside) : Nat → Shared → Task → Option (Shared × Option Task)
  | 0, w, t => some (w, some t)
  | n + 1, w, t =>
    match t.turn o w with
    | none => none
    | some (w', none) => some (w', none)
    | some (w', some rest) => alone o n w' rest

end Task

/-! ## Interleavings

A request is a task, made of the calls that it makes to the store. Tasks take turns at any call, and the
journal notes what was seen at each. -/

/-- A request that is one operation on the scripts. -/
inductive Edit where
  | create (id source description : Text) (stamp : Stamp)
  | update (id source description : Text) (stamp : Stamp)
  | delete (id : Text)
  deriving DecidableEq, Repr

def Edit.operation : Edit → Store.Operation
  | .create id source description stamp => .createScript id source description stamp
  | .update id source description stamp => .updateScript id source description stamp
  | .delete id => .deleteScript id

/-- The script that a successful create or update has saved. -/
def savedScript? : Store.Operation × Except Store.Refusal Store.Answer → Option Script
  | (.createScript _ _ _ _, .ok (.script script)) => some script
  | (.updateScript _ _ _ _, .ok (.script script)) => some script
  | _ => none

def Shared.edit (w : Shared) (e : Edit) : Shared :=
  let saved := savedScript? (e.operation, w.store.reply e.operation)
  { w with
    store := w.store.next e.operation
    journal := { w.journal with versions := w.journal.versions ++ saved.toList } }

/-- What can happen: a request or a call comes in, or some task has its turn. -/
inductive Move where
  | edit (e : Edit)
  | createRun (script : Text)
  | runScript (script : Text)
  | cancelRun (script run : Text)
  | turn (i : Nat) (o : Outside)

structure World where
  shared : Shared := {}
  /-- The tasks in the order in which they came. -/
  tasks : List Task := []
  deriving DecidableEq, Repr

namespace World

/-- The world after a move. A fresh name was not given to any run before. -/
def move (w : World) : Move → Option World
  | .edit e => some { w with shared := w.shared.edit e }
  | .createRun script => some { w with tasks := w.tasks ++ [.read .request script] }
  | .runScript script => some { w with tasks := w.tasks ++ [.read .call script] }
  | .cancelRun script run => some { w with tasks := w.tasks ++ [.cancel script run] }
  | .turn i o =>
    match w.tasks[i]? with
    | none => none
    | some t =>
      if o.stamp.token ∈ w.shared.journal.recorded then none
      else
        (t.turn o w.shared).map fun (shared, rest) =>
          { shared := shared, tasks := w.tasks.take i ++ rest.toList ++ w.tasks.drop (i + 1) }

/-- The world after some moves. -/
def play (w : World) (moves : List Move) : Option World := moves.foldlM move w

end World

/-- What some interleaving of requests leads to, starting with nothing. -/
def Reachable (w : World) : Prop := ∃ moves, World.play {} moves = some w

/-! ## Tasks without interruption

A task whose turns follow each other without any other in between does what the handler of the server does
in one go. So the steps are those of the program. -/

section

variable (o : Outside) (w : Shared)

/-- A request for a run, up to the start of its execution. -/
theorem createRun_alone (s : Server) (hs : s.store = w.store) (script : Text) :
    ∃ w' rest, Task.alone o 4 w (.read .request script) = some (w', rest) ∧
      (s.createRun script o.stamp).2.store = w'.store ∧
      (s.createRun script o.stamp).2.jobs = s.jobs ++
        match rest with
        | some (.execute _ l) => [⟨l.script, l.run.id, false⟩]
        | _ => [] := by
  unfold Server.createRun
  rw [hs]
  -- The script is looked up, and then its run is recorded: either step can refuse.
  cases hfound : w.store.getScript script with
  | error refusal => exact ⟨w, none, by simp [Task.alone, Task.turn, hfound], hs, by simp⟩
  | ok found =>
    rcases hrun : w.store.createRun script o.stamp with ⟨started, store⟩
    cases started with
    | error refusal => simp [Task.alone, Task.turn, hfound, hrun]
    | ok run => simp [Task.alone, Task.turn, hfound, hrun]

/-- The execution of a background run and the record of its end. -/
theorem perform_alone (c : Config) (l : Launch) (hsettings : o.settings = c.settings)
    (htime : o.time = c.runTime) (hmachine : o.machine = c.machine) :
    Job.perform o.fuel c o.stamp.time w.store
        ⟨l.script, l.run.id, decide (l.run.id ∈ w.cancelled)⟩ =
      (Task.alone o 2 w (.execute .request l)).map fun (w', _) => w'.store := by
  simp only [Job.perform, Task.alone, Task.turn, Outside.ending?, hsettings, htime, hmachine,
    decide_eq_true_eq, Option.map_map]
  generalize executeWithin _ _ _ _ _ = result
  cases result with
  | none => rfl
  | some result =>
    obtain ⟨e, m⟩ := result
    rfl

/-- Signalling a job keeps which run it is for, and marks it as cancelled if it is the one that is meant. -/
theorem cancelIf_eq (run : Text) (j : Job) :
    (j.cancelIf run).run = j.run ∧
      ((j.cancelIf run).cancelled = true ↔ j.run = run ∨ j.cancelled = true) := by
  unfold Job.cancelIf
  split <;> simp_all

/-- A refusal is no success. -/
theorem refused_status (refusal : Store.Refusal) : (Server.refused refusal).status ≠ 200 := by
  cases refusal <;> simp [Server.refused, Server.problem, Server.Problem.status, Http.Response.ofJson]

/-- The jobs of a server and the contexts of their runs tell the same. -/
def Shared.Tells (w : Shared) (jobs : List Job) : Prop :=
  ∀ j ∈ jobs, j.run ∈ w.cancels ∧ (j.cancelled = true ↔ j.run ∈ w.cancelled)

/-- What a signal does to jobs it does to the world that tells of them. -/
theorem Shared.Tells.signal {w : Shared} {jobs : List Job} (h : w.Tells jobs) (run : Text) :
    (w.signal run).Tells (jobs.map (Job.cancelIf run)) := by
  intro j hj
  obtain ⟨i, hi, rfl⟩ := List.mem_map.mp hj
  obtain ⟨hrun, hcancelled⟩ := cancelIf_eq run i
  obtain ⟨hregistered, hiff⟩ := h i hi
  rw [hrun, hcancelled, hiff]
  refine ⟨hregistered, ?_⟩
  by_cases heq : i.run = run
  · subst heq
    simp [Shared.signal, hregistered]
  · unfold Shared.signal
    split <;> simp [heq]

/-- A request to cancel a run. It is answered with the run exactly if the task says so. -/
theorem cancelRun_alone (s : Server) (hs : s.store = w.store) (hjobs : w.Tells s.jobs)
    (script run : Text) :
    ∃ w', Task.alone o 3 w (.cancel script run) = some (w', none) ∧
      (s.cancelRun script run o.stamp.time).2.store = w'.store ∧
      w'.Tells (s.cancelRun script run o.stamp.time).2.jobs ∧
      ((s.cancelRun script run o.stamp.time).1.status = 200 ↔
        w'.journal.answered ≠ w.journal.answered) := by
  unfold Server.cancelRun
  rw [hs]
  rcases hfinish : w.store.finishRun script run .cancelled o.stamp.time with ⟨finished, store⟩
  cases finished with
  | error refusal =>
    refine ⟨{ w with store := store }, by simp [Task.alone, Task.turn, hfinish], rfl, hjobs, ?_⟩
    simpa using refused_status refusal
  | ok =>
    -- The run was finished a moment ago, and no one was in between: it is still found. The store does not
    -- promise that by itself, so both answers are compared.
    cases hget : store.getRun script run with
    | error refusal =>
      simp only [Task.alone, Task.turn, hfinish, Shared.signal, hget, Server.reading]
      exact ⟨_, rfl, rfl, hjobs.signal run, by simpa using refused_status refusal⟩
    | ok found =>
      simp only [Task.alone, Task.turn, hfinish, Shared.signal, hget, Server.reading]
      exact ⟨_, rfl, rfl, hjobs.signal run, by simp [Http.Response.ofJson]⟩

/-- A called run, up to the answer, which only reads. -/
theorem runScript_alone (x : Rpc.Context) (s : Rpc.Service) (id : Text) (hs : s.store = w.store)
    (hid : ∀ found, w.store.getScript id = .ok found → found.id = id)
    (hsettings : o.settings = x.settings) (hmachine : o.machine = x.machine s)
    (hstamp : o.stamp = x.stamp) :
    (Rpc.runScript o.fuel x s id).map (fun (_, s') => s'.store) =
      (Task.alone o 4 w (.read .call id)).map fun (w', _) => w'.store := by
  unfold Rpc.runScript
  rw [hs]
  cases hfound : w.store.getScript id with
  | error refusal => simp [Task.alone, Task.turn, hfound, hs]
  | ok found =>
    -- The service stores runs under the id of the script that it has found, the task under the one that was
    -- asked for.
    obtain rfl := hid found hfound
    rcases hrun : w.store.createRun found.id x.stamp with ⟨started, store⟩
    cases started with
    | error refusal => simp [Task.alone, Task.turn, hfound, hrun, hstamp]
    | ok run =>
      simp only [Task.alone, Task.turn, hfound, hrun, hstamp, Outside.ending?, hsettings, hmachine,
        Option.map_map]
      -- Both execute the same source from the same machine, whatever comes of it.
      generalize execute _ _ _ _ = result
      cases result with
      | none => rfl
      | some result =>
        obtain ⟨e, m⟩ := result
        simp only [Option.map_some, Function.comp, Store.next, Store.apply]
        generalize (if m.interruption.isSome then Run.Ending.cancelled else e.ending) = ending
        obtain ⟨finished, store'⟩ := store.finishRun found.id run.id ending x.stamp.time
        cases finished with
        | error refusal => rfl
        | ok =>
          dsimp only
          cases store'.getRun found.id run.id with
          | error refusal => rfl
          | ok run' => rfl

end

/-! ## One turn

A turn is one call to the store. What it may do is said once, case by case, so that each invariant below has
to look at these cases only. -/

/-- What a turn does. A request that is refused ends and leaves everything as it is. -/
inductive Turns (o : Outside) (w : Shared) : Task → Shared → Option Task → Prop where
  | refused {t : Task} : Turns o w t w none
  | read {surface : Surface} {script : Text} {found : Script}
      (hfound : w.store.scripts.get? script = some found) :
      Turns o w (.read surface script) w
        (some (.record surface script found w.journal.versions.length))
  | record {surface : Surface} {script : Text} {found : Script} {readAt : Nat} {owner : Script}
      {l : Launch} {rest : Task} (howner : w.store.scripts.get? script = some owner)
      (hl : l = ⟨{ id := o.stamp.token, script := script, revision := owner.revision,
                   started := o.stamp.time }, found, readAt, w.journal.versions.length⟩)
      (hrest : rest = .register l ∨ rest = .execute .call l) :
      Turns o w (.record surface script found readAt)
        { w with
          store := w.store.next (.createRun script o.stamp)
          journal := { w.journal with recorded := o.stamp.token :: w.journal.recorded } }
        (some rest)
  | register {l : Launch} :
      Turns o w (.register l)
        { w with
          cancels := l.run.id :: w.cancels
          journal := { w.journal with registered := l.run.id :: w.journal.registered } }
        (some (.start l))
  | start {l : Launch} : Turns o w (.start l) w (some (.execute .request l))
  | execute {surface : Surface} {l : Launch} {ending : Run.Ending}
      (hending : o.ending? w l surface = some ending) :
      Turns o w (.execute surface l)
        { w with journal := { w.journal with executed := l :: w.journal.executed } }
        (some (.conclude surface l ending))
  | conclude {surface : Surface} {l : Launch} {ending : Run.Ending} {rest : Option Task}
      (hrest : rest = some (.release l) ∨ rest = none) :
      Turns o w (.conclude surface l ending)
        { w with store := w.store.next (.finishRun l.script.id l.run.id ending o.stamp.time) } rest
  | release {l : Launch} :
      Turns o w (.release l)
        { w.signal l.run.id with cancels := w.cancels.filter (· ≠ l.run.id) } none
  | cancel {script id : Text} {run : Run} (hrun : w.store.run? script id = some run)
      (hactive : run.state = .active) :
      Turns o w (.cancel script id)
        { w with
          store := w.store.next (.finishRun script id .cancelled o.stamp.time)
          journal := { w.journal with granted := id :: w.journal.granted } }
        (some (.signal script id))
  | signal {script run : Text} {late : Bool} (hlate : late = decide (run ∈ w.journal.registered)) :
      Turns o w (.signal script run)
        { w.signal run with
          journal := { w.journal with lookups := (run, late) :: w.journal.lookups } }
        (some (.confirm script run late))
  | confirm {script id : Text} {late : Bool} {run : Run} (hrun : w.store.run? script id = some run) :
      Turns o w (.confirm script id late)
        { w with journal := { w.journal with answered := (id, late) :: w.journal.answered } } none

/-- Every turn of a task is one of these cases. -/
theorem turns_of_turn {o : Outside} {w w' : Shared} {t : Task} {rest : Option Task}
    (h : t.turn o w = some (w', rest)) : Turns o w t w' rest := by
  cases t with
  | read surface script =>
    unfold Task.turn at h
    dsimp only at h
    split at h
    · cases h
      exact .refused
    · next found hfound =>
      cases h
      exact .read (Store.getScript_eq_ok.mp hfound)
  -- A run is recorded under the script of that moment, which need not be `found`.
  | record surface script found readAt =>
    unfold Task.turn at h
    dsimp only at h
    split at h
    · next refusal store hrefused =>
      obtain rfl := Store.createRun_refused hrefused
      cases h
      exact .refused
    · next run store hcreate =>
      have howner : ∃ owner, w.store.scripts.get? script = some owner ∧
          run = { id := o.stamp.token, script := script, revision := owner.revision,
                  started := o.stamp.time } := by
        cases Store.changes_of_createRun hcreate with
        | createRun howner hrun => exact ⟨_, howner, hrun⟩
      obtain ⟨owner, howner, rfl⟩ := howner
      obtain rfl := Store.next_of_createRun hcreate
      cases h
      refine .record howner rfl ?_
      cases surface with
      | request => exact .inl rfl
      | call => exact .inr rfl
  | register l =>
    cases h
    exact .register
  | start l =>
    cases h
    exact .start
  | execute surface l =>
    obtain ⟨ending, hending, hend⟩ := Option.map_eq_some_iff.mp h
    cases hend
    exact .execute hending
  | conclude surface l ending =>
    cases h
    refine .conclude ?_
    cases surface with
    | request => exact .inl rfl
    | call => exact .inr rfl
  | release l =>
    cases h
    exact .release
  | cancel script run =>
    unfold Task.turn at h
    dsimp only at h
    split at h
    · next refusal store hrefused =>
      obtain rfl := Store.finishRun_refused hrefused
      cases h
      exact .refused
    · next store hfinish =>
      -- A run that was finished was stored and active.
      have hfound : ∃ found, w.store.run? script run = some found ∧ found.state = .active := by
        cases Store.changes_of_finishRun hfinish with
        | finishRun hrun hactive => exact ⟨_, hrun, hactive⟩
      obtain ⟨found, hrun, hactive⟩ := hfound
      obtain rfl := Store.next_of_finishRun hfinish
      cases h
      exact .cancel hrun hactive
  | signal script run =>
    cases h
    exact .signal rfl
  | confirm script run late =>
    unfold Task.turn at h
    dsimp only at h
    split at h
    · cases h
      exact .refused
    · next found hfound =>
      cases h
      exact .confirm (Store.getRun_eq_ok.mp hfound)

/-! ## What the others leave alone

Between two calls of a task anything may happen, but some facts stay: versions are only added, and what was
recorded stays on record. -/

/-- What holds between two moments, whatever was done in between: the journal has only grown, and a
recorded run is the one that it was, or is gone. -/
structure Later (w w' : Shared) : Prop where
  versions : w.journal.versions <+: w'.journal.versions
  recorded : w.journal.recorded ⊆ w'.journal.recorded
  executed : w.journal.executed ⊆ w'.journal.executed
  granted : w.journal.granted ⊆ w'.journal.granted
  lookups : w.journal.lookups ⊆ w'.journal.lookups
  runs : ∀ script id run, id ∈ w.journal.recorded → w'.store.run? script id = some run →
    ∃ old, w.store.run? script id = some old ∧ run.revision = old.revision ∧
      (old.state ≠ .active → run = old)

section

variable {o : Outside} {w w' : Shared} {t : Task} {rest : Option Task}

/-- No edit starts a run. -/
theorem Edit.operation_ne_createRun (e : Edit) (owner : Text) (stamp : Stamp) :
    e.operation ≠ .createRun owner stamp := by
  cases e <;> exact nofun

/-- An edit leaves a later world. -/
theorem later_edit (w : Shared) (e : Edit) : Later w (w.edit e) where
  versions := List.prefix_append _ _
  recorded := List.Subset.refl _
  executed := List.Subset.refl _
  granted := List.Subset.refl _
  lookups := List.Subset.refl _
  runs _ _ _ _ hrun :=
    Store.run?_of_next hrun fun owner stamp hop => absurd hop (e.operation_ne_createRun owner stamp)

/-- A turn leaves a later world if the id that it draws is new. -/
theorem Turns.later (hfresh : o.stamp.token ∉ w.journal.recorded) (h : Turns o w t w' rest) :
    Later w w' := by
  have hsame : ∀ script id run, w.store.run? script id = some run →
      ∃ old, w.store.run? script id = some old ∧ run.revision = old.revision ∧
        (old.state ≠ .active → run = old) := fun _ _ run hrun => ⟨run, hrun, rfl, fun _ => rfl⟩
  -- Neither the end of a run nor a fresh one touches the runs that are recorded.
  have hfinish : ∀ owner other ending time script id run,
      (w.store.next (.finishRun owner other ending time)).run? script id = some run →
      ∃ old, w.store.run? script id = some old ∧ run.revision = old.revision ∧
        (old.state ≠ .active → run = old) :=
    fun _ _ _ _ _ _ _ hrun => Store.run?_of_next hrun fun _ _ hop => nomatch hop
  have hrefl {α : Type} (l : List α) : l ⊆ l := List.Subset.refl l
  have hcons {α : Type} (a : α) (l : List α) : l ⊆ a :: l := List.subset_cons_self a l
  cases h with
  | record howner hl hrest =>
    refine ⟨List.prefix_rfl, hcons _ _, hrefl _, hrefl _, hrefl _, fun script id run hid hrun => ?_⟩
    refine Store.run?_of_next hrun fun owner stamp hop heq => hfresh ?_
    obtain ⟨-, rfl⟩ := Store.Operation.createRun.inj hop
    rw [heq]
    exact hid
  | conclude hrest =>
    exact ⟨List.prefix_rfl, hrefl _, hrefl _, hrefl _, hrefl _,
      fun script id run _ hrun => hfinish _ _ _ _ script id run hrun⟩
  | cancel hrun hactive =>
    exact ⟨List.prefix_rfl, hrefl _, hrefl _, hcons _ _, hrefl _,
      fun script id run _ hrun => hfinish _ _ _ _ script id run hrun⟩
  | execute hending =>
    exact ⟨List.prefix_rfl, hrefl _, hcons _ _, hrefl _, hrefl _,
      fun script id run _ hrun => hsame script id run hrun⟩
  | signal hlate =>
    exact ⟨List.prefix_rfl, hrefl _, hrefl _, hrefl _, hcons _ _,
      fun script id run _ hrun => hsame script id run hrun⟩
  | refused | read | register | start | release | confirm =>
    exact ⟨List.prefix_rfl, hrefl _, hrefl _, hrefl _, hrefl _,
      fun script id run _ hrun => hsame script id run hrun⟩

end

/-! ## All interleavings

An invariant is one of the world together with one of each task that is under way. If single turns keep
both, all interleavings do. -/

/-- An assertion about what is shared, and one about each task that the turns of the others leave valid. -/
structure Stable (I : Shared → Prop) (T : Shared → Task → Prop) : Prop where
  start : I {}
  read : ∀ w surface script, I w → T w (.read surface script)
  cancel : ∀ w script run, I w → T w (.cancel script run)
  edit : ∀ w e, I w → I (w.edit e)
  turn : ∀ o w t w' rest, o.stamp.token ∉ w.journal.recorded → I w → T w t →
    Turns o w t w' rest → I w' ∧ ∀ u ∈ rest, T w' u
  later : ∀ w w' t, Later w w' → T w t → T w' t

/-- What an assertion about every task says of a world. -/
def World.Satisfies (w : World) (I : Shared → Prop) (T : Shared → Task → Prop) : Prop :=
  I w.shared ∧ ∀ t ∈ w.tasks, T w.shared t

/-- What a turn of the i-th task does to a world. -/
theorem World.move_turn {w w' : World} {i : Nat} {o : Outside} (h : w.move (.turn i o) = some w') :
    ∃ before t after rest, w.tasks = before ++ t :: after ∧ w'.tasks = before ++ rest.toList ++ after ∧
      o.stamp.token ∉ w.shared.journal.recorded ∧ Turns o w.shared t w'.shared rest := by
  unfold World.move at h
  dsimp only at h
  split at h
  · exact nomatch h
  · next t ht =>
    split at h
    · exact nomatch h
    -- a turn with a stamp that was used before is no move
    · next hfresh =>
      obtain ⟨⟨shared, rest⟩, hturn, rfl⟩ := Option.map_eq_some_iff.mp h
      obtain ⟨hlt, rfl⟩ := List.getElem?_eq_some_iff.mp ht
      refine ⟨w.tasks.take i, _, w.tasks.drop (i + 1), rest, ?_, rfl, hfresh, turns_of_turn hturn⟩
      rw [List.getElem_cons_drop, List.take_append_drop]

variable {I : Shared → Prop} {T : Shared → Task → Prop}

/-- One move keeps stable assertions. -/
theorem Stable.move (h : Stable I T) {w w' : World} {m : Move} (hw : w.Satisfies I T)
    (hm : w.move m = some w') : w'.Satisfies I T := by
  obtain ⟨hshared, htasks⟩ := hw
  -- A task that arrives changes nothing that is shared.
  have harrive : ∀ u, T w.shared u → World.Satisfies { w with tasks := w.tasks ++ [u] } I T := by
    intro u hu
    refine ⟨hshared, fun t ht => ?_⟩
    obtain ht | ht := List.mem_append.mp ht
    · exact htasks t ht
    · obtain rfl := List.mem_singleton.mp ht
      exact hu
  cases m with
  | edit e =>
    cases hm
    exact ⟨h.edit _ e hshared, fun t ht => h.later _ _ t (later_edit _ e) (htasks t ht)⟩
  | createRun | runScript =>
    cases hm
    exact harrive _ (h.read _ _ _ hshared)
  | cancelRun script run =>
    cases hm
    exact harrive _ (h.cancel _ _ _ hshared)
  | turn i o =>
    obtain ⟨before, t, after, rest, hbefore, hafter, hfresh, hturns⟩ := World.move_turn hm
    rw [hbefore] at htasks
    have ht := htasks t (by simp)
    obtain ⟨hshared', hrest⟩ := h.turn o _ t _ rest hfresh hshared ht hturns
    refine ⟨hshared', fun u hu => ?_⟩
    rw [hafter] at hu
    -- the tasks before it, what is left of it, and the tasks behind it
    obtain hu | hu := List.mem_append.mp hu
    · obtain hu | hu := List.mem_append.mp hu
      · exact h.later _ _ u (hturns.later hfresh) (htasks u (List.mem_append_left _ hu))
      · exact hrest u (Option.mem_toList.mp hu)
    · refine h.later _ _ u (hturns.later hfresh) (htasks u ?_)
      exact List.mem_append_right _ (List.mem_cons_of_mem _ hu)

/-- What holds at the start and after every move holds in every interleaving. -/
theorem reachable_induction {P : World → Prop} (start : P {})
    (move : ∀ w m w', Reachable w → P w → w.move m = some w' → P w') {w : World} (h : Reachable w) :
    P w := by
  obtain ⟨moves, hplay⟩ := h
  -- The induction is on the moves from the end, since it is the last one that leads to the world.
  induction moves using List.reverseRecOn generalizing w with
  | nil =>
    obtain rfl := Option.some.inj hplay
    exact start
  | append_singleton moves m ih =>
    rw [World.play, List.foldlM_append] at hplay
    obtain ⟨w₁, hearlier, hlast⟩ := Option.bind_eq_some_iff.mp hplay
    rw [List.foldlM_cons] at hlast
    obtain ⟨w₂, hm, hend⟩ := Option.bind_eq_some_iff.mp hlast
    obtain rfl := Option.some.inj hend
    exact move w₁ m w₂ ⟨moves, hearlier⟩ (ih hearlier) hm

/-- Stable assertions hold in every interleaving. -/
theorem Stable.reachable (h : Stable I T) {w : World} (hw : Reachable w) : w.Satisfies I T := by
  refine reachable_induction ?_ (fun w m w' _ hw hm => h.move hw hm) hw
  exact ⟨h.start, fun t ht => absurd ht List.not_mem_nil⟩

end Mundart.Interleaving
