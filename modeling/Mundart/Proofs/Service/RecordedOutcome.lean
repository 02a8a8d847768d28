import Mundart.Proofs.Run.StepLimit
import Mundart.Proofs.Service.ExecutedRevision
import Mundart.Proofs.Store.Lifecycle

/-!
# What the record of a run tells

A run that nobody disturbs is recorded with the outcome of its execution. One thing is lost on the way: a
run that failed is recorded without the number of its statements.

* **`executeWithin_inTime`** — an execution that had time enough is the plain one;
* **`Run.reports_finish`** — what is recorded of an execution;
* **`Carried`**, **`carried_of_reachable`** — no run is carried out twice, and until its end is recorded
  only a granted cancellation ends it;
* **`recorded_outcome`** — what the record tells, in every interleaving;
* **`recorded_without_steps`** — a failed run that has counted statements, and its record that has none.
-/

namespace Mundart

/-! ## Executions in time

An execution may be stopped at any point by a cancellation. What it would have done otherwise is fixed when
it starts. -/

section

variable {fuel : Nat} {s : Settings} {source : Text} {m m' : Machine} {e : Execution}

/-- An execution that does not end at its limit is the same under a larger one and under none. -/
theorem execute_loosened
    (hfetch : ∀ i url max, (s.fetcher i url).result ≠ .error (.stepLimit max)) {n k : Int} (hn : 0 < n)
    (hlt : n < k ∨ k ≤ 0) (h : execute fuel { s with maxSteps := n } source m = some (e, m'))
    (hkind : ∀ r, e.error = some r → r.kind ≠ some .stepLimit) :
    execute fuel { s with maxSteps := k } source m = some (e, m') := by
  obtain ⟨⟨answer, m₁⟩, heval, hend⟩ := Option.map_eq_some_iff.mp h
  obtain ⟨rfl, rfl⟩ := Prod.mk.inj hend
  unfold execute
  unfold Session.eval at heval ⊢
  cases hparse : Program.parse source with
  -- A source that does not parse is answered before a statement is counted.
  | error err =>
    rw [hparse] at heval
    obtain ⟨rfl, rfl⟩ := Prod.mk.inj (Option.some.inj heval)
    rfl
  | ok program =>
    rw [hparse] at heval
    obtain ⟨⟨r, m₂⟩, hrun, hend⟩ := Option.map_eq_some_iff.mp heval
    obtain ⟨rfl, rfl⟩ := Prod.mk.inj hend
    -- The limit did not stop the run, or its report would be the error.
    have hstop : ∀ max, r.stop ≠ some (.stepLimit max) := by
      intro max hmax
      have herror : (Execution.ofAnswer (.ok r)).error = some (Stop.stepLimit max).report := by
        show r.stop.map Stop.report = _
        rw [hmax]
        rfl
      exact hkind _ herror rfl
    have hloosened := runProgram_loosened (s := { s with writeLimit := none }) hfetch hn hlt hrun hstop
    dsimp only
    rw [hloosened]
    rfl

/-- An execution that had time enough is the plain one. -/
theorem executeWithin_inTime
    (hfetch : ∀ i url max, (s.fetcher i url).result ≠ .error (.stepLimit max)) {time : Option Nat}
    (h : executeWithin fuel time s source m = some (e, m'))
    (hin : e.error ≠ some (Stop.cancelled .deadline).report) : execute fuel s source m = some (e, m') := by
  unfold executeWithin at h
  split at h
  · exact h
  · next n =>
    split at h
    · exact h
    · next hlimit =>
      obtain ⟨⟨e₁, m₁⟩, hexec, hend⟩ := Option.map_eq_some_iff.mp h
      obtain ⟨rfl, rfl⟩ := Prod.mk.inj hend
      -- The bound that stands for the time was not reached, or the deadline would be told.
      have hkind : ∀ r, e₁.error = some r → r.kind ≠ some .stepLimit := by
        intro r hr hkind
        refine hin ?_
        unfold Execution.outOfTime
        rw [hr]
        dsimp only
        rw [if_pos hkind]
      have hsame : e₁.outOfTime = e₁ := by
        unfold Execution.outOfTime
        split
        · next r hr => rw [if_neg (hkind r hr)]
        · rfl
      rw [hsame]
      simp only [Bool.and_eq_true, decide_eq_true_eq, not_and, Int.not_le] at hlimit
      rcases Int.lt_trichotomy s.maxSteps (max 1 n : Nat) with hless | hequal | hmore
      · exact execute_loosened hfetch (by omega) (by omega) hexec hkind
      · rw [← hequal] at hexec
        exact hexec
      · exact execute_loosened hfetch (by omega) (by omega) hexec hkind

end

/-! ## Records

What is recorded of an execution that has ended, and in which fields it differs from what the execution has
told. -/

/-- What the record of a finished run tells about an execution: its output and its diagnostics, and the
error if there is one. The statements are told only if there is none. -/
structure Run.Reports (run : Run) (e : Execution) : Prop where
  output : run.output = e.output
  diagnostics : run.diagnostics = e.diagnostics
  error : run.error = e.error.map fun r => ⟨r.message, r.kindName⟩
  failed : run.state = .failed ↔ e.error ≠ none
  succeeded : run.state = .succeeded ↔ e.error = none
  steps : run.steps = if e.error.isSome then 0 else e.steps

/-- An active run that is finished with an execution. -/
theorem Run.reports_finish {run : Run} (hrun : run.Proper) (hactive : run.state = .active) (e : Execution)
    (now : Instant) : (run.finish e.ending now).Reports e := by
  -- An active run shows neither an error nor statements, so the record starts from nothing.
  have hnone : run.error = none := by
    by_contra hsome
    exact absurd (hactive.symm.trans (hrun.error.mp hsome)) (by decide)
  have hsteps : run.steps = 0 := by
    by_contra hsome
    rcases hrun.traces (.inr (.inr hsome)) with hstate | hstate
    · exact absurd (hactive.symm.trans hstate) (by decide)
    · exact absurd (hactive.symm.trans hstate) (by decide)
  unfold Execution.ending
  cases herror : e.error with
  | none =>
    constructor
    · rfl
    · rfl
    · rw [herror]
      exact hnone
    · simp [Run.finish, herror]
    · simp [Run.finish, herror]
    · simp [Run.finish, herror]
  | some r =>
    constructor
    · rfl
    · rfl
    · rw [herror]
      rfl
    · simp [Run.finish, herror]
    · simp [Run.finish, herror]
    · simp [Run.finish, herror, hsteps]

namespace Interleaving

/-! ## Runs that are carried out

A run is carried out if it was launched, executed, and nobody else has finished it. The invariant follows it
through all turns of all tasks. -/

/-- The run that a task still has to carry out or to record. -/
def Task.launch? : Task → Option Launch
  | .register l | .start l | .execute _ l | .conclude _ l _ => some l
  | _ => none

/-- The ids of the runs that are carried out. -/
def World.launched (w : World) : List Text :=
  w.tasks.filterMap fun t => t.launch?.map fun l => l.run.id

/-- No two tasks carry out the same run, and as long as it is not recorded how a run ended it is active,
unless its cancellation was granted. -/
structure Carried (w : World) : Prop where
  single : w.launched.Nodup
  active : ∀ t ∈ w.tasks, ∀ l, t.launch? = some l → ∀ run,
    w.shared.store.run? l.run.script l.run.id = some run →
    run.state = .active ∨ l.run.id ∈ w.shared.journal.granted

/-- The launch of a task under way is on record. -/
theorem Task.Informed.recorded {w : Shared} {t : Task} {l : Launch} (h : t.Informed w)
    (hl : t.launch? = some l) : l.Recorded w := by
  cases t with
  | register | start | execute | conclude =>
    obtain rfl := Option.some.inj hl
    exact h
  | read | record | release | cancel | signal | confirm => exact nomatch hl

/-- Everything that was launched is. -/
theorem recorded_of_mem_launched {w : World} (h : w.Satisfies Versioned fun w t => t.Informed w) {id : Text}
    (hid : id ∈ w.launched) : id ∈ w.shared.journal.recorded := by
  obtain ⟨t, ht, hlaunch⟩ := List.mem_filterMap.mp hid
  obtain ⟨l, hl, rfl⟩ := Option.map_eq_some_iff.mp hlaunch
  exact ((h.2 t ht).recorded hl).known

/-- A turn begins a run with a fresh id, hands it on, or records its end. -/
theorem nodup_launched_turn {w w' : World} {before after : List Task} {t : Task} {rest : Option Task}
    {o : Outside} (hsat : w.Satisfies Versioned fun w t => t.Informed w)
    (hbefore : w.tasks = before ++ [t] ++ after) (hafter : w'.tasks = before ++ rest.toList ++ after)
    (hfresh : o.stamp.token ∉ w.shared.journal.recorded) (hturns : Turns o w.shared t w'.shared rest)
    (hnodup : w.launched.Nodup) : w'.launched.Nodup := by
  have hrecorded : ∀ id ∈ w.launched, id ∈ w.shared.journal.recorded :=
    fun id hid => recorded_of_mem_launched hsat hid
  unfold World.launched at hnodup hrecorded ⊢
  rw [hbefore, List.filterMap_append, List.filterMap_append] at hnodup hrecorded
  rw [hafter, List.filterMap_append, List.filterMap_append]
  generalize before.filterMap _ = earlier at hnodup hrecorded ⊢
  generalize after.filterMap _ = later at hnodup hrecorded ⊢
  -- The launch of the task goes, or stays, or a fresh one takes its place. The launches around it stay.
  have hdropped : (earlier ++ [] ++ later).Nodup := by
    refine hnodup.sublist ?_
    rw [List.append_nil]
    exact List.Sublist.append_right (List.sublist_append_left _ _) later
  obtain ⟨shared', tasks'⟩ := w'
  dsimp only at hturns
  cases hturns with
  | record howner hl hrest =>
    subst hl
    have hnew : (earlier ++ [o.stamp.token] ++ later).Nodup := by
      rw [List.append_assoc]
      refine List.nodup_middle.mpr (List.nodup_cons.mpr ⟨fun hid => hfresh (hrecorded _ ?_), ?_⟩)
      · simpa [Task.launch?] using hid
      · simpa [Task.launch?] using hnodup
    obtain rfl | rfl := hrest
    · exact hnew
    · exact hnew
  | conclude hrest =>
    obtain rfl | rfl := hrest
    · exact hdropped
    · exact hdropped
  | refused => exact hdropped
  | read | register | start | execute | release | cancel | signal | confirm => exact hnodup

/-- A stored run is the one that it was, or its cancellation was granted, or this very turn has recorded it
or its end. -/
theorem Turns.kept {o : Outside} {w w' : Shared} {t : Task} {rest : Option Task}
    (h : Turns o w t w' rest) {script id : Text} {run : Run} (hrun : w'.store.run? script id = some run) :
    w.store.run? script id = some run ∨ id ∈ w'.journal.granted ∨
      (id = o.stamp.token ∧ run.state = .active) ∨ ∃ surface l ending, t = .conclude surface l ending ∧
        id = l.run.id := by
  cases h with
  -- Three turns touch the runs of the store: this one files a run, and two others finish one.
  | record howner hl hrest =>
    rcases Store.run?_next_cases hrun with hkept | ⟨stamp, owner, hop, hid, -, -, rfl⟩ | ⟨_, _, _, hop, -⟩
    · exact .inl hkept
    · obtain ⟨-, rfl⟩ := Store.Operation.createRun.inj hop
      exact .inr (.inr (.inl ⟨hid, rfl⟩))
    · exact nomatch hop
  | @conclude surface l ending _ hrest =>
    rcases Store.run?_next_cases hrun with hkept | ⟨_, _, hop, -⟩ | ⟨_, _, _, hop, -⟩
    · exact .inl hkept
    · exact nomatch hop
    · obtain ⟨-, rfl, -⟩ := Store.Operation.finishRun.inj hop
      exact .inr (.inr (.inr ⟨surface, l, ending, rfl, rfl⟩))
  | cancel hfound hactive =>
    rcases Store.run?_next_cases hrun with hkept | ⟨_, _, hop, -⟩ | ⟨_, _, _, hop, -⟩
    · exact .inl hkept
    · exact nomatch hop
    · obtain ⟨-, rfl, -⟩ := Store.Operation.finishRun.inj hop
      exact .inr (.inl List.mem_cons_self)
  | refused | read | register | start | execute | release | signal | confirm => exact .inl hrun

/-- The run that is left to a task was its own before the turn, or it was recorded just now. -/
theorem Turns.launch {o : Outside} {w w' : Shared} {t u : Task} (h : Turns o w t w' (some u)) {l : Launch}
    (hl : u.launch? = some l) :
    (t.launch? = some l ∧ w'.store = w.store) ∨
      ∀ run, w'.store.run? l.run.script l.run.id = some run → run.state = .active := by
  -- Only one turn hands a run to a task that had none: the one that records it.
  generalize hrest : some u = rest at h
  cases h with
  | @record surface script found readAt owner l' _ howner hlaunch hnext =>
    obtain rfl := Option.some.inj hrest
    have hsame : l = l' := by
      obtain rfl | rfl := hnext
      all_goals exact (Option.some.inj hl).symm
    subst hsame hlaunch
    refine .inr fun run hrun => ?_
    have hfound := Store.run?_next_createRun (Store.createRun_of_owner howner o.stamp)
    obtain rfl := Option.some.inj (hfound.symm.trans hrun)
    rfl
  | register | start | execute =>
    obtain rfl := Option.some.inj hrest
    exact .inl ⟨hl, rfl⟩
  | conclude hnext =>
    obtain rfl | rfl := hnext
    · obtain rfl := Option.some.inj hrest
      exact nomatch hl
    · exact nomatch hrest
  | read | cancel | signal =>
    obtain rfl := Option.some.inj hrest
    exact nomatch hl
  | refused | release | confirm => exact nomatch hrest

/-- The turn of any task keeps it, whichever task it is. -/
theorem Carried.turn {w w' : World} {before after : List Task} {t : Task} {rest : Option Task}
    {o : Outside} (h : Carried w) (hsat : w.Satisfies Versioned fun w t => t.Informed w)
    (hbefore : w.tasks = before ++ [t] ++ after) (hafter : w'.tasks = before ++ rest.toList ++ after)
    (hfresh : o.stamp.token ∉ w.shared.journal.recorded) (hturns : Turns o w.shared t w'.shared rest) :
    Carried w' := by
  have hlater := hturns.later hfresh
  have hmem : t ∈ w.tasks := by
    rw [hbefore]
    simp
  refine ⟨nodup_launched_turn hsat hbefore hafter hfresh hturns h.single, fun u hu l hl run hrun => ?_⟩
  have hold : ∀ v ∈ w.tasks, v.launch? = some l → w.shared.store.run? l.run.script l.run.id = some run →
      run.state = .active ∨ l.run.id ∈ w'.shared.journal.granted := by
    intro v hv hlaunch hkept
    exact (h.active v hv l hlaunch run hkept).imp_right fun hid => hlater.granted hid
  have hplace : u ∈ rest ∨ u ∈ before ++ after := by
    rw [hafter] at hu
    simp only [List.mem_append, Option.mem_toList] at hu ⊢
    tauto
  rcases hplace with hrest | hother
  · obtain rfl : rest = some u := hrest
    rcases hturns.launch hl with ⟨hlaunch, hstore⟩ | hactive
    · exact hold t hmem hlaunch (hstore ▸ hrun)
    · exact .inl (hactive run hrun)
  · have hu' : u ∈ w.tasks := by
      rw [hbefore]
      simp only [List.mem_append] at hother ⊢
      tauto
    rcases hturns.kept hrun with hkept | hgranted | ⟨-, hactive⟩ | ⟨surface, l', ending, rfl, hid⟩
    · exact hold u hu' hl hkept
    · exact .inr hgranted
    · exact .inl hactive
    -- The run whose end was recorded is no other task's.
    · have hsplit : w.launched = before.filterMap (fun t => t.launch?.map fun l => l.run.id) ++
          l'.run.id :: after.filterMap (fun t => t.launch?.map fun l => l.run.id) := by
        rw [World.launched, hbefore]
        simp [Task.launch?]
      have hnodup := h.single
      rw [hsplit, List.nodup_middle, List.nodup_cons, ← List.filterMap_append, ← hid] at hnodup
      exact absurd (List.mem_filterMap.mpr ⟨u, hother, by rw [hl]; rfl⟩) hnodup.1

/-- In every interleaving a run is carried out once. -/
theorem carried_of_reachable {w : World} (h : Reachable w) : Carried w := by
  refine reachable_induction ⟨List.nodup_nil, fun t ht => absurd ht List.not_mem_nil⟩
    (fun w m w' hw hcarried hm => ?_) h
  -- A request that arrives has no run yet.
  have harrive : ∀ u : Task, u.launch? = none → Carried { w with tasks := w.tasks ++ [u] } := by
    intro u hu
    refine ⟨?_, fun t ht l hl => ?_⟩
    · rw [World.launched, List.filterMap_append, List.filterMap_cons_none (by rw [hu]; rfl),
        List.filterMap_nil, List.append_nil]
      exact hcarried.single
    · obtain ht | ht := List.mem_append.mp ht
      · exact hcarried.active t ht l hl
      · obtain rfl := List.mem_singleton.mp ht
        rw [hu] at hl
        exact nomatch hl
  cases m with
  | edit e =>
    cases hm
    refine ⟨hcarried.single, fun t ht l hl run hrun => ?_⟩
    -- An edit neither records a run nor finishes one.
    rcases Store.run?_next_cases hrun with hkept | ⟨stamp, _, hop, -⟩ | ⟨_, _, _, hop, -⟩
    · exact hcarried.active t ht l hl run hkept
    · exact absurd hop (e.operation_ne_createRun _ stamp)
    · cases e <;> exact nomatch hop
  | createRun | runScript | cancelRun =>
    cases hm
    exact harrive _ rfl
  | turn i o =>
    obtain ⟨before, t, after, rest, hbefore, hafter, hfresh, hturns⟩ := World.move_turn hm
    rw [List.append_cons] at hbefore
    exact hcarried.turn (stable_versioned.reachable hw) hbefore hafter hfresh hturns

/-! ## Recorded outcomes

For every interleaving: the record of a run is the outcome of its execution, but for what the two calls that
finish runs treat differently. -/

/-- Nobody cancels the execution of a run, and it has time enough. -/
def Outside.Undisturbed (o : Outside) (w : Shared) (l : Launch) : Surface → Prop
  | .request => l.run.id ∉ w.cancelled ∧ ∀ e m,
      executeWithin o.fuel o.time o.settings l.script.source { o.machine with interruption := none } =
        some (e, m) → e.error ≠ some (Stop.cancelled .deadline).report
  | .call => o.machine.interruption = none ∧ ∀ e m,
      execute o.fuel o.settings l.script.source o.machine = some (e, m) → m.interruption = none

/-- What is recorded of an undisturbed execution is its outcome. -/
theorem Outside.Undisturbed.ending {o : Outside} {w : Shared} {l : Launch} {surface : Surface}
    {ending : Run.Ending} (h : o.Undisturbed w l surface)
    (hfetch : ∀ n url max, (o.settings.fetcher n url).result ≠ .error (.stepLimit max))
    (hending : o.ending? w l surface = some ending) :
    ∃ e m, execute o.fuel o.settings l.script.source { o.machine with interruption := none } =
      some (e, m) ∧ ending = e.ending := by
  cases surface with
  -- A request is executed in the context of the run, which nobody has cancelled and which runs in time.
  | request =>
    obtain ⟨hcancelled, htime⟩ := h
    unfold Outside.ending? at hending
    dsimp only at hending
    rw [if_neg hcancelled] at hending
    obtain ⟨⟨e, m⟩, hexec, rfl⟩ := Option.map_eq_some_iff.mp hending
    exact ⟨e, m, executeWithin_inTime hfetch hexec (htime e m hexec), rfl⟩
  -- A call is executed in the caller's context, which is not interrupted before its end.
  | call =>
    obtain ⟨hstart, hend⟩ := h
    obtain ⟨⟨e, m⟩, hexec, rfl⟩ := Option.map_eq_some_iff.mp hending
    have hmachine : ({ o.machine with interruption := none } : Machine) = o.machine := by
      rw [← hstart]
    refine ⟨e, m, hmachine ▸ hexec, ?_⟩
    dsimp only
    rw [hend e m hexec]
    rfl

/-- What a turn of a certain task does to a world. -/
theorem World.move_at {w w' : World} {i : Nat} {o : Outside} {t : Task} (ht : w.tasks[i]? = some t)
    (h : w.move (.turn i o) = some w') :
    ∃ rest, t.turn o w.shared = some (w'.shared, rest) ∧
      ∀ u, rest = some u → w'.tasks[i]? = some u := by
  unfold World.move at h
  dsimp only at h
  rw [ht] at h
  dsimp only at h
  split at h
  · exact nomatch h
  · obtain ⟨⟨shared, rest⟩, hturn, rfl⟩ := Option.map_eq_some_iff.mp h
    refine ⟨rest, hturn, fun u hu => ?_⟩
    subst hu
    obtain ⟨hlt, -⟩ := List.getElem?_eq_some_iff.mp ht
    have hlength : (w.tasks.take i).length = i := List.length_take_of_le (Nat.le_of_lt hlt)
    show (w.tasks.take i ++ [u] ++ w.tasks.drop (i + 1))[i]? = some u
    rw [List.append_assoc, List.getElem?_append_right (Nat.le_of_eq hlength), hlength, Nat.sub_self]
    rfl

/-- A run is recorded with what was executed. The script that is executed was stored under the id that the
run shows. If nobody disturbs the execution, its outcome is the one of the source alone, and when the end
of the run is recorded, whatever was done by others in between, a run that was neither removed nor
cancelled shows that outcome: the output, the diagnostics, and a failure with the error if there is one and
success otherwise. The statements are shown only with a success. -/
theorem recorded_outcome {w w₁ : World} (h : Reachable w) {i : Nat} {o : Outside} {surface : Surface}
    {l : Launch} (ht : w.tasks[i]? = some (.execute surface l)) (hm : w.move (.turn i o) = some w₁)
    (hfetch : ∀ n url max, (o.settings.fetcher n url).result ≠ .error (.stepLimit max))
    (hundisturbed : o.Undisturbed w.shared l surface) :
    (l.script ∈ w.shared.journal.versions ∧ l.script.id = l.run.script) ∧
    ∃ e m, execute o.fuel o.settings l.script.source { o.machine with interruption := none } = some (e, m) ∧
      w₁.tasks[i]? = some (.conclude surface l e.ending) ∧
      ∀ w₂ w₃ j o', Reachable w₂ → w₂.tasks[j]? = some (.conclude surface l e.ending) →
        w₂.move (.turn j o') = some w₃ → l.run.id ∉ w₂.shared.journal.granted →
        w₂.shared.store.run? l.run.script l.run.id ≠ none →
        ∃ run, w₃.shared.store.run? l.run.script l.run.id = some run ∧ run.Reports e := by
  have hrecorded : l.Recorded w.shared :=
    (stable_versioned.reachable h).2 _ (List.mem_of_getElem? ht)
  obtain ⟨hstored, hid⟩ := mem_of_current? hrecorded.read
  obtain ⟨rest, hturn, hnext⟩ := World.move_at ht hm
  obtain ⟨ending, hending, hend⟩ := Option.map_eq_some_iff.mp hturn
  obtain ⟨-, rfl⟩ := Prod.mk.inj hend
  obtain ⟨e, m, hexec, rfl⟩ := hundisturbed.ending hfetch hending
  refine ⟨⟨List.mem_of_mem_take hstored, hid⟩, e, m, hexec, hnext _ rfl, ?_⟩
  intro w₂ w₃ j o' hw₂ ht₂ hm₂ hgranted hsome
  obtain ⟨run, hrun⟩ := Option.ne_none_iff_exists'.mp hsome
  have hmem := List.mem_of_getElem? ht₂
  -- Only its own task or a cancellation finishes the run, and none was granted.
  have hactive : run.state = .active :=
    ((carried_of_reachable hw₂).active _ hmem l rfl run hrun).resolve_right hgranted
  have hproper : run.Proper := ((stable_versioned.reachable hw₂).1.consistent.of_run? hrun).2.2
  obtain ⟨_, hturn₂, -⟩ := World.move_at ht₂ hm₂
  obtain ⟨hshared, -⟩ := Prod.mk.inj (Option.some.inj hturn₂)
  refine ⟨run.finish e.ending o'.stamp.time, ?_, Run.reports_finish hproper hactive e _⟩
  rw [← hshared, hid]
  exact Store.run?_next_finishRun hrun hactive e.ending o'.stamp.time

/-- A program that never ends by itself. -/
def endlessSource : Text := "geh weida (basst) \x7b heast x = 1 \x7d"

/-- It is saved, and a run of it is asked for, up to the execution. -/
def endless : List Move :=
  [.edit (.create "a" endlessSource "" ⟨0, "0f3"⟩),
    .createRun "a",
    .turn 0 { stamp := ⟨1, "d41"⟩ },
    .turn 0 { stamp := ⟨2, "d41"⟩ },
    .turn 0 { stamp := ⟨3, "5ce"⟩ },
    .turn 0 { stamp := ⟨4, "5ce"⟩ }]

/-- The turn that executes it, under a limit of five statements. -/
def limitedTurn : Outside := { stamp := ⟨5, "5ce"⟩, fuel := 12, settings := { maxSteps := 5 } }

/-- The run of it. -/
def endlessLaunch : Launch :=
  ⟨{ id := "d41", script := "a", revision := ⟨1, "0f3"⟩, started := 2 },
    { id := "a", source := endlessSource, description := "", revision := ⟨1, "0f3"⟩, created := 0
      updated := 0 }, 1, 1⟩

/-- Six statements were counted, and the record of the failed run shows none. -/
theorem recorded_without_steps : ∃ w run e m,
    World.play {} (endless ++ [.turn 0 limitedTurn, .turn 0 { stamp := ⟨6, "5ce"⟩ }]) = some w ∧
    w.shared.store.run? "a" "d41" = some run ∧ run.state = .failed ∧
    execute limitedTurn.fuel limitedTurn.settings endlessSource limitedTurn.machine = some (e, m) ∧
    e.steps = 6 ∧ run.steps = 0 := by
  -- The trace and the execution are evaluated on their own, and joined by what they show.
  have hrecord : ((World.play {} (endless ++ [.turn 0 limitedTurn, .turn 0 { stamp := ⟨6, "5ce"⟩ }])).bind
      fun w => w.shared.store.run? "a" "d41").map (fun run => (run.state, run.steps)) =
        some (.failed, 0) := by decide +kernel
  have hexecution : (execute limitedTurn.fuel limitedTurn.settings endlessSource limitedTurn.machine).map
      (fun x => x.1.steps) = some 6 := by decide +kernel
  obtain ⟨run, hrun, hshown⟩ := Option.map_eq_some_iff.mp hrecord
  obtain ⟨w, hplay, hstored⟩ := Option.bind_eq_some_iff.mp hrun
  obtain ⟨⟨e, m⟩, hexec, hsteps⟩ := Option.map_eq_some_iff.mp hexecution
  obtain ⟨hstate, hnone⟩ := Prod.mk.inj hshown
  exact ⟨w, run, e, m, hplay, hstored, hstate, hexec, hsteps, hnone⟩

/-- One move more is reachable. -/
theorem Reachable.move {w w' : World} (h : Reachable w) {m : Move} (hm : w.move m = some w') :
    Reachable w' := by
  obtain ⟨moves, hplay⟩ := h
  refine ⟨moves ++ [m], ?_⟩
  rw [World.play, List.foldlM_append]
  refine Option.bind_eq_some_iff.mpr ⟨w, hplay, ?_⟩
  rw [List.foldlM_cons]
  exact Option.bind_eq_some_iff.mpr ⟨w', hm, rfl⟩

/-- The record of that run tells its output, its diagnostics and its error. -/
theorem recorded_outcome_endless : ∃ w w₁ w₂ e run, World.play {} endless = some w ∧
    w.move (.turn 0 limitedTurn) = some w₁ ∧ w₁.move (.turn 0 { stamp := ⟨6, "5ce"⟩ }) = some w₂ ∧
    w₂.shared.store.run? "a" "d41" = some run ∧ run.Reports e ∧
    e.error = some (Stop.stepLimit 5).report := by
  -- One evaluation of the trace gives all that the hypotheses ask for.
  have hplay : ((World.play {} endless).bind fun w => (w.move (.turn 0 limitedTurn)).bind fun w₁ =>
      (w₁.move (.turn 0 { stamp := ⟨6, "5ce"⟩ })).map fun _ =>
        (w.tasks, w.shared.cancelled, w₁.shared.journal.granted,
          (w₁.shared.store.run? "a" "d41").isSome)) =
      some ([.execute .request endlessLaunch], [], [], true) := by decide +kernel
  have herror : (execute 12 { maxSteps := 5 } endlessSource {}).map (fun x => x.1.error) =
      some (some (Stop.stepLimit 5).report) := by decide +kernel
  obtain ⟨w, hw, hrest⟩ := Option.bind_eq_some_iff.mp hplay
  obtain ⟨w₁, hw₁, hrest⟩ := Option.bind_eq_some_iff.mp hrest
  obtain ⟨w₂, hw₂, hshown⟩ := Option.map_eq_some_iff.mp hrest
  obtain ⟨htasks, hshown⟩ := Prod.mk.inj hshown
  obtain ⟨hcancelled, hshown⟩ := Prod.mk.inj hshown
  obtain ⟨hgranted, hstored⟩ := Prod.mk.inj hshown
  have hreported : ∀ e m, execute 12 { maxSteps := 5 } endlessSource {} = some (e, m) →
      e.error = some (Stop.stepLimit 5).report := by
    intro e m h
    rw [h] at herror
    exact Option.some.inj herror
  have hundisturbed : limitedTurn.Undisturbed w.shared endlessLaunch .request := by
    refine ⟨by rw [hcancelled]; exact List.not_mem_nil, fun e m h => ?_⟩
    rw [hreported e m h]
    decide
  have hreachable : Reachable w := ⟨endless, hw⟩
  obtain ⟨-, e, m, hexec, hconclude, hrecord⟩ := recorded_outcome (i := 0) hreachable
    (by rw [htasks]; rfl) hw₁ (fun _ _ _ h => nomatch Except.error.inj h) hundisturbed
  obtain ⟨run, hrun, hreports⟩ := hrecord w₁ w₂ 0 _ (hreachable.move hw₁) hconclude hw₂
    (by rw [hgranted]; exact List.not_mem_nil) (Option.isSome_iff_ne_none.mp hstored)
  exact ⟨w, w₁, w₂, e, run, hw, hw₁, hw₂, hrun, hreports, hreported e m hexec⟩

end Interleaving

end Mundart
