import Mundart.Proofs.Store.Consistency

/-!
# The life of a run

A run starts active and is finished at most once, by whoever comes first; what that operation wrote
stays until the script is removed, and then the run is gone for good. Ids of runs are taken to be
fresh: no two starts of a history were given the same one.

* **`run?_next`** — what one operation leaves alone;
* **`run?_after_append`**, **`run?_after_append_none`** — hence what any later operations leave alone;
* **`run_finished_once`** — the whole life of a run.
-/

namespace Mundart.Store

/-- Something that was asked for is not there. -/
def Refusal.NotFound : Refusal → Prop
  | .scriptMissing _ | .runMissing _ => True
  | .scriptExists _ | .runFinished _ _ => False

section

variable {s : Store} {op : Operation} {script id : Text} {run : Run}

/-- A run stays as it is as long as nobody removes its script, finishes it while it is active, or
starts another one under its id. -/
theorem run?_next (hs : s.Consistent) (hrun : s.run? script id = some run)
    (hdelete : op ≠ .deleteScript script) (hfinish : op.Finishes script id → run.state ≠ .active)
    (hstart : startedRun? (op, s.reply op) ≠ some id) : (s.next op).run? script id = some run := by
  rcases next_cases s op with ⟨hsame, -⟩ | ⟨answer, hreply, hchanges⟩
  · rw [hsame]
    exact hrun
  rw [hreply] at hstart
  generalize s.next op = s' at hchanges ⊢
  cases hchanges with
  -- A new script gets an empty shelf, but the script of a stored run is not new.
  | @createScript other _ _ _ _ hnew =>
    have hne : other ≠ script := by
      rintro rfl
      exact (Dict.get?_eq_none_iff _ _).mp hnew (hs.mem_scripts hrun)
    rw [run?_createScript, if_neg hne]
    exact hrun
  | updateScript => exact hrun
  | @deleteScript other =>
    have hne : other ≠ script := by
      rintro rfl
      exact hdelete rfl
    rw [run?_deleteScript, if_neg hne]
    exact hrun
  -- a run under another script or another id
  | @createRun owner stamp _ started =>
    have hne : ¬ (owner = script ∧ started.id = id) := by
      rintro ⟨-, rfl⟩
      exact hstart rfl
    rw [run?_putRun, if_neg hne]
    exact hrun
  -- An operation that finishes this very run finds it active.
  | @finishRun owner other ending time old hold hactive =>
    have hne : ¬ (owner = script ∧ other = id) := by
      rintro ⟨rfl, rfl⟩
      obtain rfl := Option.some.inj (hold.symm.trans hrun)
      exact hfinish ⟨ending, time, rfl⟩ hactive
    rw [run?_putRun, if_neg hne]
    exact hrun

/-- What is not there comes into being only by a start. -/
theorem run?_next_none (hnone : s.run? script id = none)
    (hstart : startedRun? (op, s.reply op) ≠ some id) : (s.next op).run? script id = none := by
  by_contra hsome
  obtain ⟨run, hrun⟩ := Option.ne_none_iff_exists'.mp hsome
  rcases run?_next_cases hrun with hkept | ⟨stamp, owner, rfl, hid, -, hreply, hnew⟩ |
    ⟨ending, time, old, -, hold, -⟩
  · exact nomatch hnone.symm.trans hkept
  · refine hstart ?_
    rw [hreply, hid, hnew]
    rfl
  · exact nomatch hnone.symm.trans hold

/-- Finishing a run that is not there is refused as such. -/
theorem finishRun_of_none (hnone : s.run? script id = none) (ending : Run.Ending) (time : Instant) :
    ∃ refusal, s.finishRun script id ending time = (.error refusal, s) ∧ refusal.NotFound := by
  unfold finishRun getRun
  cases hshelf : s.runs.get? script with
  | none => exact ⟨.scriptMissing script, rfl, trivial⟩
  | some shelf =>
    rw [run?, hshelf] at hnone
    have hget : shelf.get? id = none := hnone
    dsimp only
    rw [hget]
    exact ⟨.runMissing id, rfl, trivial⟩

end

/-! ## Fresh ids

That the ids of runs are new is said of the whole history. So it holds of every part of it, and no id is
taken up again once its script is gone. -/

/-- What was started in a history was started in every longer one, in the same place. -/
theorem runsStarted_append (history later : List Operation) :
    runsStarted history <+: runsStarted (history ++ later) := by
  induction later using List.reverseRecOn with
  | nil => simp
  | append_singleton later op ih =>
    rw [← List.append_assoc, runsStarted_concat]
    exact ih.trans (List.prefix_append _ _)

/-- An id that was given to a run is not given to another one. -/
theorem startedRun?_ne {history : List Operation} {op : Operation} {id : Text}
    (hfresh : (runsStarted (history ++ [op])).Nodup) (hid : id ∈ runsStarted history) :
    startedRun? (op, (after history).reply op) ≠ some id := by
  intro hstart
  rw [runsStarted_concat, hstart, Option.toList_some] at hfresh
  exact (List.nodup_append.mp hfresh).2.2 id hid id (List.mem_singleton_self id) rfl

/-- A run that is found was started. -/
theorem mem_runsStarted {history : List Operation} {script id : Text} {run : Run}
    (h : (after history).run? script id = some run) : id ∈ runsStarted history := by
  by_contra hid
  -- A run that was never started is found after no prefix of the history. The induction is on its last
  -- operation.
  have hnone : (after history).run? script id = none := by
    clear h
    induction history using List.reverseRecOn with
    | nil => rfl
    | append_singleton history op ih =>
      rw [runsStarted_concat, List.mem_append, not_or] at hid
      rw [after_concat]
      refine run?_next_none (ih hid.1) fun hstart => hid.2 ?_
      rw [hstart]
      exact List.mem_singleton_self id
  exact nomatch hnone.symm.trans h

section

variable {history later : List Operation} {script id : Text} {run : Run}

/-- A run that is found stays as it was as long as its script is not deleted and, while it is active, nobody
finishes it. -/
theorem run?_after_append (hfresh : (runsStarted (history ++ later)).Nodup)
    (hrun : (after history).run? script id = some run)
    (hlater : ∀ op ∈ later, op ≠ .deleteScript script ∧
      (op.Finishes script id → run.state ≠ .active)) :
    (after (history ++ later)).run? script id = some run := by
  have hid : id ∈ runsStarted history := mem_runsStarted hrun
  induction later using List.reverseRecOn with
  | nil =>
    rw [List.append_nil]
    exact hrun
  | append_singleton later op ih =>
    rw [← List.append_assoc] at hfresh ⊢
    obtain ⟨hdelete, hfinish⟩ := hlater op (List.mem_append_right _ (List.mem_singleton_self op))
    -- Ids that are fresh in the whole history are fresh in the part before the last operation.
    have hbefore := ih (hfresh.sublist (runsStarted_append _ _).sublist)
      fun op hop => hlater op (List.mem_append_left _ hop)
    rw [after_concat]
    exact run?_next (consistent_after _) hbefore hdelete hfinish
      (startedRun?_ne hfresh ((runsStarted_append _ _).subset hid))

/-- An id that was started and is gone does not come back. -/
theorem run?_after_append_none (hfresh : (runsStarted (history ++ later)).Nodup)
    (hid : id ∈ runsStarted history) (hnone : (after history).run? script id = none) :
    (after (history ++ later)).run? script id = none := by
  induction later using List.reverseRecOn with
  | nil =>
    rw [List.append_nil]
    exact hnone
  | append_singleton later op ih =>
    rw [← List.append_assoc] at hfresh ⊢
    have hbefore := ih (hfresh.sublist (runsStarted_append _ _).sublist)
    rw [after_concat]
    exact run?_next_none hbefore (startedRun?_ne hfresh ((runsStarted_append _ _).subset hid))

end

/-! ## Where runs are shown

Three listings show runs, and a look-up does. All of them show what is on the shelves, so that a run which
is not found is not listed. -/

section

variable {s : Store} (hs : s.Consistent)

include hs

/-- A run on a shelf is found by its id. -/
theorem run?_of_mem_values {script : Text} {shelf : Dict Run} {run : Run}
    (hshelf : (script, shelf) ∈ s.runs) (hrun : run ∈ shelf.values) :
    s.run? script run.id = some run := by
  obtain ⟨f, hf, rfl⟩ := List.mem_map.mp hrun
  have hfiled : f.2.id = f.1 := (hs.runs _ hshelf f hf).1
  have hget : s.runs.get? script = some shelf := Dict.get?_of_mem hs.distinct.2.1 hshelf
  rw [run?, hget, hfiled]
  exact Dict.get?_of_mem (hs.distinct.2.2 _ hshelf) hf

/-- A run in the listing of a script is found by its id. -/
theorem run?_of_mem_listRuns {script : Text} {runs : List Run} {run : Run}
    (h : s.listRuns script = .ok runs) (hrun : run ∈ runs) : s.run? script run.id = some run := by
  unfold listRuns at h
  split at h
  · exact nomatch h
  · next shelf hshelf =>
    obtain rfl := Except.ok.inj h
    exact run?_of_mem_values hs (Dict.mem_of_get? hshelf) (List.mem_mergeSort.mp hrun)

/-- A run in the listing of all scripts is found by its id, whatever the limit. -/
theorem run?_of_mem_recentRuns {limit : Int} {run : Run} (h : run ∈ s.recentRuns limit) :
    ∃ script, s.run? script run.id = some run := by
  have hall : run ∈ newestFirst (s.runs.values.flatMap Dict.values) := by
    unfold recentRuns at h
    dsimp only at h
    split at h
    · exact List.mem_of_mem_take h
    · exact h
  obtain ⟨shelf, hshelf, hrun⟩ := List.mem_flatMap.mp (List.mem_mergeSort.mp hall)
  obtain ⟨e, he, rfl⟩ := List.mem_map.mp hshelf
  exact ⟨e.1, run?_of_mem_values hs he hrun⟩

/-- After the removal of a script its runs are gone, whether it was there or not. -/
theorem run?_deleted (script id : Text) : (s.next (.deleteScript script)).run? script id = none := by
  by_cases hknown : script ∈ s.scripts.keys
  · exact run?_next_deleteScript hknown id
  · have hnone : s.run? script id = none := by
      by_contra hsome
      obtain ⟨run, hrun⟩ := Option.ne_none_iff_exists'.mp hsome
      exact hknown (hs.mem_scripts hrun)
    refine run?_next_none hnone ?_
    cases s.reply (.deleteScript script) <;> simp [startedRun?]

end

/-! ## From start to end

The history is cut at the start of the run and at its first end. In between nobody ends it, behind it nobody
can. -/

/-- An active run is found with its ending once it is finished. -/
theorem run?_next_finishRun {s : Store} {script id : Text} {run : Run}
    (hrun : s.run? script id = some run) (hactive : run.state = .active) (ending : Run.Ending)
    (time : Instant) :
    (s.next (.finishRun script id ending time)).run? script id = some (run.finish ending time) := by
  have hnext : s.next (.finishRun script id ending time) = s.putRun script id (run.finish ending time) := by
    rw [next, apply, finishRun_of_active hrun hactive]
    rfl
  rw [hnext, run?_putRun, if_pos ⟨rfl, rfl⟩]

/-- A run that is nowhere but under one script is nowhere any more once that script was removed. -/
theorem run?_after_delete {start mid late : List Operation} {script id : Text}
    (hfresh : (runsStarted (start ++ mid ++ [.deleteScript script] ++ late)).Nodup)
    (hid : id ∈ runsStarted start) (honly : ∀ owner ≠ script, (after start).run? owner id = none)
    (owner : Text) : (after (start ++ mid ++ [.deleteScript script] ++ late)).run? owner id = none := by
  have hfresh₁ : (runsStarted (start ++ mid ++ [.deleteScript script])).Nodup :=
    hfresh.sublist (runsStarted_append _ late).sublist
  have hfresh₂ : (runsStarted (start ++ mid)).Nodup :=
    hfresh₁.sublist (runsStarted_append _ _).sublist
  have hdeleted : (after (start ++ mid ++ [.deleteScript script])).run? owner id = none := by
    -- The script is gone with its shelf, and under the others the run has never been.
    by_cases howner : owner = script
    · rw [after_concat, howner]
      exact run?_deleted (consistent_after _) script id
    · rw [List.append_assoc] at hfresh₁ ⊢
      exact run?_after_append_none hfresh₁ hid (honly owner howner)
  have hid' : id ∈ runsStarted (start ++ mid ++ [.deleteScript script]) := by
    rw [List.append_assoc]
    exact (runsStarted_append _ _).subset hid
  exact run?_after_append_none hfresh hid' hdeleted

/-- A new run is active, and it stands under its script and nowhere else. -/
theorem run?_after_create {before : List Operation} {script : Text} {stamp : Stamp} {run : Run}
    {s : Store} (hcreate : (after before).createRun script stamp = (.ok run, s))
    (hfresh : (runsStarted (before ++ [.createRun script stamp])).Nodup) :
    run.state = .active ∧ (after (before ++ [.createRun script stamp])).run? script run.id = some run ∧
      ∀ owner ≠ script, (after (before ++ [.createRun script stamp])).run? owner run.id = none := by
  refine ⟨?_, ?_, fun owner howner => ?_⟩
  · cases changes_of_createRun hcreate with
    | createRun _ hrun => rw [hrun]
  · rw [after_concat]
    exact run?_next_createRun hcreate
  -- The id of the run was not used before.
  · have hnew : run.id ∉ runsStarted before := by
      intro hmem
      refine startedRun?_ne hfresh hmem ?_
      rw [reply_createRun hcreate]
      rfl
    by_contra hsome
    obtain ⟨found, hfound⟩ := Option.ne_none_iff_exists'.mp hsome
    rw [after_concat] at hfound
    -- Under another script it could only be an old run, or it is this one.
    rcases run?_next_cases hfound with hkept | ⟨stamp', owner', hop, -⟩ | ⟨ending, time, old, hop, -⟩
    · exact hnew (mem_runsStarted hkept)
    · injection hop with hscript
      exact howner hscript.symm
    · exact nomatch hop

/-- The whole life of a run. It is active until it is finished or its script is removed, whichever
comes first; while it is active it can be finished; once it is finished it stays as it was finished,
and finishing it again is refused because it is not active; once its script is removed it is never
shown again, also not if a script with the same id is created later, and finishing it is refused
because it is not there. -/
theorem run_finished_once {before later history : List Operation} {script : Text} {stamp : Stamp}
    {run : Run} {s : Store} (hcreate : (after before).createRun script stamp = (.ok run, s))
    (hhistory : history = before ++ .createRun script stamp :: later)
    (hfresh : (runsStarted history).Nodup) :
    ((∀ op ∈ later, op ≠ .deleteScript script ∧ ¬ op.Finishes script run.id) →
      run.state = .active ∧ (after history).getRun script run.id = .ok run ∧
      ∀ ending time, ∃ s', (after history).finishRun script run.id ending time = (.ok (), s')) ∧
    (∀ mid ending time late, later = mid ++ .finishRun script run.id ending time :: late →
      (∀ op ∈ mid, op ≠ .deleteScript script ∧ ¬ op.Finishes script run.id) →
      (∀ op ∈ late, op ≠ .deleteScript script) →
      (after history).getRun script run.id = .ok (run.finish ending time) ∧
      ∀ ending' time', (after history).finishRun script run.id ending' time' =
        (.error (.runFinished run.id (run.finish ending time).state), after history)) ∧
    (∀ mid late, later = mid ++ .deleteScript script :: late →
      (∀ ending time, ∃ refusal,
        (after history).finishRun script run.id ending time = (.error refusal, after history) ∧
        refusal.NotFound) ∧
      (∀ owner id found, (after history).getRun owner id = .ok found → found.id ≠ run.id) ∧
      (∀ owner runs, (after history).listRuns owner = .ok runs → ∀ found ∈ runs, found.id ≠ run.id) ∧
      ∀ limit, ∀ found ∈ (after history).recentRuns limit, found.id ≠ run.id) := by
  -- The history is cut behind the start of the run.
  have hcut : history = (before ++ [.createRun script stamp]) ++ later := by simp [hhistory]
  generalize hstart : before ++ [Operation.createRun script stamp] = start at hcut
  subst hcut
  have hfreshStart : (runsStarted start).Nodup := hfresh.sublist (runsStarted_append start later).sublist
  obtain ⟨hactive, hrun, honly⟩ : run.state = .active ∧ (after start).run? script run.id = some run ∧
      ∀ owner ≠ script, (after start).run? owner run.id = none := by
    subst hstart
    exact run?_after_create hcreate hfreshStart
  refine ⟨fun hlater => ?_, fun mid ending time late hlater hmid hlate => ?_, fun mid late hlater => ?_⟩
  · have hkept : (after (start ++ later)).run? script run.id = some run :=
      run?_after_append hfresh hrun fun op hop => ⟨(hlater op hop).1, fun h => absurd h (hlater op hop).2⟩
    exact ⟨hactive, getRun_eq_ok.mpr hkept,
      fun ending time => ⟨_, finishRun_of_active hkept hactive ending time⟩⟩
  · subst hlater
    have hsplit : start ++ (mid ++ .finishRun script run.id ending time :: late) =
        start ++ mid ++ [.finishRun script run.id ending time] ++ late := by simp
    rw [hsplit] at hfresh ⊢
    have hfreshMid : (runsStarted (start ++ mid)).Nodup :=
      (hfresh.sublist (runsStarted_append _ late).sublist).sublist (runsStarted_append _ _).sublist
    have hkept : (after (start ++ mid)).run? script run.id = some run :=
      run?_after_append hfreshMid hrun fun op hop => ⟨(hmid op hop).1, fun h => absurd h (hmid op hop).2⟩
    have hfinished : (after (start ++ mid ++ [.finishRun script run.id ending time])).run? script run.id =
        some (run.finish ending time) := by
      rw [after_concat]
      exact run?_next_finishRun hkept hactive ending time
    have hended : (run.finish ending time).state ≠ .active := run.finish_state_ne_active ending time
    have hstays := run?_after_append hfresh hfinished fun op hop => ⟨hlate op hop, fun _ => hended⟩
    exact ⟨getRun_eq_ok.mpr hstays, finishRun_of_finished hstays hended⟩
  · subst hlater
    have hsplit : start ++ (mid ++ .deleteScript script :: late) =
        start ++ mid ++ [.deleteScript script] ++ late := by simp
    rw [hsplit] at hfresh ⊢
    have hgone := run?_after_delete hfresh (mem_runsStarted hrun) honly
    have hc := consistent_after (start ++ mid ++ [.deleteScript script] ++ late)
    refine ⟨finishRun_of_none (hgone script), ?_, ?_, ?_⟩
    · rintro owner id found hget hid
      have hfound := getRun_eq_ok.mp hget
      rw [← (hc.of_run? hfound).1, hid, hgone owner] at hfound
      exact nomatch hfound
    · rintro owner runs hlist found hmem hid
      have hfound := run?_of_mem_listRuns hc hlist hmem
      rw [hid, hgone owner] at hfound
      exact nomatch hfound
    · rintro limit found hmem hid
      obtain ⟨owner, hfound⟩ := run?_of_mem_recentRuns hc hmem
      rw [hid, hgone owner] at hfound
      exact nomatch hfound

/-- A run that is completed, cancelled too late and removed with its script: a new script under the
same id and a late failure do not bring it back. -/
theorem run_finished_once_recreated :
    let before : List Operation := [.createScript "zins" "speicher 1" [] ⟨0, "aaa"⟩]
    let later : List Operation :=
      [.finishRun "zins" "r1" (.completed "eis" [] 7) 2, .finishRun "zins" "r1" .cancelled 3]
    let removal : List Operation := [.deleteScript "zins", .createScript "zins" "druck 2" [] ⟨4, "bbb"⟩]
    let won := before ++ .createRun "zins" ⟨1, "r1"⟩ :: later
    let gone := before ++ .createRun "zins" ⟨1, "r1"⟩ :: (later ++ removal)
    (after won).getRun "zins" "r1" =
      .ok { id := "r1", script := "zins", revision := ⟨1, "aaa"⟩, started := 1, state := .succeeded
            output := "eis", steps := 7, ended := some 2 } ∧
    ∃ refusal, (after gone).finishRun "zins" "r1" (.failed [] [] ⟨"z spaat", []⟩) 5 =
        (.error refusal, after gone) ∧ refusal.NotFound := by
  intro before later removal won gone
  -- The history up to the run is evaluated once, and the theorem is used for both continuations.
  have hcreate : (after before).createRun "zins" ⟨1, "r1"⟩ = (.ok ⟨"r1", "zins", ⟨1, "aaa"⟩, 1, .active, [],
      [], none, 0, none⟩, (after before).next (.createRun "zins" ⟨1, "r1"⟩)) := by decide +kernel
  refine ⟨?_, ?_⟩
  · refine ((run_finished_once hcreate rfl (by decide +kernel)).2.1 [] (.completed "eis" [] 7) 2
      [.finishRun "zins" "r1" .cancelled 3] rfl ?_ ?_).1
    · exact fun op hop => absurd hop List.not_mem_nil
    · intro op hop
      obtain rfl := List.mem_singleton.mp hop
      exact nofun
  · exact ((run_finished_once hcreate rfl (by decide +kernel)).2.2 later
      [.createScript "zins" "druck 2" [] ⟨4, "bbb"⟩] rfl).1 _ 5

end Mundart.Store
