import Mathlib.Data.List.Induction
import Mathlib.Tactic.Tauto
import Mundart.Proofs.Number.Decimal
import Mundart.Proofs.Store.History

/-!
# The invariant of the store

What holds of a store after every history, whoever sent its operations and whether they were granted
or refused.

* **`Consistent`** — the invariant of a single store;
* **`Consistent.next`**, **`consistent_after`** — one operation keeps it, hence it holds after every
  history;
* **`Revision.text_number`** — revisions with different numbers have different texts;
* **`Originates`** — a stored run was started by some operation of the history;
* **`Store.reachable_invariant`** — all of it, with what was handed out along the way.
-/

namespace Mundart

/-- A run whose fields agree with the state it is in. -/
structure Run.Proper (run : Run) : Prop where
  ended : run.state = .active ↔ run.ended = none
  error : run.error ≠ none ↔ run.state = .failed
  traces : run.output ≠ [] ∨ run.diagnostics ≠ [] ∨ run.steps ≠ 0 →
    run.state = .succeeded ∨ run.state = .failed

namespace Run.Proper

/-- A run that was just started is a proper one. -/
theorem fresh (id script : Text) (revision : Revision) (started : Instant) :
    Run.Proper { id := id, script := script, revision := revision, started := started } :=
  ⟨by simp, by simp, by simp⟩

/-- An active run has left no traces yet, so whatever it has afterwards comes from its end. -/
theorem finish {run : Run} (h : run.Proper) (hactive : run.state = .active) (ending : Run.Ending)
    (time : Instant) : (run.finish ending time).Proper := by
  have herror : run.error = none := by
    by_contra hne
    exact absurd (h.error.mp hne) (by simp [hactive])
  have htraces : run.output = [] ∧ run.diagnostics = [] ∧ run.steps = 0 := by
    by_contra hne
    have htrace : run.output ≠ [] ∨ run.diagnostics ≠ [] ∨ run.steps ≠ 0 := by tauto
    have hstate := h.traces htrace
    simp [hactive] at hstate
  -- What a finished run shows was empty or comes from this ending.
  cases ending with
  | completed output diagnostics steps =>
    exact ⟨by simp [Run.finish], by simp [Run.finish, herror], by simp [Run.finish]⟩
  | failed output diagnostics error =>
    exact ⟨by simp [Run.finish], by simp [Run.finish], by simp [Run.finish]⟩
  | cancelled =>
    exact ⟨by simp [Run.finish], by simp [Run.finish, herror], by simp [Run.finish, htraces]⟩

end Run.Proper

/-- The text of a revision shows its number, up to the first byte that is no digit. -/
theorem Revision.text_number {r r' : Revision} (h : r.text = r'.text) : r.number = r'.number := by
  have hdigits : ∀ r : Revision, r.text.takeWhile Text.isDigit = Text.padNat 6 r.number := by
    intro r
    have hminus : Text.isDigit (ascii '-') = false := by decide
    have htext : r.text = Text.padNat 6 r.number ++ ascii '-' :: r.suffix := by
      rw [Revision.text, List.append_assoc]
      rfl
    rw [htext, List.takeWhile_append_of_pos fun b hb => Text.isDigit_of_mem_padNat hb,
      List.takeWhile_cons_of_neg (by simp [hminus]), List.append_nil]
  have hpad : Text.padNat 6 r.number = Text.padNat 6 r'.number := by
    rw [← hdigits r, ← hdigits r', h]
  rw [← Text.digitsValue_padNat 6 r.number, hpad, Text.digitsValue_padNat]

namespace Store

/-- What holds of every store that operations can lead to. -/
structure Consistent (s : Store) : Prop where
  /-- There are runs, or at least a place for them, exactly for the scripts. -/
  ids : ∀ id, id ∈ s.runs.keys ↔ id ∈ s.scripts.keys
  /-- No id is taken twice, so every entry is found under its key. -/
  distinct : s.scripts.keys.Nodup ∧ s.runs.keys.Nodup ∧ ∀ e ∈ s.runs, e.2.keys.Nodup
  scripts : ∀ e ∈ s.scripts, e.2.id = e.1
  runs : ∀ e ∈ s.runs, ∀ f ∈ e.2, f.2.id = f.1 ∧ f.2.script = e.1 ∧ f.2.Proper

namespace Consistent

variable {s : Store} {script id : Text} {run : Run}

/-- The shelf of a script, which is empty where there is none. -/
theorem shelf (h : s.Consistent) (script : Text) :
    ((s.runs.get? script).getD []).keys.Nodup ∧
      ∀ f ∈ (s.runs.get? script).getD [], f.2.id = f.1 ∧ f.2.script = script ∧ f.2.Proper := by
  cases hshelf : s.runs.get? script with
  | none => exact ⟨List.nodup_nil, fun f hf => nomatch hf⟩
  | some shelf =>
    have hmem := Dict.mem_of_get? hshelf
    exact ⟨h.distinct.2.2 _ hmem, h.runs _ hmem⟩

/-- A run that is found belongs where it was found, and is a proper one. -/
theorem of_run? (h : s.Consistent) (hrun : s.run? script id = some run) :
    run.id = id ∧ run.script = script ∧ run.Proper := by
  obtain ⟨shelf, hshelf, hget⟩ := Option.bind_eq_some_iff.mp hrun
  exact h.runs _ (Dict.mem_of_get? hshelf) _ (Dict.mem_of_get? hget)

/-- A stored run belongs to a stored script. -/
theorem mem_scripts (h : s.Consistent) (hrun : s.run? script id = some run) :
    script ∈ s.scripts.keys := by
  obtain ⟨shelf, hshelf, -⟩ := Option.bind_eq_some_iff.mp hrun
  exact (h.ids script).mp (Dict.mem_keys_iff_get?.mpr ⟨shelf, hshelf⟩)

/-- To file a proper run under its own script and id keeps a store consistent. -/
theorem putRun (h : s.Consistent) (hid : run.id = id) (hscript : run.script = script)
    (hproper : run.Proper) (howner : script ∈ s.scripts.keys) : (s.putRun script id run).Consistent := by
  obtain ⟨hnodup, hshelf⟩ := h.shelf script
  refine ⟨fun other => ?_, ⟨h.distinct.1, Dict.nodup_keys_set h.distinct.2.1 _ _, ?_⟩, h.scripts, ?_⟩
  · show other ∈ (s.runs.set script _).keys ↔ other ∈ s.scripts.keys
    rw [Dict.mem_keys_set, h.ids other]
    exact ⟨fun hor => hor.elim (fun heq => heq ▸ howner) fun hknown => hknown, .inr⟩
  · intro e he
    obtain rfl | he := Dict.mem_of_mem_set he
    · exact Dict.nodup_keys_set hnodup _ _
    · exact h.distinct.2.2 e he
  -- the shelf that was written, and in it the run that was written
  · intro e he f hf
    obtain rfl | he := Dict.mem_of_mem_set he
    · obtain rfl | hf := Dict.mem_of_mem_set hf
      · exact ⟨hid, hscript, hproper⟩
      · exact hshelf f hf
    · exact h.runs e he f hf

/-- One operation keeps the invariant. -/
theorem next (h : s.Consistent) (op : Operation) : (s.next op).Consistent := by
  obtain ⟨hsame, -⟩ | ⟨answer, -, hchanges⟩ := next_cases s op
  · rw [hsame]
    exact h
  generalize s.next op = s' at hchanges ⊢
  cases hchanges with
  -- A new script brings its shelf with it.
  | @createScript id source description stamp script hnew hscript =>
    refine ⟨fun other => ?_, ⟨Dict.nodup_keys_set h.distinct.1 _ _,
      Dict.nodup_keys_set h.distinct.2.1 _ _, fun e he => ?_⟩, fun e he => ?_, fun e he => ?_⟩
    · rw [Dict.mem_keys_set, Dict.mem_keys_set, h.ids other]
    · obtain rfl | he := Dict.mem_of_mem_set he
      · exact List.nodup_nil
      · exact h.distinct.2.2 e he
    · obtain rfl | he := Dict.mem_of_mem_set he
      · rw [hscript]
      · exact h.scripts e he
    · obtain rfl | he := Dict.mem_of_mem_set he
      · exact fun f hf => nomatch hf
      · exact h.runs e he
  -- The new version is filed under the id of the old one.
  | @updateScript id source description stamp old script hold hscript =>
    refine ⟨fun other => ?_, ⟨Dict.nodup_keys_set h.distinct.1 _ _, h.distinct.2⟩, fun e he => ?_, h.runs⟩
    · have hknown : id ∈ s.scripts.keys := Dict.mem_keys_iff_get?.mpr ⟨old, hold⟩
      rw [Dict.mem_keys_set, h.ids other]
      exact ⟨.inr, fun hor => hor.elim (fun heq => heq ▸ hknown) fun hother => hother⟩
    · obtain rfl | he := Dict.mem_of_mem_set he
      · have hfiled : old.id = id := h.scripts _ (Dict.mem_of_get? hold)
        rw [hscript]
        exact hfiled
      · exact h.scripts e he
  -- Script and shelf go together.
  | deleteScript hold =>
    refine ⟨fun other => ?_, ⟨Dict.nodup_keys_erase h.distinct.1 _,
      Dict.nodup_keys_erase h.distinct.2.1 _, fun e he => ?_⟩, fun e he => ?_, fun e he => ?_⟩
    · rw [Dict.mem_keys_erase, Dict.mem_keys_erase, h.ids other]
    · exact h.distinct.2.2 e (Dict.mem_erase_iff.mp he).1
    · exact h.scripts e (Dict.mem_erase_iff.mp he).1
    · exact h.runs e (Dict.mem_erase_iff.mp he).1
  | @createRun script stamp owner run howner hrun =>
    have hknown : script ∈ s.scripts.keys := Dict.mem_keys_iff_get?.mpr ⟨owner, howner⟩
    subst hrun
    exact h.putRun rfl rfl (.fresh _ _ _ _) hknown
  -- A finished run stays under its ids.
  | @finishRun script id ending time run hrun hactive =>
    obtain ⟨hid, hscript, hproper⟩ := h.of_run? hrun
    have hkept : (run.finish ending time).script = run.script := by cases ending <;> rfl
    exact h.putRun (by rw [Run.finish_id, hid]) (hkept.trans hscript) (hproper.finish hactive _ _)
      (h.mem_scripts hrun)

end Consistent

/-- After every history the store is consistent, by induction on the operations. -/
theorem consistent_after (history : List Operation) : (after history).Consistent := by
  induction history using List.reverseRecOn with
  | nil =>
    refine ⟨fun _ => Iff.rfl, ⟨List.nodup_nil, List.nodup_nil, ?_⟩, ?_, ?_⟩
    all_goals exact fun e he => absurd he List.not_mem_nil
  | append_singleton history op ih =>
    rw [after_concat]
    exact ih.next op

/-! ## Revisions

Revisions are told by a counter and a suffix. The counter is what makes them differ, whatever the suffixes
are. -/

/-- Revisions are numbered in the order in which they are handed out. -/
theorem numbers_revisionsGranted (history : List Operation) :
    (revisionsGranted history).map Revision.number = List.range' 1 (after history).revisions := by
  induction history using List.reverseRecOn with
  | nil => rfl
  | append_singleton history op ih =>
    rw [revisionsGranted_concat, after_concat, List.map_append, ih]
    obtain ⟨hsame, hnone, -⟩ | ⟨answer, hreply, hchanges⟩ := next_cases (after history) op
    · rw [hsame, hnone]
      simp
    rw [hreply]
    generalize (after history).next op = s' at hchanges ⊢
    -- Two operations hand out a revision, and it has the next number.
    cases hchanges with
    | createScript hnew hscript =>
      rw [List.range'_1_concat, hscript]
      simp [grantedRevision?, nextRevision, Nat.add_comm]
    | updateScript hold hscript =>
      rw [List.range'_1_concat, hscript]
      simp [grantedRevision?, nextRevision, Nat.add_comm]
    | deleteScript hold => simp [grantedRevision?]
    | createRun howner hrun => simp [grantedRevision?, putRun]
    | finishRun hrun hactive => simp [grantedRevision?, putRun]

/-- The counter is the number of revisions that were granted. -/
theorem length_revisionsGranted (history : List Operation) :
    (revisionsGranted history).length = (after history).revisions := by
  have hlength := congrArg List.length (numbers_revisionsGranted history)
  simpa using hlength

/-- No two revisions that were granted have the same text. -/
theorem nodup_revisionsGranted (history : List Operation) :
    ((revisionsGranted history).map Revision.text).Nodup := by
  have hnumbers : ((revisionsGranted history).map Revision.number).Nodup := by
    rw [numbers_revisionsGranted]
    exact List.nodup_range'
  refine List.pairwise_map.mpr ((List.pairwise_map.mp hnumbers).imp ?_)
  exact fun hne htext => hne (Revision.text_number htext)

/-! ## Where runs come from

A run that is there was started by some operation of the history and has been there since. It follows the
run through the history from the end. -/

/-- A run was started by some operation of a history, from the revision that its script had then, and
neither was another one started under its id since then nor its script removed. -/
def Originates (history : List Operation) (run : Run) : Prop :=
  ∃ earlier stamp later owner, history = earlier ++ .createRun run.script stamp :: later ∧
    (after earlier).getScript run.script = .ok owner ∧ run.revision = owner.revision ∧
    run.id = stamp.token ∧ run.started = stamp.time ∧
    ∀ op ∈ later, op ≠ .deleteScript run.script ∧ ¬ op.Starts run.script run.id

/-- An operation that neither deletes the script nor starts the run again does not change where it comes
from. -/
theorem Originates.concat {history : List Operation} {run : Run} (h : Originates history run)
    {op : Operation} (hdelete : op ≠ .deleteScript run.script)
    (hstart : ¬ op.Starts run.script run.id) : Originates (history ++ [op]) run := by
  obtain ⟨earlier, stamp, later, owner, rfl, howner, hrevision, hid, hstarted, hlater⟩ := h
  refine ⟨earlier, stamp, later ++ [op], owner, by simp, howner, hrevision, hid, hstarted, ?_⟩
  intro op' hop'
  obtain hop' | hop' := List.mem_append.mp hop'
  · exact hlater op' hop'
  · obtain rfl := List.mem_singleton.mp hop'
    exact ⟨hdelete, hstart⟩

/-- The end of a run does not touch where it comes from. -/
theorem Originates.finish {history : List Operation} {run : Run} (h : Originates history run)
    (ending : Run.Ending) (time : Instant) : Originates history (run.finish ending time) := by
  cases ending <;> exact h

/-- A run that was just started comes from this operation. -/
theorem originates_of_createRun {history : List Operation} {script : Text} {stamp : Stamp} {run : Run}
    {s : Store} (h : (after history).createRun script stamp = (.ok run, s)) :
    Originates (history ++ [.createRun script stamp]) run := by
  cases changes_of_createRun h with
  | @createRun _ _ owner _ howner hrun =>
    subst hrun
    exact ⟨history, stamp, [], owner, rfl, getScript_eq_ok.mpr howner, rfl, rfl, rfl,
      fun _ hop => absurd hop List.not_mem_nil⟩

/-- Every run that is found comes from somewhere. -/
theorem originates_of_run? (history : List Operation) : ∀ {script id : Text} {run : Run},
    (after history).run? script id = some run → Originates history run := by
  induction history using List.reverseRecOn with
  | nil => exact fun h => nomatch h
  | append_singleton history op ih =>
    intro script id run hrun
    have hc := consistent_after history
    obtain ⟨rfl, rfl, -⟩ := (consistent_after (history ++ [op])).of_run? hrun
    rw [after_concat] at hrun
    rcases run?_next_cases hrun with hkept | ⟨stamp, owner, rfl, -, howner, -, hnew⟩ |
      ⟨ending, time, old, rfl, hold, hfinish⟩
    · have hknown : run.script ∈ (after history).scripts.keys := hc.mem_scripts hkept
      have hdelete : op ≠ .deleteScript run.script := by
        rintro rfl
        rw [run?_next_deleteScript hknown] at hrun
        exact nomatch hrun
      by_cases hstart : op.Starts run.script run.id
      -- Another run was started under the same id: it is the one that is found now.
      · obtain ⟨stamp, rfl, htoken⟩ := hstart
        obtain ⟨owner, howner⟩ := Dict.mem_keys_iff_get?.mp hknown
        have hcreate := createRun_of_owner howner stamp
        have hfound := run?_next_createRun hcreate
        rw [htoken, hrun] at hfound
        rw [htoken, ← Option.some.inj hfound] at hcreate
        exact originates_of_createRun hcreate
      · exact (ih hkept).concat hdelete hstart
    · have hcreate := createRun_of_owner howner stamp
      rw [← hnew] at hcreate
      exact originates_of_createRun hcreate
    · rw [hfinish]
      refine ((ih hold).concat (by simp) ?_).finish ending time
      rintro ⟨stamp, hop, -⟩
      exact nomatch hop

/-! ## All reachable stores

What has been shown, put together as one invariant over all histories. -/

/-- The invariant of the store. After every history the scripts and the shelves of runs have the same
ids, so that runs can be listed exactly where there is a script and a new run always finds its shelf.
As many revisions were counted as were handed out, no two of them read the same, and every run shows
the revision that its script had when the run was started. -/
theorem reachable_invariant (history : List Operation) :
    (after history).Consistent ∧
    (∀ id, (∃ runs, (after history).listRuns id = .ok runs) ↔
      ∃ script, (after history).getScript id = .ok script) ∧
    (∀ script stamp run s', (after history).createRun script stamp = (.ok run, s') →
      ∃ shelf, (after history).runs.get? script = some shelf) ∧
    (after history).revisions = (revisionsGranted history).length ∧
    ((revisionsGranted history).map Revision.text).Nodup ∧
    ∀ e ∈ (after history).runs, ∀ f ∈ e.2, Originates history f.2 := by
  have hc : (after history).Consistent := consistent_after history
  -- There is a shelf exactly where there is a script.
  have hshelf : ∀ id, (∃ shelf, (after history).runs.get? id = some shelf) ↔
      ∃ script, (after history).scripts.get? id = some script := by
    intro id
    rw [← Dict.mem_keys_iff_get?, ← Dict.mem_keys_iff_get?]
    exact hc.ids id
  refine ⟨hc, fun id => ?_, fun script stamp run s' hcreate => ?_,
    (length_revisionsGranted history).symm, nodup_revisionsGranted history, fun e he f hf => ?_⟩
  · simp only [getScript_eq_ok]
    rw [← hshelf id]
    unfold listRuns
    cases (after history).runs.get? id with
    | none => simp
    | some shelf => simp
  · cases changes_of_createRun hcreate with
    | createRun howner hrun => exact (hshelf script).mpr ⟨_, howner⟩
  -- A run on a shelf is found by the ids that it is filed under.
  · have hshelf : (after history).runs.get? e.1 = some e.2 := Dict.get?_of_mem hc.distinct.2.1 he
    have hrun : (after history).run? e.1 f.1 = some f.2 := by
      rw [run?, hshelf]
      exact Dict.get?_of_mem (hc.distinct.2.2 e he) hf
    exact originates_of_run? history hrun

end Store

end Mundart
