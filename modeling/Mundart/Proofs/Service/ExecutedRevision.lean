import Mundart.Proofs.Service.Interleaving

/-!
# The revision that a run executes

A run is recorded with the revision that its script has at that moment, but what is executed was read
before. The two are the same unless somebody saves the script in between.

* **`current?`** — the version of a script that was saved last;
* **`Launch.Recorded`** — which versions a run has read and recorded;
* **`Versioned`**, **`stable_versioned`** — the store shows the last versions, in every interleaving;
* **`executed_revision`** — when a run executes the revision that it records;
* **`overtaken_revision`** — an interleaving in which it executes another one.
-/

namespace Mundart.Interleaving

/-- The version of a script that was saved last. -/
def current? (versions : List Script) (id : Text) : Option Script :=
  versions.reverse.find? fun v => v.id = id

section

variable {versions : List Script} {id : Text} {script : Script}

/-- Of two parts of a history the later one decides, if it has a version of the script at all. -/
theorem current?_append (earlier later : List Script) (id : Text) :
    current? (earlier ++ later) id = (current? later id).or (current? earlier id) := by
  rw [current?, List.reverse_append, List.find?_append]
  rfl

/-- The current version is one of the versions, and of this script. -/
theorem mem_of_current? (h : current? versions id = some script) :
    script ∈ versions ∧ script.id = id := by
  have hmem := List.mem_of_find?_eq_some h
  have hid := List.find?_some h
  exact ⟨List.mem_reverse.mp hmem, by simpa using hid⟩

/-- There is none if no version is one of this script. -/
theorem current?_eq_none : current? versions id = none ↔ ∀ v ∈ versions, v.id ≠ id := by
  simp [current?]

/-- A new version is the last one of its script and leaves the other scripts alone. -/
theorem current?_concat (versions : List Script) (script : Script) (id : Text) :
    current? (versions ++ [script]) id =
      if script.id = id then some script else current? versions id := by
  rw [current?_append]
  by_cases hid : script.id = id
  · simp [current?, hid]
  · simp [current?, hid]

end

/-! ## Launches

A launch reads the source, starts the run and executes what it has read, each under a lock of its own. What
it has seen is kept in the journal, so that it can be compared with what was current at each of these
moments. -/

/-- The script that a run executes is the last version of the time when it was read, and the run shows
the revision of the last version of the time when it was recorded. -/
structure Launch.Recorded (w : Shared) (l : Launch) : Prop where
  order : l.readAt ≤ l.recordedAt
  past : l.recordedAt ≤ w.journal.versions.length
  read : current? (w.journal.versions.take l.readAt) l.run.script = some l.script
  owner : ∃ owner, current? (w.journal.versions.take l.recordedAt) l.run.script = some owner ∧
    l.run.revision = owner.revision
  known : l.run.id ∈ w.journal.recorded
  kept : ∀ run, w.store.run? l.run.script l.run.id = some run → run.revision = l.run.revision

/-- Versions are added at the end, so that those from before are still the first ones. -/
theorem take_of_later {w w' : Shared} (h : Later w w') {n : Nat}
    (hn : n ≤ w.journal.versions.length) :
    w'.journal.versions.take n = w.journal.versions.take n := by
  obtain ⟨added, hadded⟩ := h.versions
  rw [← hadded, List.take_append_of_le_length hn]

/-- What was recorded of a launch stays true. -/
theorem Launch.Recorded.later {w w' : Shared} {l : Launch} (h : l.Recorded w) (hw : Later w w') :
    l.Recorded w' where
  order := h.order
  past := le_trans h.past hw.versions.length_le
  read := by
    -- Versions are only added, so that the ones up to a moment stay the same.
    rw [take_of_later hw (le_trans h.order h.past)]
    exact h.read
  owner := by
    rw [take_of_later hw h.past]
    exact h.owner
  known := hw.recorded h.known
  kept := by
    intro run hrun
    obtain ⟨old, hold, hrevision, -⟩ := hw.runs _ _ _ h.known hrun
    rw [hrevision]
    exact h.kept old hold

/-! ## Versions

The invariant ties the store to the journal: a script that is there is the current one of its versions. It
says nothing about launches, which are tied to it by what they know. -/

/-- The versions stand in the order of their numbers, and the store shows the last one of each script. -/
structure Versioned (w : Shared) : Prop where
  ascending : w.journal.versions.Pairwise fun u v => u.revision.number < v.revision.number
  counted : ∀ v ∈ w.journal.versions, v.revision.number ≤ w.store.revisions
  current : ∀ id script, w.store.scripts.get? id = some script →
    current? w.journal.versions id = some script
  consistent : w.store.Consistent
  executed : ∀ l ∈ w.journal.executed, l.Recorded w

/-- Whoever has saved a script was given its revision. -/
theorem revision_savedScript? (x : Store.Operation × Except Store.Refusal Store.Answer) :
    (savedScript? x).map Script.revision = Store.grantedRevision? x := by
  obtain ⟨op, reply⟩ := x
  cases reply with
  | error refusal => cases op <;> rfl
  | ok answer => cases op <;> cases answer <;> rfl

/-- What a request to save or remove a script does: nothing, or it saves a version with the next number,
or it removes a script. -/
theorem edit_cases {w : Shared} (hc : w.store.Consistent) (e : Edit) :
    (w.edit e).journal.executed = w.journal.executed ∧
    (((w.edit e).store = w.store ∧ (w.edit e).journal.versions = w.journal.versions) ∨
    (∃ script, script.revision.number = w.store.revisions + 1 ∧
      (w.edit e).journal.versions = w.journal.versions ++ [script] ∧
      (w.edit e).store.scripts = w.store.scripts.set script.id script ∧
      (w.edit e).store.revisions = w.store.revisions + 1) ∨
    ∃ id, (w.edit e).journal.versions = w.journal.versions ∧
      (w.edit e).store.scripts = w.store.scripts.erase id ∧
      (w.edit e).store.revisions = w.store.revisions) := by
  refine ⟨rfl, ?_⟩
  -- Refused operations give no version, and leave the store as it is.
  have hversions : (w.edit e).journal.versions =
      w.journal.versions ++ (savedScript? (e.operation, w.store.reply e.operation)).toList := rfl
  have hstore : (w.edit e).store = w.store.next e.operation := rfl
  rw [hversions, hstore]
  obtain ⟨hsame, hnone, -⟩ | ⟨answer, hreply, hchanges⟩ := Store.next_cases w.store e.operation
  · refine .inl ⟨hsame, ?_⟩
    rw [← revision_savedScript?, Option.map_eq_none_iff] at hnone
    rw [hnone]
    exact List.append_nil _
  · rw [hreply]
    generalize w.store.next e.operation = s' at hchanges
    cases e with
    | create id source description stamp =>
      cases hchanges with
      | createScript hnew hscript =>
        subst hscript
        exact .inr (.inl ⟨_, rfl, rfl, rfl, rfl⟩)
    | update id source description stamp =>
      cases hchanges with
      | updateScript hold hscript =>
        have hid := hc.scripts _ (Dict.mem_of_get? hold)
        subst hscript
        refine .inr (.inl ⟨_, rfl, rfl, ?_, rfl⟩)
        show w.store.scripts.set id _ = w.store.scripts.set _ _
        rw [hid]
    | delete id =>
      cases hchanges with
      | deleteScript hold => exact .inr (.inr ⟨id, List.append_nil _, rfl, rfl⟩)

/-- A turn leaves the scripts and their versions alone. -/
theorem Turns.scripts {o : Outside} {w w' : Shared} {t : Task} {rest : Option Task}
    (h : Turns o w t w' rest) :
    w'.journal.versions = w.journal.versions ∧ w'.store.scripts = w.store.scripts ∧
      w'.store.revisions = w.store.revisions ∧ (w.store.Consistent → w'.store.Consistent) := by
  -- To finish a run is to change the run and nothing else.
  have hfinish : ∀ owner id ending time, (w.store.next (.finishRun owner id ending time)).scripts =
      w.store.scripts ∧ (w.store.next (.finishRun owner id ending time)).revisions =
        w.store.revisions := by
    intro owner id ending time
    obtain ⟨hsame, -⟩ | ⟨answer, -, hchanges⟩ := Store.next_cases w.store (.finishRun owner id ending time)
    · rw [hsame]
      exact ⟨rfl, rfl⟩
    · generalize w.store.next (.finishRun owner id ending time) = s' at hchanges
      cases hchanges with
      | finishRun hrun hactive => exact ⟨rfl, rfl⟩
  cases h with
  | @record surface script found readAt owner l rest howner hl hrest =>
    have hcreate := Store.next_of_createRun (Store.createRun_of_owner howner o.stamp)
    refine ⟨rfl, ?_, ?_, fun hc => hc.next _⟩
    · show (w.store.next (.createRun script o.stamp)).scripts = _
      rw [hcreate]
      rfl
    · show (w.store.next (.createRun script o.stamp)).revisions = _
      rw [hcreate]
      rfl
  | conclude hrest => exact ⟨rfl, (hfinish _ _ _ _).1, (hfinish _ _ _ _).2, fun hc => hc.next _⟩
  | cancel hrun hactive => exact ⟨rfl, (hfinish _ _ _ _).1, (hfinish _ _ _ _).2, fun hc => hc.next _⟩
  | refused | read | register | start | execute | release | signal | confirm =>
    exact ⟨rfl, rfl, rfl, id⟩

/-- Only an execution adds to what was executed. -/
theorem Turns.executed {o : Outside} {w w' : Shared} {t : Task} {rest : Option Task} {l : Launch}
    (h : Turns o w t w' rest) (hl : l ∈ w'.journal.executed) :
    l ∈ w.journal.executed ∨ ∃ surface, t = .execute surface l := by
  cases h with
  | @execute surface l' ending hending =>
    obtain rfl | hl := List.mem_cons.mp hl
    · exact .inr ⟨surface, rfl⟩
    · exact .inl hl
  | refused | read | record | register | start | conclude | release | cancel | signal | confirm =>
    exact .inl hl

/-! ## All interleavings

Every task is taken on by one turn at a time, in any order. A turn keeps the invariant, and all tasks that
are left know as much as they did. -/

/-- What a task knows of the versions. -/
def Task.Informed (w : Shared) : Task → Prop
  | .record _ script found readAt =>
    readAt ≤ w.journal.versions.length ∧
      current? (w.journal.versions.take readAt) script = some found
  | .register l | .start l | .execute _ l | .conclude _ l _ | .release l => l.Recorded w
  | _ => True

namespace Versioned

variable {w : Shared}

/-- A granted edit adds the version that it makes. -/
theorem edit (h : Versioned w) (e : Edit) : Versioned (w.edit e) := by
  have hconsistent : (w.edit e).store.Consistent := h.consistent.next e.operation
  have hexecuted : ∀ l ∈ (w.edit e).journal.executed, l.Recorded (w.edit e) :=
    fun l hl => (h.executed l hl).later (later_edit w e)
  -- the store stays, a version is added, or a script goes
  obtain ⟨-, ⟨hstore, hversions⟩ | ⟨script, hnumber, hversions, hscripts, hrevisions⟩ |
    ⟨id, hversions, hscripts, hrevisions⟩⟩ := edit_cases h.consistent e
  · refine ⟨?_, ?_, ?_, hconsistent, hexecuted⟩
    all_goals rw [hversions]
    · exact h.ascending
    · rw [hstore]
      exact h.counted
    · rw [hstore]
      exact h.current
  · refine ⟨?_, ?_, ?_, hconsistent, hexecuted⟩
    all_goals rw [hversions]
    -- The new version has the next number, which is above all that were counted.
    · refine List.pairwise_append.mpr ⟨h.ascending, List.pairwise_singleton _ _, ?_⟩
      intro v hv v' hv'
      obtain rfl := List.mem_singleton.mp hv'
      have := h.counted v hv
      omega
    · intro v hv
      rw [hrevisions]
      obtain hv | hv := List.mem_append.mp hv
      · have := h.counted v hv
        omega
      · obtain rfl := List.mem_singleton.mp hv
        omega
    · intro id found hfound
      -- the script that was saved now, and the others
      rw [hscripts, Dict.get?_set] at hfound
      rw [current?_concat]
      split at hfound
      · next hid =>
        rw [if_pos hid]
        exact hfound
      · next hid =>
        rw [if_neg hid]
        exact h.current id found hfound
  · refine ⟨?_, ?_, ?_, hconsistent, hexecuted⟩
    all_goals rw [hversions]
    · exact h.ascending
    · rw [hrevisions]
      exact h.counted
    · intro other found hfound
      rw [hscripts, Dict.get?_erase] at hfound
      split at hfound
      · exact nomatch hfound
      · exact h.current other found hfound

/-- A run that is recorded now. -/
theorem record (h : Versioned w) {o : Outside} {script : Text} {found owner : Script} {readAt : Nat}
    (ht : (Task.record .request script found readAt).Informed w)
    (howner : w.store.scripts.get? script = some owner) (recorded : List Text) :
    Launch.Recorded
      { w with
        store := w.store.next (.createRun script o.stamp)
        journal := { w.journal with recorded := o.stamp.token :: recorded } }
      ⟨{ id := o.stamp.token, script := script, revision := owner.revision,
         started := o.stamp.time }, found, readAt, w.journal.versions.length⟩ where
  order := ht.1
  past := le_refl _
  read := ht.2
  owner := by
    -- All the versions of this moment are the ones that the record looks back on.
    refine ⟨owner, ?_, rfl⟩
    show current? (w.journal.versions.take w.journal.versions.length) script = some owner
    rw [List.take_length]
    exact h.current script owner howner
  known := List.mem_cons_self
  kept := by
    intro run hrun
    have hfound := Store.run?_next_createRun (Store.createRun_of_owner howner o.stamp)
    obtain rfl := Option.some.inj (hfound.symm.trans hrun)
    rfl

/-- The turn of a task keeps the versions in order, and what the next task knows is true. -/
theorem turn (h : Versioned w) {o : Outside} {w' : Shared} {t : Task} {rest : Option Task}
    (hfresh : o.stamp.token ∉ w.journal.recorded) (ht : t.Informed w) (hturns : Turns o w t w' rest) :
    Versioned w' ∧ ∀ u ∈ rest, u.Informed w' := by
  have hlater := hturns.later hfresh
  obtain ⟨hversions, hscripts, hrevisions, hconsistent⟩ := hturns.scripts
  -- the world first, then the task that is left
  constructor
  · refine ⟨?_, ?_, ?_, hconsistent h.consistent, fun l hl => ?_⟩
    · rw [hversions]
      exact h.ascending
    · rw [hversions, hrevisions]
      exact h.counted
    · rw [hversions, hscripts]
      exact h.current
    · obtain hl | ⟨surface, rfl⟩ := hturns.executed hl
      · exact (h.executed l hl).later hlater
      · exact Launch.Recorded.later ht hlater
  · intro u hu
    cases hturns with
    -- What was read now is the current version of now.
    | read hfound =>
      obtain rfl := Option.some.inj hu
      refine ⟨le_refl _, ?_⟩
      rw [List.take_length]
      exact h.current _ _ hfound
    | record howner hl hrest =>
      subst hl
      obtain rfl := Option.some.inj hu
      obtain rfl | rfl := hrest
      · exact h.record ht howner _
      · exact h.record ht howner _
    | register | start | execute =>
      obtain rfl := Option.some.inj hu
      exact Launch.Recorded.later ht hlater
    | conclude hrest =>
      obtain rfl | rfl := hrest
      · obtain rfl := Option.some.inj hu
        exact Launch.Recorded.later ht hlater
      · exact nomatch hu
    | cancel | signal =>
      obtain rfl := Option.some.inj hu
      trivial
    | refused | release | confirm => exact nomatch hu

end Versioned

/-- The invariant holds whatever the order of the turns. -/
theorem stable_versioned : Stable Versioned fun w t => t.Informed w where
  start :=
    { ascending := List.Pairwise.nil
      counted := fun _ hv => absurd hv List.not_mem_nil
      current := fun _ _ hfound => nomatch hfound
      consistent := Store.consistent_after []
      executed := fun _ hl => absurd hl List.not_mem_nil }
  read _ _ _ _ := trivial
  cancel _ _ _ _ := trivial
  edit _ e h := h.edit e
  turn _ _ _ _ _ hfresh h ht hturns := h.turn hfresh ht hturns
  later w w' t hlater ht := by
    cases t with
    -- What was read stays the version that was current when it was read, although a later one may be
    -- current now.
    | record surface script found readAt =>
      obtain ⟨hle, hread⟩ := ht
      refine ⟨le_trans hle hlater.versions.length_le, ?_⟩
      rw [take_of_later hlater hle]
      exact hread
    | register | start | execute | conclude | release => exact Launch.Recorded.later ht hlater
    | read | cancel | signal | confirm => trivial

/-! ## What is executed

The source is read before the run is started. In between another version may become current, and then the
run is told to be of this one, though the earlier is executed. -/

/-- The versions up to the record of a run are those up to the reading and those in between. -/
theorem take_recordedAt {w : Shared} {l : Launch} (h : l.Recorded w) :
    w.journal.versions.take l.recordedAt = w.journal.versions.take l.readAt ++
      (w.journal.versions.take l.recordedAt).drop l.readAt := by
  have htake : (w.journal.versions.take l.recordedAt).take l.readAt =
      w.journal.versions.take l.readAt := by
    rw [List.take_take, min_eq_left h.order]
  rw [← htake]
  exact (List.take_append_drop _ _).symm

/-- A run that was executed shows a revision of its script which is not older than the one that was
executed. It is that one exactly if nobody has saved the script between the reading of the script and the
record of the run. -/
theorem executed_revision {w : World} (h : Reachable w) :
    ∀ l ∈ w.shared.journal.executed,
      (l.script ∈ w.shared.journal.versions ∧ l.script.id = l.run.script) ∧
      (∃ v ∈ w.shared.journal.versions, v.id = l.run.script ∧ v.revision = l.run.revision) ∧
      l.script.revision.number ≤ l.run.revision.number ∧
      (∀ run, w.shared.store.run? l.run.script l.run.id = some run →
        run.revision = l.run.revision) ∧
      (l.run.revision = l.script.revision ↔
        ∀ v ∈ (w.shared.journal.versions.take l.recordedAt).drop l.readAt, v.id ≠ l.run.script) := by
  have hw := (stable_versioned.reachable h).1
  intro l hl
  have hrecorded := hw.executed l hl
  obtain ⟨owner, howner, hrevision⟩ := hrecorded.owner
  obtain ⟨hread, hid⟩ := mem_of_current? hrecorded.read
  obtain ⟨hmem, hownerId⟩ := mem_of_current? howner
  have hsplit := take_recordedAt hrecorded
  have hascending := hw.ascending.sublist (List.take_sublist l.recordedAt _)
  rw [hsplit] at howner hascending
  rw [current?_append] at howner
  have hbefore : ∀ v ∈ (w.shared.journal.versions.take l.recordedAt).drop l.readAt,
      l.script.revision.number < v.revision.number :=
    fun v hv => (List.pairwise_append.mp hascending).2.2 _ hread v hv
  refine ⟨⟨List.mem_of_mem_take hread, hid⟩,
    ⟨owner, List.mem_of_mem_take hmem, hownerId, hrevision.symm⟩, ?_⟩
  rw [hrevision]
  cases hbetween : current? ((w.shared.journal.versions.take l.recordedAt).drop l.readAt)
      l.run.script with
  | none =>
    -- Nobody has saved the script in between: the last version is still the one that was read.
    rw [hbetween, Option.none_or, hrecorded.read] at howner
    obtain rfl := Option.some.inj howner
    exact ⟨le_refl _, fun run hrun => hrevision ▸ hrecorded.kept run hrun,
      fun _ => current?_eq_none.mp hbetween, fun _ => rfl⟩
  | some newer =>
    rw [hbetween, Option.some_or] at howner
    obtain rfl := Option.some.inj howner
    obtain ⟨hnewer, hnewerId⟩ := mem_of_current? hbetween
    have hlt := hbefore newer hnewer
    refine ⟨le_of_lt hlt, fun run hrun => hrevision ▸ hrecorded.kept run hrun, fun heq => ?_,
      fun hnone => absurd hnewerId (hnone newer hnewer)⟩
    rw [heq] at hlt
    exact absurd hlt (lt_irrefl _)

/-- A request for a run reads a script, the script is changed, and only then the run is recorded. -/
def overtaken : List Move :=
  [.edit (.create "a" "1;" "" ⟨0, "0f3"⟩),
    .createRun "a",
    .turn 0 { stamp := ⟨1, "d41"⟩ },
    .edit (.update "a" "2;" "" ⟨2, "0f3"⟩),
    .turn 0 { stamp := ⟨3, "d41"⟩ },
    .turn 0 { stamp := ⟨4, "5ce"⟩ },
    .turn 0 { stamp := ⟨5, "5ce"⟩ },
    .turn 0 { stamp := ⟨6, "5ce"⟩, fuel := 9 }]

/-- The run shows the second revision, but the source of the first one was executed. -/
theorem play_overtaken : ∃ w l, World.play {} overtaken = some w ∧
    l ∈ w.shared.journal.executed ∧ w.shared.store.run? l.run.script l.run.id = some l.run ∧
    (∀ v ∈ w.shared.journal.versions, v.revision = l.run.revision → v.source ≠ l.script.source) ∧
    ∃ v ∈ (w.shared.journal.versions.take l.recordedAt).drop l.readAt, v.id = l.run.script := by
  refine ⟨_, _, rfl, List.mem_cons_self, rfl, ?_, _, List.mem_cons_self, rfl⟩
  decide

/-- Every run that is stored shows the revision whose source was executed for it. -/
def World.Faithful (w : World) : Prop :=
  ∀ l ∈ w.shared.journal.executed, ∀ run, w.shared.store.run? l.run.script l.run.id = some run →
    ∃ v ∈ w.shared.journal.versions, v.revision = run.revision ∧ v.source = l.script.source

/-- A script that is updated between the two calls of a launch. -/
theorem overtaken_revision : ∃ w, World.play {} overtaken = some w ∧ Reachable w ∧ ¬ w.Faithful := by
  obtain ⟨w, l, hplay, hl, hrun, hother, -⟩ := play_overtaken
  refine ⟨w, hplay, ⟨overtaken, hplay⟩, fun hfaithful => ?_⟩
  obtain ⟨v, hv, hrevision, hsource⟩ := hfaithful l hl l.run hrun
  exact hother v hv hrevision hsource

/-- What was executed there is older than the revision of its run. -/
theorem executed_revision_overtaken : ∃ w, World.play {} overtaken = some w ∧
    ∃ l ∈ w.shared.journal.executed, l.script.revision.number ≤ l.run.revision.number ∧
      l.run.revision ≠ l.script.revision := by
  obtain ⟨w, l, hplay, hl, -, -, v, hv, hid⟩ := play_overtaken
  obtain ⟨-, -, hle, -, hiff⟩ := executed_revision ⟨overtaken, hplay⟩ l hl
  exact ⟨w, hplay, l, hl, hle, fun heq => hiff.mp heq v hv hid⟩

end Mundart.Interleaving
