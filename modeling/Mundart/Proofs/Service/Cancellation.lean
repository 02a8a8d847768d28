import Mundart.Proofs.Service.Interleaving

/-!
# What a successful cancellation stops

A request to cancel a run records the cancellation first and then looks for the function that cancels
the run's context. That function is entered only after the run was recorded, so a request that comes
in between finds none: it is answered with success, but the run goes on.

* **`Filed`** — no two runs have the same id, and a granted cancellation stays recorded;
* **`Watched`** — what the table of functions tells about the contexts;
* **`nodup_signals`** — no two requests look for the function of the same run;
* **`cancel_stops`** — a cancellation stops the run exactly if it comes late enough;
* **`cancel_lost`** — an interleaving in which it does not.
-/

namespace Mundart.Interleaving

/-- The execution of a run has come to its end. -/
def Shared.Ended (w : Shared) (run : Text) : Prop := ∃ l ∈ w.journal.executed, l.run.id = run

/-! ## Recorded runs

Which runs are in the store, as the journal tells it. A run is filed under its token, and tokens are never
drawn twice. -/

/-- Every stored run has an id of its own, and a granted cancellation is there to stay. -/
structure Filed (w : Shared) : Prop where
  stored : ∀ script id run, w.store.run? script id = some run → id ∈ w.journal.recorded
  single : ∀ script other id run run', w.store.run? script id = some run →
    w.store.run? other id = some run' → script = other
  granted : ∀ id ∈ w.journal.granted, id ∈ w.journal.recorded ∧
    ∀ script run, w.store.run? script id = some run → run.state = .cancelled

section

variable {o : Outside} {w w' : Shared} {t : Task} {rest : Option Task}

/-- A stored run was stored before the turn, or the turn has recorded it. -/
theorem Turns.stored (h : Turns o w t w' rest) {script id : Text} {run : Run}
    (hrun : w'.store.run? script id = some run) :
    (∃ old, w.store.run? script id = some old) ∨
      ∃ surface found readAt, t = .record surface script found readAt ∧ id = o.stamp.token ∧
        id ∈ w'.journal.recorded := by
  have hfinish : ∀ owner other ending time,
      (w.store.next (.finishRun owner other ending time)).run? script id = some run →
      ∃ old, w.store.run? script id = some old := by
    intro owner other ending time hrun
    obtain ⟨old, hold, -⟩ := Store.run?_of_next hrun fun _ _ hop => nomatch hop
    exact ⟨old, hold⟩
  cases h with
  | @record surface owner found readAt _ _ _ howner hl hrest =>
    -- a run that was there, the run of this turn, or a run that was finished
    rcases Store.run?_next_cases hrun with hkept | ⟨stamp, owner, hop, hid, -⟩ |
      ⟨ending, time, old, hop, -⟩
    · exact .inl ⟨run, hkept⟩
    · obtain ⟨rfl, rfl⟩ := Store.Operation.createRun.inj hop
      exact .inr ⟨surface, found, readAt, rfl, hid, hid ▸ List.mem_cons_self⟩
    · exact nomatch hop
  | conclude hrest => exact .inl (hfinish _ _ _ _ hrun)
  | cancel _ hactive => exact .inl (hfinish _ _ _ _ hrun)
  | refused | read | register | start | execute | release | signal | confirm => exact .inl ⟨run, hrun⟩

/-- The cancellation of an active run. -/
theorem run?_cancelled {script id : Text} {run : Run} (hrun : w.store.run? script id = some run)
    (hactive : run.state = .active) (time : Instant) :
    (w.store.next (.finishRun script id .cancelled time)).run? script id =
      some (run.finish .cancelled time) := by
  rw [Store.next_of_finishRun (Store.finishRun_of_active hrun hactive .cancelled time),
    Store.run?_putRun, if_pos ⟨rfl, rfl⟩]

namespace Filed

/-- What the others do leaves a granted cancellation as it is. -/
theorem granted_later (h : Filed w) (hlater : Later w w') {id : Text} (hid : id ∈ w.journal.granted) :
    id ∈ w'.journal.recorded ∧
      ∀ script run, w'.store.run? script id = some run → run.state = .cancelled := by
  obtain ⟨hrecorded, hstate⟩ := h.granted id hid
  refine ⟨hlater.recorded hrecorded, fun script run hrun => ?_⟩
  obtain ⟨old, hold, -, hsame⟩ := hlater.runs script id run hrecorded hrun
  have hcancelled := hstate script old hold
  rw [hsame (by rw [hcancelled]; decide)]
  exact hcancelled

/-- An edit files no run and finishes none. -/
theorem edit (h : Filed w) (e : Edit) : Filed (w.edit e) := by
  -- What is stored behind an edit was stored before, under the same ids.
  have hbefore : ∀ script id run, (w.edit e).store.run? script id = some run →
      ∃ old, w.store.run? script id = some old := by
    intro script id run hrun
    obtain ⟨old, hold, -⟩ := Store.run?_of_next hrun fun owner stamp hop =>
      absurd hop (e.operation_ne_createRun owner stamp)
    exact ⟨old, hold⟩
  refine ⟨fun script id run hrun => ?_, fun script other id run run' hrun hrun' => ?_,
    fun id hid => h.granted_later (later_edit w e) hid⟩
  · obtain ⟨old, hold⟩ := hbefore script id run hrun
    exact h.stored script id old hold
  · obtain ⟨old, hold⟩ := hbefore script id run hrun
    obtain ⟨old', hold'⟩ := hbefore other id run' hrun'
    exact h.single script other id old old' hold hold'

/-- The turn of a task keeps runs filed. -/
theorem turn (h : Filed w) (hfresh : o.stamp.token ∉ w.journal.recorded)
    (hturns : Turns o w t w' rest) : Filed w' := by
  have hlater := hturns.later hfresh
  refine ⟨fun script id run hrun => ?_, fun script other id run run' hrun hrun' => ?_, fun id hid => ?_⟩
  · obtain ⟨old, hold⟩ | ⟨-, -, -, -, -, hrecorded⟩ := hturns.stored hrun
    · exact hlater.recorded (h.stored script id old hold)
    · exact hrecorded
  · -- A fresh id is not the id of a run that was stored before.
    obtain ⟨old, hold⟩ | ⟨_, _, _, ht, hid, -⟩ := hturns.stored hrun
    · obtain ⟨old', hold'⟩ | ⟨_, _, _, -, hid', -⟩ := hturns.stored hrun'
      · exact h.single script other id old old' hold hold'
      · exact absurd (hid' ▸ h.stored script id old hold) hfresh
    · obtain ⟨old', hold'⟩ | ⟨_, _, _, ht', -, -⟩ := hturns.stored hrun'
      · exact absurd (hid ▸ h.stored other id old' hold') hfresh
      · rw [ht] at ht'
        exact (Task.record.inj ht').2.1
  -- granted before, or by this turn
  · by_cases hold : id ∈ w.journal.granted
    · exact h.granted_later hlater hold
    cases hturns with
    | @cancel script _ run hrun hactive =>
      obtain rfl := (List.mem_cons.mp hid).resolve_right hold
      refine ⟨h.stored _ _ _ hrun, fun other found hfound => ?_⟩
      obtain ⟨before, hbefore, -⟩ := Store.run?_of_next hfound fun _ _ hop => nomatch hop
      obtain rfl := h.single other script id before run hbefore hrun
      have hcancelled := run?_cancelled hrun hactive o.stamp.time
      obtain rfl := Option.some.inj (hcancelled.symm.trans hfound)
      rfl
    | refused | read | record | register | start | execute | conclude | release | signal | confirm =>
      exact absurd hid hold

end Filed

end

/-! ## Contexts

A run can be cancelled from the moment at which its cancel function is registered. The invariant says what
has been registered, and what was cancelled through it. -/

/-- What the table of functions tells about the contexts of the runs. -/
structure Watched (w : Shared) : Prop where
  filed : Filed w
  entered : ∀ run ∈ w.cancels, run ∈ w.journal.registered
  /-- A function is removed only after it was called. -/
  registered : ∀ run ∈ w.journal.registered, run ∈ w.cancels ∨ run ∈ w.cancelled
  /-- A context is cancelled by a late look-up or at the end of the execution. -/
  cancelled : ∀ run ∈ w.cancelled, w.Ended run ∨ (run, true) ∈ w.journal.lookups
  late : ∀ run, (run, true) ∈ w.journal.lookups → run ∈ w.cancelled
  lookups : ∀ x ∈ w.journal.lookups, x.1 ∈ w.journal.granted
  answered : ∀ x ∈ w.journal.answered, x ∈ w.journal.lookups

/-- What a task has behind it. -/
def Task.Prepared (w : Shared) : Task → Prop
  | .conclude _ l _ | .release l => l ∈ w.journal.executed
  | .signal _ run => run ∈ w.journal.granted
  | .confirm _ run late => (run, late) ∈ w.journal.lookups
  | _ => True

/-- A signal cancels the run that it is meant for, if this one is registered. -/
theorem mem_signal {w : Shared} {run id : Text} :
    id ∈ (w.signal run).cancelled ↔ id ∈ w.cancelled ∨ (id = run ∧ run ∈ w.cancels) := by
  unfold Shared.signal
  split
  · next hrun => simp [hrun, or_comm]
  · next hrun => simp [hrun]

namespace Watched

variable {o : Outside} {w w' : Shared} {t : Task} {rest : Option Task}

/-- When a run has ended its function is signalled and taken out. -/
theorem release (h : Watched w) {l : Launch} (hl : l ∈ w.journal.executed)
    (hfiled : Filed { w.signal l.run.id with cancels := w.cancels.filter (· ≠ l.run.id) }) :
    Watched { w.signal l.run.id with cancels := w.cancels.filter (· ≠ l.run.id) } := by
  refine ⟨hfiled, fun run hrun => ?_, fun run hrun => ?_, fun run hrun => ?_, fun run hrun => ?_,
    h.lookups, h.answered⟩
  · exact h.entered run (List.mem_filter.mp hrun).1
  -- The function of this run is gone, but its context is cancelled with it.
  · obtain hentered | hcancelled := h.registered run hrun
    · by_cases heq : run = l.run.id
      · exact .inr (mem_signal.mpr (.inr ⟨heq, heq ▸ hentered⟩))
      · exact .inl (List.mem_filter.mpr ⟨hentered, by simpa using heq⟩)
    · exact .inr (mem_signal.mpr (.inl hcancelled))
  · obtain hcancelled | ⟨rfl, -⟩ := mem_signal.mp hrun
    · exact h.cancelled run hcancelled
    · exact .inl ⟨l, hl, rfl⟩
  · exact mem_signal.mpr (.inl (h.late run hrun))

/-- A late look-up finds the function, or the context is cancelled already. -/
theorem signal (h : Watched w) {run : Text} (hgranted : run ∈ w.journal.granted) {late : Bool}
    (hlate : late = decide (run ∈ w.journal.registered)) {journal : Journal}
    (hjournal : journal = { w.journal with lookups := (run, late) :: w.journal.lookups })
    (hfiled : Filed { w.signal run with journal := journal }) :
    Watched { w.signal run with journal := journal } := by
  subst hjournal
  refine ⟨hfiled, h.entered, fun id hid => ?_, fun id hid => ?_, fun id hid => ?_, fun x hx => ?_,
    fun x hx => List.mem_cons_of_mem _ (h.answered x hx)⟩
  · exact (h.registered id hid).imp_right fun hcancelled => mem_signal.mpr (.inl hcancelled)
  -- A context that was cancelled just now had its function entered, so that the look-up was late.
  · obtain hcancelled | ⟨rfl, hentered⟩ := mem_signal.mp hid
    · exact (h.cancelled id hcancelled).imp_right (List.mem_cons_of_mem _)
    · have htrue : late = true := by rw [hlate, decide_eq_true (h.entered id hentered)]
      exact .inr (htrue ▸ List.mem_cons_self)
  · obtain heq | hid := List.mem_cons.mp hid
    · obtain ⟨rfl, htrue⟩ := Prod.mk.inj heq
      rw [← htrue] at hlate
      -- Once registered, the function is entered or the context is cancelled: a late look-up needs no more.
      obtain hentered | hcancelled := h.registered id (of_decide_eq_true hlate.symm)
      · exact mem_signal.mpr (.inr ⟨rfl, hentered⟩)
      · exact mem_signal.mpr (.inl hcancelled)
    · exact mem_signal.mpr (.inl (h.late id hid))
  · obtain rfl | hx := List.mem_cons.mp hx
    · exact hgranted
    · exact h.lookups x hx

/-- The turn of a task keeps the watch, and leaves the next task prepared for its own turn. -/
theorem turn (h : Watched w) (hfresh : o.stamp.token ∉ w.journal.recorded) (ht : t.Prepared w)
    (hturns : Turns o w t w' rest) : Watched w' ∧ ∀ u ∈ rest, u.Prepared w' := by
  have hfiled := h.filed.turn hfresh hturns
  cases hturns with
  | refused => exact ⟨h, fun u hu => nomatch hu⟩
  | read hfound =>
    refine ⟨h, fun u hu => ?_⟩
    obtain rfl := Option.some.inj hu
    trivial
  | record howner hl hrest =>
    refine ⟨{ h with filed := hfiled }, fun u hu => ?_⟩
    obtain rfl := Option.some.inj hu
    obtain rfl | rfl := hrest
    all_goals trivial
  -- The function is entered and registered at once.
  | @register l =>
    refine ⟨{ h with filed := hfiled, entered := ?_, registered := ?_ }, fun u hu => ?_⟩
    · exact fun run hrun => List.mem_cons.mpr ((List.mem_cons.mp hrun).imp_right (h.entered run))
    · intro run hrun
      obtain rfl | hrun := List.mem_cons.mp hrun
      · exact .inl List.mem_cons_self
      · exact (h.registered run hrun).imp_left (List.mem_cons_of_mem _)
    · obtain rfl := Option.some.inj hu
      trivial
  | start =>
    refine ⟨h, fun u hu => ?_⟩
    obtain rfl := Option.some.inj hu
    trivial
  -- The execution is over: from now on the end of the run may cancel its context.
  | @execute surface l ending hending =>
    refine ⟨{ h with filed := hfiled, cancelled := fun run hrun => ?_ }, fun u hu => ?_⟩
    · obtain ⟨l', hl', hid⟩ | hlookup := h.cancelled run hrun
      · exact .inl ⟨l', List.mem_cons_of_mem _ hl', hid⟩
      · exact .inr hlookup
    · obtain rfl := Option.some.inj hu
      exact List.mem_cons_self
  | conclude hrest =>
    refine ⟨{ h with filed := hfiled }, fun u hu => ?_⟩
    obtain rfl | rfl := hrest
    · obtain rfl := Option.some.inj hu
      exact ht
    · exact nomatch hu
  | release => exact ⟨h.release ht hfiled, fun u hu => nomatch hu⟩
  | cancel hrun hactive =>
    refine ⟨{ h with filed := hfiled, lookups := fun x hx => ?_ }, fun u hu => ?_⟩
    · exact List.mem_cons_of_mem _ (h.lookups x hx)
    · obtain rfl := Option.some.inj hu
      exact List.mem_cons_self
  | signal hlate =>
    refine ⟨h.signal ht hlate rfl hfiled, fun u hu => ?_⟩
    obtain rfl := Option.some.inj hu
    exact List.mem_cons_self
  | confirm hrun =>
    refine ⟨{ h with filed := hfiled, answered := fun x hx => ?_ }, fun u hu => nomatch hu⟩
    obtain rfl | hx := List.mem_cons.mp hx
    · exact ht
    · exact h.answered x hx

end Watched

/-- The invariant holds whatever the order of the turns. -/
theorem stable_watched : Stable Watched fun w t => t.Prepared w where
  start := by
    -- The first store has no runs, and nothing was done yet.
    have hnone : ∀ script id run, Store.run? {} script id ≠ some run := fun _ _ _ hrun => nomatch hrun
    refine ⟨⟨fun _ _ _ hrun => absurd hrun (hnone _ _ _), fun _ _ _ _ _ hrun _ =>
      absurd hrun (hnone _ _ _), ?_⟩, ?_, ?_, ?_, ?_, ?_, ?_⟩
    all_goals exact fun _ h => absurd h List.not_mem_nil
  read _ _ _ _ := trivial
  cancel _ _ _ _ := trivial
  edit w e h := { h with filed := h.filed.edit e }
  turn _ _ _ _ _ hfresh h ht hturns := h.turn hfresh ht hturns
  later w w' t hlater ht := by
    cases t with
    | conclude | release => exact hlater.executed ht
    | signal => exact hlater.granted ht
    | confirm => exact hlater.lookups ht
    | read | record | register | start | execute | cancel => trivial

/-! ## Look-ups

A cancellation looks up the function of its run and calls it. Those that have been granted are counted, so
that each can be told to have found a function or to have come too early. -/

/-- The run whose function a task is about to look up. -/
def Task.signal? : Task → Option Text
  | .signal _ run => some run
  | _ => none

/-- The runs whose function is or was looked up. -/
def World.signals (w : World) : List Text :=
  w.tasks.filterMap Task.signal? ++ w.shared.journal.lookups.map Prod.fst

/-- A function is looked up only where the cancellation was granted. -/
theorem granted_of_mem_signals {w : World} (h : w.Satisfies Watched fun w t => t.Prepared w) {run : Text}
    (hrun : run ∈ w.signals) : run ∈ w.shared.journal.granted := by
  obtain htask | hlookup := List.mem_append.mp hrun
  · obtain ⟨t, ht, hsignal⟩ := List.mem_filterMap.mp htask
    have hprepared := h.2 t ht
    cases t with
    | signal script id =>
      obtain rfl := Option.some.inj hsignal
      exact hprepared
    | read | record | register | start | execute | conclude | release | cancel | confirm =>
      exact nomatch hsignal
  · obtain ⟨x, hx, rfl⟩ := List.mem_map.mp hlookup
    exact h.1.lookups x hx

/-- Signals are counted task by task. -/
theorem signals_split {before middle after : List Task} {w : World}
    (h : w.tasks = before ++ middle ++ after) :
    w.signals = before.filterMap Task.signal? ++ (middle.filterMap Task.signal? ++
      (after.filterMap Task.signal? ++ w.shared.journal.lookups.map Prod.fst)) := by
  rw [World.signals, h]
  simp

/-- A turn may begin a look-up that is the only one for its run, or carry one out. -/
theorem nodup_signals_turn {w w' : World} {before after : List Task} {t : Task} {rest : Option Task}
    {o : Outside} (hsat : w.Satisfies Watched fun w t => t.Prepared w)
    (hbefore : w.tasks = before ++ [t] ++ after) (hafter : w'.tasks = before ++ rest.toList ++ after)
    (hturns : Turns o w.shared t w'.shared rest) (hnodup : w.signals.Nodup) : w'.signals.Nodup := by
  have hgranted : ∀ run ∈ w.signals, run ∈ w.shared.journal.granted :=
    fun run hrun => granted_of_mem_signals hsat hrun
  rw [signals_split hbefore] at hnodup hgranted
  rw [signals_split hafter]
  generalize before.filterMap Task.signal? = earlier at hnodup hgranted ⊢
  generalize after.filterMap Task.signal? = later at hnodup hgranted ⊢
  obtain ⟨shared', tasks'⟩ := w'
  dsimp only at hturns ⊢
  cases hturns with
  | refused =>
    refine hnodup.sublist (List.Sublist.append_left ?_ earlier)
    exact List.sublist_append_right _ _
  | @cancel script id run hrun hactive =>
    -- The run was active, so no cancellation of it was granted before.
    have hnew : id ∉ w.shared.journal.granted := by
      intro hid
      have hstate := (hsat.1.filed.granted id hid).2 script run hrun
      rw [hactive] at hstate
      exact nomatch hstate
    exact List.nodup_middle.mpr (List.nodup_cons.mpr ⟨fun hid => hnew (hgranted id hid), hnodup⟩)
  | @signal script run late hlate =>
    show (earlier ++ (later ++ run :: w.shared.journal.lookups.map Prod.fst)).Nodup
    rw [← List.append_assoc, List.nodup_middle, List.append_assoc]
    exact List.nodup_middle.mp hnodup
  | record howner hl hrest =>
    obtain rfl | rfl := hrest
    all_goals exact hnodup
  | conclude hrest =>
    obtain rfl | rfl := hrest
    all_goals exact hnodup
  | read | register | start | execute | release | confirm => exact hnodup

/-- No two requests look for the function of the same run: the cancellation of a run is granted once. -/
theorem nodup_signals {w : World} (h : Reachable w) : w.signals.Nodup := by
  refine @reachable_induction (fun w => w.signals.Nodup) List.nodup_nil
    (fun w m w' hw hnodup hm => ?_) w h
  -- A request that arrives has not been granted anything.
  have harrive : ∀ u : Task, u.signal? = none →
      World.signals { w with tasks := w.tasks ++ [u] } = w.signals := by
    intro u hu
    rw [World.signals, List.filterMap_append, List.filterMap_cons_none hu, List.filterMap_nil,
      List.append_nil]
    rfl
  cases m with
  | edit e =>
    cases hm
    exact hnodup
  | createRun | runScript | cancelRun =>
    cases hm
    rw [harrive _ rfl]
    exact hnodup
  | turn i o =>
    obtain ⟨before, t, after, rest, hbefore, hafter, -, hturns⟩ := World.move_turn hm
    rw [List.append_cons] at hbefore
    exact nodup_signals_turn (stable_watched.reachable hw) hbefore hafter hturns hnodup

/-! ## What is stopped

A granted cancellation stops its run if it comes after the registration, and only then. -/

/-- A request to cancel a run that was answered with success. If it has looked for the function after that
was entered, the context of the run is cancelled; if it came before, nothing stops the run before its end.
Either way the cancellation stays recorded as long as the run is stored. -/
theorem cancel_stops {w : World} (h : Reachable w) {run : Text} {late : Bool}
    (hanswered : (run, late) ∈ w.shared.journal.answered) :
    (late = true → run ∈ w.shared.cancelled) ∧
    (late = false → run ∈ w.shared.cancelled → w.shared.Ended run) ∧
    ∀ script found, w.shared.store.run? script run = some found → found.state = .cancelled := by
  have hw := (stable_watched.reachable h).1
  have hlookup := hw.answered _ hanswered
  refine ⟨fun hlate => hw.late run (hlate ▸ hlookup), fun hlate hcancelled => ?_,
    (hw.filed.granted run (hw.lookups _ hlookup)).2⟩
  obtain hended | hother := hw.cancelled run hcancelled
  · exact hended
  · -- The look-up that has cancelled the context would be a second one.
    have hnodup := (List.nodup_append.mp (nodup_signals h)).2.1
    have heq := List.inj_on_of_nodup_map hnodup hlookup hother rfl
    rw [hlate] at heq
    exact nomatch (Prod.mk.inj heq).2

/-- Whoever was told of success has stopped the run, or the run was over. -/
def World.Stopped (w : World) : Prop :=
  ∀ x ∈ w.shared.journal.answered, x.1 ∈ w.shared.cancelled ∨ w.shared.Ended x.1

/-- A run is cancelled after it was recorded and before its function is entered. -/
def lost : List Move :=
  [.edit (.create "a" "1;" "" ⟨0, "0f3"⟩),
    .createRun "a",
    .turn 0 { stamp := ⟨1, "d41"⟩ },
    .turn 0 { stamp := ⟨2, "d41"⟩ },
    .cancelRun "a" "d41",
    .turn 1 { stamp := ⟨3, "5ce"⟩ },
    .turn 1 { stamp := ⟨4, "5ce"⟩ },
    .turn 1 { stamp := ⟨5, "5ce"⟩ },
    .turn 0 { stamp := ⟨6, "5ce"⟩ },
    .turn 0 { stamp := ⟨7, "5ce"⟩ }]

/-- The request was answered with success, and the run is about to be executed in a context that nobody
has cancelled. -/
theorem cancel_lost : ∃ w l, World.play {} lost = some w ∧ Reachable w ∧
    w.tasks = [.execute .request l] ∧ l.run.id ∉ w.shared.cancelled ∧ ¬ w.Stopped := by
  refine ⟨_, _, rfl, ⟨lost, rfl⟩, rfl, List.not_mem_nil, fun hstopped => ?_⟩
  obtain hcancelled | ⟨l, hl, -⟩ := hstopped _ List.mem_cons_self
  · exact absurd hcancelled List.not_mem_nil
  · exact absurd hl List.not_mem_nil

/-- A request to cancel that comes after the run was started. -/
def inTime : List Move :=
  [.edit (.create "a" "1;" "" ⟨0, "0f3"⟩),
    .createRun "a",
    .turn 0 { stamp := ⟨1, "d41"⟩ },
    .turn 0 { stamp := ⟨2, "d41"⟩ },
    .turn 0 { stamp := ⟨3, "5ce"⟩ },
    .turn 0 { stamp := ⟨4, "5ce"⟩ },
    .cancelRun "a" "d41",
    .turn 1 { stamp := ⟨5, "5ce"⟩ },
    .turn 1 { stamp := ⟨6, "5ce"⟩ },
    .turn 1 { stamp := ⟨7, "5ce"⟩ }]

/-- A cancellation that comes in time. -/
theorem cancel_stops_inTime : ∃ w l, World.play {} inTime = some w ∧
    w.tasks = [.execute .request l] ∧ l.run.id ∈ w.shared.cancelled := by
  obtain ⟨w, l, hplay, htasks, hanswered⟩ : ∃ w l, World.play {} inTime = some w ∧
      w.tasks = [.execute .request l] ∧ (l.run.id, true) ∈ w.shared.journal.answered :=
    ⟨_, _, rfl, rfl, List.mem_cons_self⟩
  exact ⟨w, l, hplay, htasks, (cancel_stops ⟨inTime, hplay⟩ hanswered).1 rfl⟩

end Mundart.Interleaving
