import Mundart.Log.Event
import Mundart.Proofs.Run.Growth

/-!
# Failures on record

A failure that ends a statement is recorded with the result and told on the error stream. Nothing else is
told there, and an interruption is neither recorded nor told: it ends the run.

* **`exec_noted`** — a statement does not report its own failure;
* **`runStatements_noted`** — a run notes the failures that it records;
* **`runProgram_told`** — what is told on the error stream are the diagnostics.
-/

namespace Mundart

open Mundart.Action

variable {s : Settings}

/-- The message of a note that is told to the reader. -/
def Log.Note.told? : Log.Note → Option Text
  | .told message => some message
  | .logged _ => none

/-- Only failures of statements are told. -/
theorem filterMap_told_notes (es : List Event) :
    (es.flatMap Event.notes).filterMap Log.Note.told? =
      (es.filterMap Event.failure?).map Failure.message := by
  induction es with
  | nil => rfl
  | cons e es ih =>
    rw [List.flatMap_cons, List.filterMap_append, ih]
    cases e with
    | failed node f => rfl
    | _ => rfl

/-- No failure of a statement is noted. -/
def recordLaw : Law where
  inv _ := True
  done m m' := m'.noted = m.noted
  failed m _ m' := m'.noted = m.noted
  refl _ := rfl
  trans h h' := h'.trans h
  after h h' := h'.trans h

/-- Nothing that is allowed takes anything off the record. -/
theorem recordLaw_grants : recordLaw.Grants s (freeAccess (fun _ => True) fun _ _ => trivial) where
  quiet hquiet _ := ⟨trivial, hquiet.noted⟩
  fail _ _ := rfl
  fetch _ := trivial
  function _ _ := trivial
  define _ _ _ := ⟨trivial, rfl⟩
  defineFunc _ _ _ := ⟨trivial, rfl⟩
  full _ _ := rfl

/-- Counting a step takes nothing off the record. -/
theorem recordLaw_tick : Respects recordLaw s tick := respects_tick fun _ _ => ⟨trivial, rfl, fun _ _ => rfl⟩

/-- A statement does not report its own failure, nor one of the statements inside it. -/
theorem exec_noted {fuel : Nat} {n : Node} {m m' : Machine}
    (h : (exec fuel n s m).machine? = some m') : m'.noted = m.noted := by
  have hrespect : (evaluators fuel).Respect recordLaw s (freeAccess (fun _ => True) fun _ _ => trivial) := by
    refine Law.everywhere recordLaw_grants recordLaw_tick (fun hx vars => ?_) fuel
    exact respects_inFrame hx (fun _ _ => trivial) (fun _ _ _ hnoted => ⟨trivial, hnoted⟩)
      fun _ _ _ _ hnoted => ⟨trivial, hnoted⟩
  have hexec : recordLaw.Holds m (exec fuel n s m) := hrespect.exec trivial m trivial
  obtain hdone | ⟨f, hfailed⟩ := hexec.ended h
  · exact hdone
  · exact hfailed

/-- A run notes the failures that it records, in the same order, and none of them is an interruption. -/
theorem runStatements_noted {fuel : Nat} {ns : Program} : ∀ {r r' : Result} {m m' : Machine},
    runStatements fuel s ns r m = some (r', m') →
    ∃ fs, r'.failures = fs ++ r.failures ∧ m'.noted = fs ++ m.noted ∧
      ∀ cause, Failure.interrupted cause ∉ fs := by
  induction ns with
  | nil =>
    intro r r' m m' h
    obtain ⟨rfl, rfl⟩ := Prod.mk.inj (Option.some.inj h)
    exact ⟨[], rfl, rfl, by simp⟩
  | cons n ns ih =>
    intro r r' m m' h
    have hnoted : ∀ {m₁}, (exec fuel n s m).machine? = some m₁ → m₁.noted = m.noted := exec_noted
    -- The statement is over; one failure of it may stand in front of what is left to be recorded.
    rcases runStatements_cases h with ⟨cause, -, rfl, rfl⟩ | ⟨v, m₁, hrun, hrest⟩ | ⟨v, hrun, rfl⟩ |
      ⟨cause, hrun, rfl⟩ | ⟨max, m₁, hrun, rfl, rfl⟩ | ⟨f, m₁, hrun, hf, hrest⟩
    · exact ⟨[], rfl, rfl, by simp⟩
    all_goals rw [hrun] at hnoted
    · obtain ⟨fs, hfailures, hrecord, hnone⟩ := ih hrest
      exact ⟨fs, hfailures, by rw [hrecord, hnoted rfl], hnone⟩
    · exact ⟨[], rfl, hnoted rfl, by simp⟩
    · exact ⟨[], rfl, hnoted rfl, by simp⟩
    · refine ⟨[.stepLimit max], rfl, ?_, by simp⟩
      show .stepLimit max :: m₁.noted = _
      rw [hnoted rfl]
      rfl
    · obtain ⟨fs, hfailures, hrecord, hnone⟩ := ih hrest
      have hmore : m'.noted = fs ++ f :: m₁.noted := hrecord
      refine ⟨fs ++ [f], by rw [hfailures, List.append_assoc]; rfl, ?_, fun cause hmem => ?_⟩
      · rw [hmore, hnoted rfl, List.append_assoc]
        rfl
      · rcases List.mem_append.mp hmem with hearlier | hlast
        · exact hnone cause hearlier
        · obtain rfl := List.mem_singleton.mp hlast
          exact hf trivial

/-- What a run tells on the error stream are its diagnostics, and no interruption is among them. -/
theorem runProgram_told {fuel : Nat} {program : Program} {r : Result} {m m' : Machine}
    (h : runProgram fuel s program m = some (r, m')) :
    (m'.notesSince m.events.length).filterMap Log.Note.told? = r.diagnostics ∧
      ∀ cause, Failure.interrupted cause ∉ r.failures := by
  obtain ⟨⟨r₁, m₁⟩, hrun, hend⟩ := Option.map_eq_some_iff.mp h
  obtain ⟨rfl, rfl⟩ := Prod.mk.inj hend
  obtain ⟨fs, hfailures, hnoted, hnone⟩ := runStatements_noted hrun
  obtain ⟨-, hlater⟩ := runStatements_later hrun
  obtain ⟨added, hadded⟩ := hlater.events
  have hrecord : added.filterMap Event.failure? = fs := by
    have hall : (added ++ m.restart.events).filterMap Event.failure? = fs ++ m.restart.noted := by
      rw [hadded]
      exact hnoted
    rw [List.filterMap_append] at hall
    exact List.append_cancel_right hall
  have hfs : r₁.failures = fs := hfailures.trans (List.append_nil fs)
  refine ⟨?_, fun cause hmem => hnone cause ?_⟩
  · have htake : m₁.events.take (m₁.events.length - m.events.length) = added := by
      rw [← hadded, List.length_append]
      show (added ++ m.events).take (added.length + m.events.length - m.events.length) = added
      rw [Nat.add_sub_cancel, List.take_left]
    show ((m₁.events.take (m₁.events.length - m.events.length)).reverse.flatMap Event.notes).filterMap _ =
      r₁.failures.reverse.map Failure.message
    rw [htake, filterMap_told_notes, List.filterMap_reverse, hrecord, hfs]
  · rw [← hfs]
    exact List.mem_reverse.mp hmem

end Mundart
