import Mundart.Proofs.Run.Fuel
import Mundart.Proofs.Run.Sound

/-!
# Laws of all evaluations

Some laws hold of every node, whether it was read or not, and in every scope.

* **`Law.everywhere`** — a law that counting and frames respect holds of all evaluations;
* **`grows`**, **`runStatements_later`** — what was printed, noted, counted and recorded stays, and as
  many calls are active afterwards as before;
* **`calm`**, **`runStatements_calm`** — without a step limit and without a cancellation nothing stops
  a run.
-/

namespace Mundart

open Mundart.Action

/-- Everything is allowed, except that some failures may be excluded which are about how far a run may go. -/
def freeAccess (fails : Failure → Prop) (h : ∀ f : Failure, ¬ f.OfRun → fails f) : Access where
  writes _ := True
  defines _ := True
  knows _ := True
  fails := fails
  evals _ := True
  execs _ := True
  loops _ _ _ := True
  tolerates f hf := h f hf.not_ofRun

section

variable {fails : Failure → Prop} {hfails : ∀ f : Failure, ¬ f.OfRun → fails f}

/-- No operation fails because of how far the run may go. -/
theorem freeAccess_covers (n : Node) : (freeAccess fails hfails).Covers n := by
  cases n with
  | binary left op right =>
    exact ⟨trivial, trivial, fun a b f hf => hfails f (Value.arithmetic_contained op a b f hf)⟩
  | unary op operand =>
    exact ⟨trivial, fun v f hf => hfails f (Value.step_contained op v f hf), fun _ _ => trivial⟩
  | comparison left op right =>
    exact ⟨trivial, trivial, fun a b f hf => hfails f (Value.compareBy_contained op a b f hf)⟩
  | chain operands ops =>
    exact ⟨fun _ _ => trivial,
      fun results _ f hf => hfails f (Value.foldChain_contained results ops f hf)⟩
  -- A node that is not there is a failure of its own, and not one of the run.
  | missing => exact hfails _ fun hrun => hrun
  | foreign kind => exact hfails _ fun hrun => hrun
  | _ => simp [Access.Covers, freeAccess]

/-- Statements need no other access than values. -/
theorem freeAccess_coversEffect (n : Node) : (freeAccess fails hfails).CoversEffect n := by
  cases n <;> simp [Access.CoversEffect, freeAccess]

/-- Turns of a loop need no other access than values. -/
theorem freeAccess_coversTurn (test : Node) (body : List Node) (update : Option Node) :
    (freeAccess fails hfails).CoversTurn test body update :=
  ⟨trivial, fun _ _ => trivial, fun _ _ => trivial, trivial⟩

/-- Evaluators respect a law if they do on every node and if frames are no matter to it. -/
theorem Evaluators.Respect.of_all {L : Law} {s : Settings} {e : Evaluators}
    (heval : ∀ n, Respects L s (e.eval n)) (hexec : ∀ n, Respects L s (e.exec n))
    (hloop : ∀ test body update, Respects L s (e.loop test body update))
    (hframe : ∀ {x : Action Flow}, Respects L s x → ∀ vars : Dict Value,
      Respects L s (inFrame { vars := vars } x)) : e.Respect L s (freeAccess fails hfails) where
  eval _ := heval _
  exec _ := hexec _
  loop _ := hloop _ _ _
  frame _ vars := hframe (respects_block (fun n _ => hexec n) _) vars

/-- A law holds of all evaluations if it holds of counting and if frames are no matter to it. -/
theorem Law.everywhere {L : Law} {s : Settings} (hL : L.Grants s (freeAccess fails hfails))
    (htick : Respects L s tick)
    (hframe : ∀ {x : Action Flow}, Respects L s x → ∀ vars : Dict Value,
      Respects L s (inFrame { vars := vars } x)) (fuel : Nat) :
    (evaluators fuel).Respect L s (freeAccess fails hfails) := by
  induction fuel with
  | zero => exact .of_all (fun _ _ _ => trivial) (fun _ _ _ => trivial) (fun _ _ _ _ _ => trivial) hframe
  | succ fuel ih =>
    refine .of_all (fun n => ?_) (fun n => ?_) (fun test body update => ?_) hframe
    · exact (value_built (freeAccess_covers n)).respects hL ih
    -- A statement counts its step before anything else.
    · refine respects_bind htick fun _ _ m' _ hm' => ?_
      exact (effect_built (freeAccess_coversEffect n)).respects hL ih m' hm'
    · exact (turn_built (freeAccess_coversTurn test body update)).respects hL ih

end

/-! ## Counting

Counting a statement is the one place where a run may be stopped: by a limit on the steps, or by a
cancellation that has come meanwhile. -/

/-- What counting a statement leads to as long as no limit is exceeded. -/
def Machine.counted (m : Machine) : Outcome Unit :=
  match m.interruption with
  | some cause => .failed (.interrupted cause) { m with steps := m.steps + 1 }
  | none => .done () { m with steps := m.steps + 1 }

/-- Below the limit a statement is counted, and an interruption is noticed. -/
theorem tick_within {s : Settings} {m : Machine} (h : s.maxSteps ≤ 0 ∨ m.steps < s.maxSteps) :
    tick s m = m.counted := by
  have hfree : (decide (0 < s.maxSteps) && decide (s.maxSteps < ((m.steps + 1 : Nat) : Int))) = false := by
    simp only [Bool.and_eq_false_iff, decide_eq_false_iff_not]
    omega
  unfold tick
  dsimp only
  rw [hfree]
  rfl

/-! ## Growth

Output, notes and records are added to and never taken away, and the number of active calls is the same
before and after. This is a law without exceptions, so that it holds of every evaluation. -/

/-- A machine some way on in a run, at the same depth of calls. -/
structure Later (m m' : Machine) : Prop where
  printed : m.printed <:+ m'.printed
  events : m.events <:+ m'.events
  steps : m.steps ≤ m'.steps
  depth : m'.depth = m.depth

namespace Later

/-- A machine is as late as itself. -/
theorem refl (m : Machine) : Later m m := ⟨List.suffix_rfl, List.suffix_rfl, le_refl _, rfl⟩

/-- What is later than a later machine is later. -/
theorem trans {m₁ m₂ m₃ : Machine} (h : Later m₁ m₂) (h' : Later m₂ m₃) : Later m₁ m₃ :=
  ⟨h.printed.trans h'.printed, h.events.trans h'.events, h.steps.trans h'.steps,
    h'.depth.trans h.depth⟩

/-- The call that was entered is left again. -/
theorem leave {m m' : Machine} {frame : Frame} (h : Later (m.enter frame) m') : Later m m'.leave := by
  have hdepth : m'.depth = m.depth + 1 := h.depth
  refine ⟨h.printed, h.events, h.steps, ?_⟩
  show m'.depth - 1 = m.depth
  omega

end Later

/-- Nothing that was printed or counted is taken back, and calls that were entered are left. -/
def growthLaw : Law where
  inv _ := True
  done := Later
  failed m _ m' := Later m m'
  refl := .refl
  trans := .trans
  after := .trans

variable {s : Settings}

/-- How something fails is no matter to the law, so it holds whatever failures are excluded. -/
theorem growthLaw_grants {fails : Failure → Prop} {hfails : ∀ f : Failure, ¬ f.OfRun → fails f}
    (hfetch : ∀ n url f, (s.fetcher n url).result = .error f → fails f) :
    growthLaw.Grants s (freeAccess fails hfails) where
  quiet hquiet _ := ⟨trivial, hquiet.printed, hquiet.events, le_of_eq hquiet.steps.symm, hquiet.depth⟩
  fail _ _ := .refl _
  fetch hf := hfetch _ _ _ hf
  function _ _ := trivial
  define _ _ _ := ⟨trivial, List.suffix_rfl, List.suffix_rfl, le_refl _, rfl⟩
  defineFunc _ _ _ := ⟨trivial, List.suffix_rfl, List.suffix_rfl, le_refl _, rfl⟩
  full _ _ := .refl _

/-- Counting a statement adds one step. -/
theorem later_tick : Respects growthLaw s tick := by
  refine respects_tick fun m _ => ?_
  have hcounted : Later m { m with steps := m.steps + 1 } :=
    ⟨List.suffix_rfl, List.suffix_rfl, Nat.le_succ _, rfl⟩
  exact ⟨trivial, hcounted, fun _ _ => hcounted⟩

/-- Every evaluation leaves a later machine, whatever may fail. -/
theorem grows {fails : Failure → Prop} {hfails : ∀ f : Failure, ¬ f.OfRun → fails f}
    (hfetch : ∀ n url f, (s.fetcher n url).result = .error f → fails f) (fuel : Nat) :
    (evaluators fuel).Respect growthLaw s (freeAccess fails hfails) := by
  refine Law.everywhere (growthLaw_grants hfetch) later_tick (fun hx vars => ?_) fuel
  refine respects_inFrame hx (fun _ _ => trivial) (fun m m' _ hlater => ?_) fun m f m' _ hlater => ?_
  · exact ⟨trivial, hlater.leave⟩
  · exact ⟨trivial, hlater.leave⟩

/-- This does not depend on how it ends. -/
theorem Law.Holds.later {α : Type} {out : Outcome α} {m m' : Machine} (h : growthLaw.Holds m out)
    (hm' : out.machine? = some m') : Later m m' := by
  obtain hdone | ⟨f, hfailed⟩ := h.ended hm'
  · exact hdone
  · exact hfailed

/-- A statement leaves a later machine, however it ends. -/
theorem exec_later {fuel : Nat} {n : Node} {m m' : Machine}
    (h : (exec fuel n s m).machine? = some m') : Later m m' := by
  have hgrows : (evaluators fuel).Respect growthLaw s (freeAccess (fun _ => True) fun _ _ => trivial) :=
    grows (fun _ _ _ _ => trivial) fuel
  have hexec : Respects growthLaw s (exec fuel n) := hgrows.exec trivial
  exact (hexec m trivial).later h

/-- A run was stopped before its first statement, or it ends with that statement, or it goes on. -/
theorem runStatements_head {fuel : Nat} {n : Node} {ns : Program} {r r' : Result} {m m' : Machine}
    (h : runStatements fuel s (n :: ns) r m = some (r', m')) :
    (∃ cause, m.interruption = some cause ∧ r'.failures = r.failures ∧ m' = m) ∨
    ∃ m₁ r₂ m₂, (exec fuel n s m).machine? = some m₁ ∧ r.failures <:+ r₂.failures ∧ Later m₁ m₂ ∧
      (r₂ = r' ∧ m₂ = m' ∨ runStatements fuel s ns r₂ m₂ = some (r', m')) := by
  -- To note a failure only adds to the events.
  have hnoted : ∀ (m₁ : Machine) (e : Event), Later m₁ { m₁ with events := e :: m₁.events } :=
    fun m₁ e => ⟨List.suffix_rfl, List.suffix_cons _ _, Nat.le_refl _, rfl⟩
  rcases runStatements_cases h with ⟨cause, hcause, rfl, rfl⟩ | ⟨v, m₁, hrun, hrest⟩ | ⟨v, hrun, rfl⟩ |
    ⟨cause, hrun, rfl⟩ | ⟨max, m₁, hrun, rfl, rfl⟩ | ⟨f, m₁, hrun, -, hrest⟩
  · exact .inl ⟨cause, hcause, rfl, rfl⟩
  all_goals
    right
    rw [hrun]
  · exact ⟨m₁, { r with value := v }, m₁, rfl, List.suffix_rfl, .refl m₁, .inr hrest⟩
  · exact ⟨m', { r with value := v, returned := true }, m', rfl, List.suffix_rfl, .refl m', .inl ⟨rfl, rfl⟩⟩
  · exact ⟨m', { r with stop := some (.cancelled cause) }, m', rfl, List.suffix_rfl, .refl m',
      .inl ⟨rfl, rfl⟩⟩
  · exact ⟨m₁, _, _, rfl, List.suffix_cons _ _, hnoted m₁ _, .inl ⟨rfl, rfl⟩⟩
  · exact ⟨m₁, _, _, rfl, List.suffix_cons _ _, hnoted m₁ _, .inr hrest⟩

/-- A run only adds to what was recorded, printed and counted. -/
theorem runStatements_later {fuel : Nat} {ns : Program} : ∀ {r r' : Result} {m m' : Machine},
    runStatements fuel s ns r m = some (r', m') → r.failures <:+ r'.failures ∧ Later m m' := by
  induction ns with
  | nil =>
    intro r r' m m' h
    obtain ⟨rfl, rfl⟩ := Prod.mk.inj (Option.some.inj h)
    exact ⟨List.suffix_rfl, .refl m⟩
  | cons n ns ih =>
    intro r r' m m' h
    rcases runStatements_head h with ⟨cause, -, hfailures, rfl⟩ |
      ⟨m₁, r₂, m₂, hrun, hfailures, hlater, ⟨rfl, rfl⟩ | hrest⟩
    · rw [hfailures]
      exact ⟨List.suffix_rfl, .refl _⟩
    · exact ⟨hfailures, (exec_later hrun).trans hlater⟩
    · obtain ⟨hmore, hend⟩ := ih hrest
      exact ⟨hfailures.trans hmore, ((exec_later hrun).trans hlater).trans hend⟩

/-- What the first statement leaves is before all that the others leave. -/
theorem runStatements_cons_later {fuel : Nat} {n : Node} {ns : Program} {r r' : Result} {m m' : Machine}
    (hm : m.interruption = none) (h : runStatements fuel s (n :: ns) r m = some (r', m')) :
    ∃ m₁, (exec fuel n s m).machine? = some m₁ ∧ r.failures <:+ r'.failures ∧ Later m₁ m' := by
  rcases runStatements_head h with ⟨cause, hcause, -⟩ |
    ⟨m₁, r₂, m₂, hrun, hfailures, hlater, ⟨rfl, rfl⟩ | hrest⟩
  · rw [hm] at hcause
    exact nomatch hcause
  · exact ⟨m₁, hrun, hfailures, hlater⟩
  · obtain ⟨hmore, hend⟩ := runStatements_later hrest
    exact ⟨m₁, hrun, hfailures.trans hmore, hlater.trans hend⟩

/-- What was put in front of a list since it had some length, part before and part after it was a
certain one. -/
theorem take_of_suffix {α : Type} {xs ys : List α} (h : xs <:+ ys) {n : Nat} (hn : n ≤ xs.length) :
    ys.take (ys.length - n) = ys.take (ys.length - xs.length) ++ xs.take (xs.length - n) := by
  obtain ⟨added, rfl⟩ := h
  have hall : (added ++ xs).length - n = added.length + (xs.length - n) := by
    rw [List.length_append]
    omega
  have hadded : (added ++ xs).length - xs.length = added.length := by
    rw [List.length_append]
    omega
  rw [hall, hadded, List.take_length_add_append, List.take_left]

/-- What was printed since some write is what an earlier machine has printed since then, and what was
printed after it. -/
theorem Machine.outputSince_of_suffix {m m' : Machine} (h : m.printed <:+ m'.printed) {n : Nat}
    (hn : n ≤ m.printed.length) :
    m'.outputSince n = m.outputSince n ++ m'.outputSince m.printed.length := by
  unfold outputSince
  rw [take_of_suffix h hn, List.reverse_append, List.flatten_append]

/-! ## Undisturbed runs

Where there is no limit on the steps and nobody cancels, nothing stops a run. Every failure is then one of
its statement, is recorded, and the run goes on. -/

/-- Settings without a step limit and with a fetcher that neither cancels a run nor stops it by the way
it fails. -/
structure Settings.Calm (s : Settings) : Prop where
  unlimited : s.maxSteps ≤ 0
  uncancelled : ∀ n url, (s.fetcher n url).cancels = false
  fetch : ∀ n url f, (s.fetcher n url).result = .error f → ¬ f.Stops

/-- The failures of a polite fetcher do not stop a run. -/
theorem Settings.Polite.calm (hs : s.Polite) (hmax : s.maxSteps ≤ 0)
    (huncancelled : ∀ n url, (s.fetcher n url).cancels = false) : s.Calm where
  unlimited := hmax
  uncancelled := huncancelled
  fetch n url f hf := (hs n url f hf).ordinary.not_stops

/-- Nothing interrupts, and failures end no more than a statement. -/
def calmLaw : Law where
  inv m := m.interruption = none
  done _ _ := True
  failed _ f _ := ¬ f.Stops
  refl _ := trivial
  trans _ _ := trivial
  after _ h := h

/-- Where nobody cancels, what is no matter does not interrupt. -/
theorem Quiet.uninterrupted {m m' : Machine} (h : Quiet s m m')
    (hs : ∀ n url, (s.fetcher n url).cancels = false) (hm : m.interruption = none) :
    m'.interruption = none := by
  rcases h.interruption with hsame | ⟨n, url, hcancels⟩
  · exact hsame.trans hm
  · rw [hs n url] at hcancels
    exact nomatch hcancels

/-- Nothing that is allowed interrupts or stops. -/
theorem calmLaw_grants (hs : s.Calm) :
    calmLaw.Grants s (freeAccess (fun f => ¬ f.Stops) fun _ => mt Failure.Stops.ofRun) where
  quiet hquiet hm := ⟨hquiet.uninterrupted hs.uncancelled hm, trivial⟩
  fail hf _ := hf
  fetch hf := hs.fetch _ _ _ hf
  function _ _ := trivial
  define _ _ hm := ⟨hm, trivial⟩
  defineFunc _ _ hm := ⟨hm, trivial⟩
  full _ _ := fun hstops => hstops

/-- So no evaluation ends with a failure that stops a run. -/
theorem calm (hs : s.Calm) (fuel : Nat) :
    (evaluators fuel).Respect calmLaw s (freeAccess (fun f => ¬ f.Stops) fun _ => mt Failure.Stops.ofRun) := by
  refine Law.everywhere (calmLaw_grants hs) (fun m hm => ?_) (fun hx vars => ?_) fuel
  · have hm' : m.interruption = none := hm
    rw [tick_within (.inl hs.unlimited), Machine.counted, hm']
    exact ⟨rfl, trivial⟩
  · exact respects_inFrame hx (fun _ hm => hm) (fun _ _ hm' h => ⟨hm', h⟩) fun _ _ _ hm' h => ⟨hm', h⟩

/-- Nothing stops an undisturbed run but its own end. -/
theorem runStatements_calm (hs : s.Calm) {fuel : Nat} {ns : Program} :
    ∀ {r r' : Result} {m m' : Machine}, m.interruption = none → r.stop = none →
    runStatements fuel s ns r m = some (r', m') → m'.interruption = none ∧ r'.stop = none := by
  induction ns with
  | nil =>
    intro r r' m m' hm hr h
    obtain ⟨rfl, rfl⟩ := Prod.mk.inj (Option.some.inj h)
    exact ⟨hm, hr⟩
  | cons n ns ih =>
    intro r r' m m' hm hr h
    have hout : calmLaw.Holds m (exec fuel n s m) := (calm hs fuel).exec trivial m hm
    rcases runStatements_cases h with ⟨cause, hcause, -⟩ | ⟨v, m₁, hrun, hrest⟩ | ⟨v, hrun, rfl⟩ |
      ⟨cause, hrun, -⟩ | ⟨max, m₁, hrun, -⟩ | ⟨f, m₁, hrun, -, hrest⟩
    · rw [hm] at hcause
      exact nomatch hcause
    · rw [hrun] at hout
      exact ih (r := { r with value := v }) hout.1 hr hrest
    · rw [hrun] at hout
      exact ⟨hout.1, hr⟩
    -- An interruption is what the law rules out,
    · rw [hrun] at hout
      exact absurd trivial hout.2
    -- and so is the limit.
    · rw [hrun] at hout
      exact absurd trivial hout.2
    · rw [hrun] at hout
      exact ih (r := { r with failures := f :: r.failures })
        (m := { m₁ with events := .failed n.kind f :: m₁.events }) hout.1 hr hrest

end Mundart
