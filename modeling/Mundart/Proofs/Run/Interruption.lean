import Mundart.Proofs.Run.Mirroring

/-!
# Cancelled runs

A run that is cancelled during a fetch is the undisturbed run cut off after the statement that made the
fetch. The statement is found by its number: the first one after which the run under a limit has made the
fetch.

* **`Reflected`**, **`runStatements_reflected`** — a whole run, with its failures on record, beside the
  undisturbed one under every limit;
* **`FetchedAfter`**, **`CutOff`** — when a fetch is made, and what a run leaves that is cut off there;
* **`FetchedAfter.ends`**, **`cutOff_of_ended`** — a cancelled run comes to its end, and there it is cut off;
* **`runProgram_cancelled`** — nothing starts after a cancellation.
-/

namespace Mundart

open Mundart.Action

variable {s : Settings} {k : Nat}

/-! ## Statements on the top level

Here the run itself looks at the interruption, before every statement, and failures are recorded. Both sides
record the same, except for the failure that ends each of them. -/

/-- A run under a limit ended before the fetch with a number. -/
def EndedBefore (k : Nat) (run : Option (Result × Machine)) : Prop :=
  ∃ r m, run = some (r, m) ∧ m.fetches ≤ k

/-- All limits below some number end a run before the fetch. -/
def EndedBelow (k : Nat) (m : Machine) (n : Nat) (y : Nat → Option (Result × Machine)) : Prop :=
  ∀ j, 0 < j → m.steps ≤ j → j < n → EndedBefore k (y j)

/-- How a cancelled run ends that starts with the machine `m`, beside the undisturbed run under every
limit. Where the cancellation stops it, the other one exceeds its limit, and only that failure is recorded
and noted: the statement may not have been counted any more, or it was the first one that is too much. -/
inductive Reflected (k : Nat) (m : Machine) (y : Nat → Option (Result × Machine)) :
    Option (Result × Machine) → Prop where
  | unended (h : ∀ j, 0 < j → m.steps ≤ j → y j = none ∨ EndedBefore k (y j)) : Reflected k m y none
  | ended {r : Result} {m' : Machine} (hr : r.stop = none) (hm' : m'.Timed k)
      (hsteps : m.steps ≤ m'.steps) (hcut : EndedBelow k m m'.steps y)
      (hsame : ∀ j, 0 < j → m'.steps ≤ j → y j = some (r, m'.undisturbed)) :
      Reflected k m y (some (r, m'))
  | stopped {r : Result} {m' : Machine} {n : Nat} (node : Text) (hm' : m'.Timed k)
      (hmade : k < m'.fetches) (hn : 0 < n) (hsteps : m.steps ≤ n) (hleast : n ≤ m'.steps)
      (hmost : m'.steps ≤ n + 1) (hcut : EndedBelow k m n y)
      (hlimit : y n = some
        ({ r with failures := .stepLimit n :: r.failures, stop := some (.stepLimit n) },
          { m' with steps := n + 1, events := .failed node (.stepLimit n) :: m'.events
                    interruption := none })) :
      Reflected k m y (some ({ r with stop := some (.cancelled .cancelled) }, m'))

/-- A run that goes on after a statement. -/
theorem Reflected.after {m m₁ : Machine} {y z : Nat → Option (Result × Machine)}
    {out : Option (Result × Machine)} (h : Reflected k m₁ z out) (hsteps : m.steps ≤ m₁.steps)
    (hcut : EndedBelow k m m₁.steps y) (hsame : ∀ j, m₁.steps ≤ j → y j = z j) : Reflected k m y out := by
  -- A limit below the steps of the first statement ends it, a higher one lets it pass.
  have hbelow : ∀ {n}, EndedBelow k m₁ n z → EndedBelow k m n y := by
    intro n hn j hpos hj hlt
    by_cases hearly : j < m₁.steps
    · exact hcut j hpos hj hearly
    · rw [hsame j (by omega)]
      exact hn j hpos (by omega) hlt
  cases h with
  | unended h =>
    refine .unended fun j hpos hj => ?_
    by_cases hearly : j < m₁.steps
    · exact .inr (hcut j hpos hj hearly)
    · rw [hsame j (by omega)]
      exact h j hpos (by omega)
  | ended hr hm' hle hcut' hend =>
    refine .ended hr hm' (by omega) (hbelow hcut') fun j hpos hj => ?_
    rw [hsame j (by omega)]
    exact hend j hpos hj
  -- The fetch is made behind the statement, so that the limit that shows it lets the statement pass.
  | @stopped _ _ n node hm' hmade hn hle hleast hmost hcut' hlimit =>
    refine .stopped node hm' hmade hn (by omega) hleast hmost (hbelow hcut') ?_
    rw [hsame n hle]
    exact hlimit

/-- A failure that does not stop the run is recorded, and the next statement follows. -/
theorem runStatements_of_failed {fuel : Nat} {n : Node} {ns : Program} {r : Result} {m m₁ : Machine}
    {f : Failure} (hm : m.interruption = none) (hrun : exec fuel n s m = .failed f m₁) (hf : ¬ f.Stops) :
    runStatements fuel s (n :: ns) r m = runStatements fuel s ns { r with failures := f :: r.failures }
      { m₁ with events := .failed n.kind f :: m₁.events } := by
  rw [runStatements, hm, hrun]
  cases f with
  | interrupted cause => exact absurd trivial hf
  | stepLimit max => exact absurd trivial hf
  | _ => rfl

/-- The step limit is recorded as the failure of the statement on the top level, and ends the run. -/
theorem runStatements_of_stepLimit {fuel : Nat} {n : Node} {ns : Program} {r : Result} {m m₁ : Machine}
    {max : Int} (hm : m.interruption = none) (hrun : exec fuel n s m = .failed (.stepLimit max) m₁) :
    runStatements fuel s (n :: ns) r m =
      some ({ r with failures := .stepLimit max :: r.failures, stop := some (.stepLimit max) },
        { m₁ with events := .failed n.kind (.stepLimit max) :: m₁.events }) := by
  rw [runStatements, hm, hrun]

/-- A cancelled run is the undisturbed one as far as it comes. -/
theorem runStatements_reflected (hs : s.Calm) (fuel : Nat) (ns : Program) :
    ∀ (r : Result) (m : Machine), r.stop = none → m.Timed k →
    Reflected k m (fun j => runStatements (fuel + 1) (s.limitedTo j) ns r m.undisturbed)
      (runStatements (fuel + 1) (s.cancelledBy k) ns r m) := by
  -- By induction on the statements that are left; the first one is mirrored, and then the others go on
  -- where it has ended.
  induction ns with
  | nil =>
    intro r m hr hm
    refine .ended hr hm (Nat.le_refl _) (fun j _ hj hlt => ?_) fun _ _ _ => rfl
    exact absurd hlt (by omega)
  | cons n ns ih =>
    intro r m hr hm
    have hfree : m.undisturbed.interruption = none := rfl
    have hbelow : ∀ {l}, CutBelow k m l
        (fun j => exec (fuel + 1) n (s.limitedTo j) m.undisturbed) →
        EndedBelow k m l (fun j => runStatements (fuel + 1) (s.limitedTo j) (n :: ns) r m.undisturbed) := by
      intro l hcut j hpos hj hlt
      obtain ⟨m₁, hfailed, hmade⟩ := hcut j hpos hj hlt
      exact ⟨_, _, runStatements_of_stepLimit hfree hfailed, hmade⟩
    have hinterruption := hm.interruption
    by_cases hmade : k < m.fetches
    -- The fetch came before: the run ends here, and the limit allows no further statement either.
    · rw [if_pos hmade] at hinterruption
      have hlimit : exec (fuel + 1) n (s.limitedTo m.steps) m.undisturbed =
          .failed (.stepLimit m.steps) { m.undisturbed with steps := m.steps + 1 } :=
        bind_of_failed (tick_at_limit (hm.begun hmade) (Nat.le_refl _))
      rw [runStatements, hinterruption]
      exact .stopped n.kind hm hmade (hm.begun hmade) (Nat.le_refl _) (Nat.le_refl _) (Nat.le_succ _)
        (fun j _ hj hlt => absurd hlt (by omega)) (runStatements_of_stepLimit hfree hlimit)
    · rw [if_neg hmade] at hinterruption
      have hexec := exec_mirrored hs hm fuel n
      -- The fetch is still to come, so the statement begins on both sides.
      cases hrun : exec (fuel + 1) n (s.cancelledBy k) m with
      | starved =>
        rw [hrun] at hexec
        rw [runStatements, hinterruption, hrun]
        cases hexec with
        | starved h =>
          refine .unended fun j hpos hj => ?_
          obtain hstarved | ⟨m₁, hfailed, hbefore⟩ := h j hpos hj
          · exact .inl (by rw [runStatements, hfree, hstarved])
          · exact .inr ⟨_, _, runStatements_of_stepLimit hfree hfailed, hbefore⟩
      | done flow m₁ =>
        rw [hrun] at hexec
        rw [runStatements, hinterruption, hrun]
        cases hexec with
        | done hm₁ hsteps hcut hsame =>
          cases flow with
          | next v =>
            refine (ih { r with value := v } m₁ hr hm₁.timed).after hsteps (hbelow hcut) fun j hj => ?_
            rw [runStatements, hfree, hsame j hj]
          | returned v =>
            refine .ended hr hm₁.timed hsteps (hbelow hcut) fun j _ hj => ?_
            rw [runStatements, hfree, hsame j hj]
      | failed f m₁ =>
        rw [hrun] at hexec
        cases hexec with
        | failed hf hm₁ hsteps hcut hsame =>
          rw [runStatements_of_failed hinterruption hrun hf]
          refine (ih { r with failures := f :: r.failures } _ hr ?_).after hsteps (hbelow hcut) fun j hj => ?_
          · exact ⟨fun _ => hm₁.begun, hm₁.interruption⟩
          · exact runStatements_of_failed hfree (hsame j hj) hf
        | interrupted hm₁ hmade₁ hn hcount hsteps hcut hlimit =>
          rw [runStatements, hinterruption, hrun]
          refine .stopped n.kind hm₁.timed hmade₁ hn hsteps (by omega) (by omega) (hbelow hcut) ?_
          rw [runStatements_of_stepLimit hfree hlimit, ← hcount]
          rfl

/-! ## Runs

A run is its statements, from a machine that counts from zero, with the output and the notes of this run.
Within two bounds it has one result. -/

/-- A run ends with what its statements leave. -/
theorem runProgram_of_statements {fuel : Nat} {program : Program} {r : Result} {m m' : Machine}
    (h : runStatements fuel s program {} m.restart = some (r, m')) :
    runProgram fuel s program m = some ({ r with
      failures := r.failures.reverse, steps := m'.steps
      output := m'.outputSince m.printed.length }, m') := by
  rw [runProgram, h]
  rfl

/-- Bounds of the evaluators make no difference to how a run ends. -/
theorem runProgram_unique {fuel fuel' : Nat} {program : Program} {m : Machine}
    {out out' : Result × Machine} (h : runProgram fuel s program m = some out)
    (h' : runProgram fuel' s program m = some out') : out = out' := by
  have hleft := runProgram_extends (le_max_left fuel fuel') h
  have hright := runProgram_extends (le_max_right fuel fuel') h'
  exact Option.some.inj (hleft.symm.trans hright)

/-! ## The statement that makes a fetch

Under a limit of `n` a run makes its first `n` statements. So the least `n` for which it makes the fetch is
the number of the statement that does. -/

/-- The undisturbed run makes the fetch with a number in its statement number `n`: the first `n` statements
make it, and end as given, but no fewer statements do. -/
structure FetchedAfter (s : Settings) (k : Nat) (program : Program) (m : Machine) (n : Nat) (r : Result)
    (m' : Machine) : Prop where
  pos : 0 < n
  run : ∃ fuel, runProgram fuel (s.limitedTo n) program m = some (r, m')
  made : k < m'.fetches
  before : ∀ j fuel r₁ m₁, 0 < j → j < n →
    runProgram fuel (s.limitedTo j) program m = some (r₁, m₁) → m₁.fetches ≤ k

/-- A run is cut off after its first `n` statements, which by themselves end with `r₀` and `m₀`. It is
stopped if they are not all there are, and then it may have counted the statement that was not begun. -/
structure CutOff (n : Nat) (r₀ : Result) (m₀ : Machine) (r : Result) (m : Machine) : Prop where
  least : n ≤ r.steps
  most : r.steps ≤ n + 1
  output : r.output = r₀.output
  value : r.value = r₀.value
  scope : m.scope = m₀.scope
  fetches : m.fetches = m₀.fetches
  random : m.random = m₀.random
  stopped : r₀.stop = some (.stepLimit n) →
    r.stop = some (.cancelled .cancelled) ∧ r₀.failures = r.failures ++ [.stepLimit n]
  finished : r₀.stop ≠ some (.stepLimit n) → r.stop = none ∧ r.failures = r₀.failures ∧ r.steps = n

section

variable {program : Program} {m : Machine}

/-- A run makes a fetch at one time only. -/
theorem FetchedAfter.unique {n n' : Nat} {r r' : Result} {m₀ m₀' : Machine}
    (h : FetchedAfter s k program m n r m₀) (h' : FetchedAfter s k program m n' r' m₀') :
    n = n' ∧ r = r' ∧ m₀ = m₀' := by
  obtain ⟨fuel, hrun⟩ := h.run
  obtain ⟨fuel', hrun'⟩ := h'.run
  have hsame : n = n' := by
    -- If one limit were lower, the fetch would not have been made under it.
    rcases Nat.lt_trichotomy n n' with hlt | heq | hgt
    · have hbefore := h'.before n fuel r m₀ h.pos hlt hrun
      exact absurd h.made (Nat.not_lt.mpr hbefore)
    · exact heq
    · have hbefore := h.before n' fuel' r' m₀' h'.pos hgt hrun'
      exact absurd h'.made (Nat.not_lt.mpr hbefore)
  subst hsame
  exact ⟨rfl, Prod.mk.inj (runProgram_unique hrun hrun')⟩

/-- A run that ended before the fetch has not made it. -/
theorem EndedBefore.fetches_le {fuel fuel' : Nat} {t : Settings} {r : Result} {m' : Machine}
    (h : EndedBefore k (runStatements fuel t program {} m.restart))
    (hrun : runProgram fuel' t program m = some (r, m')) : m'.fetches ≤ k := by
  obtain ⟨r₁, m₁, hended, hbefore⟩ := h
  obtain ⟨-, rfl⟩ := Prod.mk.inj (runProgram_unique (runProgram_of_statements hended) hrun)
  exact hbefore

/-- A run starts undisturbed if nobody has cancelled it before. -/
theorem runProgram_reflected (hs : s.Calm) (hm : m.interruption = none) (hk : m.fetches ≤ k)
    (program : Program) (fuel : Nat) :
    Reflected k m.restart (fun j => runStatements (fuel + 1) (s.limitedTo j) program {} m.restart)
      (runStatements (fuel + 1) (s.cancelledBy k) program {} m.restart) := by
  have htimed : m.restart.Timed k := by
    have hlater : ¬ k < m.restart.fetches := Nat.not_lt.mpr hk
    refine ⟨fun hmade => absurd hmade hlater, ?_⟩
    rw [if_neg hlater]
    exact hm
  -- Nobody has cancelled this machine, so that there is nothing to undo.
  have hstart : m.restart.undisturbed = m.restart := by
    unfold Machine.restart Machine.undisturbed
    rw [hm]
  have hreflected := runStatements_reflected hs fuel program {} m.restart rfl htimed
  rw [hstart] at hreflected
  exact hreflected

/-- A run that is cancelled comes to its end. -/
theorem FetchedAfter.ends (hs : s.Calm) (hm : m.interruption = none) (hk : m.fetches ≤ k) {n : Nat}
    {r₀ : Result} {m₀ : Machine} (h : FetchedAfter s k program m n r₀ m₀) :
    ∃ fuel r m', runProgram fuel (s.cancelledBy k) program m = some (r, m') := by
  obtain ⟨fuel, hrun⟩ := h.run
  have hlimited := runProgram_extends (Nat.le_succ fuel) hrun
  have hreflected := runProgram_reflected hs hm hk program fuel
  cases hcancelled : runStatements (fuel + 1) (s.cancelledBy k) program {} m.restart with
  | some out => exact ⟨fuel + 1, _, _, runProgram_of_statements hcancelled⟩
  | none =>
    -- Otherwise the limited run would have no end, or one before the fetch.
    rw [hcancelled] at hreflected
    cases hreflected with
    | unended hnone =>
      rcases hnone n h.pos (Nat.zero_le n) with hnone | hbefore
      · rw [runProgram, hnone, Option.map_none] at hlimited
        exact absurd hlimited.symm (Option.some_ne_none _)
      · exact absurd h.made (Nat.not_lt.mpr (hbefore.fetches_le hlimited))

/-- A run that may be cancelled ends by itself without making the fetch, or it is cut off after the
statement that makes it. -/
theorem cutOff_of_ended (hs : s.Calm) (hm : m.interruption = none) (hk : m.fetches ≤ k) {fuel : Nat}
    {r : Result} {m' : Machine} (h : runProgram fuel (s.cancelledBy k) program m = some (r, m')) :
    (r.stop = none ∧ ∀ n r₀ m₀, ¬ FetchedAfter s k program m n r₀ m₀) ∨
    ∃ n r₀ m₀, FetchedAfter s k program m n r₀ m₀ ∧ CutOff n r₀ m₀ r m' := by
  obtain ⟨⟨r₁, m₁⟩, hrun, hend⟩ := Option.map_eq_some_iff.mp (runProgram_extends (Nat.le_succ fuel) h)
  obtain ⟨rfl, rfl⟩ := Prod.mk.inj hend
  have hreflected := runProgram_reflected hs hm hk program fuel
  rw [hrun] at hreflected
  -- The cancelled run came to its end by itself or was stopped.
  cases hreflected with
  | ended hr hm₁ _ hcut hsame =>
    by_cases hmade : k < m₁.fetches
    · have hlimited := hsame m₁.steps (hm₁.begun hmade) (Nat.le_refl _)
      refine .inr ⟨m₁.steps, _, _,
        ⟨hm₁.begun hmade, ⟨fuel + 1, runProgram_of_statements hlimited⟩, hmade, ?_⟩, ?_⟩
      · intro j fuel' r₂ m₂ hpos hlt hrun'
        exact (hcut j hpos (Nat.zero_le j) hlt).fetches_le hrun'
      · refine ⟨Nat.le_refl _, Nat.le_succ _, rfl, rfl, rfl, rfl, rfl, fun hlimit => ?_,
          fun _ => ⟨hr, rfl, rfl⟩⟩
        exact absurd (hr.symm.trans hlimit) (by simp)
    · refine .inl ⟨hr, fun n r₀ m₀ hfetched => ?_⟩
      obtain ⟨fuel', hrun'⟩ := hfetched.run
      have hbefore : EndedBefore k (runStatements (fuel + 1) (s.limitedTo n) program {} m.restart) := by
        by_cases hlt : n < m₁.steps
        · exact hcut n hfetched.pos (Nat.zero_le n) hlt
        · exact ⟨_, _, hsame n hfetched.pos (Nat.le_of_not_lt hlt), Nat.le_of_not_lt hmade⟩
      exact absurd hfetched.made (Nat.not_lt.mpr (hbefore.fetches_le hrun'))
  | @stopped r₂ _ n node _ hmade hn _ hleast hmost hcut hlimit =>
    refine .inr ⟨n, _, _, ⟨hn, ⟨fuel + 1, runProgram_of_statements hlimit⟩, hmade, ?_⟩, ?_⟩
    · intro j fuel' r₂ m₂ hpos hlt hrun'
      exact (hcut j hpos (Nat.zero_le j) hlt).fetches_le hrun'
    · refine ⟨hleast, hmost, rfl, rfl, rfl, rfl, rfl, fun _ => ⟨rfl, ?_⟩, fun hfree => absurd rfl hfree⟩
      exact List.reverse_cons

/-- If some number of statements makes the fetch, there is a least one. -/
theorem FetchedAfter.exists_of_made {n fuel : Nat} {r : Result} {m₀ : Machine} (hn : 0 < n)
    (hrun : runProgram fuel (s.limitedTo n) program m = some (r, m₀)) (hmade : k < m₀.fetches) :
    ∃ n' ≤ n, ∃ r' m₀', FetchedAfter s k program m n' r' m₀' := by
  induction n using Nat.strongRecOn generalizing fuel r m₀ with
  | ind n ih =>
    -- If fewer statements make the fetch too, there is a least number below theirs.
    by_cases hless : ∃ j fuel₁ r₁ m₁, 0 < j ∧ j < n ∧
        runProgram fuel₁ (s.limitedTo j) program m = some (r₁, m₁) ∧ k < m₁.fetches
    · obtain ⟨j, fuel₁, r₁, m₁, hpos, hlt, hrun₁, hmade₁⟩ := hless
      obtain ⟨n', hle, hfetched⟩ := ih j hlt hpos hrun₁ hmade₁
      exact ⟨n', by omega, hfetched⟩
    · refine ⟨n, Nat.le_refl n, r, m₀, hn, ⟨fuel, hrun⟩, hmade, fun j fuel₁ r₁ m₁ hpos hlt hrun₁ => ?_⟩
      exact Nat.le_of_not_lt fun hmade₁ => hless ⟨j, fuel₁, r₁, m₁, hpos, hlt, hrun₁, hmade₁⟩

end

/-! ## Cancellation

The three ways in which a run may meet a cancellation: before it begins, during a fetch that it makes, and
not at all. -/

/-- Nothing starts after a cancellation. A run that was cancelled before it began counts and does nothing,
and it says so if there is a statement to run. A run that is cancelled during a fetch comes to its end and
is cut off after the statement `n` that made the fetch: it leaves what the first `n` statements of the
undisturbed run leave, it has counted at most one statement more, and it was stopped exactly if there is a
further statement. If it does not make the fetch it is not stopped. On the error stream there are the
recorded failures only, and an interruption is never among them. -/
theorem runProgram_cancelled (hs : s.Polite) (hmax : s.maxSteps ≤ 0)
    (huncancelled : ∀ i url, (s.fetcher i url).cancels = false) {source : Text} {program : Program}
    (hparse : Program.parse source = .ok program) {m : Machine} (hscope : Session.Reachable m.scope) :
    (∀ cause, m.interruption = some cause → ∀ fuel, runProgram fuel s program m =
      some ({ stop := if program.isEmpty then none else some (.cancelled cause) }, m.restart)) ∧
    (m.interruption = none → ∀ k, m.fetches ≤ k →
      (∀ n, 0 < n → ∃ fuel r₀ m₀, runProgram fuel (s.limitedTo n) program m = some (r₀, m₀) ∧
        (k < m₀.fetches → ∃ n' ≤ n, ∃ r₁ m₁, FetchedAfter s k program m n' r₁ m₁ ∧
          ∃ fuel r m', runProgram fuel (s.cancelledBy k) program m = some (r, m') ∧
            CutOff n' r₁ m₁ r m')) ∧
      ∀ fuel r m', runProgram fuel (s.cancelledBy k) program m = some (r, m') →
        (r.stop = none ∧ ∀ n r₀ m₀, ¬ FetchedAfter s k program m n r₀ m₀) ∨
        ∃ n r₀ m₀, FetchedAfter s k program m n r₀ m₀ ∧ CutOff n r₀ m₀ r m') ∧
    ∀ t fuel r m', runProgram fuel t program m = some (r, m') →
      (m'.notesSince m.events.length).filterMap Log.Note.told? = r.diagnostics ∧
        ∀ cause, Failure.interrupted cause ∉ r.failures := by
  have hcalm : s.Calm := hs.calm hmax huncancelled
  refine ⟨fun cause hm fuel => ?_, fun hm k hk => ⟨fun n hn => ?_, fun fuel r m' h => ?_⟩,
    fun t fuel r m' h => runProgram_told h⟩
  · have hrestart : m.restart.interruption = some cause := hm
    -- Nothing is printed between the restart and the end.
    have hnothing : m.restart.outputSince m.restart.printed.length = [] := by
      unfold Machine.outputSince
      rw [Nat.sub_self, List.take_zero]
      rfl
    cases program with
    | nil =>
      show some (_, m.restart) = _
      rw [hnothing]
      rfl
    | cons n ns =>
      rw [runProgram]
      dsimp only
      rw [runStatements, hrestart, Option.map_some]
      show some (_, m.restart) = _
      rw [hnothing]
      rfl
  · obtain ⟨fuel, r₀, m₀, hrun⟩ : ∃ fuel r₀ m₀, runProgram fuel (s.limitedTo n) program m = some (r₀, m₀) :=
      runProgram_ends (s := s.limitedTo n) hs (Int.natCast_pos.mpr hn) (Grammar.formed_of_parse hparse)
        hscope.sound
    refine ⟨fuel, r₀, m₀, hrun, fun hmade => ?_⟩
    obtain ⟨n', hle, r₁, m₁, hfetched⟩ := FetchedAfter.exists_of_made hn hrun hmade
    obtain ⟨fuel', r, m', hcancelled⟩ := hfetched.ends hcalm hm hk
    refine ⟨n', hle, r₁, m₁, hfetched, fuel', r, m', hcancelled, ?_⟩
    -- The run was cut off behind the fetch that the limited runs show.
    obtain ⟨-, hnever⟩ | ⟨n₂, r₂, m₂, hfetched₂, hcut⟩ := cutOff_of_ended hcalm hm hk hcancelled
    · exact absurd hfetched (hnever n' r₁ m₁)
    · obtain ⟨rfl, rfl, rfl⟩ := hfetched.unique hfetched₂
      exact hcut
  · exact cutOff_of_ended hcalm hm hk h

/-- `geh weida (basst) { holma("x"); };` never ends by itself. Its second fetch cancels it, in the third
statement if the loop is the first one: the fourth one is counted, but not run. If the run was cancelled
before, it does nothing. -/
theorem runProgram_cancelled_fetching :
    let s : Settings := { fetcher := fun _ _ => { result := .ok .absent } }
    let program : Program := [.whileLoop (.literal (.bool true)) [.fetch (.literal (.text "x"))]]
    Program.parse "geh weida (basst) \x7b holma(\"x\"); \x7d;" = .ok program ∧
      (∃ n r₀ m₀ r m', runProgram 12 (s.cancelledBy 1) program {} = some (r, m') ∧ r.steps = 4 ∧
        r.stop = some (.cancelled .cancelled) ∧ m'.fetches = 2 ∧ FetchedAfter s 1 program {} n r₀ m₀ ∧
        CutOff n r₀ m₀ r m' ∧ (m'.notesSince 0).filterMap Log.Note.told? = r.diagnostics) ∧
      runProgram 12 s program { interruption := some .cancelled } =
        some ({ stop := some (.cancelled .cancelled) }, { interruption := some .cancelled }) := by
  intro s program
  have hparse : Program.parse "geh weida (basst) \x7b holma(\"x\"); \x7d;" = .ok program := rfl
  have hpolite : s.Polite := fun _ _ _ h => nomatch h
  have hscope : Session.Reachable Scope.root := .root
  -- The cancelled run is evaluated. How it was cut off is told by the theorem.
  have hcancelled : (runProgram 12 (s.cancelledBy 1) program {}).map
      (fun x => (x.1.steps, x.1.stop, x.2.fetches)) = some (4, some (.cancelled .cancelled), 2) := by
    decide +kernel
  obtain ⟨⟨r, m'⟩, hrun, hshown⟩ := Option.map_eq_some_iff.mp hcancelled
  obtain ⟨hsteps, hshown⟩ := Prod.mk.inj hshown
  obtain ⟨hstop, hfetches⟩ := Prod.mk.inj hshown
  refine ⟨hparse, ?_, ?_⟩
  · obtain ⟨-, hduring, htold⟩ := runProgram_cancelled hpolite (Int.le_refl 0) (fun _ _ => rfl) hparse
      (m := {}) hscope
    obtain ⟨-, hended⟩ := hduring rfl 1 (Nat.zero_le 1)
    obtain ⟨hnone, -⟩ | ⟨n, r₀, m₀, hfetched, hcut⟩ := hended 12 r m' hrun
    · exact absurd (hnone.symm.trans hstop) (by simp)
    · exact ⟨n, r₀, m₀, r, m', hrun, hsteps, hstop, hfetches, hfetched, hcut, (htold _ 12 r m' hrun).1⟩
  · obtain ⟨hbefore, -⟩ := runProgram_cancelled hpolite (Int.le_refl 0) (fun _ _ => rfl) hparse
      (m := { interruption := some .cancelled }) hscope
    rw [hbefore .cancelled rfl 12]
    rfl

end Mundart
