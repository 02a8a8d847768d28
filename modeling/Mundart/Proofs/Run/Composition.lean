import Mundart.Log.Event
import Mundart.Proofs.Grammar.Joined
import Mundart.Proofs.Run.Coupling

/-!
# Sources one after the other

A session takes two sources one after the other as it takes both at once with a semicolon between
them: the second one goes on where the first one ended, only the counters start anew, and without a
step limit the program does not see them.

* **`runStatements_append`** — a run goes on with the statements behind its own;
* **`runStatements_behind`** — a run behind another one is the same run, with what was counted and
  recorded before it;
* **`runProgram_append`** — two programs are run one after the other;
* **`Session.eval_joined`** — the same for sources.
-/

namespace Mundart

open Mundart.Action

variable {s : Settings}

/-! ## Counting from elsewhere

A second program starts behind the steps of the first one, in the same machine. Without a limit nothing
depends on how many there were. -/

/-- A run beside one that has counted some statements before. -/
def delayed (s : Settings) (lead : Nat) : Coupling where
  left := s
  right := s
  lead := lead
  shared _ := True
  parts _ := False
  parted _ _ := True
  contained _ _ := trivial
  fetcher := rfl
  fetchFails _ _ _ _ := trivial
  writeLimit := rfl
  later _ _ := trivial
  leave _ := trivial

/-- Without a limit counting goes on from any number. -/
theorem tick_delayed (hmax : s.maxSteps ≤ 0) (lead : Nat) : (delayed s lead).Couples tick := by
  refine .of_eq (fun m => ?_) fun _ _ _ _ => trivial
  have hcount : m.steps + lead + 1 = m.steps + 1 + lead := by omega
  show tick s (m.ahead lead) = (tick s m).ahead lead
  rw [tick_within (.inl hmax), tick_within (.inl hmax)]
  unfold Machine.counted
  dsimp only [Machine.ahead]
  rw [hcount]
  cases m.interruption with
  | none => rfl
  | some cause => rfl

/-- Without a limit every evaluation goes on from any number of steps. -/
theorem evaluators_delayed (hmax : s.maxSteps ≤ 0) (lead fuel : Nat) :
    (delayed s lead).Couple (evaluators fuel) :=
  Coupling.coupled (tick_delayed hmax lead) (.checkDepth rfl trivial) fuel

/-- An action to which it does not matter how many statements were counted before it. -/
theorem Coupling.Couples.ahead {α : Type} {x : Action α} {lead : Nat} (hx : (delayed s lead).Couples x)
    (m : Machine) : x s (m.ahead lead) = (x s m).ahead lead := by
  have hholds : (delayed s lead).Holds (x s m) (x s (m.ahead lead)) := hx m
  revert hholds
  cases x s m with
  | starved => exact fun hsame => hsame
  | done a m' => exact fun hsame => hsame
  | failed f m' =>
    rintro (⟨-, hsame⟩ | ⟨hparts, -⟩)
    · exact hsame
    · exact hparts.elim

/-- Without a step limit it does not matter to a statement how many were counted before it. -/
theorem exec_ahead (hmax : s.maxSteps ≤ 0) (lead fuel : Nat) (n : Node) (m : Machine) :
    exec fuel n s (m.ahead lead) = (exec fuel n s m).ahead lead :=
  ((evaluators_delayed hmax lead fuel).exec n).ahead m

/-! ## Statements behind others

The statements of two programs one after the other. The first run may end by a return, which the second does
not follow. -/

/-- A result of the same run, behind one that recorded some failures. What the value of the last
statement is, is left open: a run may do no statement. -/
structure Result.Behind (fs : List Failure) (r r' : Result) : Prop where
  failures : r'.failures = r.failures ++ fs
  returned : r'.returned = r.returned
  stop : r'.stop = r.stop

/-- Two answers of runs, the second one behind another run. -/
inductive AnswersBehind (fs : List Failure) (lead : Nat) :
    Option (Result × Machine) → Option (Result × Machine) → Prop where
  | none : AnswersBehind fs lead none none
  | some {r r' : Result} (h : r.Behind fs r') (m : Machine) :
      AnswersBehind fs lead (some (r, m)) (some (r', m.ahead lead))

/-- A run goes on with the statements behind its own, unless it returned or was stopped. -/
theorem runStatements_append {fuel : Nat} {ns ns' : Program} : ∀ {r : Result} {m : Machine},
    r.returned = false → r.stop = none →
    runStatements fuel s (ns ++ ns') r m = (runStatements fuel s ns r m).bind fun (r₁, m₁) =>
      if r₁.returned || r₁.stop.isSome then some (r₁, m₁) else runStatements fuel s ns' r₁ m₁ := by
  induction ns with
  -- Nothing has returned or stopped yet, so that the others are run.
  | nil =>
    intro r m hreturned hstop
    show runStatements fuel s ns' r m = if r.returned || r.stop.isSome then _ else _
    rw [hreturned, hstop]
    rfl
  | cons n ns ih =>
    intro r m hreturned hstop
    rw [List.cons_append, runStatements, runStatements]
    cases m.interruption with
    | some cause => simp
    | none =>
      cases exec fuel n s m with
      | starved => rfl
      | done flow m₁ =>
        cases flow with
        | next v => exact ih hreturned hstop
        | returned v => rfl
      | failed f m₁ =>
        -- An interruption and the limit end the run in both; other failures are noted, and it goes on.
        cases f with
        | interrupted cause => simp
        | stepLimit max => simp
        | _ => exact ih hreturned hstop

/-- A run behind another one is the same run. -/
theorem runStatements_behind (hmax : s.maxSteps ≤ 0) (fs : List Failure) (lead : Nat) {fuel : Nat}
    {ns : Program} : ∀ {r r' : Result} (m : Machine), r.Behind fs r' →
    AnswersBehind fs lead (runStatements fuel s ns r m) (runStatements fuel s ns r' (m.ahead lead)) := by
  induction ns with
  | nil => exact fun m h => .some h m
  | cons n ns ih =>
    intro r r' m h
    -- Without a limit a statement does not know how many were counted before it.
    rw [runStatements, runStatements, exec_ahead hmax]
    cases hint : m.interruption with
    | some cause =>
      rw [show (m.ahead lead).interruption = some cause from hint]
      refine .some ?_ m
      exact ⟨h.failures, h.returned, rfl⟩
    | none =>
      rw [show (m.ahead lead).interruption = none from hint]
      cases exec fuel n s m with
      | starved => exact .none
      | done flow m₁ =>
        cases flow with
        | next v => exact ih m₁ ⟨h.failures, h.returned, h.stop⟩
        | returned v =>
          refine .some ?_ m₁
          exact ⟨h.failures, rfl, h.stop⟩
      | failed f m₁ =>
        -- The failures of the first source stay below those of the second one.
        have hfailures : f :: r'.failures = f :: r.failures ++ fs := by
          rw [h.failures]
          rfl
        cases f with
        | interrupted cause =>
          refine .some ?_ m₁
          exact ⟨h.failures, h.returned, rfl⟩
        | stepLimit max =>
          refine .some ?_ { m₁ with events := _ :: m₁.events }
          exact ⟨hfailures, h.returned, rfl⟩
        | _ => exact ih { m₁ with events := _ :: m₁.events } ⟨hfailures, h.returned, h.stop⟩

/-! ## Programs behind others

What a run tells in the end is turned around, since it was noted from behind. So the two runs are put
together before it is. -/

/-- What was noted since some event is what an earlier machine has noted since then, and what was
noted after it. -/
theorem Machine.notesSince_of_suffix {m m' : Machine} (h : m.events <:+ m'.events) {n : Nat}
    (hn : n ≤ m.events.length) :
    m'.notesSince n = m.notesSince n ++ m'.notesSince m.events.length := by
  unfold notesSince
  rw [take_of_suffix h hn, List.reverse_append, List.flatMap_append]

/-- A run without a step limit and without a cancellation ends with no call active and nothing that
stops it, and all that was printed and noted before is kept. -/
theorem runStatements_restart (hs : s.Calm) {fuel : Nat} {program : Program} {r : Result}
    {m m' : Machine} (hm : m.interruption = none)
    (h : runStatements fuel s program {} m.restart = some (r, m')) :
    r.stop = none ∧ m'.interruption = none ∧ m' = m'.restart.ahead m'.steps ∧
      m.printed <:+ m'.printed ∧ m.events <:+ m'.events := by
  obtain ⟨hm', hstop⟩ := runStatements_calm hs (m := m.restart) hm rfl h
  obtain ⟨-, hlater⟩ := runStatements_later h
  have hdepth : m'.depth = 0 := hlater.depth
  refine ⟨hstop, hm', ?_, hlater.printed, hlater.events⟩
  unfold Machine.restart Machine.ahead
  rw [Nat.zero_add, ← hdepth]

/-- How one run ends that does what two runs do one after the other: the first one ends with `r₁` and
`m₁`, and the second one starts from there. -/
structure Joins (m : Machine) (r₁ : Result) (m₁ : Machine) (r₂ : Result) (m₂ : Machine) (r : Result)
    (m' : Machine) : Prop where
  output : r.output = r₁.output ++ r₂.output
  failures : r.failures = r₁.failures ++ r₂.failures
  notes : m'.notesSince m.events.length =
    m₁.notesSince m.events.length ++ m₂.notesSince m₁.events.length
  steps : r.steps = r₁.steps + r₂.steps
  machine : m' = { m₂ with steps := r.steps }

/-- Two programs are run as one like one after the other, if the first one does not return. -/
theorem runProgram_append (hs : s.Calm) {fuel : Nat} {p₁ p₂ : Program} {r₁ : Result} {m m₁ : Machine}
    (hm : m.interruption = none) (h₁ : runProgram fuel s p₁ m = some (r₁, m₁))
    (hreturned : r₁.returned = false) :
    (runProgram fuel s p₂ m₁ = none ∧ runProgram fuel s (p₁ ++ p₂) m = none) ∨
    ∃ r₂ m₂ r m', runProgram fuel s p₂ m₁ = some (r₂, m₂) ∧
      runProgram fuel s (p₁ ++ p₂) m = some (r, m') ∧ Joins m r₁ m₁ r₂ m₂ r m' := by
  obtain ⟨⟨r₁', m₁'⟩, hrun₁, hend₁⟩ := Option.map_eq_some_iff.mp h₁
  obtain ⟨rfl, rfl⟩ := Prod.mk.inj hend₁
  obtain ⟨hstop, hm₁, hrestart, hprinted₁, hevents₁⟩ := runStatements_restart hs hm hrun₁
  have hseam : runStatements fuel s (p₁ ++ p₂) {} m.restart = runStatements fuel s p₂ r₁' m₁' := by
    rw [runStatements_append rfl rfl, hrun₁]
    show (if r₁'.returned || r₁'.stop.isSome then _ else _) = _
    rw [show r₁'.returned = false from hreturned, hstop]
    rfl
  have hbehind : Result.Behind r₁'.failures {} r₁' := ⟨rfl, hreturned, hstop⟩
  -- The second program does the same where the first one ended and where a session takes it up.
  have hanswers : AnswersBehind r₁'.failures m₁'.steps (runStatements fuel s p₂ {} m₁'.restart)
      (runStatements fuel s p₂ r₁' (m₁'.restart.ahead m₁'.steps)) :=
    runStatements_behind hs.unlimited _ _ _ hbehind
  rw [← hrestart, ← hseam] at hanswers
  unfold runProgram
  dsimp only
  generalize hboth : runStatements fuel s (p₁ ++ p₂) {} m.restart = both at hanswers
  cases hrun₂ : runStatements fuel s p₂ {} m₁'.restart with
  | none =>
    rw [hrun₂] at hanswers
    cases hanswers
    exact .inl ⟨rfl, rfl⟩
  | some answer =>
    obtain ⟨r₂', m₂⟩ := answer
    obtain ⟨-, -, -, hprinted₂, hevents₂⟩ := runStatements_restart hs hm₁ hrun₂
    rw [hrun₂] at hanswers
    cases hanswers with
    | @some _ r' hbehind₂ _ =>
      refine .inr ⟨_, m₂, _, m₂.ahead m₁'.steps, rfl, rfl, ?_, ?_, ?_, ?_, ?_⟩
      · exact Machine.outputSince_of_suffix hprinted₂ hprinted₁.length_le
      · show r'.failures.reverse = r₁'.failures.reverse ++ r₂'.failures.reverse
        rw [hbehind₂.failures, List.reverse_append]
      · exact Machine.notesSince_of_suffix hevents₂ hevents₁.length_le
      · exact Nat.add_comm m₂.steps m₁'.steps
      · rfl

/-- If the first program has no end, the two together have none. -/
theorem runProgram_append_none {fuel : Nat} {p₁ p₂ : Program} {m : Machine}
    (h : runProgram fuel s p₁ m = none) : runProgram fuel s (p₁ ++ p₂) m = none := by
  unfold runProgram at h ⊢
  rw [Option.map_eq_none_iff] at h ⊢
  rw [runStatements_append rfl rfl, h]
  rfl

namespace Session

/-- A source that is read is run. -/
theorem eval_of_parse {fuel : Nat} {source : Text} {program : Program}
    (h : Program.parse source = .ok program) (m : Machine) :
    eval fuel s source m = (runProgram fuel s program m).map fun (r, m) => (.ok r, m) := by
  unfold eval
  rw [h]

/-- The run of a source that parses is the run of its program. -/
theorem eval_eq_some {fuel : Nat} {source : Text} {program : Program} {r : Result} {m m' : Machine}
    (h : Program.parse source = .ok program) :
    eval fuel s source m = some (.ok r, m') ↔ runProgram fuel s program m = some (r, m') := by
  rw [eval_of_parse h]
  simp [Option.map_eq_some_iff]

/-- The run of a source that parses has no end if its program has none. -/
theorem eval_eq_none {fuel : Nat} {source : Text} {program : Program} {m : Machine}
    (h : Program.parse source = .ok program) :
    eval fuel s source m = none ↔ runProgram fuel s program m = none := by
  rw [eval_of_parse h, Option.map_eq_none_iff]

/-- A session takes two sources at once like one after the other. The sources are joined by a line
with a semicolon; in the first one there is a token, and the last one is no semicolon. If it does not
end with a `speicher` on the top level, then the joined source leaves the same output, diagnostics,
notes on the error stream, scope and random state as the two do, and has counted as many statements
as both. A source that does not end alone does not end either when it is joined. -/
theorem eval_joined {s : Settings} (hs : s.Calm) {source₁ source₂ : Text} {p₁ p₂ : Program}
    (h₁ : Program.parse source₁ = .ok p₁) (h₂ : Program.parse source₂ = .ok p₂)
    (hne : Token.scan source₁ ≠ [])
    (hlast : (Token.scan source₁).getLast?.map Token.kind ≠ some .semicolon) {m : Machine}
    (hm : m.interruption = none) :
    Program.parse (source₁ ++ "\n;\n" ++ source₂) = .ok (p₁ ++ p₂) ∧
    ∀ fuel,
      (eval fuel s source₁ m = none → eval fuel s (source₁ ++ "\n;\n" ++ source₂) m = none) ∧
      ∀ r₁ m₁, eval fuel s source₁ m = some (.ok r₁, m₁) → r₁.returned = false →
        (eval fuel s source₂ m₁ = none → eval fuel s (source₁ ++ "\n;\n" ++ source₂) m = none) ∧
        ∀ r₂ m₂, eval fuel s source₂ m₁ = some (.ok r₂, m₂) →
          ∃ r m', eval fuel s (source₁ ++ "\n;\n" ++ source₂) m = some (.ok r, m') ∧
            r.output = r₁.output ++ r₂.output ∧ r.diagnostics = r₁.diagnostics ++ r₂.diagnostics ∧
            m'.notesSince m.events.length =
              m₁.notesSince m.events.length ++ m₂.notesSince m₁.events.length ∧
            r.steps = r₁.steps + r₂.steps ∧ m' = { m₂ with steps := r.steps } := by
  have hparse := Program.parse_joined h₁ h₂ hne hlast
  refine ⟨hparse, fun fuel => ⟨fun hnone => ?_, fun r₁ m₁ hfirst hreturned => ?_⟩⟩
  -- The first source does not end, so nor does anything that begins with it.
  · rw [eval_eq_none h₁] at hnone
    rw [eval_eq_none hparse]
    exact runProgram_append_none hnone
  · rw [eval_eq_some h₁] at hfirst
    rw [eval_eq_none h₂, eval_eq_none hparse]
    -- The second source ends or does not, and the joined one with it.
    rcases runProgram_append hs hm hfirst hreturned with ⟨hnone, hboth⟩ |
      ⟨r₂, m₂, r, m', hsecond, hboth, hjoins⟩
    · refine ⟨fun _ => hboth, fun r₂ m₂ hsecond => ?_⟩
      rw [eval_eq_some h₂, hnone] at hsecond
      exact absurd hsecond (by simp)
    · refine ⟨fun hnone => ?_, fun r₂' m₂' hsecond' => ?_⟩
      · rw [hsecond] at hnone
        exact absurd hnone (by simp)
      · rw [eval_eq_some h₂, hsecond] at hsecond'
        obtain ⟨rfl, rfl⟩ := Prod.mk.inj (Option.some.inj hsecond')
        refine ⟨r, m', (eval_eq_some hparse).mpr hboth, hjoins.output, ?_, hjoins.notes, hjoins.steps,
          hjoins.machine⟩
        unfold Result.diagnostics
        rw [hjoins.failures, List.map_append]

/-- `y; heast x = 2` and then `oida.sag(x)`: the first statement fails and is told, the variable is
there for the second source, and three statements are counted. -/
theorem eval_joined_carrying :
    let first : Text := "y; heast x = 2"
    let second : Text := "oida.sag(x)"
    ∃ r₁ m₁ r₂ m₂ r m', eval 3 {} first {} = some (.ok r₁, m₁) ∧ r₁.returned = false ∧
      eval 3 {} second m₁ = some (.ok r₂, m₂) ∧
      eval 3 {} (first ++ "\n;\n" ++ second) {} = some (.ok r, m') ∧
      r.output = r₁.output ++ r₂.output ∧ r₂.output = "2\n" ∧
      r.diagnostics = r₁.diagnostics ++ r₂.diagnostics ∧
      r₁.diagnostics = [(Failure.unknownVariable "y").message] ∧ r.steps = r₁.steps + r₂.steps ∧
      r₁.steps = 2 ∧ r₂.steps = 1 ∧ m' = { m₂ with steps := r.steps } := by
  intro first second
  have hpolite : Settings.Polite {} := fun _ => Fetcher.disabled_polite
  have hcalm : Settings.Calm {} := hpolite.calm (Int.le_refl 0) fun _ _ => rfl
  have h₁ : Program.parse first = .ok [.identifier "y", .declare "x" (.literal (.int 2))] := rfl
  have h₂ : Program.parse second = .ok [.print [.identifier "x"]] := rfl
  -- The two sources are run one after the other by evaluation; the theorem tells of the joined one.
  obtain ⟨r₁, m₁, hfirst, hreturned, hdiagnostics, hsteps₁, r₂, m₂, hsecond, houtput, hsteps₂⟩ :
      ∃ r₁ m₁, eval 3 {} first {} = some (.ok r₁, m₁) ∧ r₁.returned = false ∧
        r₁.diagnostics = [(Failure.unknownVariable "y").message] ∧ r₁.steps = 2 ∧
        ∃ r₂ m₂, eval 3 {} second m₁ = some (.ok r₂, m₂) ∧ r₂.output = "2\n" ∧ r₂.steps = 1 :=
    ⟨_, _, rfl, rfl, rfl, rfl, _, _, rfl, rfl, rfl⟩
  obtain ⟨-, hjoined⟩ := eval_joined (m := {}) hcalm h₁ h₂ (by decide) (by decide) rfl
  obtain ⟨r, m', hboth, hout, hdiags, -, hsteps, hm'⟩ :=
    ((hjoined 3).2 r₁ m₁ hfirst hreturned).2 r₂ m₂ hsecond
  exact ⟨r₁, m₁, r₂, m₂, r, m', hfirst, hreturned, hsecond, hboth, hout, houtput, hdiags, hdiagnostics,
    hsteps, hsteps₁, hsteps₂, hm'⟩

end Session

end Mundart
