import Mundart.Proofs.Run.Composition

/-!
# Counting loops and conditional loops

A counting loop is its start followed by a conditional loop whose body ends with the update. The two
are not run the same way: the start and the update are evaluated in the one and run as statements in the
other, so more statements are counted there, and other bounds are enough. Without a step limit nothing
else can be told of the two.

* **`Follows`** — one action answers as another one does, whatever was counted before;
* **`follows_whileLoop`**, **`follows_forLoop`** — the turns of the two loops;
* **`forLoop_iff_whileLoop`** — one ends if the other one does, and in the same way.
-/

namespace Mundart

open Mundart.Action Grammar

variable {α β : Type} {s : Settings}

/-- Settings without a step limit under which nobody cancels a run. -/
structure Settings.Free (s : Settings) : Prop where
  unlimited : s.maxSteps ≤ 0
  uncancelled : ∀ n url, (s.fetcher n url).cancels = false

/-- The machine as if no statement had been counted. -/
def Machine.uncounted (m : Machine) : Machine := { m with steps := 0 }

/-- How an action ends and what it leaves, apart from the count of statements. -/
def Outcome.answer? : Outcome α → Option (Except Failure α × Machine)
  | .done a m => some (.ok a, m.uncounted)
  | .failed f m => some (.error f, m.uncounted)
  | .starved => none

/-! ## Actions that are not interrupted

Counting a statement checks for a cancellation and for the limit on steps. Without either it does nothing
but count, so that statements may be counted on one side only. That nobody cancels has to be known at every
statement, which makes it a law. -/

/-- Nothing interrupts. -/
def uninterruptedLaw : Law where
  inv m := m.interruption = none
  done _ _ := True
  failed _ _ _ := True
  refl _ := trivial
  trans _ _ := trivial
  after _ _ := trivial

/-- Where nobody cancels nothing is interrupted, at every bound. -/
theorem uninterrupted (hs : s.Free) (fuel : Nat) :
    (evaluators fuel).Respect uninterruptedLaw s (freeAccess (fun _ => True) fun _ _ => trivial) := by
  -- All that is asked is that nobody interrupts.
  have hgrants : uninterruptedLaw.Grants s (freeAccess (fun _ => True) fun _ _ => trivial) :=
    { quiet := fun hquiet hm => ⟨hquiet.uninterrupted hs.uncancelled hm, trivial⟩
      fail := fun _ _ => trivial
      fetch := fun _ => trivial
      function := fun _ _ => trivial
      define := fun _ _ hm => ⟨hm, trivial⟩
      defineFunc := fun _ _ hm => ⟨hm, trivial⟩
      full := fun _ _ => trivial }
  refine Law.everywhere hgrants (fun m hm => ?_) (fun hx vars => ?_) fuel
  · have hm' : m.interruption = none := hm
    rw [tick_within (.inl hs.unlimited), Machine.counted, hm']
    exact ⟨rfl, trivial⟩
  · exact respects_inFrame hx (fun _ hm => hm) (fun _ _ hm' h => ⟨hm', h⟩) fun _ _ _ hm' h => ⟨hm', h⟩

/-- So a statement is counted, and no more happens. -/
theorem tick_free (hs : s.Free) {m : Machine} (hm : m.interruption = none) :
    tick s m = .done () (m.ahead 1) := by
  rw [tick_within (.inl hs.unlimited)]
  unfold Machine.counted
  split
  · next cause hcause =>
    rw [hm] at hcause
    exact nomatch hcause
  · rfl

/-! ## Answers

Answers are compared without their counts. The relation is one of actions and not of evaluators, as the two
loops are put together from the same parts in different ways. -/

/-- Whatever one action answers the other one answers as well, if nothing is interrupted and whatever
either of them has counted before. -/
def Follows (s : Settings) (x y : Action α) : Prop :=
  ∀ m m', m.uncounted = m'.uncounted → m.interruption = none →
    ∀ out, (x s m).answer? = some out → (y s m').answer? = some out

/-- An answer with a value comes from an end with this value. -/
theorem eq_done_of_answer? {out : Outcome α} {a : α} {m : Machine} (h : out.answer? = some (.ok a, m)) :
    ∃ m', out = .done a m' ∧ m'.uncounted = m := by
  cases out with
  | done a' m' =>
    obtain ⟨ha, hm⟩ := Prod.mk.inj (Option.some.inj h)
    exact ⟨m', by rw [Except.ok.inj ha], hm⟩
  | failed f m' => exact nomatch h
  | starved => exact nomatch h

/-- An answer with a failure comes from an end with this failure. -/
theorem eq_failed_of_answer? {out : Outcome α} {f : Failure} {m : Machine}
    (h : out.answer? = some (.error f, m)) : ∃ m', out = .failed f m' ∧ m'.uncounted = m := by
  cases out with
  | done a m' => exact nomatch h
  | failed f' m' =>
    obtain ⟨hf, hm⟩ := Prod.mk.inj (Option.some.inj h)
    exact ⟨m', by rw [Except.error.inj hf], hm⟩
  | starved => exact nomatch h

/-- An answer does not tell how much was counted. -/
theorem answer?_ahead (out : Outcome α) (lead : Nat) : (out.ahead lead).answer? = out.answer? := by
  cases out <;> rfl

namespace Follows

variable {x y : Action α}

/-- A larger bound, for actions to which it does not matter what was counted before. -/
theorem of_extends (hx : ∀ lead, (delayed s lead).Couples x) (h : Extends x y) : Follows s x y := by
  intro m m' hsame _ out hout
  -- Both machines are one machine, ahead by their counts.
  have hm : m = m.uncounted.ahead m.steps := by simp [Machine.uncounted, Machine.ahead]
  have hm' : m' = m.uncounted.ahead m'.steps := by
    rw [hsame]
    simp [Machine.uncounted, Machine.ahead]
  have hout' : (x s m').answer? = some out := by
    rw [hm, (hx _).ahead, answer?_ahead] at hout
    rw [hm', (hx _).ahead, answer?_ahead, hout]
  -- There is an answer, so that the bound was enough and a larger one changes nothing.
  have hanswered : x s m' ≠ .starved := by
    intro hstarved
    rw [hstarved] at hout'
    exact nomatch hout'
  rw [h s m' hanswered, hout']

/-- What does nothing is answered alike. -/
theorem pure (a : α) : Follows s (Pure.pure a : Action α) (Pure.pure a) := by
  intro m m' hsame _ out hout
  rw [← hout]
  show some (Except.ok a, m'.uncounted) = some (Except.ok a, m.uncounted)
  rw [hsame]

/-- One action after another. The second one starts uninterrupted, since the first one does not interrupt.
-/
theorem bind {next next' : α → Action β} (h : Follows s x y)
    (hx : Respects uninterruptedLaw s x) (hnext : ∀ a, Follows s (next a) (next' a)) :
    Follows s (x >>= next) (y >>= next') := by
  intro m m' hsame hm out hout
  have hanswer := h m m' hsame hm
  -- The end of the first action is not interrupted, so that the second one may start.
  have hkept := hx m hm
  cases hrun : x s m with
  | starved =>
    rw [bind_of_starved hrun] at hout
    exact nomatch hout
  | failed f m₁ =>
    rw [hrun] at hanswer
    obtain ⟨m₁', hrun', hm₁⟩ := eq_failed_of_answer? (hanswer _ rfl)
    rw [bind_of_failed hrun] at hout
    rw [bind_of_failed hrun', ← hout]
    show some (Except.error f, m₁'.uncounted) = some (Except.error f, m₁.uncounted)
    rw [hm₁]
  | done a m₁ =>
    rw [hrun] at hanswer hkept
    obtain ⟨m₁', hrun', hm₁⟩ := eq_done_of_answer? (hanswer _ rfl)
    rw [bind_of_done hrun] at hout
    rw [bind_of_done hrun']
    exact hnext a m₁ m₁' hm₁.symm hkept.1 out hout

/-- A statement may be counted on the left -/
theorem tick_left (hs : s.Free) (h : Follows s x y) : Follows s (tick >>= fun _ => x) y := by
  intro m m' hsame hm out hout
  rw [bind_of_done (tick_free hs hm)] at hout
  exact h (m.ahead 1) m' hsame hm out hout

/-- A step may be counted on the right, independently of the left. -/
theorem tick_right (hs : s.Free) (h : Follows s x y) : Follows s x (tick >>= fun _ => y) := by
  intro m m' hsame hm out hout
  -- The counts are all that may differ.
  have hm' : m'.interruption = none := by
    have hboth : m.uncounted.interruption = m'.uncounted.interruption := by rw [hsame]
    exact hboth.symm.trans hm
  rw [bind_of_done (tick_free hs hm')]
  exact h m (m'.ahead 1) hsame hm out hout

end Follows

/-! ## Statements

The update stands outside the body in the one loop and is its last statement in the other. The block of the
second loop is split there; a return from the body skips the update in both. -/

/-- What follows a statement that does not return. -/
def onward (next : Value → Action Flow) : Flow → Action Flow
  | .returned v => pure (.returned v)
  | .next v => next v

/-- To go on with nothing more is to end there. -/
theorem bind_onward_next (x : Action Flow) : (x >>= onward fun v => pure (.next v)) = x := by
  funext s m
  cases hrun : x s m with
  | starved => exact bind_of_starved hrun
  | failed f m₁ => exact bind_of_failed hrun
  | done flow m₁ =>
    rw [bind_of_done hrun]
    cases flow <;> rfl

/-- A body with one more statement at its end. -/
theorem block_concat (exec : Node → Action Flow) (next : Value → Action Flow) (n : Node)
    (ns : List Node) : ∀ last : Value, (Eval.block exec last (ns ++ [n]) >>= onward next) =
      Eval.block exec last ns >>= onward fun _ => exec n >>= onward next := by
  induction ns with
  | nil =>
    intro last
    show ((exec n >>= onward fun v => pure (.next v)) >>= onward next) = _
    rw [bind_onward_next]
    rfl
  | cons k ns ih =>
    intro last
    show ((exec k >>= onward fun v => Eval.block exec v (ns ++ [n])) >>= onward next) =
      (exec k >>= onward fun v => Eval.block exec v ns) >>= onward fun _ => exec n >>= onward next
    rw [bind_assoc, bind_assoc]
    congr 1
    funext flow
    -- A return leaves the block at once, and with it the added statement.
    cases flow with
    | returned v => rfl
    | next v => exact ih v

/-- A node whose statement is the evaluation of its value. -/
def Node.Plain (n : Node) : Prop :=
  ∀ e : Evaluators, e.effect n = e.eval n >>= fun v => pure (.next v)

/-- What may stand in a place within a statement is plain. -/
theorem Grammar.Formed.plain {number : Value → Prop} {place : Place} {n : Node}
    (h : Formed number place n) (hplace : place ≠ .statement) : n.Plain := by
  induction h with
  | ofTarget _ ih => exact ih (by decide)
  | ofPrimary _ ih => exact ih (by decide)
  | ofOperand _ ih => exact ih (by decide)
  | ofComparison _ ih => exact ih (by decide)
  | updateExpression _ ih => exact ih (by decide)
  | updateAssign _ ih => exact ih (by decide)
  | name | index | number | string | truth | array | assoc | property | propertyCall | propertyWith
  | filter | fetch | call | unary | binary | comparison | chain | declare | assign => exact fun _ => rfl
  -- what is left stands only where statements do
  | _ => exact absurd rfl hplace

/-- The start and the update of a counting loop are plain. -/
theorem Node.Regular.plain_of_forLoop {start test update : Node} {body : List Node}
    (h : (Node.forLoop start test update body).Regular) : start.Plain ∧ update.Plain := by
  cases h with
  | forLoop hstart _ hupdate => exact ⟨hstart.plain (by decide), hupdate.plain (by decide)⟩
  | ofStart h => exact nomatch h
  | ofExpression h =>
    -- A loop is no expression of any sort.
    rcases h with h
    rcases h with h
    rcases h with h
    rcases h with h
    exact nomatch h

/-- To run a plain node as a statement is to count it and to evaluate it. -/
theorem Node.Plain.exec_bind {n : Node} (hn : n.Plain) (fuel : Nat) (next : Value → Action Flow) :
    (exec (fuel + 1) n >>= onward next) = tick >>= fun _ => eval fuel n >>= next := by
  have hstatement : exec (fuel + 1) n = tick >>= fun _ => eval fuel n >>= fun v => pure (.next v) := by
    show (tick >>= fun _ => Evaluators.effect ⟨eval fuel, exec fuel, loop fuel⟩ n) = _
    rw [hn]
  rw [hstatement, bind_assoc]
  congr 1
  funext _
  rw [bind_assoc]
  rfl

/-! ## Evaluations

A larger bound is allowed on the right, and what was counted before the parts start does not matter to them.
-/

section

variable {fuel fuel' : Nat}

/-- The value of a node is answered alike within every larger bound. -/
theorem follows_eval (hs : s.Free) (hle : fuel ≤ fuel') (n : Node) :
    Follows s (eval fuel n) (eval fuel' n) :=
  .of_extends (fun lead => (evaluators_delayed hs.unlimited lead fuel).eval n)
    ((evaluators_extend hle).eval n)

/-- A statement is answered alike within every larger bound. -/
theorem follows_exec (hs : s.Free) (hle : fuel ≤ fuel') (n : Node) :
    Follows s (exec fuel n) (exec fuel' n) :=
  .of_extends (fun lead => (evaluators_delayed hs.unlimited lead fuel).exec n)
    ((evaluators_extend hle).exec n)

/-- What goes on behind a statement is answered alike if it is so for every value. -/
theorem Follows.onward {next next' : Value → Action Flow} (h : ∀ v, Follows s (next v) (next' v))
    (flow : Flow) : Follows s (onward next flow) (onward next' flow) := by
  cases flow with
  | returned v => exact .pure _
  | next v => exact h v

/-- A block is answered alike within every larger bound, by induction on its statements. -/
theorem follows_block (hs : s.Free) (hle : fuel ≤ fuel') (ns : List Node) :
    ∀ last : Value, Follows s (Eval.block (exec fuel) last ns) (Eval.block (exec fuel') last ns) := by
  induction ns with
  | nil => exact fun last => .pure _
  | cons n ns ih =>
    exact fun last => .bind (follows_exec hs hle n) ((uninterrupted hs fuel).exec trivial) (.onward ih)

end

/-! ## Turns

Both loops test, run the body and go on. They differ in how the update is run: evaluated at the bound of the
turn, or counted as a statement, which takes one bound more. -/

section

variable {fuel : Nat} {test update : Node} {body : List Node}

/-- A test and, as far as it holds, a turn. -/
def Evaluators.guarded (e : Evaluators) (test : Node) (run : Action Flow) : Action Flow := do
  let v ← e.eval test
  if v.truthy then run else pure (.next .absent)

/-- A turn of the counting loop: the update is evaluated behind the body. -/
theorem loop_update (fuel : Nat) (test update : Node) (body : List Node) :
    loop (fuel + 1) test body (some update) = (evaluators fuel).guarded test
      (Eval.block (exec fuel) .absent body >>= onward fun _ =>
        eval fuel update >>= fun _ => loop fuel test body (some update)) := rfl

/-- A turn of the conditional loop: the update is the statement behind the body. -/
theorem loop_concat (fuel : Nat) (test update : Node) (body : List Node) :
    loop (fuel + 1) test (body ++ [update]) none = (evaluators fuel).guarded test
      (Eval.block (exec fuel) .absent body >>= onward fun _ =>
        exec fuel update >>= onward fun _ => loop fuel test (body ++ [update]) none) := by
  rw [← block_concat]
  rfl

/-- Turns are answered alike if what is done in them is. -/
theorem follows_guarded (hs : s.Free) {fuel fuel' : Nat} (hle : fuel ≤ fuel') {run run' : Action Flow}
    (h : Follows s run run') :
    Follows s ((evaluators fuel).guarded test run) ((evaluators fuel').guarded test run') := by
  refine .bind (follows_eval hs hle test) ((uninterrupted hs fuel).eval trivial) fun v => ?_
  cases v.truthy with
  | true => exact h
  | false => exact .pure _

/-- A body does not interrupt. -/
theorem respects_block_exec (hs : s.Free) (fuel : Nat) (ns : List Node) (last : Value) :
    Respects uninterruptedLaw s (Eval.block (exec fuel) last ns) :=
  respects_block (fun _ _ => (uninterrupted hs fuel).exec trivial) last

/-- A conditional loop does what a counting loop does, within a bound that is larger by one: the update
is a statement there. -/
theorem follows_whileLoop (hs : s.Free) (hupdate : update.Plain) (fuel : Nat) :
    Follows s (loop fuel test body (some update)) (loop (fuel + 1) test (body ++ [update]) none) := by
  induction fuel with
  | zero => exact fun m m' _ _ out hout => nomatch hout
  | succ fuel ih =>
    rw [loop_update, loop_concat]
    refine follows_guarded hs (Nat.le_succ fuel) ?_
    refine .bind (follows_block hs (Nat.le_succ fuel) body _) (respects_block_exec hs fuel body _) ?_
    -- The update is run as a statement, and what it counts is only counted on the right.
    refine .onward fun _ => ?_
    rw [hupdate.exec_bind]
    exact .tick_right hs (.bind (follows_eval hs (Nat.le_refl fuel) update)
      ((uninterrupted hs fuel).eval trivial) fun _ => ih)

/-- A counting loop does what a conditional loop does, within the same bound. -/
theorem follows_forLoop (hs : s.Free) (hupdate : update.Plain) (fuel : Nat) :
    Follows s (loop fuel test (body ++ [update]) none) (loop fuel test body (some update)) := by
  induction fuel with
  | zero => exact fun m m' _ _ out hout => nomatch hout
  | succ fuel ih =>
    rw [loop_update, loop_concat]
    refine follows_guarded hs (Nat.le_refl fuel) ?_
    refine .bind (follows_block hs (Nat.le_refl fuel) body _) (respects_block_exec hs fuel body _) ?_
    refine .onward fun _ => ?_
    -- Without a bound left the statement has no answer, and there is nothing to show.
    cases fuel with
    | zero => exact fun m m' _ _ out hout => nomatch hout
    | succ fuel =>
      rw [hupdate.exec_bind]
      exact .tick_left hs (.bind (follows_eval hs (Nat.le_succ fuel) update)
        ((uninterrupted hs fuel).eval trivial) fun _ => ih)

/-- A start and a conditional loop as two statements. -/
theorem block_start {start : Node} (hstart : start.Plain) (fuel : Nat) (ns : List Node) :
    Eval.block (exec (fuel + 1)) .absent [start, .whileLoop test ns] =
      tick >>= fun _ => eval fuel start >>= fun _ => tick >>= fun _ => loop fuel test ns none := by
  show (exec (fuel + 1) start >>= onward fun _ =>
    exec (fuel + 1) (.whileLoop test ns) >>= onward fun v => pure (.next v)) = _
  rw [hstart.exec_bind]
  congr 1
  funext _
  congr 1
  funext _
  exact bind_onward_next _

/-- The value that was returned, if one was. -/
def returned? : Except Failure Flow → Option Value
  | .ok (.returned v) => some v
  | _ => none

/-- Only a return is told as a returned value. -/
theorem eq_of_returned? {result : Except Failure Flow} {v : Value} (h : returned? result = some v) :
    result = .ok (.returned v) := by
  unfold returned? at h
  split at h
  · rw [Option.some.inj h]
  · cases h

/-- **A counting loop is a conditional loop.** Without a step limit and a cancellation it ends exactly if
its start, followed by the conditional loop whose body ends with the update, does; it ends with the same
value, return or failure and leaves the same output, scope and random state. -/
theorem forLoop_iff_whileLoop (hs : s.Free) {start test update : Node} {body : List Node}
    (hloop : (Node.forLoop start test update body).Regular) {m : Machine} (hm : m.interruption = none)
    (out : Except Failure Flow × Machine) :
    (∃ fuel, (exec fuel (.forLoop start test update body) s m).answer? = some out) ↔
      ∃ fuel, (Eval.block (exec fuel) .absent [start, .whileLoop test (body ++ [update])] s m).answer? =
        some out := by
  obtain ⟨hstart, hupdate⟩ := hloop.plain_of_forLoop
  constructor
  · rintro ⟨fuel, hout⟩
    cases fuel with
    | zero => exact nomatch hout
    | succ fuel =>
      -- one bound more for the loop as a statement, one for its update
      refine ⟨fuel + 2, ?_⟩
      rw [block_start hstart]
      have hfollows : Follows s (exec (fuel + 1) (.forLoop start test update body))
          (tick >>= fun _ => eval (fuel + 1) start >>= fun _ => tick >>= fun _ =>
            loop (fuel + 1) test (body ++ [update]) none) := by
        refine .tick_left hs (.tick_right hs ?_)
        exact .bind (follows_eval hs (Nat.le_succ fuel) start) ((uninterrupted hs fuel).eval trivial)
          fun _ => .tick_right hs (follows_whileLoop hs hupdate fuel)
      exact hfollows m m rfl hm out hout
  · rintro ⟨fuel, hout⟩
    cases fuel with
    | zero => exact nomatch hout
    | succ fuel =>
      refine ⟨fuel + 1, ?_⟩
      rw [block_start hstart] at hout
      have hfollows : Follows s (tick >>= fun _ => eval fuel start >>= fun _ => tick >>= fun _ =>
          loop fuel test (body ++ [update]) none) (exec (fuel + 1) (.forLoop start test update body)) := by
        refine .tick_left hs (.tick_right hs ?_)
        exact .bind (follows_eval hs (Nat.le_refl fuel) start) ((uninterrupted hs fuel).eval trivial)
          fun _ => .tick_left hs (follows_forLoop hs hupdate fuel)
      exact hfollows m m rfl hm out hout

/-- `aufi (heast i = 0; i klana 5; i plusplus) { oida.sag(i); wenn (i gleich 1) { speicher i } }` prints
twice and returns, and so does the conditional loop. -/
theorem forLoop_iff_whileLoop_returning :
    let start : Node := .declare "i" (.literal (.int 0))
    let test : Node := .comparison (.identifier "i") "klana" (.literal (.int 5))
    let update : Node := .unary "plusplus" (.identifier "i")
    let body : List Node := [.print [.identifier "i"],
      .ifThen (.comparison (.identifier "i") "gleich" (.literal (.int 1))) [.retWith (.identifier "i")]]
    ∃ v m', m'.printed = [utf8 "1\n", utf8 "0\n"] ∧
      (∃ fuel, (exec fuel (.forLoop start test update body) {} {}).answer? =
        some (.ok (.returned v), m')) ∧
      ∃ fuel, (Eval.block (exec fuel) .absent [start, .whileLoop test (body ++ [update])] {} {}).answer? =
        some (.ok (.returned v), m') := by
  intro start test update body
  have hfree : Settings.Free {} := ⟨Int.le_refl 0, fun _ _ => rfl⟩
  have hparse : Program.parse ("aufi (heast i = 0; i klana 5; i plusplus) \x7b oida.sag(i); " ++
      "wenn (i gleich 1) \x7b speicher i \x7d \x7d") = .ok [.forLoop start test update body] := rfl
  have hloop : (Node.forLoop start test update body).Regular :=
    Grammar.formed_of_parse hparse _ (List.mem_singleton.mpr rfl)
  -- The counting loop is evaluated; the theorem tells of the other one.
  have hended : ((exec 8 (.forLoop start test update body) {} {}).answer?.map fun out =>
      ((returned? out.1).isSome, out.2.printed)) = some (true, [utf8 "1\n", utf8 "0\n"]) := by
    decide +kernel
  obtain ⟨⟨result, m'⟩, hrun, hshown⟩ := Option.map_eq_some_iff.mp hended
  obtain ⟨hreturned, hprinted⟩ := Prod.mk.inj hshown
  obtain ⟨v, hv⟩ := Option.isSome_iff_exists.mp hreturned
  obtain rfl := eq_of_returned? hv
  exact ⟨v, m', hprinted, ⟨8, hrun⟩, (forLoop_iff_whileLoop hfree hloop rfl _).mp ⟨8, hrun⟩⟩

end

end Mundart
