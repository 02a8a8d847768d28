import Mundart.Proofs.Run.Fuel
import Mundart.Proofs.Run.Sound

/-!
# Runs with a step limit end

With a bound on statements, the evaluation of what was read ends in every sound scope. The measure is
lexicographic: the statements that are left, and then the size of the node. Statements use up the
first; conditions, updates, arguments and predicates are not counted, but they are evaluated in parts
that get smaller. A loop and a call go on only after a body was run, and bodies are never empty, so
each turn and each call uses up a statement.

* **`block_counts`** — a body that is not empty uses up a statement, however it ends;
* **`Built.halts`** — actions end that are built from parts which end;
* **`ending`** — statements and loops end, by induction on the statements left;
* **`Session.limited_run_ends`** — every source that can be read ends, with the count and the
  failures that the step limit asks for.
-/

namespace Mundart

open Mundart.Action

variable {s : Settings} {α β : Type}

/-! ## Settling

Evaluators have a bound, and an evaluation ends if some bound is large enough for it and every larger one
gives the same. The bound may depend on the machine, so it is chosen anew after every action. -/

/-- A family of actions that has the same answer from some bound on. -/
def Settles (x : Nat → Action α) (s : Settings) (m : Machine) : Prop :=
  ∃ out, out ≠ .starved ∧ ∃ k, ∀ k' ≥ k, x k' s m = out

namespace Settles

variable {m : Machine}

/-- An action without a bound. -/
theorem const {x : Action α} (h : x s m ≠ .starved) : Settles (fun _ => x) s m :=
  ⟨_, h, 0, fun _ _ => rfl⟩

/-- One action after the other. -/
theorem bind {x : Nat → Action α} {next : Nat → α → Action β} (hx : Settles x s m)
    (hnext : ∀ k a m', x k s m = .done a m' → Settles (fun k => next k a) s m') :
    Settles (fun k => x k >>= next k) s m := by
  obtain ⟨out, hout, k, hk⟩ := hx
  -- What comes next needs a bound only if the first action is done.
  cases out with
  | starved => exact absurd rfl hout
  | failed f m' => exact ⟨.failed f m', by simp, k, fun k' hk' => bind_of_failed (hk k' hk')⟩
  -- The larger of the two bounds is enough for both actions.
  | done a m' =>
    obtain ⟨out', hout', l, hl⟩ := hnext k a m' (hk k (le_refl k))
    refine ⟨out', hout', max k l, fun k' hk' => ?_⟩
    have hdone : x k' s m = .done a m' := hk k' (le_trans (le_max_left k l) hk')
    exact (bind_of_done hdone).trans (hl k' (le_trans (le_max_right k l) hk'))

/-- A bound that is larger by one. -/
theorem succ {x : Nat → Action α} (h : Settles (fun k => x (k + 1)) s m) : Settles x s m := by
  obtain ⟨out, hout, k, hk⟩ := h
  refine ⟨out, hout, k + 1, fun k' hk' => ?_⟩
  obtain ⟨l, rfl⟩ : ∃ l, k' = l + 1 := ⟨k' - 1, by omega⟩
  exact hk l (by omega)

end Settles

/-! ## What is left

The first part of the measure: how many statements may still be counted. Nothing ever counts down, so what
is left after an action is at most what was left before it. -/

/-- A machine with a sound scope that may count at most so many further statements. -/
structure Machine.Left (s : Settings) (b : Nat) (m : Machine) : Prop where
  sound : m.scope.Sound
  left : s.maxSteps ≤ m.steps + b

/-- Actions end on all machines that have so many statements left. -/
def Halts (s : Settings) (b : Nat) (x : Nat → Action α) : Prop := ∀ m, m.Left s b → Settles x s m

variable {b : Nat} {small : Node → Prop} {looping : Prop}

/-- No more is left after an action. -/
theorem Machine.Left.after {x : Action α} {m m' : Machine} {a : α} (hm : m.Left s b)
    (hx : Respects (soundLaw s) s x) (hrun : x s m = .done a m') : m'.Left s b := by
  have hout := hx m hm.sound
  rw [hrun] at hout
  have hmono : m.steps ≤ m'.steps := hout.2.mono
  have hleft := hm.left
  exact ⟨hout.1, by omega⟩

/-- Counting is done only if a statement was left. -/
theorem tick_eq_done {m m' : Machine} (h : tick s m = .done () m') :
    m' = { m with steps := m.steps + 1 } ∧ (0 < s.maxSteps → m.steps < s.maxSteps) := by
  unfold tick at h
  dsimp only at h
  split at h
  · exact nomatch h
  · next hlimit =>
    simp only [Bool.and_eq_true, decide_eq_true_eq, not_and] at hlimit
    split at h
    · exact nomatch h
    · obtain ⟨-, rfl⟩ := Outcome.done.inj h
      refine ⟨rfl, fun hmax => ?_⟩
      have hle := hlimit hmax
      push_cast at hle
      omega

/-- Counting counts, whether it is done or fails. -/
theorem tick_counts {m m' : Machine} (h : (tick s m).machine? = some m') :
    m'.steps = m.steps + 1 := by
  unfold tick at h
  dsimp only at h
  split at h
  · exact Option.some.inj h ▸ rfl
  · split at h
    · exact Option.some.inj h ▸ rfl
    · exact Option.some.inj h ▸ rfl

/-- No action counts down. -/
theorem Law.Holds.steps_le {out : Outcome α} {m m' : Machine} (h : (soundLaw s).Holds m out)
    (hm' : out.machine? = some m') : m.steps ≤ m'.steps := by
  obtain hcounts | ⟨f, ⟨_, hcounts⟩ | ⟨_, hexceeds⟩⟩ := h.ended hm'
  · exact hcounts.mono
  · exact hcounts.mono
  · exact hexceeds.mono

/-- Every statement is counted, however it ends. -/
theorem exec_counts (hs : s.Polite) {fuel : Nat} {n : Node} (hn : n.Regular) {m m' : Machine}
    (hm : m.scope.Sound) (h : (exec fuel n s m).machine? = some m') : m.steps < m'.steps := by
  cases fuel with
  | zero => exact nomatch h
  | succ fuel =>
    have hexec : exec (fuel + 1) n = tick >>= fun _ => (evaluators fuel).effect n := by
      rw [exec]
      rfl
    rw [hexec] at h
    -- Counting comes first, and what follows never counts down.
    obtain ⟨m₁, htick, rfl | ⟨_, hdone, heffect⟩⟩ := machine?_bind h
    · rw [tick_counts htick]
      exact Nat.lt_succ_self _
    · obtain ⟨rfl, -⟩ := tick_eq_done hdone
      have hrespects := (effect_built (regular_coversEffect hn hn)).respects (soundLaw_grants hs)
        (sound hs fuel)
      exact (hrespects { m with steps := m.steps + 1 } hm).steps_le heffect

/-- A statement that is done had one left before it. -/
theorem exec_left (hmax : 0 < s.maxSteps) {fuel : Nat} {n : Node} {m m' : Machine} {flow : Flow}
    (h : exec fuel n s m = .done flow m') : m.steps < s.maxSteps := by
  cases fuel with
  | zero => exact nomatch h
  | succ fuel =>
    obtain ⟨_, m₁, htick, _⟩ := bind_eq_done (x := tick) h
    exact (tick_eq_done htick).2 hmax

/-- A body that is done had a statement left before it. -/
theorem block_left (hmax : 0 < s.maxSteps) {fuel : Nat} {ns : List Node} (hne : ns ≠ [])
    {last : Value} {m m' : Machine} {flow : Flow}
    (h : Eval.block (exec fuel) last ns s m = .done flow m') : m.steps < s.maxSteps := by
  obtain ⟨n, ns, rfl⟩ := List.exists_cons_of_ne_nil hne
  obtain ⟨_, _, hfirst, _⟩ := bind_eq_done (x := exec fuel n) h
  exact exec_left hmax hfirst

/-- A body has used up a statement, however it ends. -/
theorem block_counts (hs : s.Polite) {fuel : Nat} {ns : List Node} (hne : ns ≠ [])
    (hns : ∀ n ∈ ns, n.Regular) {last : Value} {m m' : Machine} (hm : m.scope.Sound)
    (h : (Eval.block (exec fuel) last ns s m).machine? = some m') : m.steps < m'.steps := by
  obtain ⟨n, ns, rfl⟩ := List.exists_cons_of_ne_nil hne
  obtain ⟨hn, hns⟩ := List.forall_mem_cons.mp hns
  obtain ⟨m₁, hfirst, rfl | ⟨flow, hdone, hrest⟩⟩ := machine?_bind h
  · exact exec_counts hs hn hm hfirst
  · refine lt_of_lt_of_le (exec_counts hs hn hm hfirst) ?_
    have hm₁ : (soundLaw s).Holds m (exec fuel n s m) := (sound hs fuel).exec hn m hm
    rw [hdone] at hm₁
    -- The first statement was counted already; the others do not count down.
    cases flow with
    | returned v => exact Option.some.inj hrest ▸ le_refl _
    | next v =>
      have hblock : Respects (soundLaw s) s (Eval.block (exec fuel) v ns) :=
        respects_block (fun n hn => (sound hs fuel).exec (hns n hn)) v
      exact (hblock m₁ hm₁.1).steps_le hrest

/-! ## Actions that are built

An action ends if the parts that it evaluates do, since it is made of finitely many of them. That is the
step of the induction, for all kinds of nodes at once. -/

/-- The statements of a block end one after the other. -/
theorem halts_block (hs : s.Polite) {ns : List Node} (hns : ∀ n ∈ ns, n.Regular)
    (hexec : ∀ {n : Node}, n.Regular → Halts s b fun k => exec k n) :
    ∀ last : Value, Halts s b fun k => Eval.block (exec k) last ns := by
  induction ns with
  | nil => exact fun last m _ => .const (by nofun)
  | cons n ns ih =>
    intro last m hm
    obtain ⟨hn, hns⟩ := List.forall_mem_cons.mp hns
    refine .bind (hexec hn m hm) fun k flow m' hrun => ?_
    have hm' : m'.Left s b := hm.after ((sound hs k).exec hn) hrun
    -- A statement that returns ends the block; otherwise the next one finds a machine with as much left.
    cases flow with
    | returned v => exact .const (by nofun)
    | next v => exact ih hns v m' hm'

/-- A body in a frame of its own. -/
theorem halts_inFrame {x : Nat → Action α} (hx : Halts s b x) (vars : Dict Value) :
    Halts s b fun k => inFrame { vars := vars } (x k) := by
  intro m hm
  obtain ⟨out, hout, k, hk⟩ := hx (m.enter { vars := vars }) ⟨hm.sound.enter vars, hm.left⟩
  have hframe : ∀ k' ≥ k, inFrame { vars := vars } (x k') s m = inFrame { vars := vars } (x k) s m := by
    intro k' hk'
    unfold inFrame
    rw [hk k' hk', hk k (le_refl k)]
  refine ⟨_, ?_, k, hframe⟩
  unfold inFrame
  rw [hk k (le_refl k)]
  cases out with
  | starved => exact absurd rfl hout
  | done a m' => simp
  | failed f m' => simp

/-- Counting needs no bound. -/
theorem tick_ne_starved (s : Settings) (m : Machine) : tick s m ≠ .starved := by
  unfold tick
  dsimp only
  split
  · simp
  · split <;> simp

/-- The test for the depth of calls uses up no bound. -/
theorem checkDepth_ne_starved (s : Settings) (m : Machine) : checkDepth s m ≠ .starved := by
  obtain ⟨-, hcheck⟩ | ⟨-, hcheck⟩ := checkDepth_cases s m
  · simp [hcheck]
  · simp [hcheck]

/-- Printing uses up no bound. -/
theorem print_ne_starved (t : Text) (s : Settings) (m : Machine) : print t s m ≠ .starved := by
  have hwrite : ∀ full : Bool, (if full then Outcome.failed (.output "disk full") m
      else .done () { m with printed := t :: m.printed }) ≠ .starved := by
    intro full
    cases full <;> simp
  exact hwrite _

/-- Fetching uses up no bound. -/
theorem fetch_ne_starved (url : Text) (s : Settings) (m : Machine) : fetch url s m ≠ .starved := by
  unfold fetch
  dsimp only
  split <;> simp

/-- A method uses up no bound. -/
theorem invoke_ne_starved (method : Method) (receiver : Value) (arg : Option Value) (s : Settings)
    (m : Machine) : invoke method receiver arg s m ≠ .starved := by
  unfold invoke
  dsimp only
  split <;> simp

/-- Parts that end on all machines with so many statements left. -/
structure Halting (s : Settings) (b : Nat) (A : Access) : Prop where
  eval : ∀ {n : Node}, A.evals n → Halts s b fun k => eval k n
  exec : ∀ {n : Node}, A.execs n → Halts s b fun k => exec k n
  loop : ∀ {test : Node} {body : List Node} {update : Option Node}, A.loops test body update →
    Halts s b fun k => loop k test body update

/-- Actions end that are built from parts which end. -/
theorem Built.halts (hs : s.Polite) {x : Evaluators → Action α}
    (h : Built (regularAccess small looping) α x)
    (hparts : Halting s b (regularAccess small looping)) :
    Halts s b fun k => x (evaluators k) := by
  -- The law of soundness carries the scope and the statements left from one action to the next.
  induction h with
  | bind hx _ ihx ihnext =>
    intro m hm
    refine .bind (ihx m hm) fun k a m' hrun => ihnext a m' ?_
    exact hm.after (hx.respects (soundLaw_grants hs) (sound hs k).restrict) hrun
  | @function _ name _ _ ih =>
    intro m hm
    cases hfn : m.scope.lookupFunc? name with
    | none => exact ⟨_, by simp, 0, fun k _ => bind_of_failed (function_of_none hfn)⟩
    | some fn =>
      obtain ⟨out, hout, k, hk⟩ := ih fn (hm.sound.lookup hfn) m hm
      exact ⟨out, hout, k, fun k' hk' => (bind_of_done (function_of_some hfn)).trans (hk k' hk')⟩
  | eval hn => exact hparts.eval hn
  | exec hn => exact hparts.exec hn
  | loop hl => exact hparts.loop hl
  -- A call ends because its body is made of statements.
  | body hfn vars =>
    intro m hm
    refine .bind (.const (checkDepth_ne_starved s m)) fun k _ m' hrun => ?_
    have hgrants : (soundLaw s).Grants s (regularAccess small looping) := soundLaw_grants hs
    have hm' : m'.Left s b := hm.after (respects_checkDepth hgrants) hrun
    exact halts_inFrame (halts_block hs hfn.body hparts.exec _) vars m' hm'
  | print t => exact fun m _ => .const (print_ne_starved _ s m)
  | fetch url => exact fun m _ => .const (fetch_ne_starved _ s m)
  | invoke method receiver arg => exact fun m _ => .const (invoke_ne_starved _ _ _ s m)
  | _ => exact fun m _ => .const (by nofun)

/-! ## The induction

On the statements that are left, and for each number of them on the size of the node that is evaluated.
Loops and calls are about nodes that are not smaller, but they go on only after a statement was used up. -/

/-- Statements and loops end on all machines with so many statements left. -/
structure Ending (s : Settings) (b : Nat) : Prop where
  exec : ∀ {n : Node}, n.Regular → Halts s b fun k => exec k n
  loop : ∀ {test : Node} {body : List Node} {update : Option Node}, RegularLoop test body update →
    Halts s b fun k => loop k test body update

/-- Where statements end expressions end, too. Their parts get smaller, and neither a call nor a
statement in them takes more than running statements. -/
theorem eval_halts (hs : s.Polite) (hexec : ∀ {n : Node}, n.Regular → Halts s b fun k => exec k n)
    {n : Node} (hn : n.Regular) : Halts s b fun k => eval k n := by
  -- On the size of the node, with the number of statements left fixed.
  induction hsize : sizeOf n using Nat.strong_induction_on generalizing n with
  | _ size ih =>
    subst hsize
    intro m hm
    have hparts : Halting s b (regularAccess (fun part => sizeOf part < sizeOf n) False) :=
      ⟨fun hpart => ih _ hpart.2 hpart.1 rfl, hexec, fun hloop => hloop.1.elim⟩
    have hvalue := (value_built (regular_covers False hn)).halts hs hparts m hm
    exact .succ hvalue

/-- Where statements and loops end, everything does. -/
theorem Ending.halting (hs : s.Polite) (h : Ending s b) :
    Halting s b (regularAccess (fun _ => True) True) :=
  ⟨fun hn => eval_halts hs h.exec hn.1, h.exec, fun hl => h.loop hl.2⟩

/-- A statement ends, if everything ends with one statement less. -/
theorem exec_halts (hs : s.Polite) (hmax : 0 < s.maxSteps) (hless : ∀ b', b = b' + 1 → Ending s b')
    {n : Node} (hn : n.Regular) : Halts s b fun k => exec k n := by
  intro m hm
  refine .succ (.bind (x := fun _ => tick) (.const (tick_ne_starved s m)) fun _ _ m₁ htick => ?_)
  obtain ⟨rfl, hleft⟩ := tick_eq_done htick
  have hbound := hm.left
  have hfree := hleft hmax
  -- The statement was counted, so one was left.
  obtain ⟨b', rfl⟩ : ∃ b', b = b' + 1 := ⟨b - 1, by omega⟩
  have hm₁ : Machine.Left s b' { m with steps := m.steps + 1 } :=
    ⟨hm.sound, by push_cast at hbound ⊢; omega⟩
  exact (effect_built (regular_coversEffect hn hn)).halts hs ((hless b' rfl).halting hs) _ hm₁

/-- A loop ends, if its body does and everything ends with one statement less: a turn that is followed
by another one has used up a statement. -/
theorem loop_halts (hs : s.Polite) (hmax : 0 < s.maxSteps)
    (hexec : ∀ {n : Node}, n.Regular → Halts s b fun k => exec k n)
    (hless : ∀ b', b = b' + 1 → Ending s b') {test : Node} {body : List Node} {update : Option Node}
    (hl : RegularLoop test body update) : Halts s b fun k => loop k test body update := by
  intro m hm
  refine .succ (.bind (eval_halts hs hexec hl.test m hm) fun k v m₁ htest => ?_)
  have hm₁ : m₁.Left s b := hm.after ((sound hs k).eval ⟨hl.test, trivial⟩) htest
  -- The condition holds, and the body runs; or the loop is over.
  split
  · refine .bind (halts_block hs hl.body hexec .absent m₁ hm₁) fun k flow m₂ hbody => ?_
    cases flow with
    | returned v => exact .const (by nofun)
    | next v =>
      -- The body is not empty: it has used up a statement, and one was left for it.
      have hcounted : m₁.steps < m₂.steps :=
        block_counts hs hl.body_ne_nil hl.body hm₁.sound (congrArg Outcome.machine? hbody)
      have hleft : m₁.steps < s.maxSteps := block_left hmax hl.body_ne_nil hbody
      have hbound := hm₁.left
      obtain ⟨b', rfl⟩ : ∃ b', b = b' + 1 := ⟨b - 1, by omega⟩
      have hblock : Respects (soundLaw s) s (Eval.block (exec k) .absent body) :=
        respects_block (fun n hn => (sound hs k).exec (hl.body n hn)) .absent
      have hm₂ : m₂.Left s b' :=
        ⟨(hm₁.after hblock hbody).sound, by push_cast at hbound ⊢; omega⟩
      have hturn : (regularAccess (fun _ => True) True).CoversTurn test body update :=
        ⟨⟨hl.test, trivial⟩, hl.body, fun n hn => ⟨hl.update n hn, trivial⟩, trivial, hl⟩
      exact (proceed_built hturn).halts hs ((hless b' rfl).halting hs) m₂ hm₂
  · exact .const (by nofun)

/-- One step of the induction. -/
theorem ending_of_less (hs : s.Polite) (hmax : 0 < s.maxSteps)
    (hless : ∀ b', b = b' + 1 → Ending s b') : Ending s b :=
  ⟨exec_halts hs hmax hless, loop_halts hs hmax (exec_halts hs hmax hless) hless⟩

/-- By induction on the statements left. -/
theorem ending (hs : s.Polite) (hmax : 0 < s.maxSteps) (b : Nat) : Ending s b := by
  induction b with
  | zero => exact ending_of_less hs hmax fun b' h => absurd h (by omega)
  | succ b ih => exact ending_of_less hs hmax fun b' h => Nat.succ.inj h ▸ ih

/-! ## Sessions

A run is one statement after the other, so it ends as well, and the number of statements that are left
bounds all of it. -/

/-- A statement of a program ends. -/
theorem exec_ends (hs : s.Polite) (hmax : 0 < s.maxSteps) {n : Node} (hn : n.Regular) {m : Machine}
    (hm : m.scope.Sound) : ∃ k, exec k n s m ≠ .starved := by
  obtain ⟨out, hout, k, hk⟩ :=
    (ending hs hmax s.maxSteps.toNat).exec hn m ⟨hm, by omega⟩
  exact ⟨k, fun h => hout ((hk k (le_refl k)).symm.trans h)⟩

/-- A run ends: every statement does, and each of them leaves a sound scope to the next one. -/
theorem runStatements_ends (hs : s.Polite) (hmax : 0 < s.maxSteps) {ns : Program}
    (hns : ∀ n ∈ ns, n.Regular) : ∀ {r : Result} {m : Machine}, m.scope.Sound →
    ∃ k out, runStatements k s ns r m = some out := by
  induction ns with
  | nil => exact fun {r m} _ => ⟨0, (r, m), rfl⟩
  | cons n ns ih =>
    intro r m hm
    obtain ⟨hn, hns⟩ := List.forall_mem_cons.mp hns
    obtain ⟨k, hk⟩ := exec_ends hs hmax hn hm
    -- A larger bound, which later statements may need, does not change this one.
    have hlarger : ∀ k' ≥ k, exec k' n s m = exec k n s m := fun k' hle =>
      (evaluators_extend hle).exec n s m hk
    have hout : (soundLaw s).Holds m (exec k n s m) := (sound hs k).exec hn m hm
    cases hint : m.interruption with
    | some cause => exact ⟨0, _, by rw [runStatements, hint]⟩
    | none =>
      cases hrun : exec k n s m with
      | starved => exact absurd hrun hk
      | done flow m₁ =>
        rw [hrun] at hout hlarger
        cases flow with
        | returned v => exact ⟨k, _, by rw [runStatements, hint, hrun]⟩
        | next v =>
          obtain ⟨l, out, hl⟩ := ih hns (r := { r with value := v }) hout.1
          refine ⟨max k l, out, ?_⟩
          rw [runStatements, hint, hlarger _ (le_max_left k l)]
          exact runStatements_extends (le_max_right k l) hl
      | failed f m₁ =>
        rw [hrun] at hout hlarger
        obtain ⟨l, out, hl⟩ := ih hns (r := { r with failures := f :: r.failures })
          (m := { m₁ with events := .failed n.kind f :: m₁.events }) hout.1
        have hl' := runStatements_extends (le_max_right k l) hl
        cases f with
        | interrupted cause => exact ⟨k, _, by rw [runStatements, hint, hrun]⟩
        | stepLimit max => exact ⟨k, _, by rw [runStatements, hint, hrun]⟩
        | _ =>
          refine ⟨max k l, out, ?_⟩
          rw [runStatements, hint, hlarger _ (le_max_left k l)]
          exact hl'

/-- A program that was read ends. -/
theorem runProgram_ends (hs : s.Polite) (hmax : 0 < s.maxSteps) {program : Program}
    (hprogram : ∀ n ∈ program, n.Regular) {m : Machine} (hm : m.scope.Sound) :
    ∃ k r m', runProgram k s program m = some (r, m') := by
  obtain ⟨k, out, hrun⟩ :=
    runStatements_ends hs hmax hprogram (r := {}) (m := m.restart) hm
  exact ⟨k, _, _, by rw [runProgram, hrun, Option.map_some]⟩

/-- A source that can be read ends in every scope that a session can reach, if there is a bound on
statements: from some bound of the evaluators on there is always the same answer. It counts at most
one statement beyond the bound, and it counts that one exactly if the step limit stopped it, which is
then the last failure on record.

This rests on bodies that are not empty. The statements of the source and the functions in the scope
have no other ones, at any depth, and running such a body uses up a statement. -/
theorem Session.limited_run_ends {source : Text} {program : Program}
    (hparse : Program.parse source = .ok program) {s : Settings} (hs : s.Polite)
    (hmax : 0 < s.maxSteps) {m : Machine} (hm : Session.Reachable m.scope) :
    (∃ r m' bound, (∀ fuel ≥ bound, Session.eval fuel s source m = some (.ok r, m')) ∧
      r.steps ≤ s.maxSteps + 1 ∧
      (r.steps = s.maxSteps + 1 ↔ ∃ max, r.stop = some (.stepLimit max)) ∧
      ∀ max, r.stop = some (.stepLimit max) →
        max = s.maxSteps ∧ r.failures.getLast? = some (.stepLimit s.maxSteps)) ∧
    (∀ n ∈ program, n.Regular) ∧ m.scope.Sound ∧
    ∀ (fuel : Nat) (body : List Node) (last : Value) (m₁ m₂ : Machine), body ≠ [] →
      (∀ n ∈ body, n.Regular) → m₁.scope.Sound →
      (Eval.block (exec fuel) last body s m₁).machine? = some m₂ → m₁.steps < m₂.steps := by
  have hprogram : ∀ n ∈ program, n.Regular := Grammar.formed_of_parse hparse
  refine ⟨?_, hprogram, hm.sound, fun _ _ _ _ _ hne hbody hm₁ h => block_counts hs hne hbody hm₁ h⟩
  obtain ⟨bound, r, m', hrun⟩ := runProgram_ends hs hmax hprogram hm.sound
  have heval : Session.eval bound s source m = some (.ok r, m') := by
    rw [Session.eval, hparse]
    exact congrArg (Option.map _) hrun
  refine ⟨r, m', bound, fun fuel hle => Session.eval_extends hle heval, ?_⟩
  obtain hwithin | hbeyond := (runProgram_proper hs hprogram hm.sound hrun).2
  · have hsteps : r.steps ≤ s.maxSteps := hwithin.steps hmax
    refine ⟨by omega, ⟨fun h => by omega, ?_⟩, fun max hstop => absurd hstop (hwithin.stop max)⟩
    rintro ⟨max, hstop⟩
    exact absurd hstop (hwithin.stop max)
  · obtain ⟨fs, hfailures, _⟩ := hbeyond.failures
    have hsteps : r.steps = s.maxSteps + 1 := hbeyond.steps
    refine ⟨by omega, ⟨fun _ => ⟨_, hbeyond.stop⟩, fun _ => hsteps⟩, fun max hstop => ?_⟩
    obtain rfl := Stop.stepLimit.inj (Option.some.inj (hbeyond.stop.symm.trans hstop))
    exact ⟨rfl, by rw [hfailures, List.getLast?_concat]⟩

/-- `geh weida (basst) { 1; };` never ends by itself, so the step limit ends it. -/
theorem Session.limited_run_ends_forever : ∃ r m' bound,
    (∀ fuel ≥ bound, Session.eval fuel { maxSteps := 3 } "geh weida (basst) \x7b 1; \x7d;" {} =
      some (.ok r, m')) ∧
    r.steps = 4 ∧ r.stop = some (.stepLimit 3) ∧ r.failures.getLast? = some (.stepLimit 3) := by
  obtain ⟨program, hparse⟩ : ∃ program,
      Program.parse "geh weida (basst) \x7b 1; \x7d;" = .ok program := ⟨_, rfl⟩
  have hpolite : Settings.Polite { maxSteps := 3 } := fun _ => Fetcher.disabled_polite
  obtain ⟨⟨r, m', bound, hends, -, hiff, hlast⟩, -⟩ :=
    Session.limited_run_ends (m := {}) hparse hpolite (by decide) .root
  obtain ⟨r₁, m₁, hrun, hstop⟩ : ∃ r₁ m₁,
      Session.eval 12 { maxSteps := 3 } "geh weida (basst) \x7b 1; \x7d;" {} = some (.ok r₁, m₁) ∧
        r₁.stop = some (.stepLimit 3) := ⟨_, _, rfl, rfl⟩
  have hsame := (hends _ (le_max_left bound 12)).symm.trans
    (Session.eval_extends (le_max_right bound 12) hrun)
  obtain ⟨hr, -⟩ := Prod.mk.inj (Option.some.inj hsame)
  obtain rfl := Except.ok.inj hr
  have hsteps : (r.steps : Int) = 3 + 1 := hiff.mpr ⟨3, hstop⟩
  exact ⟨r, m', bound, hends, by omega, hstop, (hlast 3 hstop).2⟩

end Mundart
