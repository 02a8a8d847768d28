import Mundart.Proofs.Run.Coupling

/-!
# How deep calls nest

A machine counts the calls that are active, and a call fails where as many are active as there may be. Every
call runs in a frame of its own, so the frames on top of the root say independently how many there are.

`watched` evaluates like `evaluators` but looks at every single evaluation, however deep inside: it sounds an
alarm where the count is not the number of frames or is too high, and where an evaluation reports the limit
itself, not one of its parts, although fewer calls are active.

* **`exec_level`** — a statement leaves as many calls active as before it, however it ends;
* **`Built.coincides`** — what is built from parts never looks beyond the limit;
* **`watched_coincides`** — no alarm is ever sounded;
* **`runProgram_deepened`** — a run that never reports the limit does not depend on it;
* **`Session.call_depth`** — all of it, for the statements of a program in a session.
-/

namespace Mundart

open Mundart.Action

variable {α β : Type} {s : Settings}

/-! ## The count of active calls

The law of calls is about the count and the frames only. What is said of failures is a parameter: nothing
where only the count matters, and later where reports of the limit may come from. -/

/-- The count of active calls is the number of frames on top of the root. -/
def Machine.Tracked (m : Machine) : Prop := m.scope.length = m.depth + 1

/-- The count stays right, and in the end as many calls are active as at the start. What is said of failures
and of the machines that they leave is given. -/
def callLaw (ends : Failure → Machine → Prop) : Law where
  inv := Machine.Tracked
  done m m' := m'.depth = m.depth
  failed m f m' := m'.depth = m.depth ∧ ends f m'
  refl _ := rfl
  trans h h' := h'.trans h
  after h h' := ⟨h'.1.trans h, h'.2⟩

section

variable {ends ends' : Failure → Machine → Prop} {fails : Failure → Prop}
  {hfails : ∀ f : Failure, ¬ f.OfRun → fails f}

/-- Binding a name adds no frame where there is one. -/
theorem Machine.Tracked.onTop {m : Machine} (h : m.Tracked) (change : Frame → Frame) :
    Machine.Tracked { m with scope := m.scope.onTop change } := by
  unfold Tracked at h ⊢
  -- A counted machine has its root, so that there is a frame to change.
  cases hscope : m.scope with
  | nil => simp [hscope] at h
  | cons frame frames => simpa [Scope.onTop, hscope] using h

/-- The law allows whatever keeps the frames, as long as its failures and those of fetching are fit to end
in. Defining changes the innermost frame and adds none. -/
theorem callLaw_grants (hfetch : ∀ i url f, (s.fetcher i url).result = .error f → fails f)
    (hfail : ∀ f m, fails f → ends f m)
    (hfull : ∀ m : Machine, s.maxDepth ≤ m.depth → ends (.recursionLimit s.maxDepth) m) :
    (callLaw ends).Grants s (freeAccess fails hfails) where
  -- What is quiet touches neither frames nor calls.
  quiet {m m'} hquiet hm := by
    have htracked : m'.Tracked := by
      rw [Machine.Tracked, hquiet.scope, hquiet.depth]
      exact hm
    exact ⟨htracked, hquiet.depth⟩
  fail hf _ := ⟨rfl, hfail _ _ hf⟩
  fetch hf := hfetch _ _ _ hf
  function _ _ := trivial
  define _ _ hm := ⟨Machine.Tracked.onTop hm fun f => { f with vars := f.vars.set _ _ }, rfl⟩
  defineFunc _ _ hm := ⟨Machine.Tracked.onTop hm fun f => { f with funcs := f.funcs.set _ _ }, rfl⟩
  full _ hdepth := ⟨rfl, hfull _ hdepth⟩

/-- Counting a step enters no call. It may end a run. -/
theorem callLaw_tick (hstop : ∀ (f : Failure) m, f.Stops → ends f m) : Respects (callLaw ends) s tick :=
  respects_tick fun _ hm => ⟨hm, rfl, fun f hf => ⟨rfl, hstop f _ hf⟩⟩

/-- The frame that was entered is left, with its call. -/
theorem Machine.Tracked.leave {m m' : Machine} {frame : Frame} (hm' : m'.Tracked)
    (hdepth : m'.depth = (m.enter frame).depth) : m'.leave.Tracked ∧ m'.leave.depth = m.depth := by
  have hentered : m'.depth = m.depth + 1 := hdepth
  have hframes : m'.scope.length = m'.depth + 1 := hm'
  have htail : m'.leave.scope.length = m'.scope.length - 1 := List.length_tail
  have hleft : m'.leave.depth = m'.depth - 1 := rfl
  constructor
  · rw [Tracked, htail, hleft]
    omega
  · omega

/-- A frame is entered together with its call. -/
theorem Machine.Tracked.enter {m : Machine} (hm : m.Tracked) (frame : Frame) : (m.enter frame).Tracked :=
  congrArg Nat.succ hm

/-- What keeps the law keeps it in a frame of its own, on every outcome. The frame is left also after a
failure. -/
theorem callLaw_inFrame {x : Action α} (hx : Respects (callLaw fun f _ => fails f) s x) (vars : Dict Value) :
    Respects (callLaw fun f _ => fails f) s (inFrame { vars := vars } x) := by
  refine respects_inFrame hx (fun m hm => Machine.Tracked.enter hm _) (fun m m' hm' hdone => ?_)
    fun m f m' hm' hfailed => ?_
  · exact Machine.Tracked.leave hm' hdone
  · obtain ⟨htracked, hdepth⟩ := Machine.Tracked.leave hm' hfailed.1
    exact ⟨htracked, hdepth, hfailed.2⟩

/-- Less may be said of failures. -/
theorem callLaw_weaken (hends : ∀ f m, ends f m → ends' f m) {x : Action α}
    (h : Respects (callLaw ends) s x) : Respects (callLaw ends') s x := by
  intro m hm
  have hout := h m hm
  cases hrun : x s m with
  | starved => trivial
  | done a m' =>
    rw [hrun] at hout
    exact hout
  | failed f m' =>
    rw [hrun] at hout
    exact ⟨hout.1, hout.2.1, hends f m' hout.2.2⟩

end

/-- Calls that were entered are left. -/
def levelLaw : Law := callLaw fun _ _ => True

/-- Everything is allowed, and anything may fail. -/
abbrev levelAccess : Access := freeAccess (fun _ => True) fun _ _ => trivial

/-- Nothing is said of failures, so that none of them has to be excluded. -/
theorem levelLaw_grants : levelLaw.Grants s levelAccess :=
  callLaw_grants (fun _ _ _ _ => trivial) (fun _ _ _ => trivial) fun _ _ => trivial

/-- The law holds at every bound, by the induction that holds for all laws. -/
theorem level (fuel : Nat) : (evaluators fuel).Respect levelLaw s levelAccess :=
  Law.everywhere levelLaw_grants (callLaw_tick fun _ _ _ => trivial) callLaw_inFrame fuel

/-- A statement leaves as many calls active as before it, however it ends. -/
theorem exec_level {fuel : Nat} {n : Node} {m m' : Machine} (hm : m.Tracked)
    (h : (exec fuel n s m).machine? = some m') : m'.Tracked ∧ m'.depth = m.depth := by
  -- The law holds for every end of the statement, so that it is read off case by case.
  have hout : levelLaw.Holds m (exec fuel n s m) := (level fuel).exec trivial m hm
  cases hrun : exec fuel n s m with
  | starved =>
    rw [hrun] at h
    exact nomatch h
  | done flow m₁ =>
    rw [hrun] at hout h
    obtain rfl := Option.some.inj h
    exact hout
  | failed f m₁ =>
    rw [hrun] at hout h
    obtain rfl := Option.some.inj h
    exact ⟨hout.1, hout.2.1⟩

/-- A run ends on the level on which it began. On the top level no call is active. -/
theorem runStatements_level {fuel : Nat} {ns : Program} : ∀ {r r' : Result} {m m' : Machine}, m.Tracked →
    runStatements fuel s ns r m = some (r', m') → m'.Tracked ∧ m'.depth = m.depth := by
  induction ns with
  | nil =>
    intro r r' m m' hm h
    obtain ⟨rfl, rfl⟩ := Prod.mk.inj (Option.some.inj h)
    exact ⟨hm, rfl⟩
  | cons n ns ih =>
    intro r r' m m' hm h
    have hlevel : ∀ m₁, (exec fuel n s m).machine? = some m₁ → m₁.Tracked ∧ m₁.depth = m.depth :=
      fun m₁ h₁ => exec_level hm h₁
    -- A statement is run or not, and the run goes on or ends there; the machine is one that `exec` leaves.
    rcases runStatements_cases h with ⟨cause, -, rfl, rfl⟩ | ⟨v, m₁, hrun, hrest⟩ | ⟨v, hrun, rfl⟩ |
      ⟨cause, hrun, rfl⟩ | ⟨max, m₁, hrun, rfl, rfl⟩ | ⟨f, m₁, hrun, -, hrest⟩
    · exact ⟨hm, rfl⟩
    all_goals rw [hrun] at hlevel
    · obtain ⟨htracked, hdepth⟩ := hlevel m₁ rfl
      obtain ⟨hend, hsame⟩ := ih htracked hrest
      exact ⟨hend, hsame.trans hdepth⟩
    · exact hlevel m' rfl
    · exact hlevel m' rfl
    · exact hlevel m₁ rfl
    · obtain ⟨htracked, hdepth⟩ := hlevel m₁ rfl
      obtain ⟨hend, hsame⟩ := ih (m := { m₁ with events := .failed n.kind f :: m₁.events }) htracked hrest
      exact ⟨hend, hsame.trans hdepth⟩

/-! ## Evaluations within the limit

A step towards the watch: replacing parts by others that do the same within the limit changes nothing within
the limit. The watch acts beyond it only, so that it will never be seen. -/

/-- A machine that counts its calls, no more of them than there may be. -/
structure Machine.Within (s : Settings) (m : Machine) : Prop where
  tracked : m.Tracked
  bounded : m.depth ≤ s.maxDepth

/-- The second action does what the first one does wherever the limit is kept. -/
def Coincides (s : Settings) (x y : Action α) : Prop := ∀ m : Machine, m.Within s → y s m = x s m

namespace Coincides

/-- The first action leaves as many calls active, so that the second one still starts within the limit. -/
theorem bind {x y : Action α} {next next' : α → Action β} (h : Coincides s x y) (hx : Respects levelLaw s x)
    (hnext : ∀ a, Coincides s (next a) (next' a)) : Coincides s (x >>= next) (y >>= next') := by
  intro m hm
  have hsame := h m hm
  have hout := hx m hm.tracked
  cases hrun : x s m with
  | starved => rw [bind_of_starved hrun, bind_of_starved (hsame.trans hrun)]
  | failed f m' => rw [bind_of_failed hrun, bind_of_failed (hsame.trans hrun)]
  | done a m' =>
    rw [hrun] at hout
    have hdepth : m'.depth = m.depth := hout.2
    rw [bind_of_done hrun, bind_of_done (hsame.trans hrun)]
    exact hnext a m' ⟨hout.1, hdepth.trans_le hm.bounded⟩

/-- A block does the same if its statements do. By induction on the statements, as the block goes on with
the value of each. -/
theorem block {exec exec' : Node → Action Flow} (h : ∀ n, Coincides s (exec n) (exec' n))
    (hlevel : ∀ n, Respects levelLaw s (exec n)) (ns : List Node) : ∀ last : Value,
    Coincides s (Eval.block exec last ns) (Eval.block exec' last ns) := by
  induction ns with
  | nil => exact fun last m _ => rfl
  | cons n ns ih =>
    refine fun last => bind (h n) (hlevel n) fun flow => ?_
    cases flow with
    | returned v => exact fun m _ => rfl
    | next v => exact ih v

/-- Looking up a function does not depend on the limit. -/
theorem function {name : Text} {next next' : Function → Action α}
    (h : ∀ fn, Coincides s (next fn) (next' fn)) :
    Coincides s (function name >>= next) (function name >>= next') := by
  intro m hm
  cases hfn : m.scope.lookupFunc? name with
  | none => rw [bind_of_failed (function_of_none hfn), bind_of_failed (function_of_none hfn)]
  | some fn =>
    rw [bind_of_done (function_of_some hfn), bind_of_done (function_of_some hfn)]
    exact h fn m hm

/-- One more call is entered only where there is room for it. -/
theorem body {x y : Action α} (h : Coincides s x y) (frame : Frame) :
    Coincides s (checkDepth >>= fun _ => inFrame frame x) (checkDepth >>= fun _ => inFrame frame y) := by
  intro m hm
  -- Either there is room, and the call is active inside, or the body is not run at all.
  obtain ⟨hroom, hcheck⟩ | ⟨-, hcheck⟩ := checkDepth_cases s m
  · rw [bind_of_done hcheck, bind_of_done hcheck, inFrame, inFrame]
    rw [h (m.enter frame) ⟨hm.tracked.enter frame, hroom⟩]
  · rw [bind_of_failed hcheck, bind_of_failed hcheck]

end Coincides

/-- The second evaluators do what the first ones do wherever the limit is kept. -/
structure Evaluators.Coincide (s : Settings) (e e' : Evaluators) : Prop where
  eval : ∀ n, Coincides s (e.eval n) (e'.eval n)
  exec : ∀ n, Coincides s (e.exec n) (e'.exec n)
  loop : ∀ test body update, Coincides s (e.loop test body update) (e'.loop test body update)

/-- What is built from parts does not look at what they do beyond the limit. -/
theorem Built.coincides {x : Evaluators → Action α} {e e' : Evaluators} (h : Built levelAccess α x)
    (he : e.Respect levelLaw s levelAccess) (hsame : e.Coincide s e') : Coincides s (x e) (x e') := by
  induction h with
  | bind hx _ ihx ihnext => exact .bind ihx (hx.respects levelLaw_grants he) ihnext
  | function _ ih => exact .function fun fn => ih fn trivial
  | eval _ => exact hsame.eval _
  | exec _ => exact hsame.exec _
  | loop _ => exact hsame.loop _ _ _
  | body _ vars => exact .body (.block hsame.exec (fun n => he.exec trivial) _ _) _
  -- All other actions do not depend on the evaluators.
  | _ => exact fun m _ => rfl

/-! ## Evaluations that report the limit themselves

A failure is handed on from a part to the whole. To tell who reported the limit, the reports of the parts
are cut off: what still reports it then does so by itself. -/

/-- The end of a part, unless it reports the limit on calls. -/
def Outcome.hushed : Outcome α → Outcome α
  | .failed (.recursionLimit _) _ => .starved
  | out => out

/-- Evaluators whose reports of the limit on calls are cut off. What still reports it with them does so
itself. -/
def Evaluators.hushed (e : Evaluators) : Evaluators where
  eval n s m := (e.eval n s m).hushed
  exec n s m := (e.exec n s m).hushed
  loop test body update s m := (e.loop test body update s m).hushed

/-- A report of the limit on calls is due if it tells the limit and as many calls are active. -/
def Outcome.due (s : Settings) : Outcome α → Bool
  | .failed (.recursionLimit max) m => max == s.maxDepth && m.scope.length == s.maxDepth + 1
  | _ => true

/-- Reports of the limit on calls come where it is reached. -/
def reportLaw (s : Settings) : Law :=
  callLaw fun f m => ∀ max, f = .recursionLimit max → max = s.maxDepth ∧ s.maxDepth ≤ m.depth

/-- Everything is allowed but to report the limit on calls without a call. -/
abbrev reportAccess : Access :=
  freeAccess (fun f => ∀ max, f ≠ .recursionLimit max) fun _ hf _ hlimit => hf (hlimit ▸ trivial)

/-- No fetch reports the limit, and no failure that is allowed does; only a call that finds no room may. -/
theorem reportLaw_grants
    (hfetch : ∀ i url max, (s.fetcher i url).result ≠ .error (.recursionLimit max)) :
    (reportLaw s).Grants s reportAccess := by
  refine callLaw_grants (fun i url f hf max hlimit => ?_) (fun f m hf max hlimit => ?_)
    fun m hdepth max hlimit => ?_
  · exact hfetch i url max (hlimit ▸ hf)
  · exact absurd hlimit (hf max)
  · exact ⟨(Failure.recursionLimit.inj hlimit).symm, hdepth⟩

/-- A hushed part keeps the count as before and never reports the limit. -/
theorem respects_hushed {x : Action α} (h : Respects levelLaw s x) :
    Respects (callLaw fun f _ => ∀ max, f ≠ .recursionLimit max) s fun s m => (x s m).hushed := by
  intro m hm
  have hout := h m hm
  dsimp only
  cases hrun : x s m with
  | starved => trivial
  | done a m' =>
    rw [hrun] at hout
    exact hout
  | failed f m' =>
    rw [hrun] at hout
    -- A report of the limit is hushed to no answer at all.
    cases f with
    | recursionLimit max => trivial
    | _ => exact ⟨hout.1, hout.2.1, nofun⟩

/-- Parts whose reports are cut off report nothing that is not due, nor does a body that is run with them. -/
theorem Evaluators.Respect.hushed {e : Evaluators} (h : e.Respect levelLaw s levelAccess)
    {ends : Failure → Machine → Prop} (hends : ∀ f m, (∀ max, f ≠ .recursionLimit max) → ends f m)
    {fails : Failure → Prop} {hfails : ∀ f : Failure, ¬ f.OfRun → fails f} :
    e.hushed.Respect (callLaw ends) s (freeAccess fails hfails) where
  eval _ := callLaw_weaken hends (respects_hushed (h.eval trivial))
  exec _ := callLaw_weaken hends (respects_hushed (h.exec trivial))
  loop _ := callLaw_weaken hends (respects_hushed (h.loop trivial))
  frame _ vars := by
    refine callLaw_weaken hends (callLaw_inFrame (respects_block (fun n _ => ?_) _) vars)
    exact respects_hushed (h.exec trivial)

/-- Cutting reports off on both sides changes nothing. -/
theorem Evaluators.Coincide.hushed {e e' : Evaluators} (h : e.Coincide s e') : e.hushed.Coincide s e'.hushed where
  eval n m hm := congrArg Outcome.hushed (h.eval n m hm)
  exec n m hm := congrArg Outcome.hushed (h.exec n m hm)
  loop test body update m hm := congrArg Outcome.hushed (h.loop test body update m hm)

/-- A report that the law allows is due: the limit is told and reached. -/
theorem Law.Holds.due {out : Outcome α} {m : Machine} (h : (reportLaw s).Holds m out) (hm : m.Within s) :
    out.due s = true := by
  cases out with
  | starved => rfl
  | done a m' => rfl
  | failed f m' =>
    cases f with
    | recursionLimit max =>
      obtain ⟨htracked, hdepth, hreport⟩ := h
      obtain ⟨hmax, hfull⟩ := hreport max rfl
      -- Not more calls are active than there may be, and not fewer: the number is the limit.
      have hframes : m'.scope.length = m'.depth + 1 := htracked
      have hbounded := hm.bounded
      have hcalls : m'.scope.length = s.maxDepth + 1 := by omega
      simp [Outcome.due, hmax, hcalls]
    | _ => rfl

/-! ## The watch

`watch` has two questions at every evaluation: is the machine within the limit, and is a report due? Both
always have the answer yes. So watching is the same as not watching, and this is what says that the answer
is always yes. -/

instance (s : Settings) (m : Machine) : Decidable (m.Within s) :=
  decidable_of_iff (m.scope.length = m.depth + 1 ∧ m.depth ≤ s.maxDepth)
    ⟨fun h => ⟨h.1, h.2⟩, fun h => ⟨h.tracked, h.bounded⟩⟩

/-- An evaluation that is watched. It ends with an alarm if more calls are active than there may be or than
are counted, and if it reports the limit on calls itself although fewer calls are active. -/
def watch (alarm : Failure) (x : Evaluators → Action α) (e : Evaluators) : Action α := fun s m =>
  if m.Within s ∧ (x e.hushed s m).due s then x e s m else .failed alarm m

/-- The evaluators with a bound, every evaluation of a node, run of a statement and turn of a loop watched. -/
def watched (alarm : Failure) : Nat → Evaluators
  | 0 => evaluators 0
  | fuel + 1 =>
    ⟨fun n => watch alarm (fun e => e.value n) (watched alarm fuel),
      fun n => watch alarm (fun e => e.statement n) (watched alarm fuel),
      fun test body update => watch alarm (fun e => e.turn test body update) (watched alarm fuel)⟩

/-- Actions that look at no part beyond the limit and report it only where it is reached. -/
structure Accountable (s : Settings) (x : Evaluators → Action α) : Prop where
  coincides : ∀ {e e' : Evaluators}, e.Respect levelLaw s levelAccess → e.Coincide s e' →
    Coincides s (x e) (x e')
  reports : ∀ {e : Evaluators}, e.Respect (reportLaw s) s reportAccess → Respects (reportLaw s) s (x e)

/-- No alarm is sounded by an action whose parts sound none. -/
theorem Accountable.watch {x : Evaluators → Action α} (hx : Accountable s x) (alarm : Failure)
    {e e' : Evaluators} (he : e.Respect levelLaw s levelAccess) (hsame : e.Coincide s e') :
    Coincides s (x e) (watch alarm x e') := by
  intro m hm
  -- The alarm is decided by the watched parts, which do the same as the others.
  have hhushed : x e'.hushed s m = x e.hushed s m :=
    hx.coincides (he.hushed fun _ _ _ => trivial) hsame.hushed m hm
  have hreport : (reportLaw s).Holds m (x e.hushed s m) :=
    hx.reports (he.hushed fun f _ hf max hlimit => absurd hlimit (hf max)) m hm.tracked
  unfold Mundart.watch
  rw [hhushed, if_pos ⟨hm, hreport.due hm⟩]
  exact hx.coincides he hsame m hm

section

variable (hfetch : ∀ i url max, (s.fetcher i url).result ≠ .error (.recursionLimit max))
include hfetch

/-- The value of a node is accountable. -/
theorem value_accountable (n : Node) : Accountable s fun e => e.value n where
  coincides he hsame := (value_built (freeAccess_covers n)).coincides he hsame
  reports he := (value_built (freeAccess_covers n)).respects (reportLaw_grants hfetch) he

/-- A statement is accountable, with the step that it counts. -/
theorem statement_accountable (n : Node) : Accountable s fun e => e.statement n where
  coincides he hsame := by
    refine .bind (fun _ _ => rfl) (callLaw_tick fun _ _ _ => trivial) fun _ => ?_
    exact (effect_built (freeAccess_coversEffect n)).coincides he hsame
  reports {e} he := by
    have htick : Respects (reportLaw s) s tick := by
      refine callLaw_tick fun f m hf max hlimit => ?_
      rw [hlimit] at hf
      exact hf.elim
    refine respects_bind htick fun _ _ m' _ hm' => ?_
    exact (effect_built (freeAccess_coversEffect n)).respects (reportLaw_grants hfetch) he m' hm'

/-- A turn of a loop is accountable. -/
theorem turn_accountable (test : Node) (body : List Node) (update : Option Node) :
    Accountable s fun e => e.turn test body update where
  coincides he hsame := (turn_built (freeAccess_coversTurn test body update)).coincides he hsame
  reports he := (turn_built (freeAccess_coversTurn test body update)).respects (reportLaw_grants hfetch) he

/-- No alarm is ever sounded: wherever the limit is kept at the start, it is kept at every evaluation inside,
and it is reported only where it is reached. -/
theorem watched_coincides (alarm : Failure) (fuel : Nat) : (evaluators fuel).Coincide s (watched alarm fuel) := by
  -- on the bound: the parts of what is watched are watched themselves, with one less
  induction fuel with
  | zero => exact ⟨fun _ _ _ => rfl, fun _ _ _ => rfl, fun _ _ _ _ _ => rfl⟩
  | succ fuel ih =>
    refine ⟨fun n => ?_, fun n => ?_, fun test body update => ?_⟩
    · exact (value_accountable hfetch n).watch alarm (level fuel) ih
    · exact (statement_accountable hfetch n).watch alarm (level fuel) ih
    · exact (turn_accountable hfetch test body update).watch alarm (level fuel) ih

end

/-- A call that is counted without a frame is noticed. -/
example : (watched (.unknownVariable "x") 3).exec (.literal (.int 1)) {} { depth := 1 } =
    .failed (.unknownVariable "x") { depth := 1 } := rfl

/-- So is a fetch that reports the limit on calls. -/
example : (watched (.unknownVariable "x") 3).eval (.fetch (.literal (.text "y")))
    { fetcher := fun _ _ => { result := .error (.recursionLimit 1000) } } {} =
    .failed (.unknownVariable "x") {} := rfl

/-! ## Raising the limit

The two runs are in step until a call finds no room under the smaller limit. This is reported in the first
run, and a report of the limit is never taken back. So a run without one has been in step all along. -/

/-- A run beside one with another limit on calls. -/
def depths (s : Settings) (d d' : Nat) : Coupling where
  left := { s with maxDepth := d }
  right := { s with maxDepth := d' }
  lead := 0
  shared _ := True
  parts f := f = .recursionLimit d
  parted _ _ := True
  contained _ _ := trivial
  fetcher := rfl
  fetchFails _ _ _ _ := trivial
  writeLimit := rfl
  later _ _ := trivial
  leave _ := trivial

variable {d d' : Nat}

/-- Counting a step does not look at the limit on calls. -/
theorem tick_depths : (depths s d d').Couples tick := by
  refine .of_eq (fun m => ?_) fun _ _ _ _ => trivial
  show tick { s with maxDepth := d' } (m.ahead 0) = (tick { s with maxDepth := d } m).ahead 0
  unfold tick
  dsimp only [Machine.ahead]
  split
  · rfl
  · split
    · rfl
    · rfl

/-- Where the smaller limit leaves room for a call the larger one does. -/
theorem checkDepth_depths (hle : d ≤ d') : (depths s d d').Couples checkDepth := by
  intro m
  -- Room under the smaller limit is room under the larger one; no room under it is where they may part.
  rcases checkDepth_cases (depths s d d').left m with ⟨hroom, hleft⟩ | ⟨-, hleft⟩
  · rcases checkDepth_cases (depths s d d').right (m.ahead 0) with ⟨-, hright⟩ | ⟨hfull, -⟩
    · rw [hleft]
      exact hright
    · exact absurd (hroom.trans_le hle) (Nat.not_lt.mpr hfull)
  · rw [hleft]
    exact .inr ⟨rfl, fun _ _ => trivial⟩

/-- A statement does the same under both limits, unless it reports the smaller one. -/
theorem exec_depths (hle : d ≤ d') (fuel : Nat) (n : Node) (m : Machine) :
    exec fuel n { s with maxDepth := d' } m = exec fuel n { s with maxDepth := d } m ∨
      ∃ m', exec fuel n { s with maxDepth := d } m = .failed (.recursionLimit d) m' := by
  have hholds : (depths s d d').Holds (exec fuel n { s with maxDepth := d } m)
      (exec fuel n { s with maxDepth := d' } m) :=
    (Coupling.coupled tick_depths (checkDepth_depths hle) fuel).exec n m
  cases hrun : exec fuel n { s with maxDepth := d } m with
  | starved =>
    rw [hrun] at hholds
    exact .inl hholds
  | done flow m' =>
    rw [hrun] at hholds
    exact .inl hholds
  | failed f m' =>
    rw [hrun] at hholds
    -- The sides part only where the smaller limit is reported.
    rcases hholds with ⟨-, hsame⟩ | ⟨rfl, -⟩
    · exact .inl hsame
    · exact .inr ⟨m', rfl⟩

/-- Statements do the same one after another, as long as the limit is not reported by any of them. -/
theorem runStatements_deepened (hle : d ≤ d') {fuel : Nat} {ns : Program} :
    ∀ {r r' : Result} {m m' : Machine},
    runStatements fuel { s with maxDepth := d } ns r m = some (r', m') →
    (∀ max, .recursionLimit max ∉ r'.failures) →
    runStatements fuel { s with maxDepth := d' } ns r m = some (r', m') := by
  induction ns with
  | nil => exact fun h _ => h
  | cons n ns ih =>
    intro r r' m m' h hfree
    cases hint : m.interruption with
    | some cause =>
      rw [runStatements, hint] at h ⊢
      exact h
    | none =>
      refine runStatements_cons_same (fun _ => ?_) (fun hrest => ih hrest hfree) h
      rcases exec_depths (s := s) hle fuel n m with hsame | ⟨m₁, hlimit⟩
      · exact hsame
      -- The failure would have been recorded.
      · rw [runStatements, hint, hlimit] at h
        obtain ⟨hrecorded, -⟩ := runStatements_later h
        exact absurd (hrecorded.subset List.mem_cons_self) (hfree d)

/-- A run that never reports the limit on calls is the same under every larger one. -/
theorem runProgram_deepened (hle : d ≤ d') {fuel : Nat} {program : Program} {r : Result} {m m' : Machine}
    (h : runProgram fuel { s with maxDepth := d } program m = some (r, m'))
    (hfree : ∀ max, .recursionLimit max ∉ r.failures) :
    runProgram fuel { s with maxDepth := d' } program m = some (r, m') := by
  obtain ⟨⟨r₁, m₁⟩, hrun, hend⟩ := Option.map_eq_some_iff.mp h
  obtain ⟨rfl, rfl⟩ := Prod.mk.inj hend
  have hsame := runStatements_deepened hle hrun fun max hmem => hfree max (List.mem_reverse.mpr hmem)
  rw [runProgram, hsame]
  rfl

/-! ## Sessions

What is evaluated starts from the root, where no call is active and one frame stands. Every source leaves it
like this, also one that fails or is stopped. -/

/-- Between the sources of a session no call is active. -/
theorem Session.Reachable.length_eq {env : Scope} (h : Session.Reachable env) : env.length = 1 := by
  induction h with
  | root => rfl
  | @eval fuel s source m m' answer _ _ h ih =>
    unfold Session.eval at h
    -- A source that is refused leaves the variables as they were.
    split at h
    · obtain ⟨-, rfl⟩ := Prod.mk.inj (Option.some.inj h)
      exact ih
    · obtain ⟨⟨r, m₁⟩, hprogram, hend⟩ := Option.map_eq_some_iff.mp h
      obtain ⟨-, rfl⟩ := Prod.mk.inj hend
      obtain ⟨⟨r₂, m₂⟩, hrun, hresult⟩ := Option.map_eq_some_iff.mp hprogram
      obtain ⟨-, rfl⟩ := Prod.mk.inj hresult
      have hstart : m.restart.Tracked := ih
      obtain ⟨htracked, hdepth⟩ := runStatements_level hstart hrun
      have hframes : m₂.scope.length = m₂.depth + 1 := htracked
      have hnone : m₂.depth = 0 := hdepth
      rw [hframes, hnone]

/-- In a session no statement leaves a call active, however it ends. At every evaluation inside a statement,
however deep, the calls that are active are counted, no more of them than there may be, and the limit is
reported by an evaluation only where as many are active: a watch for this never sounds its alarm. A run that
never reports the limit is the same under every larger one. -/
theorem Session.call_depth {s : Settings}
    (hfetch : ∀ i url max, (s.fetcher i url).result ≠ .error (.recursionLimit max)) {m : Machine}
    (hm : Session.Reachable m.scope) (program : Program) :
    (∀ fuel k r m₁, runProgram fuel s (program.take k) m = some (r, m₁) →
      m₁.depth = 0 ∧ m₁.scope.length = 1 ∧
      ∀ alarm fuel' n, (watched alarm fuel').exec n s m₁ = exec fuel' n s m₁) ∧
    ∀ d' ≥ s.maxDepth, ∀ fuel r m', runProgram fuel s program m = some (r, m') →
      (∀ max, .recursionLimit max ∉ r.failures) →
      runProgram fuel { s with maxDepth := d' } program m = some (r, m') := by
  constructor
  · intro fuel k r m₁ h
    obtain ⟨⟨r₂, m₂⟩, hrun, hend⟩ := Option.map_eq_some_iff.mp h
    obtain ⟨-, rfl⟩ := Prod.mk.inj hend
    -- At the start there is one frame and no call.
    have hstart : m.restart.Tracked := hm.length_eq
    obtain ⟨htracked, hdepth⟩ := runStatements_level hstart hrun
    have hnone : m₂.depth = 0 := hdepth
    have hframes : m₂.scope.length = m₂.depth + 1 := htracked
    refine ⟨hnone, by rw [hframes, hnone], fun alarm fuel' n => ?_⟩
    exact (watched_coincides hfetch alarm fuel').exec n m₂ ⟨htracked, hnone ▸ Nat.zero_le _⟩
  · exact fun d' hle fuel r m' h hfree => runProgram_deepened hle h hfree

/-- `f` calls `g`, which takes two active calls: there is room for them, and no third one is needed. Under a
limit of one the same program fails where `g` is called. -/
theorem Session.call_depth_nested :
    let program : Program := [.function "g" [] [.literal (.int 1)], .function "f" [] [.call "g" []], .call "f" []]
    Program.parse "hawara g()\x7b1\x7d hawara f()\x7bg()\x7d f()" = .ok program ∧
    (∃ r m₁, runProgram 12 { maxDepth := 2 } (program.take 2) {} = some (r, m₁) ∧ m₁.depth = 0 ∧
      ∀ alarm, (watched alarm 10).exec (.call "f" []) { maxDepth := 2 } m₁ =
        exec 10 (.call "f" []) { maxDepth := 2 } m₁) ∧
    (∃ r m', runProgram 12 { maxDepth := 2 } program {} = some (r, m') ∧ r.failures = [] ∧
      runProgram 12 { maxDepth := 3 } program {} = some (r, m')) ∧
    ∃ r m', runProgram 12 { maxDepth := 1 } program {} = some (r, m') ∧ r.failures = [.recursionLimit 1] := by
  intro program
  have hfetch : ∀ i url max,
      (({ maxDepth := 2 } : Settings).fetcher i url).result ≠ .error (.recursionLimit max) :=
    fun i url max h => nomatch Except.error.inj h
  -- one half for the watched evaluation, the other for the larger limit
  obtain ⟨hstatements, hlarger⟩ := Session.call_depth (m := {}) hfetch .root program
  refine ⟨rfl, ?_, ?_, ⟨_, _, rfl, rfl⟩⟩
  · obtain ⟨r, m₁, hrun⟩ : ∃ r m₁, runProgram 12 { maxDepth := 2 } (program.take 2) {} = some (r, m₁) :=
      ⟨_, _, rfl⟩
    obtain ⟨hdepth, -, hwatch⟩ := hstatements 12 2 r m₁ hrun
    exact ⟨r, m₁, hrun, hdepth, fun alarm => hwatch alarm 10 _⟩
  · obtain ⟨r, m', hrun, hfailures⟩ : ∃ r m',
        runProgram 12 { maxDepth := 2 } program {} = some (r, m') ∧ r.failures = [] := ⟨_, _, rfl, rfl⟩
    have hsame := hlarger 3 (by decide) 12 r m' hrun (by simp [hfailures])
    exact ⟨r, m', hrun, hfailures, hsame⟩

end Mundart
