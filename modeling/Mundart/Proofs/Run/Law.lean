import Mundart.Proofs.Run.Built

/-!
# Laws of evaluation

A law says what an action may do to the machine, when it is done and when it fails, and what it may
rely on when it starts. Actions that are built from parts respect a law if the parts do
(`Built.respects`); a law of all evaluations then follows by induction on the bound of the evaluators.
-/

namespace Mundart

open Mundart.Action

/-- The machine at the end of an action, if it ended. -/
def Outcome.machine? {α : Type} : Outcome α → Option Machine
  | .done _ m => some m
  | .failed _ m => some m
  | .starved => none

/-- Two actions in a row end where the first one fails or where the second one ends. -/
theorem Action.machine?_bind {α β : Type} {x : Action α} {next : α → Action β} {s : Settings}
    {m m' : Machine} (h : ((x >>= next) s m).machine? = some m') :
    ∃ m₁, (x s m).machine? = some m₁ ∧
      (m' = m₁ ∨ ∃ a, x s m = .done a m₁ ∧ (next a s m₁).machine? = some m') := by
  cases hx : x s m with
  | starved =>
    rw [bind_of_starved hx] at h
    exact nomatch h
  | failed f m₁ =>
    rw [bind_of_failed hx] at h
    exact ⟨m₁, rfl, .inl (Option.some.inj h).symm⟩
  | done a m₁ =>
    rw [bind_of_done hx] at h
    exact ⟨m₁, rfl, .inr ⟨a, rfl, h⟩⟩

/-- What relates the machines before and after an action. -/
structure Law where
  /-- Holds of the machine whenever an action starts or ends. -/
  inv : Machine → Prop
  done : Machine → Machine → Prop
  failed : Machine → Failure → Machine → Prop
  refl : ∀ m, done m m
  trans : ∀ {m₁ m₂ m₃}, done m₁ m₂ → done m₂ m₃ → done m₁ m₃
  after : ∀ {m₁ m₂ m₃ f}, done m₁ m₂ → failed m₂ f m₃ → failed m₁ f m₃

variable {L : Law} {s : Settings} {A : Access} {e : Evaluators} {α β : Type}

/-- An action respects a law under some settings. -/
def Law.Holds (L : Law) (m : Machine) : Outcome α → Prop
  | .done _ m' => L.inv m' ∧ L.done m m'
  | .failed f m' => L.inv m' ∧ L.failed m f m'
  | .starved => True

def Respects (L : Law) (s : Settings) (x : Action α) : Prop := ∀ m, L.inv m → L.Holds m (x s m)

/-- However an action ends, the law relates its end to its start. -/
theorem Law.Holds.ended {out : Outcome α} {m m' : Machine} (h : L.Holds m out)
    (hm' : out.machine? = some m') : L.done m m' ∨ ∃ f, L.failed m f m' := by
  cases out with
  | starved => exact nomatch hm'
  | done a m₁ => exact .inl (Option.some.inj hm' ▸ h.2)
  | failed f m₁ => exact .inr ⟨f, Option.some.inj hm' ▸ h.2⟩

/-- The failures of statements that a machine has noted, the last one first. -/
def Machine.noted (m : Machine) : List Failure := m.events.filterMap Event.failure?

/-- A change that neither counts a statement nor changes a binding: something is printed, noted,
fetched or drawn. Only a fetch may tell that the run was cancelled meanwhile. -/
structure Quiet (s : Settings) (m m' : Machine) : Prop where
  scope : m'.scope = m.scope
  steps : m'.steps = m.steps
  depth : m'.depth = m.depth
  printed : m.printed <:+ m'.printed
  events : m.events <:+ m'.events
  noted : m'.noted = m.noted
  interruption : m'.interruption = m.interruption ∨ ∃ n url, (s.fetcher n url).cancels = true

/-- What a law has to grant for an access: that every single thing the access allows respects it. -/
structure Law.Grants (L : Law) (s : Settings) (A : Access) : Prop where
  quiet : ∀ {m m' : Machine}, Quiet s m m' → L.inv m → L.inv m' ∧ L.done m m'
  fail : ∀ {m : Machine} {f : Failure}, A.fails f → L.inv m → L.failed m f m
  fetch : ∀ {n : Nat} {url : Text} {f : Failure}, (s.fetcher n url).result = .error f → A.fails f
  function : ∀ {m : Machine} {name : Text} {fn : Function}, L.inv m →
    m.scope.lookupFunc? name = some fn → A.knows fn
  define : ∀ {name : Text} {v : Value}, A.writes name → Respects L s (define name v)
  defineFunc : ∀ {fn : Function}, A.defines fn → Respects L s (defineFunc fn)
  full : ∀ {m : Machine}, L.inv m → s.maxDepth ≤ m.depth → L.failed m (.recursionLimit s.maxDepth) m

/-- Evaluators that respect a law wherever an access allows their use. -/
structure Evaluators.Respect (e : Evaluators) (L : Law) (s : Settings) (A : Access) : Prop where
  eval : ∀ {n : Node}, A.evals n → Respects L s (e.eval n)
  exec : ∀ {n : Node}, A.execs n → Respects L s (e.exec n)
  loop : ∀ {test : Node} {body : List Node} {update : Option Node}, A.loops test body update →
    Respects L s (e.loop test body update)
  frame : ∀ {fn : Function}, A.knows fn → ∀ vars : Dict Value,
    Respects L s (inFrame { vars := vars } (Eval.block e.exec .absent fn.body))

/-- The evaluators with a bound. -/
def evaluators (fuel : Nat) : Evaluators := ⟨eval fuel, exec fuel, loop fuel⟩

/-! ## Actions that are built

A law needs to be checked on single actions only: it is kept by everything that is built from them. The
actions are those of `Built`, so that a law which holds of each of its constructors holds of every node. -/

/-- What does nothing respects every law. -/
theorem respects_pure (a : α) : Respects L s (pure a) := fun m hm => ⟨hm, L.refl m⟩

/-- One action after another does if both do. The second one may rely on how the first one has ended. -/
theorem respects_bind {x : Action α} {next : α → Action β} (hx : Respects L s x)
    (hnext : ∀ m a m', x s m = .done a m' → L.inv m' → L.Holds m' (next a s m')) :
    Respects L s (x >>= next) := by
  intro m hm
  have hout := hx m hm
  cases h : x s m with
  | starved =>
    rw [bind_of_starved h]
    trivial
  | failed f m' =>
    rw [h] at hout
    rw [bind_of_failed h]
    exact hout
  | done a m' =>
    rw [h] at hout
    rw [bind_of_done h]
    -- The law is kept by the second action from where the first one has ended.
    have hrest := hnext m a m' h hout.1
    cases h' : next a s m' with
    | starved => trivial
    | failed f m'' =>
      rw [h'] at hrest
      exact ⟨hrest.1, L.after hout.2 hrest.2⟩
    | done b m'' =>
      rw [h'] at hrest
      exact ⟨hrest.1, L.trans hout.2 hrest.2⟩

/-- A block does if its statements do. By induction on these. -/
theorem respects_block {exec : Node → Action Flow} {ns : List Node}
    (h : ∀ n ∈ ns, Respects L s (exec n)) : ∀ last : Value, Respects L s (Eval.block exec last ns) := by
  induction ns with
  | nil => exact fun last => respects_pure _
  | cons n ns ih =>
    intro last
    obtain ⟨hn, hns⟩ := List.forall_mem_cons.mp h
    refine respects_bind hn fun m flow m' _ hm' => ?_
    cases flow with
    | returned v => exact respects_pure _ m' hm'
    | next v => exact ih hns v m' hm'

/-- An action in a frame of its own respects a law if it respects another one inside, and if what that
one says still holds once the frame is gone. -/
theorem respects_inFrame {inner : Law} {x : Action α} (hx : Respects inner s x) {frame : Frame}
    (henter : ∀ m, L.inv m → inner.inv (m.enter frame))
    (hdone : ∀ m m', inner.inv m' → inner.done (m.enter frame) m' →
      L.inv m'.leave ∧ L.done m m'.leave)
    (hfailed : ∀ m f m', inner.inv m' → inner.failed (m.enter frame) f m' →
      L.inv m'.leave ∧ L.failed m f m'.leave) : Respects L s (inFrame frame x) := by
  intro m hm
  have hout := hx (m.enter frame) (henter m hm)
  unfold inFrame
  cases hrun : x s (m.enter frame) with
  | starved => trivial
  | done a m' =>
    rw [hrun] at hout
    exact hdone m m' hout.1 hout.2
  | failed f m' =>
    rw [hrun] at hout
    exact hfailed m f m' hout.1 hout.2

/-- To fail is allowed for the failures that are. -/
theorem respects_fail (hL : L.Grants s A) {f : Failure} (hf : A.fails f) :
    Respects L s (fail f : Action α) := fun _ hm => ⟨hm, hL.fail hf hm⟩

/-- A failure after a change that is no matter. -/
theorem Law.Grants.failed (hL : L.Grants s A) {m m' : Machine} {f : Failure} (hquiet : Quiet s m m')
    (hm : L.inv m) (hf : A.fails f) : L.inv m' ∧ L.failed m f m' := by
  obtain ⟨hm', hdone⟩ := hL.quiet hquiet hm
  exact ⟨hm', L.after hdone (hL.fail hf hm')⟩

/-- Output changes nothing that a law may forbid. -/
theorem respects_print (hL : L.Grants s A) (t : Text) : Respects L s (print t) := by
  intro m hm
  have hwrite : ∀ full : Bool, L.Holds m (if full then .failed (.output "disk full") m
      else .done () { m with printed := t :: m.printed }) := by
    intro full
    cases full with
    | true => exact ⟨hm, hL.fail (A.tolerates _ trivial) hm⟩
    | false => exact hL.quiet ⟨rfl, rfl, rfl, List.suffix_cons _ _, List.suffix_rfl, rfl, .inl rfl⟩ hm
  exact hwrite _

/-- A fetch fails as it is allowed to. -/
theorem respects_fetch (hL : L.Grants s A) (url : Text) : Respects L s (fetch url) := by
  intro m hm
  -- A fetch may cancel the run, but only if its fetcher can.
  have hcause : (if (s.fetcher m.fetches url).cancels then m.interruption <|> some .cancelled
      else m.interruption) = m.interruption ∨ ∃ n url, (s.fetcher n url).cancels = true := by
    split
    · next hcancels => exact .inr ⟨_, _, hcancels⟩
    · exact .inl rfl
  unfold fetch
  dsimp only
  split
  · exact hL.quiet ⟨rfl, rfl, rfl, List.suffix_rfl, List.suffix_cons _ _, rfl, hcause⟩ hm
  · next f hf =>
    have hevents := (List.suffix_cons (Event.fetching url) m.events).trans
      (List.suffix_cons (Event.fetchFailed url f) _)
    exact hL.failed ⟨rfl, rfl, rfl, List.suffix_rfl, hevents, rfl, hcause⟩ hm (hL.fetch hf)

/-- A method fails or draws a random number, and both are allowed. -/
theorem respects_invoke (hL : L.Grants s A) (method : Method) (receiver : Value)
    (arg : Option Value) : Respects L s (invoke method receiver arg) := by
  intro m hm
  have horderly := method.invoke_orderly receiver arg m.random
  unfold invoke
  dsimp only
  split
  · exact hL.quiet ⟨rfl, rfl, rfl, List.suffix_rfl, List.suffix_rfl, rfl, .inl rfl⟩ hm
  · next f hf =>
    exact hL.failed ⟨rfl, rfl, rfl, List.suffix_rfl, List.suffix_rfl, rfl, .inl rfl⟩ hm
      (A.tolerates f (horderly f hf))

/-- Looking up a function gives one that is known, or an ordinary failure. -/
theorem respects_function (hL : L.Grants s A) {name : Text} {next : Function → Action β}
    (hnext : ∀ fn, A.knows fn → Respects L s (next fn)) :
    Respects L s (function name >>= next) := by
  intro m hm
  cases h : m.scope.lookupFunc? name with
  | none =>
    rw [bind_of_failed (function_of_none h)]
    exact ⟨hm, hL.fail (A.tolerates _ trivial) hm⟩
  | some fn =>
    rw [bind_of_done (function_of_some h)]
    exact hnext fn (hL.function hm h) m hm

/-- A call may find no room, which is a failure that is allowed. -/
theorem respects_checkDepth (hL : L.Grants s A) : Respects L s checkDepth := by
  intro m hm
  obtain ⟨-, hcheck⟩ | ⟨hfull, hcheck⟩ := checkDepth_cases s m
  · rw [hcheck]
    exact ⟨hm, L.refl m⟩
  · rw [hcheck]
    exact ⟨hm, hL.full hm hfull⟩

/-- Counting a statement, where a law does not care how many there were. -/
theorem respects_tick (hcount : ∀ m, L.inv m → L.inv { m with steps := m.steps + 1 } ∧
    L.done m { m with steps := m.steps + 1 } ∧
    ∀ f : Failure, f.Stops → L.failed m f { m with steps := m.steps + 1 }) : Respects L s tick := by
  intro m hm
  obtain ⟨hinv, hdone, hfailed⟩ := hcount m hm
  unfold tick
  dsimp only
  split
  · exact ⟨hinv, hfailed _ trivial⟩
  · split
    · exact ⟨hinv, hfailed _ trivial⟩
    · exact ⟨hinv, hdone⟩

/-- So what is built from such actions respects the law if its parts do. -/
theorem Built.respects {x : Evaluators → Action α} (h : Built A α x) (hL : L.Grants s A)
    (he : e.Respect L s A) : Respects L s (x e) := by
  induction h with
  | pure a => exact respects_pure a
  | bind _ _ ihx ihnext => exact respects_bind ihx fun _ a m' _ hm' => ihnext a m' hm'
  | fail hf => exact respects_fail hL hf
  | scope => exact fun m hm => ⟨hm, L.refl m⟩
  | function _ ih => exact respects_function hL ih
  | define hname v => exact hL.define hname
  | defineFunc hfn => exact hL.defineFunc hfn
  | note hevent =>
    refine fun m hm => hL.quiet ⟨rfl, rfl, rfl, List.suffix_rfl, List.suffix_cons _ _, ?_, .inl rfl⟩ hm
    exact List.filterMap_cons_none hevent
  | print t => exact respects_print hL t
  | fetch url => exact respects_fetch hL url
  | invoke method receiver arg => exact respects_invoke hL method receiver arg
  | eval hn => exact he.eval hn
  | exec hn => exact he.exec hn
  | loop hl => exact he.loop hl
  -- A call is checked for room before its frame is entered.
  | body hfn vars => exact respects_bind (respects_checkDepth hL) fun _ _ m' _ hm' => he.frame hfn vars m' hm'

end Mundart
