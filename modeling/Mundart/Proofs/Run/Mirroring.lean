import Mundart.Proofs.Run.Halting
import Mundart.Proofs.Run.Record

/-!
# A cancelled run beside the undisturbed one

A cancellation takes hold at the next statement. Until then the cancelled run does what the undisturbed
one does, and there it ends, so it is the undisturbed run cut off at the first statement after the
cancellation. To say how far a run has come, the step limit serves as a clock: the run under a limit of
`n` is the first `n` statements of the run.

* **`Machine.Timed`**, **`Machine.Struck`** — a machine that is interrupted exactly since the fetch that
  cancels it;
* **`Mirrored`** — how a cancelled action ends, beside the undisturbed one under every limit;
* **`Mirrored.after`**, **`Mirrored.bind`** — actions in a row;
* **`tick_mirrored`** — counting is cut off by the cancellation;
* **`Mirrors`**, **`mirroring`** — hence all evaluations are.
-/

namespace Mundart

open Mundart.Action

variable {α β : Type} {s : Settings} {k : Nat}

/-- The settings under which somebody cancels the run during the fetch with a number. -/
def Settings.cancelledBy (s : Settings) (k : Nat) : Settings :=
  { s with fetcher := fun i url => { s.fetcher i url with cancels := decide (i = k) } }

/-- The settings under which a run gets through its first statements only. -/
def Settings.limitedTo (s : Settings) (n : Nat) : Settings := { s with maxSteps := n }

/-- The machine as if nobody had cancelled the run. -/
def Machine.undisturbed (m : Machine) : Machine := { m with interruption := none }

/-- The same end, as if nobody had cancelled the run. -/
def Outcome.undisturbed : Outcome α → Outcome α
  | .done a m => .done a m.undisturbed
  | .failed f m => .failed f m.undisturbed
  | .starved => .starved

/-- The same end, back in the frame of the caller. -/
def Outcome.leave : Outcome α → Outcome α
  | .done a m => .done a m.leave
  | .failed f m => .failed f m.leave
  | .starved => .starved

/-- A call is an action in its frame, which is left however the action ends. -/
theorem inFrame_eq_leave (frame : Frame) (x : Action α) (s : Settings) (m : Machine) :
    inFrame frame x s m = (x s (m.enter frame)).leave := by
  unfold inFrame
  cases x s (m.enter frame) with
  | done a m' => rfl
  | failed f m' => rfl
  | starved => rfl

/-! ## Side by side

The cancelled action on one side, the undisturbed one under every limit `j` on the other. A limit that is
exceeded ends the undisturbed action, so all limits up to some number together tell how many statements it
takes. -/

/-- A machine that is interrupted exactly since the fetch with a number, which was made by a statement. -/
structure Machine.Timed (k : Nat) (m : Machine) : Prop where
  begun : k < m.fetches → 0 < m.steps
  interruption : m.interruption = if k < m.fetches then some .cancelled else none

/-- Such a machine in the middle of a statement. -/
structure Machine.Struck (k : Nat) (m : Machine) : Prop where
  begun : 0 < m.steps
  interruption : m.interruption = if k < m.fetches then some .cancelled else none

/-- In particular it is one between statements. -/
theorem Machine.Struck.timed {m : Machine} (h : m.Struck k) : m.Timed k := ⟨fun _ => h.begun, h.interruption⟩

/-- The limit ended an action before the fetch with a number. -/
def Outcome.CutBefore (k j : Nat) (out : Outcome α) : Prop :=
  ∃ m, out = .failed (.stepLimit j) m ∧ m.fetches ≤ k

/-- All limits below some number, as far as they are not exceeded at the start, end an action before the
fetch. A limit of nothing would be none. -/
def CutBelow (k : Nat) (m : Machine) (n : Nat) (y : Nat → Outcome α) : Prop :=
  ∀ j, 0 < j → m.steps ≤ j → j < n → (y j).CutBefore k j

/-- How an action of the cancelled run ends that starts with the machine `m`, beside the same action of
the undisturbed run under every limit. The statements of the two are the same; where the cancelled run is
interrupted, the other one exceeds the limit that fits. -/
inductive Mirrored (k : Nat) (m : Machine) (y : Nat → Outcome α) : Outcome α → Prop where
  | starved (h : ∀ j, 0 < j → m.steps ≤ j → y j = .starved ∨ (y j).CutBefore k j) :
      Mirrored k m y .starved
  | done {a : α} {m' : Machine} (hm' : m'.Struck k) (hsteps : m.steps ≤ m'.steps)
      (hcut : CutBelow k m m'.steps y) (hsame : ∀ j, m'.steps ≤ j → y j = .done a m'.undisturbed) :
      Mirrored k m y (.done a m')
  | failed {f : Failure} {m' : Machine} (hf : ¬ f.Stops) (hm' : m'.Struck k)
      (hsteps : m.steps ≤ m'.steps) (hcut : CutBelow k m m'.steps y)
      (hsame : ∀ j, m'.steps ≤ j → y j = .failed f m'.undisturbed) : Mirrored k m y (.failed f m')
  | interrupted {n : Nat} {m' : Machine} (hm' : m'.Struck k) (hmade : k < m'.fetches)
      (hn : 0 < n) (hcount : m'.steps = n + 1) (hsteps : m.steps ≤ n) (hcut : CutBelow k m n y)
      (hlimit : y n = .failed (.stepLimit n) m'.undisturbed) :
      Mirrored k m y (.failed (.interrupted .cancelled) m')

/-- An action that counts nothing and does not stop the run. -/
def Outcome.Level (k : Nat) (m : Machine) : Outcome α → Prop
  | .done _ m' => m'.Struck k ∧ m'.steps = m.steps
  | .failed f m' => ¬ f.Stops ∧ m'.Struck k ∧ m'.steps = m.steps
  | .starved => True

/-- An action of the cancelled run ends as the undisturbed one, as far as no statement follows the
cancellation. -/
def Mirrors (s : Settings) (k : Nat) (x : Action α) : Prop :=
  ∀ m, m.Struck k → Mirrored k m (fun j => x (s.limitedTo j) m.undisturbed) (x (s.cancelledBy k) m)

/-! ## Actions in a row

The cases are always the four ends of the cancelled action. Limits below the count of the first part end it
there already, and the others leave it as it is, so that the second part decides. -/

/-- An action that goes on where an earlier part has ended. -/
theorem Mirrored.after {m m₁ : Machine} {y z : Nat → Outcome α} {out : Outcome α}
    (h : Mirrored k m₁ z out) (hsteps : m.steps ≤ m₁.steps) (hcut : CutBelow k m m₁.steps y)
    (hsame : ∀ j, m₁.steps ≤ j → y j = z j) : Mirrored k m y out := by
  have hbelow : ∀ n, CutBelow k m₁ n z → CutBelow k m n y := by
    intro n hn j hpos hj hlt
    by_cases hearly : j < m₁.steps
    · exact hcut j hpos hj hearly
    · rw [hsame j (by omega)]
      exact hn j hpos (by omega) hlt
  cases h with
  | starved h =>
    refine .starved fun j hpos hj => ?_
    by_cases hearly : j < m₁.steps
    · exact .inr (hcut j hpos hj hearly)
    · rw [hsame j (by omega)]
      exact h j hpos (by omega)
  | done hm' hle hcut' hend =>
    refine .done hm' (by omega) (hbelow _ hcut') fun j hj => ?_
    rw [hsame j (by omega)]
    exact hend j hj
  | failed hf hm' hle hcut' hend =>
    refine .failed hf hm' (by omega) (hbelow _ hcut') fun j hj => ?_
    rw [hsame j (by omega)]
    exact hend j hj
  | @interrupted n _ hm' hmade hn hcount hle hcut' hlimit =>
    refine .interrupted hm' hmade hn hcount (by omega) (hbelow _ hcut') ?_
    rw [hsame n hle]
    exact hlimit

/-- Two actions in a row. -/
theorem Mirrored.bind {m : Machine} {x : Action α} {next : α → Action β}
    (h : Mirrored k m (fun j => x (s.limitedTo j) m.undisturbed) (x (s.cancelledBy k) m))
    (hnext : ∀ a, Mirrors s k (next a)) :
    Mirrored k m (fun j => (x >>= next) (s.limitedTo j) m.undisturbed)
      ((x >>= next) (s.cancelledBy k) m) := by
  have hbelow : ∀ n, CutBelow k m n (fun j => x (s.limitedTo j) m.undisturbed) →
      CutBelow k m n (fun j => (x >>= next) (s.limitedTo j) m.undisturbed) := by
    intro n hn j hpos hj hlt
    obtain ⟨m₁, hrun, hmade⟩ := hn j hpos hj hlt
    exact ⟨m₁, bind_of_failed hrun, hmade⟩
  -- What comes next runs only if the first part is done; then the case is the one of `Mirrored.after`.
  cases hrun : x (s.cancelledBy k) m with
  | starved =>
    rw [hrun] at h
    rw [bind_of_starved hrun]
    cases h with
    | starved h =>
      refine .starved fun j hpos hj => ?_
      obtain hstarved | ⟨m₁, hfailed, hmade⟩ := h j hpos hj
      · exact .inl (bind_of_starved hstarved)
      · exact .inr ⟨m₁, bind_of_failed hfailed, hmade⟩
  | done a m₁ =>
    rw [hrun] at h
    rw [bind_of_done hrun]
    cases h with
    | done hm₁ hsteps hcut hsame =>
      exact (hnext a m₁ hm₁).after hsteps (hbelow _ hcut) fun j hj => bind_of_done (hsame j hj)
  | failed f m₁ =>
    rw [hrun] at h
    rw [bind_of_failed hrun]
    cases h with
    | failed hf hm₁ hsteps hcut hsame =>
      exact .failed hf hm₁ hsteps (hbelow _ hcut) fun j hj => bind_of_failed (hsame j hj)
    | interrupted hm₁ hmade hn hcount hsteps hcut hlimit =>
      exact .interrupted hm₁ hmade hn hcount hsteps (hbelow _ hcut) (bind_of_failed hlimit)

/-- Both runs leave the call that they had entered. -/
theorem Mirrored.leave {m : Machine} {frame : Frame} {y : Nat → Outcome α} {out : Outcome α}
    (h : Mirrored k (m.enter frame) y out) : Mirrored k m (fun j => (y j).leave) out.leave := by
  have hstruck : ∀ {m' : Machine}, m'.Struck k → m'.leave.Struck k :=
    fun hm' => ⟨hm'.begun, hm'.interruption⟩
  have hcutBefore : ∀ {j : Nat}, (y j).CutBefore k j → (y j).leave.CutBefore k j := by
    rintro j ⟨m', hfailed, hmade⟩
    exact ⟨m'.leave, by rw [hfailed]; rfl, hmade⟩
  have hbelow : ∀ {n : Nat}, CutBelow k (m.enter frame) n y → CutBelow k m n fun j => (y j).leave :=
    fun hcut j hpos hj hlt => hcutBefore (hcut j hpos hj hlt)
  -- Leaving a frame changes neither the counts nor the interruption.
  cases h with
  | starved h =>
    refine .starved fun j hpos hj => ?_
    rcases h j hpos hj with hstarved | hcut
    · exact .inl (by rw [hstarved]; rfl)
    · exact .inr (hcutBefore hcut)
  | done hm' hsteps hcut hsame =>
    refine .done (hstruck hm') hsteps (hbelow hcut) fun j hj => ?_
    rw [hsame j hj]
    rfl
  | failed hf hm' hsteps hcut hsame =>
    refine .failed hf (hstruck hm') hsteps (hbelow hcut) fun j hj => ?_
    rw [hsame j hj]
    rfl
  | interrupted hm' hmade hn hcount hsteps hcut hlimit =>
    refine .interrupted (hstruck hm') hmade hn hcount hsteps (hbelow hcut) ?_
    rw [hlimit]
    rfl

/-! ## Actions that are cut off

Most actions count nothing and do not look at the limit or at an interruption, so they do the same on both
sides. Of these it is enough to know where they leave the machine. -/

namespace Mirrors

/-- One action after the other. -/
theorem bind {x : Action α} {next : α → Action β} (hx : Mirrors s k x)
    (hnext : ∀ a, Mirrors s k (next a)) : Mirrors s k (x >>= next) := fun m hm => (hx m hm).bind hnext

/-- Where nothing is counted and the settings make no difference, the two runs do the same. -/
theorem of_level {x : Action α} (h : ∀ m, m.Struck k → (x (s.cancelledBy k) m).Level k m ∧
      ∀ j, x (s.limitedTo j) m.undisturbed = (x (s.cancelledBy k) m).undisturbed) : Mirrors s k x := by
  intro m hm
  obtain ⟨hlevel, hsame⟩ := h m hm
  have hnone : ∀ m' : Machine, m'.steps = m.steps →
      CutBelow k m m'.steps (fun j => x (s.limitedTo j) m.undisturbed) :=
    fun m' hsteps j _ hj hlt => absurd hlt (by omega)
  cases hrun : x (s.cancelledBy k) m with
  | starved =>
    rw [hrun] at hsame
    exact .starved fun j _ _ => .inl (hsame j)
  | done a m' =>
    rw [hrun] at hlevel hsame
    obtain ⟨hm', hsteps⟩ := hlevel
    exact .done hm' (by omega) (hnone m' hsteps) fun j _ => hsame j
  | failed f m' =>
    rw [hrun] at hlevel hsame
    obtain ⟨hf, hm', hsteps⟩ := hlevel
    exact .failed hf hm' (by omega) (hnone m' hsteps) fun j _ => hsame j

/-- A result. -/
theorem pure (a : α) : Mirrors s k (pure a) := of_level fun _ hm => ⟨⟨hm, rfl⟩, fun _ => rfl⟩

/-- A failure that is not one of the run itself. -/
theorem fail {f : Failure} (hf : ¬ f.Stops) : Mirrors s k (fail f : Action α) :=
  of_level fun _ hm => ⟨⟨hf, hm, rfl⟩, fun _ => rfl⟩

/-- The depth of calls is the same on both sides. -/
theorem checkDepth : Mirrors s k checkDepth := by
  refine of_level fun m hm => ?_
  -- There is room for another call on both sides or on neither.
  rcases checkDepth_cases (s.cancelledBy k) m with ⟨hroom, hleft⟩ | ⟨hfull, hleft⟩
  · rw [hleft]
    refine ⟨⟨hm, rfl⟩, fun j => ?_⟩
    rcases checkDepth_cases (s.limitedTo j) m.undisturbed with ⟨-, hright⟩ | ⟨hfull, -⟩
    · exact hright
    · exact absurd hroom (Nat.not_lt.mpr hfull)
  · rw [hleft]
    refine ⟨⟨fun hstops => hstops, hm, rfl⟩, fun j => ?_⟩
    rcases checkDepth_cases (s.limitedTo j) m.undisturbed with ⟨hroom, -⟩ | ⟨-, hright⟩
    · exact absurd hroom (Nat.not_lt.mpr hfull)
    · exact hright

/-- A name means the same function in both runs. -/
theorem function {name : Text} {next : Function → Action β} (hnext : ∀ fn, Mirrors s k (next fn)) :
    Mirrors s k (function name >>= next) := by
  refine bind (of_level fun m hm => ?_) hnext
  cases hfn : m.scope.lookupFunc? name with
  | none =>
    rw [function_of_none hfn]
    exact ⟨⟨fun hstops => hstops, hm, rfl⟩, fun _ => function_of_none hfn⟩
  | some fn =>
    rw [function_of_some hfn]
    exact ⟨⟨hm, rfl⟩, fun _ => function_of_some hfn⟩

/-- Printing is the same, whether there is room for it or not. -/
theorem print (t : Text) : Mirrors s k (print t) := by
  refine of_level fun m hm => ?_
  let write (full : Bool) (m : Machine) : Outcome Unit :=
    if full then .failed (.output "disk full") m else .done () { m with printed := t :: m.printed }
  have hwrite : ∀ full, (write full m).Level k m ∧
      write full m.undisturbed = (write full m).undisturbed := by
    intro full
    cases full with
    | true => exact ⟨⟨fun hstops => hstops, hm, rfl⟩, rfl⟩
    | false => exact ⟨⟨⟨hm.begun, hm.interruption⟩, rfl⟩, rfl⟩
  exact ⟨(hwrite _).1, fun j => (hwrite _).2⟩

/-- A fetch is answered the same way. The one that cancels the run interrupts the machine from then on. -/
theorem fetch (hs : s.Calm) (url : Text) : Mirrors s k (fetch url) := by
  refine of_level fun m hm => ?_
  let later : Machine :=
    { m with events := .fetching url :: m.events, fetches := m.fetches + 1
             interruption := if k < m.fetches + 1 then some .cancelled else none }
  have hstruck : later.Struck k := ⟨hm.begun, rfl⟩
  -- The fetch with the number is the one that interrupts, if nothing did before.
  have hcause : (if decide (m.fetches = k) then m.interruption <|> some .cancelled else m.interruption) =
      if k < m.fetches + 1 then some .cancelled else none := by
    rw [hm.interruption]
    rcases Nat.lt_trichotomy m.fetches k with hlt | heq | hgt
    · rw [if_neg (by simp; omega), if_neg (by omega), if_neg (by omega)]
    · rw [if_pos (by simp [heq]), if_neg (by omega), if_pos (by omega)]
      rfl
    · rw [if_neg (by simp; omega), if_pos hgt, if_pos (by omega)]
  -- The undisturbed run is asked for nothing of that kind.
  have hquiet : ∀ j, (if ((s.limitedTo j).fetcher m.fetches url).cancels then
      m.undisturbed.interruption <|> some .cancelled else m.undisturbed.interruption) = none := by
    intro j
    show (if (s.fetcher m.fetches url).cancels then _ else _) = _
    rw [hs.uncancelled]
    rfl
  cases hresult : (s.fetcher m.fetches url).result with
  | ok v =>
    have hleft : Action.fetch url (s.cancelledBy k) m = .done v later := fetch_of_ok hcause hresult
    rw [hleft]
    exact ⟨⟨hstruck, rfl⟩, fun j => fetch_of_ok (hquiet j) hresult⟩
  | error f =>
    have hleft : Action.fetch url (s.cancelledBy k) m =
        .failed f { later with events := .fetchFailed url f :: later.events } :=
      fetch_of_error hcause hresult
    rw [hleft]
    exact ⟨⟨hs.fetch _ _ _ hresult, ⟨hm.begun, rfl⟩, rfl⟩, fun j => fetch_of_error (hquiet j) hresult⟩

/-- A method gives the same and uses up the same randomness. -/
theorem invoke (method : Method) (receiver : Value) (arg : Option Value) :
    Mirrors s k (invoke method receiver arg) := by
  refine of_level fun m hm => ?_
  have horderly := method.invoke_orderly receiver arg m.random
  cases hresult : (method.invoke receiver arg m.random).1 with
  | ok v =>
    rw [invoke_of_ok hresult]
    exact ⟨⟨⟨hm.begun, hm.interruption⟩, rfl⟩, fun j => invoke_of_ok hresult⟩
  | error f =>
    rw [invoke_of_error hresult]
    exact ⟨⟨(horderly f hresult).not_stops, ⟨hm.begun, hm.interruption⟩, rfl⟩, fun j => invoke_of_error hresult⟩

/-- The statements of a block, one after the other. -/
theorem block {exec : Node → Action Flow} (hexec : ∀ n, Mirrors s k (exec n)) (ns : List Node) :
    ∀ last : Value, Mirrors s k (Eval.block exec last ns) := by
  induction ns with
  | nil => exact fun last => pure _
  | cons n ns ih =>
    intro last
    refine bind (hexec n) fun flow => ?_
    -- A statement that returns ends the block on both sides.
    cases flow with
    | returned v => exact pure _
    | next v => exact ih v

/-- A call, if its body is cut off. -/
theorem inFrame {x : Action α} (hx : Mirrors s k x) (frame : Frame) : Mirrors s k (inFrame frame x) := by
  intro m hm
  have hinner := hx (m.enter frame) ⟨hm.begun, hm.interruption⟩
  simp only [inFrame_eq_leave]
  exact hinner.leave

end Mirrors

/-! ## Counting and evaluation

Everything else is made of these actions and of counting, which is the one place where the two sides differ.
-/

/-- Counting beyond a limit fails. -/
theorem tick_at_limit {m : Machine} {n : Nat} (hn : 0 < n) (hm : n ≤ m.steps) :
    tick (s.limitedTo n) m = .failed (.stepLimit n) { m with steps := m.steps + 1 } := by
  have hlimit : (decide (0 < (n : Int)) && decide ((n : Int) < ((m.steps + 1 : Nat) : Int))) = true := by
    simp only [Bool.and_eq_true, decide_eq_true_eq]
    omega
  exact if_pos hlimit

/-- Without a limit only an interruption ends a statement before it begins. -/
theorem tick_unlimited (hs : s.Calm) (m : Machine) :
    tick (s.cancelledBy k) m = match m.interruption with
      | some cause => .failed (.interrupted cause) { m with steps := m.steps + 1 }
      | none => .done () { m with steps := m.steps + 1 } := tick_within (.inl hs.unlimited)

/-- Counting is where a cancellation takes hold. The statement that is not begun any more is the first
one beyond the limit that fits. -/
theorem tick_mirrored (hs : s.Calm) {m : Machine} (hm : m.Timed k) :
    Mirrored k m (fun j => tick (s.limitedTo j) m.undisturbed) (tick (s.cancelledBy k) m) := by
  have hstruck : ({ m with steps := m.steps + 1 } : Machine).Struck k := ⟨Nat.succ_pos _, hm.interruption⟩
  have hlimit : 0 < m.steps → tick (s.limitedTo m.steps) m.undisturbed =
      .failed (.stepLimit m.steps) { m.undisturbed with steps := m.steps + 1 } :=
    fun hpos => tick_at_limit hpos (Nat.le_refl _)
  have hinterruption := hm.interruption
  rw [tick_unlimited hs]
  -- Either the fetch came before this statement, or it is still to come.
  by_cases hmade : k < m.fetches
  · rw [if_pos hmade] at hinterruption
    split
    · next cause hcause =>
      obtain rfl : cause = .cancelled := Option.some.inj (hcause.symm.trans hinterruption)
      have hnone : CutBelow k m m.steps fun j => tick (s.limitedTo j) m.undisturbed :=
        fun j _ hj hlt => absurd hlt (by omega)
      exact .interrupted hstruck hmade (hm.begun hmade) rfl (Nat.le_refl _) hnone (hlimit (hm.begun hmade))
    · next hnone => exact absurd (hnone.symm.trans hinterruption) (by simp)
  · rw [if_neg hmade] at hinterruption
    split
    · next cause hcause => exact absurd (hcause.symm.trans hinterruption) (by simp)
    · refine .done hstruck (Nat.le_succ _) (fun j hpos hj hlt => ?_) fun j hj => ?_
      · obtain rfl : j = m.steps := Nat.le_antisymm (Nat.le_of_lt_succ hlt) hj
        exact ⟨_, hlimit hpos, Nat.le_of_not_lt hmade⟩
      · have hroom : ((m.undisturbed.steps : Nat) : Int) < (s.limitedTo j).maxSteps := Int.ofNat_lt.mpr hj
        exact tick_within (.inr hroom)

/-- Evaluators that a cancellation cuts off. -/
structure Evaluators.Mirror (s : Settings) (k : Nat) (e : Evaluators) : Prop where
  eval : ∀ n, Mirrors s k (e.eval n)
  exec : ∀ n, Mirrors s k (e.exec n)
  loop : ∀ test body update, Mirrors s k (e.loop test body update)

/-- What is built from evaluators that are cut off is cut off. -/
theorem Built.mirrors (hs : s.Calm) {x : Evaluators → Action α} {e : Evaluators}
    (h : Built (freeAccess (fun f => ¬ f.Stops) fun _ => mt Failure.Stops.ofRun) α x) (he : e.Mirror s k) :
    Mirrors s k (x e) := by
  induction h with
  | pure a => exact .pure a
  | bind _ _ ihx ihnext => exact .bind ihx ihnext
  | fail hf => exact .fail hf
  | function _ ih => exact .function fun fn => ih fn trivial
  | print t => exact .print t
  | fetch url => exact .fetch hs url
  | invoke method receiver arg => exact .invoke method receiver arg
  | eval _ => exact he.eval _
  | exec _ => exact he.exec _
  | loop _ => exact he.loop _ _ _
  | body _ vars => exact .bind .checkDepth fun _ => .inFrame (.block he.exec _ _) _
  -- Reading the scope, binding and noting count nothing and do not fail.
  | _ => exact .of_level fun m hm => ⟨⟨⟨hm.begun, hm.interruption⟩, rfl⟩, fun _ => rfl⟩

/-- A cancellation cuts off every evaluation at the next statement. -/
theorem mirroring (hs : s.Calm) (fuel : Nat) : (evaluators fuel).Mirror s k := by
  -- With more fuel the evaluators are built from those with less; a statement is counted before it is run.
  induction fuel with
  | zero =>
    have hstarve : ∀ {α : Type}, Mirrors s k (starve : Action α) :=
      fun m _ => .starved fun _ _ _ => .inl rfl
    exact ⟨fun _ => hstarve, fun _ => hstarve, fun _ _ _ => hstarve⟩
  | succ fuel ih =>
    refine ⟨fun n => ?_, fun n => ?_, fun test body update => ?_⟩
    · exact (value_built (freeAccess_covers n)).mirrors hs ih
    · intro m hm
      exact (tick_mirrored hs hm.timed).bind fun _ =>
        (effect_built (freeAccess_coversEffect n)).mirrors hs ih
    · exact (turn_built (freeAccess_coversTurn test body update)).mirrors hs ih

/-- A statement on the top level, which may be the first one of the run, ends the same way under the limit
as under the cancellation. -/
theorem exec_mirrored (hs : s.Calm) {m : Machine} (hm : m.Timed k) (fuel : Nat) (n : Node) :
    Mirrored k m (fun j => exec (fuel + 1) n (s.limitedTo j) m.undisturbed)
      (exec (fuel + 1) n (s.cancelledBy k) m) :=
  (tick_mirrored hs hm).bind fun _ =>
    (effect_built (freeAccess_coversEffect n)).mirrors hs (mirroring hs fuel)

end Mundart
