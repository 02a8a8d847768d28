import Mundart.Proofs.Run.Growth

/-!
# Two runs side by side

Two runs of the same program under settings that differ little do the same, one of them perhaps with
more statements on its count, until a failure parts them. A `Coupling` says how the settings are
related, which failures both runs meet and what is left to say once they have parted.

* **`Coupling.Couples.bind`** — actions in a row stay coupled; after a parting the right run goes on,
  and whatever holds then holds later;
* **`Coupling.coupled`** — all evaluations are coupled if counting and the check of the depth are.
-/

namespace Mundart

open Mundart.Action

variable {α β : Type}

/-- The machine of a run that has counted some more statements. -/
def Machine.ahead (m : Machine) (lead : Nat) : Machine := { m with steps := m.steps + lead }

def Outcome.ahead (lead : Nat) : Outcome α → Outcome α
  | .done a m => .done a (m.ahead lead)
  | .failed f m => .failed f (m.ahead lead)
  | .starved => .starved

/-- Two runs of the same program. -/
structure Coupling where
  left : Settings
  right : Settings
  /-- How many statements the right run has counted before. -/
  lead : Nat
  /-- The failures that both runs meet. -/
  shared : Failure → Prop
  /-- The failures of the left run that part the two. -/
  parts : Failure → Prop
  /-- How the machine of the left run, where it failed, and a later one of the right run are related
  once they have parted. -/
  parted : Machine → Machine → Prop
  contained : ∀ f : Failure, ¬ f.OfRun → shared f
  fetcher : right.fetcher = left.fetcher
  fetchFails : ∀ n url f, (left.fetcher n url).result = .error f → shared f
  writeLimit : right.writeLimit = left.writeLimit
  later : ∀ {m m₁ m₂ : Machine}, parted m m₁ → Later m₁ m₂ → parted m m₂
  leave : ∀ {m m' : Machine}, parted m m' → parted m.leave m'.leave

namespace Coupling

variable {C : Coupling}

/-- The right run does what the left one does, or they part. -/
def Holds (C : Coupling) (x y : Outcome α) : Prop :=
  match x with
  | .starved => y = .starved
  | .done a m => y = .done a (m.ahead C.lead)
  | .failed f m => (C.shared f ∧ y = .failed f (m.ahead C.lead)) ∨
      (C.parts f ∧ ∀ m', y.machine? = some m' → C.parted m m')

/-- An action does the same in both runs, as far as they have not parted. -/
def Couples (C : Coupling) (x : Action α) : Prop :=
  ∀ m, C.Holds (x C.left m) (x C.right (m.ahead C.lead))

/-- What is left to say after a parting stays true while the right run goes on. -/
theorem parted_bind {x : Action α} {next : α → Action β} {m m₀ : Machine}
    (hx : ∀ m', (x C.right m).machine? = some m' → C.parted m₀ m')
    (hnext : ∀ a, Respects growthLaw C.right (next a)) :
    ∀ m', ((x >>= next) C.right m).machine? = some m' → C.parted m₀ m' := by
  intro m' h
  obtain ⟨m₁, hfirst, rfl | ⟨a, hdone, hrest⟩⟩ := machine?_bind h
  · exact hx m' hfirst
  · exact C.later (hx m₁ hfirst) ((hnext a m₁ trivial).later hrest)

namespace Couples

/-- Actions that do the same on both sides are coupled, if the failures on the left are shared. -/
theorem of_eq {x : Action α}
    (hsame : ∀ m, x C.right (m.ahead C.lead) = (x C.left m).ahead C.lead)
    (hshared : ∀ m f m', x C.left m = .failed f m' → C.shared f) : C.Couples x := by
  intro m
  rw [hsame]
  cases h : x C.left m with
  | starved => exact rfl
  | done a m' => exact rfl
  | failed f m' => exact .inl ⟨hshared m f m' h, rfl⟩

/-- One action after another. Where the first one parts the two sides, what the second one does on the right
only adds to it. -/
theorem bind {x : Action α} {next : α → Action β} (hx : C.Couples x)
    (hnext : ∀ a, C.Couples (next a)) (hlater : ∀ a, Respects growthLaw C.right (next a)) :
    C.Couples (x >>= next) := by
  intro m
  have hout := hx m
  cases h : x C.left m with
  | starved =>
    rw [h] at hout
    rw [bind_of_starved h, bind_of_starved hout]
    exact rfl
  | done a m' =>
    rw [h] at hout
    rw [bind_of_done h, bind_of_done hout]
    exact hnext a m'
  | failed f m' =>
    rw [h] at hout
    rw [bind_of_failed h]
    -- Either both sides fail alike, or the right one goes on alone.
    rcases hout with ⟨hf, hright⟩ | ⟨hf, hparted⟩
    · rw [bind_of_failed hright]
      exact .inl ⟨hf, rfl⟩
    · exact .inr ⟨hf, parted_bind hparted hlater⟩

/-- A block is coupled if its statements are. By induction on these. -/
theorem block {exec : Node → Action Flow} (hexec : ∀ n, C.Couples (exec n))
    (hlater : ∀ n, Respects growthLaw C.right (exec n)) (ns : List Node) :
    ∀ last : Value, C.Couples (Eval.block exec last ns) := by
  induction ns with
  | nil => exact fun last => of_eq (fun _ => rfl) fun _ _ _ h => nomatch h
  | cons n ns ih =>
    intro last
    refine bind (hexec n) (fun flow => ?_) fun flow => ?_
    · cases flow with
      | returned v => exact of_eq (fun _ => rfl) fun _ _ _ h => nomatch h
      | next v => exact ih v
    -- The statements that the right side runs alone only add to its machine.
    · cases flow with
      | returned v => exact respects_pure _
      | next v => exact respects_block (fun n _ => hlater n) v

/-- Both runs enter the same frame and leave it again, also where they part inside. -/
theorem inFrame {x : Action α} (hx : C.Couples x) (frame : Frame) : C.Couples (inFrame frame x) := by
  intro m
  have hout := hx (m.enter frame)
  -- The lead is put on the machine before the frame is entered or after it, with the same result.
  have hright : Action.inFrame frame x C.right (m.ahead C.lead) =
      match x C.right ((m.enter frame).ahead C.lead) with
      | .done a m => .done a m.leave
      | .failed f m => .failed f m.leave
      | .starved => .starved := rfl
  rw [hright]
  unfold Action.inFrame
  cases h : x C.left (m.enter frame) with
  | starved =>
    rw [h] at hout
    rw [hout]
    exact rfl
  | done a m' =>
    rw [h] at hout
    rw [hout]
    exact rfl
  | failed f m' =>
    rw [h] at hout
    rcases hout with ⟨hf, hsame⟩ | ⟨hf, hparted⟩
    · rw [hsame]
      exact .inl ⟨hf, rfl⟩
    -- The sides part inside. However the right one ends, it leaves the frame.
    · refine .inr ⟨hf, fun m₁ hm₁ => ?_⟩
      cases hrun : x C.right ((m.enter frame).ahead C.lead) with
      | starved =>
        rw [hrun] at hm₁
        exact nomatch hm₁
      | done a m₂ =>
        rw [hrun] at hm₁ hparted
        obtain rfl := Option.some.inj hm₁
        exact C.leave (hparted m₂ rfl)
      | failed g m₂ =>
        rw [hrun] at hm₁ hparted
        obtain rfl := Option.some.inj hm₁
        exact C.leave (hparted m₂ rfl)

/-- Output is the same on both sides. -/
theorem print (t : Text) : C.Couples (print t) := by
  intro m
  have hwrite : ∀ full : Bool, C.Holds
      (if full then .failed (.output "disk full") m else .done () { m with printed := t :: m.printed })
      (if full then .failed (.output "disk full") (m.ahead C.lead)
        else .done () (Machine.ahead { m with printed := t :: m.printed } C.lead)) := by
    intro full
    cases full with
    | true => exact .inl ⟨C.contained _ fun hrun => hrun, rfl⟩
    | false => exact rfl
  unfold Action.print
  rw [C.writeLimit]
  exact hwrite _

/-- What is fetched is the same on both sides. -/
theorem fetch (url : Text) : C.Couples (fetch url) := by
  refine of_eq (fun m => ?_) fun m f m' h => ?_
  · unfold Action.fetch
    rw [C.fetcher]
    dsimp only [Machine.ahead]
    split
    · rfl
    · rfl
  -- A fetch may fail as the right side expects it from this fetcher.
  · unfold Action.fetch at h
    dsimp only at h
    split at h
    · exact nomatch h
    · next hf =>
      obtain ⟨rfl, -⟩ := Outcome.failed.inj h
      exact C.fetchFails _ _ _ hf

/-- What a method does is the same on both sides. -/
theorem invoke (method : Method) (receiver : Value) (arg : Option Value) :
    C.Couples (invoke method receiver arg) := by
  refine of_eq (fun m => ?_) fun m f m' h => ?_
  · unfold Action.invoke
    dsimp only [Machine.ahead]
    split
    · rfl
    · rfl
  -- The failures of methods are those of a program, and not of a run.
  · have horderly := method.invoke_orderly receiver arg m.random
    unfold Action.invoke at h
    dsimp only at h
    split at h
    · exact nomatch h
    · next hf =>
      obtain ⟨rfl, -⟩ := Outcome.failed.inj h
      exact C.contained _ (horderly _ hf).not_ofRun

/-- Whether a call finds room is the same on both sides if the limits are. -/
theorem checkDepth (hdepth : C.right.maxDepth = C.left.maxDepth)
    (hshared : C.shared (.recursionLimit C.left.maxDepth)) : C.Couples checkDepth := by
  intro m
  rcases checkDepth_cases C.left m with ⟨hroom, hleft⟩ | ⟨hfull, hleft⟩
  -- The lead is one of steps, and not of calls.
  · rcases checkDepth_cases C.right (m.ahead C.lead) with ⟨-, hright⟩ | ⟨hfull, -⟩
    · rw [hleft, hright]
      exact rfl
    · rw [hdepth] at hfull
      exact absurd hroom (Nat.not_lt.mpr hfull)
  · rcases checkDepth_cases C.right (m.ahead C.lead) with ⟨hroom, -⟩ | ⟨-, hright⟩
    · rw [hdepth] at hroom
      exact absurd hroom (Nat.not_lt.mpr hfull)
    · rw [hleft, hright, hdepth]
      exact .inl ⟨hshared, rfl⟩

/-- A function means the same in both runs, since they have the same scope. -/
theorem function {name : Text} {next : Function → Action β} (hnext : ∀ fn, C.Couples (next fn)) :
    C.Couples (function name >>= next) := by
  intro m
  cases h : m.scope.lookupFunc? name with
  | none =>
    have h' : (m.ahead C.lead).scope.lookupFunc? name = none := h
    rw [bind_of_failed (function_of_none h), bind_of_failed (function_of_none h')]
    exact .inl ⟨C.contained _ fun hrun => hrun, rfl⟩
  | some fn =>
    have h' : (m.ahead C.lead).scope.lookupFunc? name = some fn := h
    rw [bind_of_done (function_of_some h), bind_of_done (function_of_some h')]
    exact hnext fn m

end Couples

/-- Evaluators that do the same in both runs. -/
structure Couple (C : Coupling) (e : Evaluators) : Prop where
  eval : ∀ n, C.Couples (e.eval n)
  exec : ∀ n, C.Couples (e.exec n)
  loop : ∀ test body update, C.Couples (e.loop test body update)

/-- The failures of a fetch are shared on the right as well. -/
theorem fetchFails_right (C : Coupling) (n : Nat) (url : Text) (f : Failure)
    (hf : (C.right.fetcher n url).result = .error f) : C.shared f := by
  rw [C.fetcher] at hf
  exact C.fetchFails n url f hf

end Coupling

/-- Actions that are built from parts are coupled if the parts are. -/
theorem Built.couples {C : Coupling} {x : Evaluators → Action α} {e : Evaluators}
    (h : Built (freeAccess C.shared C.contained) α x) (hdepth : C.Couples Action.checkDepth)
    (he : C.Couple e) (hlater : e.Respect growthLaw C.right (freeAccess C.shared C.contained)) :
    C.Couples (x e) := by
  induction h with
  | bind _ hnext ihx ihnext =>
    refine .bind ihx ihnext fun a => ?_
    exact (hnext a).respects (growthLaw_grants C.fetchFails_right) hlater
  | fail hf =>
    refine .of_eq (fun _ => rfl) fun _ _ _ h => ?_
    obtain ⟨rfl, -⟩ := Outcome.failed.inj h
    exact hf
  | function _ ih => exact .function fun fn => ih fn trivial
  | print t => exact .print t
  | fetch url => exact .fetch url
  | invoke method receiver arg => exact .invoke method receiver arg
  | eval _ => exact he.eval _
  | exec _ => exact he.exec _
  | loop _ => exact he.loop _ _ _
  | body hfn vars =>
    refine .bind hdepth (fun _ => ?_) fun _ => hlater.frame hfn vars
    exact .inFrame (.block he.exec (fun n => hlater.exec trivial) _ _) _
  -- Reading the scope, binding and noting do not fail and do not look at the count.
  | _ => exact .of_eq (fun _ => rfl) fun _ _ _ h => nomatch h

/-- All evaluations do the same in both runs, as far as counting and the check of the depth do. -/
theorem Coupling.coupled {C : Coupling} (htick : C.Couples tick) (hdepth : C.Couples checkDepth)
    (fuel : Nat) : C.Couple (evaluators fuel) := by
  induction fuel with
  | zero => exact ⟨fun _ _ => rfl, fun _ _ => rfl, fun _ _ _ _ => rfl⟩
  | succ fuel ih =>
    have hlater : (evaluators fuel).Respect growthLaw C.right (freeAccess C.shared C.contained) :=
      grows C.fetchFails_right fuel
    refine ⟨fun n => ?_, fun n => ?_, fun test body update => ?_⟩
    · exact (value_built (freeAccess_covers n)).couples hdepth ih hlater
    · have heffect : Built (freeAccess C.shared C.contained) Flow fun e => e.effect n :=
        effect_built (freeAccess_coversEffect n)
      -- A statement counts its step first; this is where the sides may part.
      refine .bind htick (fun _ => heffect.couples hdepth ih hlater) fun _ => ?_
      exact heffect.respects (growthLaw_grants C.fetchFails_right) hlater
    · exact (turn_built (freeAccess_coversTurn test body update)).couples hdepth ih hlater

end Mundart
