import Mundart.Proofs.Run.Law

/-!
# Larger bounds

The bound of the evaluators only decides whether there is an answer, never which one.

* **`evaluators_extend`** — what ends within some bound ends the same way within every larger one;
* **`Session.eval_extends`** — so does the run of a source in a session.
-/

namespace Mundart

open Mundart.Action

variable {α β : Type}

/-- What one action answers the other one answers as well. -/
def Extends (x y : Action α) : Prop := ∀ s m, x s m ≠ .starved → y s m = x s m

namespace Extends

/-! ## Larger answers

`Extends` is a relation of actions in all settings and machines. It is kept by every way of putting actions
together, which makes the induction on the bound a single step. -/

/-- An action answers what it answers itself. -/
theorem refl (x : Action α) : Extends x x := fun _ _ _ => rfl

/-- The relation goes through several actions. -/
theorem trans {x y z : Action α} (hxy : Extends x y) (hyz : Extends y z) : Extends x z := by
  intro s m hx
  have hy := hxy s m hx
  rw [hyz s m (hy ▸ hx), hy]

/-- One action after another. If both have an answer so has the whole, and it is the same. -/
theorem bind {x y : Action α} {next next' : α → Action β} (h : Extends x y)
    (hnext : ∀ a, Extends (next a) (next' a)) : Extends (x >>= next) (y >>= next') := by
  intro s m hx
  cases hrun : x s m with
  | starved => exact absurd (bind_of_starved hrun) hx
  | failed f m' =>
    have hy : y s m = .failed f m' := (h s m (by simp [hrun])).trans hrun
    rw [bind_of_failed hrun, bind_of_failed hy]
  | done a m' =>
    have hy : y s m = .done a m' := (h s m (by simp [hrun])).trans hrun
    rw [bind_of_done hrun] at hx ⊢
    rw [bind_of_done hy]
    exact hnext a s m' hx

/-- A block answers as much as its statements do. By induction on these. -/
theorem block {exec exec' : Node → Action Flow} (h : ∀ n, Extends (exec n) (exec' n))
    (ns : List Node) : ∀ last : Value, Extends (Eval.block exec last ns) (Eval.block exec' last ns) := by
  induction ns with
  | nil => exact fun last => refl _
  | cons n ns ih =>
    refine fun last => bind (h n) fun flow => ?_
    cases flow with
    | returned v => exact refl _
    | next v => exact ih v

/-- An action in a frame of its own answers what the other one answers in it. -/
theorem inFrame {x y : Action α} (h : Extends x y) (frame : Frame) :
    Extends (inFrame frame x) (inFrame frame y) := by
  intro s m hx
  unfold Action.inFrame at hx ⊢
  -- The frame is the same on both sides, and it is gone only after an answer.
  have hinner : x s (m.enter frame) ≠ .starved := by
    intro hstarved
    rw [hstarved] at hx
    exact hx rfl
  rw [h s _ hinner]

end Extends

/-- What some evaluators answer other ones answer as well. -/
structure Evaluators.Extend (e e' : Evaluators) : Prop where
  eval : ∀ n, Extends (e.eval n) (e'.eval n)
  exec : ∀ n, Extends (e.exec n) (e'.exec n)
  loop : ∀ test body update, Extends (e.loop test body update) (e'.loop test body update)

/-- Everything is allowed. -/
def anyAccess : Access where
  writes _ := True
  defines _ := True
  knows _ := True
  fails _ := True
  evals _ := True
  execs _ := True
  loops _ _ _ := True
  tolerates _ _ := trivial

/-- What is built from parts answers as much as its parts do. -/
theorem Built.extends {x : Evaluators → Action α} {e e' : Evaluators} (h : Built anyAccess α x)
    (he : e.Extend e') : Extends (x e) (x e') := by
  induction h with
  | bind _ _ ihx ihnext => exact .bind ihx ihnext
  | function _ ih => exact .bind (.refl _) fun fn => ih fn trivial
  | eval _ => exact he.eval _
  | exec _ => exact he.exec _
  | loop _ => exact he.loop _ _ _
  | body _ vars => exact .bind (.refl _) fun _ => .inFrame (.block he.exec _ _) _
  -- All other actions do not depend on the evaluators.
  | _ => exact .refl _

/-- Nothing is excluded here, neither where nodes are evaluated -/
theorem anyAccess_covers (n : Node) : anyAccess.Covers n := by
  cases n <;> simp [Access.Covers, anyAccess]

/-- Nothing is asked for where a node is run. -/
theorem anyAccess_coversEffect (n : Node) : anyAccess.CoversEffect n := by
  cases n <;> simp [Access.CoversEffect, anyAccess]

/-- One bound more answers what the bound before it did. -/
theorem evaluators_extend_succ (fuel : Nat) : (evaluators fuel).Extend (evaluators (fuel + 1)) := by
  induction fuel with
  | zero =>
    exact ⟨fun _ _ _ h => absurd rfl h, fun _ _ _ h => absurd rfl h, fun _ _ _ _ _ h => absurd rfl h⟩
  | succ fuel ih =>
    refine ⟨fun n => ?_, fun n => ?_, fun test body update => ?_⟩
    · exact (value_built (anyAccess_covers n)).extends ih
    · exact .bind (.refl tick) fun _ => (effect_built (anyAccess_coversEffect n)).extends ih
    · have hturn : anyAccess.CoversTurn test body update :=
        ⟨trivial, fun _ _ => trivial, fun _ _ => trivial, trivial⟩
      exact (turn_built hturn).extends ih

/-- A larger bound gives the same answers, and maybe more of them. -/
theorem evaluators_extend {fuel fuel' : Nat} (h : fuel ≤ fuel') :
    (evaluators fuel).Extend (evaluators fuel') := by
  induction fuel', h using Nat.le_induction with
  | base => exact ⟨fun _ => .refl _, fun _ => .refl _, fun _ _ _ => .refl _⟩
  | succ fuel' _ ih =>
    have hsucc := evaluators_extend_succ fuel'
    exact ⟨fun n => (ih.eval n).trans (hsucc.eval n), fun n => (ih.exec n).trans (hsucc.exec n),
      fun test body update => (ih.loop test body update).trans (hsucc.loop test body update)⟩

/-! ## Runs

A run has an end if each of its statements has an answer, and the statements are run one after the other. -/

variable {s : Settings} {fuel fuel' : Nat}

/-- A run ends like another one if its first statement does the same and if it goes on from there to the
same end. -/
theorem runStatements_cons_same {s' : Settings} {n : Node} {ns : Program} {r : Result} {m : Machine}
    {out : Result × Machine}
    (hexec : exec fuel n s m ≠ .starved → exec fuel' n s' m = exec fuel n s m)
    (hrest : ∀ {r : Result} {m : Machine}, runStatements fuel s ns r m = some out →
      runStatements fuel' s' ns r m = some out)
    (h : runStatements fuel s (n :: ns) r m = some out) :
    runStatements fuel' s' (n :: ns) r m = some out := by
  unfold runStatements at h ⊢
  cases hint : m.interruption with
  | some cause =>
    rw [hint] at h
    exact h
  | none =>
    rw [hint] at h
    cases hrun : exec fuel n s m with
    -- The statement has an answer, or the run would have none.
    | starved =>
      rw [hrun] at h
      exact nomatch h
    | done flow m₁ =>
      rw [hexec (by simp [hrun]), hrun]
      rw [hrun] at h
      cases flow with
      | returned v => exact h
      | next v => exact hrest h
    | failed f m₁ =>
      rw [hexec (by simp [hrun]), hrun]
      rw [hrun] at h
      cases f with
      | interrupted cause => exact h
      | stepLimit max => exact h
      | _ => exact hrest h

/-- Statements end the same way within a larger bound. -/
theorem runStatements_extends (hle : fuel ≤ fuel') {ns : Program} :
    ∀ {r : Result} {m : Machine} {out : Result × Machine},
    runStatements fuel s ns r m = some out → runStatements fuel' s ns r m = some out := by
  induction ns with
  | nil => exact fun h => h
  | cons n ns ih => exact fun h => runStatements_cons_same ((evaluators_extend hle).exec n s _) ih h

/-- A program ends the same way within a larger bound. -/
theorem runProgram_extends (hle : fuel ≤ fuel') {program : Program} {m : Machine}
    {out : Result × Machine} (h : runProgram fuel s program m = some out) :
    runProgram fuel' s program m = some out := by
  obtain ⟨out₁, hrun, rfl⟩ := Option.map_eq_some_iff.mp h
  unfold runProgram
  dsimp only
  rw [runStatements_extends hle hrun]
  rfl

/-- A source in a session ends the same way within a larger bound. -/
theorem Session.eval_extends (hle : fuel ≤ fuel') {source : Text} {m : Machine}
    {out : Except SyntaxError Result × Machine} (h : Session.eval fuel s source m = some out) :
    Session.eval fuel' s source m = some out := by
  unfold Session.eval at h ⊢
  cases hparse : Program.parse source with
  | error e =>
    rw [hparse] at h
    exact h
  | ok program =>
    rw [hparse] at h
    obtain ⟨out₁, hrun, rfl⟩ := Option.map_eq_some_iff.mp h
    show (runProgram fuel' s program m).map _ = _
    rw [runProgram_extends hle hrun]
    rfl

end Mundart
