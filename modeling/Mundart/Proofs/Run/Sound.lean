import Mundart.Fetch
import Mundart.Proofs.Grammar.Derivation.Formed
import Mundart.Proofs.Run.Law

/-!
# Programs that were read do not go wrong

A node is regular if it may stand in a program that was read, and a scope is sound if the bodies of
all its functions are made of regular nodes. Running regular nodes in a sound scope keeps the scope
sound, and it fails in ordinary ways, by an interruption or at the step limit only.

* **`regular_covers`**, **`regular_coversEffect`** — a regular node needs access to smaller regular
  nodes, and fails by itself in ordinary ways only;
* **`Fetcher.http_polite`** — fetches over the network fail in the ways that are allowed for;
* **`sound`** — evaluation of regular nodes obeys `soundLaw`, for every bound;
* **`runStatements_proper`** — what a run records, and how many statements it counts;
* **`Session.never_wrong`** — sources in a session record nothing the evaluator is to blame for.
-/

namespace Mundart

open Mundart.Action Grammar

/-! ## Regular nodes

What a node needs is read off its form, so the cases are those of well-formed nodes. Each part is smaller
than the node, which an evaluation by the size of nodes relies on. -/

/-- A node that may stand in a program that was read. -/
def Node.Regular (n : Node) : Prop := Formed (fun _ => True) .statement n

/-- A function whose definition was read. -/
structure Function.Regular (fn : Function) : Prop where
  body_ne_nil : fn.body ≠ []
  body : ∀ n ∈ fn.body, n.Regular

/-- What a loop repeats, as it may stand in a program that was read. -/
structure RegularLoop (test : Node) (body : List Node) (update : Option Node) : Prop where
  test : test.Regular
  body_ne_nil : body ≠ []
  body : ∀ n ∈ body, n.Regular
  update : ∀ n, update = some n → n.Regular

/-- Whatever may stand somewhere may stand as a statement. -/
theorem Grammar.Formed.regular {place : Place} {n : Node} (h : Formed (fun _ => True) place n) :
    n.Regular := by
  cases place with
  | target => exact .ofExpression (.ofComparison (.ofOperand (.ofPrimary (.ofTarget h))))
  | primary => exact .ofExpression (.ofComparison (.ofOperand (.ofPrimary h)))
  | operand => exact .ofExpression (.ofComparison (.ofOperand h))
  | comparison => exact .ofExpression (.ofComparison h)
  | expression => exact .ofExpression h
  | start => exact .ofStart h
  | statement => exact h
  | update =>
    cases h with
    | updateAssign h => exact .ofStart h
    | updateExpression h => exact .ofExpression h

/-- Regular nodes. Those to be evaluated may be restricted further, and loops may be forbidden. -/
def regularAccess (small : Node → Prop) (looping : Prop) : Access where
  writes _ := True
  defines := Function.Regular
  knows := Function.Regular
  fails := Failure.Ordinary
  evals n := n.Regular ∧ small n
  execs := Node.Regular
  loops test body update := looping ∧ RegularLoop test body update
  tolerates _ h := h

/-- A node in a list is smaller than the list. -/
theorem sizeOf_lt_of_mem {n : Node} {ns : List Node} {size : Nat} (h : n ∈ ns)
    (hsize : sizeOf ns < size) : sizeOf n < size :=
  (List.sizeOf_lt_of_mem h).trans hsize

/-- Evaluating a regular node takes the evaluation of smaller regular nodes. Loops are not repeated
there: they run as statements. -/
theorem regular_covers {place : Place} {n : Node} (looping : Prop)
    (h : Formed (fun _ => True) place n) :
    (regularAccess (fun part => sizeOf part < sizeOf n) looping).Covers n := by
  -- A node that may stand at a narrower place needs the same there.
  induction h with
  | ofTarget _ ih => exact ih
  | ofPrimary _ ih => exact ih
  | ofOperand _ ih => exact ih
  | ofComparison _ ih => exact ih
  | updateAssign _ ih => exact ih
  | updateExpression _ ih => exact ih
  | ofStart _ ih => exact ih
  | ofExpression _ ih => exact ih
  | name hname => trivial
  | number hv => trivial
  | string ht => trivial
  | truth b => trivial
  | comment ht => trivial
  | index hc hp =>
    refine ⟨⟨hc.regular, ?_⟩, hp.regular, ?_⟩
    · rw [Node.index.sizeOf_spec]; omega
    · rw [Node.index.sizeOf_spec]; omega
  | array he =>
    refine fun n hn => ⟨(he n hn).regular, sizeOf_lt_of_mem hn ?_⟩
    rw [Node.array.sizeOf_spec]; omega
  | assoc hk hv =>
    refine ⟨fun n hn => ⟨(hk n hn).regular, sizeOf_lt_of_mem hn ?_⟩,
      fun n hn => ⟨(hv n hn).regular, sizeOf_lt_of_mem hn ?_⟩⟩
    · rw [Node.assoc.sizeOf_spec]; omega
    · rw [Node.assoc.sizeOf_spec]; omega
  | property ho =>
    refine ⟨⟨ho.regular, ?_⟩, fun _ _ _ _ _ => trivial⟩
    rw [Node.property.sizeOf_spec]; omega
  | propertyCall ho =>
    refine ⟨⟨ho.regular, ?_⟩, fun _ _ _ _ _ => trivial⟩
    rw [Node.propertyCall.sizeOf_spec]; omega
  | propertyWith ho _ _ ha =>
    refine ⟨⟨ho.regular, ?_⟩, ⟨ha.regular, ?_⟩, fun _ _ _ _ _ => trivial⟩
    · rw [Node.propertyWith.sizeOf_spec]; omega
    · rw [Node.propertyWith.sizeOf_spec]; omega
  | filter hc _ hp =>
    refine ⟨⟨hc.regular, ?_⟩, trivial, hp.regular, ?_⟩
    · rw [Node.filter.sizeOf_spec]; omega
    · rw [Node.filter.sizeOf_spec]; omega
  | fetch hu =>
    refine ⟨hu.regular, ?_⟩
    rw [Node.fetch.sizeOf_spec]; omega
  | call _ ha =>
    refine fun n hn => ⟨(ha n hn).regular, sizeOf_lt_of_mem hn ?_⟩
    rw [Node.call.sizeOf_spec]; omega
  -- The words of operators are those that tokens carry, and with these the operators are orderly.
  | unary hop hpost h =>
    refine ⟨⟨h.regular, ?_⟩, fun v f => Value.step_orderly ?_ v f, fun _ _ => trivial⟩
    · rw [Node.unary.sizeOf_spec]; omega
    · simpa [isPostfix] using hpost
  | binary hop hpost hl hr =>
    refine ⟨⟨hl.regular, ?_⟩, ⟨hr.regular, ?_⟩, fun a b f => ?_⟩
    · rw [Node.binary.sizeOf_spec]; omega
    · rw [Node.binary.sizeOf_spec]; omega
    · obtain rfl | rfl | hword := hop.arithmetic
      · exact absurd hpost (by decide)
      · exact absurd hpost (by decide)
      · exact Value.arithmetic_orderly hword a b f
  | comparison hop hl hr =>
    refine ⟨⟨hl.regular, ?_⟩, ⟨hr.regular, ?_⟩, Value.compareBy_orderly hop.comparison⟩
    · rw [Node.comparison.sizeOf_spec]; omega
    · rw [Node.comparison.sizeOf_spec]; omega
  | chain _ hlen hop h =>
    refine ⟨fun n hn => ⟨(h n hn).regular, sizeOf_lt_of_mem hn ?_⟩, fun results hresults => ?_⟩
    · rw [Node.chain.sizeOf_spec]; omega
    · have hlinks := fun op hmem => Token.Kind.Carries.link (hop op hmem)
      exact Value.foldChain_orderly hlinks (by omega)
  | declare hname hi ih =>
    refine ⟨trivial, ⟨hi.regular, ?_⟩, ?_⟩
    · rw [Node.declare.sizeOf_spec]; omega
    · rintro keys vals rfl n hn
      -- The parts of an associative array stand two levels below its declaration.
      have hparts : ∀ n ∈ keys ++ vals, n.Regular ∧ sizeOf n < sizeOf (Node.assoc keys vals) :=
        List.forall_mem_append.mpr ih
      refine ⟨(hparts n hn).1, (hparts n hn).2.trans ?_⟩
      rw [Node.declare.sizeOf_spec]; omega
  | assign hname hv =>
    refine ⟨trivial, hv.regular, ?_⟩
    rw [Node.assign.sizeOf_spec]; omega
  | indexAssign hname hp hv =>
    refine ⟨trivial, ⟨hp.regular, ?_⟩, hv.regular, ?_⟩
    · rw [Node.indexAssign.sizeOf_spec]; omega
    · rw [Node.indexAssign.sizeOf_spec]; omega
  -- Statements are handed on as they stand.
  | ifThen ht hne hb => exact .ifThen ht hne hb
  | ifElse ht hne hb hne' ho => exact .ifElse ht hne hb hne' ho
  | forLoop hs ht hu hne hb => exact .forLoop hs ht hu hne hb
  | whileLoop ht hne hb => exact .whileLoop ht hne hb
  | forEach hc hitem hne hb => exact .forEach hc hitem hne hb
  | function hname hparams hne hb => exact ⟨hne, fun n hn => hb n hn⟩
  | ret => exact .ret
  | retWith hv => exact .retWith hv
  | print hv =>
    refine fun n hn => ⟨(hv n hn).regular, sizeOf_lt_of_mem hn ?_⟩
    rw [Node.print.sizeOf_spec]; omega

/-- Running a regular node takes no more than regular nodes. -/
theorem regular_coversEffect {place : Place} {n : Node} (h : Formed (fun _ => True) place n)
    (hn : n.Regular) : (regularAccess (fun _ => True) True).CoversEffect n := by
  induction h with
  | ofTarget _ ih => exact ih hn
  | ofPrimary _ ih => exact ih hn
  | ofOperand _ ih => exact ih hn
  | ofComparison _ ih => exact ih hn
  | updateAssign _ ih => exact ih hn
  | updateExpression _ ih => exact ih hn
  | ofStart _ ih => exact ih hn
  | ofExpression _ ih => exact ih hn
  | ret => trivial
  | retWith hv => exact ⟨hv.regular, trivial⟩
  | ifThen ht hne hb => exact ⟨⟨ht.regular, trivial⟩, hb⟩
  | ifElse ht hne hb hne' ho => exact ⟨⟨ht.regular, trivial⟩, hb, ho⟩
  | whileLoop ht hne hb => exact ⟨trivial, ht.regular, hne, hb, fun _ hn => absurd hn (by simp)⟩
  | forLoop hs ht hu hne hb =>
    refine ⟨⟨hs.regular, trivial⟩, trivial, ht.regular, hne, hb, ?_⟩
    exact fun n hn => Option.some.inj hn ▸ hu.regular
  | forEach hc hitem hne hb => exact ⟨⟨hc.regular, trivial⟩, trivial, hb⟩
  -- Everything else is evaluated as it stands.
  | _ => exact ⟨hn, trivial⟩

/-! ## The law

A law says what holds of the machine while an action runs and how its ends are related to its start. Here
the scope is sound throughout, and the count of statements is related by how far the bound on them is used
up. -/

/-- A scope whose functions were all read. -/
def Scope.Sound (scope : Scope) : Prop :=
  ∀ funcs ∈ scope.map Frame.funcs, ∀ name fn, funcs.get? name = some fn → fn.Regular

namespace Scope.Sound

variable {scope : Scope}

/-- A name means a function that was read. -/
theorem lookup (h : scope.Sound) {name : Text} {fn : Function}
    (hfn : scope.lookupFunc? name = some fn) : fn.Regular := by
  obtain ⟨frame, hframe, hget⟩ := List.exists_of_findSome?_eq_some hfn
  exact h _ (List.mem_map_of_mem hframe) name fn hget

/-- The root has no functions at all. -/
theorem root : Scope.root.Sound := by
  intro funcs hfuncs name fn hget
  obtain rfl := List.mem_singleton.mp hfuncs
  exact nomatch hget

/-- A new frame has none either. -/
theorem enter (h : scope.Sound) (vars : Dict Value) : Scope.Sound ({ vars := vars } :: scope) := by
  refine List.forall_mem_cons.mpr ⟨?_, h⟩
  intro name fn hget
  exact nomatch hget

/-- The frames below keep theirs. -/
theorem leave (h : scope.Sound) : Scope.Sound scope.tail := by
  intro funcs hfuncs
  rw [List.map_tail] at hfuncs
  exact h funcs (List.mem_of_mem_tail hfuncs)

/-- Binding a variable leaves the functions as they are. -/
theorem defineVar (h : scope.Sound) (name : Text) (v : Value) : (scope.defineVar name v).Sound := by
  cases scope with
  | nil => exact root
  | cons frame scope => exact h

/-- Defining a function that was read. -/
theorem defineFunc (h : scope.Sound) {fn : Function} (hfn : fn.Regular) :
    (scope.defineFunc fn).Sound := by
  -- The new function, or one that was there before.
  have hset : ∀ funcs : Dict Function, (∀ name fn', funcs.get? name = some fn' → fn'.Regular) →
      ∀ name fn', (funcs.set fn.name fn).get? name = some fn' → fn'.Regular := by
    intro funcs hfuncs name fn' hget
    rw [Dict.get?_set] at hget
    split at hget
    · exact Option.some.inj hget ▸ hfn
    · exact hfuncs name fn' hget
  cases scope with
  | nil =>
    refine List.forall_mem_cons.mpr ⟨hset [] ?_, fun _ hmem => absurd hmem List.not_mem_nil⟩
    intro name fn' hget
    exact nomatch hget
  | cons frame scope =>
    obtain ⟨hframe, hscope⟩ := List.forall_mem_cons.mp h
    exact List.forall_mem_cons.mpr ⟨hset frame.funcs hframe, hscope⟩

end Scope.Sound

/-- Statements are counted up, but not beyond their bound. -/
structure Counts (s : Settings) (before after : Nat) : Prop where
  mono : before ≤ after
  bounded : 0 < s.maxSteps → before ≤ s.maxSteps → after ≤ s.maxSteps

/-- Statements are counted up to the first one beyond their bound. -/
structure Exceeds (s : Settings) (before after : Nat) : Prop where
  mono : before ≤ after
  limited : 0 < s.maxSteps
  exceeded : before ≤ s.maxSteps → after = s.maxSteps + 1

section

variable {s : Settings} {a b c : Nat}

/-- Nothing was counted. -/
theorem Counts.refl : Counts s a a := ⟨le_refl a, fun _ h => h⟩

/-- One count after the other. -/
theorem Counts.trans (h : Counts s a b) (h' : Counts s b c) : Counts s a c :=
  ⟨h.mono.trans h'.mono, fun hmax ha => h'.bounded hmax (h.bounded hmax ha)⟩

/-- A count before the bound is exceeded. -/
theorem Exceeds.after (h : Counts s a b) (h' : Exceeds s b c) : Exceeds s a c :=
  ⟨h.mono.trans h'.mono, h'.limited, fun ha => h'.exceeded (h.bounded h'.limited ha)⟩

end

/-- A failure that ends a statement which was read, and no more than the statement. -/
def Failure.Proper (f : Failure) : Prop := f.Ordinary ∨ ∃ max, f = .recursionLimit max

/-- Scopes stay sound, and what fails is proper, an interruption or the step limit. -/
def soundLaw (s : Settings) : Law where
  inv m := m.scope.Sound
  done m m' := Counts s m.steps m'.steps
  failed m f m' := (f.Proper ∨ ∃ cause, f = .interrupted cause) ∧ Counts s m.steps m'.steps ∨
    f = .stepLimit s.maxSteps ∧ Exceeds s m.steps m'.steps
  refl _ := .refl
  trans := .trans
  after h hf := hf.imp (fun hf => ⟨hf.1, h.trans hf.2⟩) fun hf => ⟨hf.1, hf.2.after h⟩

/-- A failed fetch or a mismatch. -/
def Failure.OfFetch (f : Failure) : Prop :=
  (∃ status message, f = .fetch status message) ∨ ∃ cause, f = .mismatch cause

/-- A fetcher that answers with a value, a failed fetch or a mismatch. -/
def Fetcher.Polite (fetcher : Fetcher) : Prop := ∀ url f, (fetcher url).result = .error f → f.OfFetch

def Settings.Polite (s : Settings) : Prop := ∀ n, (s.fetcher n).Polite

/-- Failures of fetches are ordinary. -/
theorem Failure.OfFetch.ordinary {f : Failure} (h : f.OfFetch) : f.Ordinary := by
  obtain ⟨status, message, rfl⟩ | ⟨cause, rfl⟩ := h
  · trivial
  · trivial

/-- A fetcher that refuses everything is polite. -/
theorem Fetcher.disabled_polite : Fetcher.disabled.Polite :=
  fun _ _ h => .inl ⟨_, _, (Except.error.inj h).symm⟩

namespace Fetch

/-- An address that cannot be used is refused as a fetch or a mismatch. -/
theorem firstUrl_ofFetch {raw : Text} {f : Failure} (h : firstUrl raw = .error f) : f.OfFetch := by
  unfold firstUrl at h
  dsimp only at h
  split at h
  · exact .inr ⟨_, (Except.error.inj h).symm⟩
  · split at h
    · split at h
      · exact nomatch h
      · exact .inl ⟨_, _, (Except.error.inj h).symm⟩
    · exact .inr ⟨_, (Except.error.inj h).symm⟩

/-- A request that fails does so as a fetch or a mismatch. -/
theorem get_ofFetch {net : Network} {timeout : Span} {raw : Text} {f : Failure}
    (h : get net timeout raw = .error f) : f.OfFetch := by
  unfold get at h
  cases hfirst : firstUrl raw with
  | error e =>
    rw [hfirst] at h
    obtain rfl := Except.error.inj h
    exact firstUrl_ofFetch hfirst
  | ok url =>
    rw [hfirst] at h
    dsimp only [bind, Except.bind] at h
    -- The request itself, its status and its body may fail.
    split at h
    · exact .inl ⟨_, _, (Except.error.inj h).symm⟩
    · exact .inl ⟨_, _, (Except.error.inj h).symm⟩
    · split at h
      · exact .inl ⟨_, _, (Except.error.inj h).symm⟩
      · split at h
        · exact .inl ⟨_, _, (Except.error.inj h).symm⟩
        · split at h
          · exact nomatch h
          · exact .inl ⟨_, _, (Except.error.inj h).symm⟩

end Fetch

/-- Whatever the network does, fetches over it are answered politely. -/
theorem Fetcher.http_polite (net : Fetch.Network) (timeout : Span) :
    (Fetcher.http net timeout).Polite := fun _ _ h => Fetch.get_ofFetch h

variable {s : Settings} {small : Node → Prop} {looping : Prop}

/-- The actions that a regular node needs obey the law. -/
theorem soundLaw_grants (hs : s.Polite) : (soundLaw s).Grants s (regularAccess small looping) where
  quiet {m m'} hquiet hm := by
    have hm' : m'.scope.Sound := hquiet.scope ▸ hm
    have hcounts : Counts s m.steps m'.steps := hquiet.steps ▸ .refl
    exact ⟨hm', hcounts⟩
  fail hf _ := .inl ⟨.inl (.inl hf), .refl⟩
  fetch hf := (hs _ _ _ hf).ordinary
  function hm hfn := Scope.Sound.lookup hm hfn
  define _ m hm := ⟨Scope.Sound.defineVar hm _ _, .refl⟩
  defineFunc hfn m hm := ⟨Scope.Sound.defineFunc hm hfn, .refl⟩
  full _ _ := .inl ⟨.inl (.inr ⟨_, rfl⟩), .refl⟩

/-! ## All evaluations

By induction on the bound, from the law for single actions. Counting is the only one that may exceed the
bound on statements. -/

/-- Counting obeys the law. -/
theorem sound_tick : Respects (soundLaw s) s tick := by
  intro m hm
  unfold tick
  dsimp only
  split
  -- The bound is exceeded by one, as it was kept until now.
  · next hlimit =>
    simp only [Bool.and_eq_true, decide_eq_true_eq] at hlimit
    refine ⟨hm, .inr ⟨rfl, Nat.le_succ _, hlimit.1, fun hsteps => ?_⟩⟩
    have hexceeded := hlimit.2
    push_cast at hexceeded ⊢
    omega
  · next hlimit =>
    simp only [Bool.and_eq_true, decide_eq_true_eq, not_and] at hlimit
    have hcounts : Counts s m.steps (m.steps + 1) :=
      ⟨Nat.le_succ _, fun hmax _ => Int.not_lt.mp (hlimit hmax)⟩
    split
    · next cause _ => exact ⟨hm, .inl ⟨.inr ⟨cause, rfl⟩, hcounts⟩⟩
    · exact ⟨hm, hcounts⟩

/-- A new frame has no functions, so it is as sound as the scope below it. -/
theorem sound_inFrame {α : Type} {x : Action α} (hx : Respects (soundLaw s) s x) (vars : Dict Value) :
    Respects (soundLaw s) s (inFrame { vars := vars } x) := by
  refine respects_inFrame hx (fun m hm => Scope.Sound.enter hm vars) (fun m m' hm' hdone => ?_)
    fun m f m' hm' hfailed => ?_
  · exact ⟨Scope.Sound.leave hm', hdone⟩
  · exact ⟨Scope.Sound.leave hm', hfailed⟩

/-- What may evaluate all regular nodes may evaluate some of them. -/
theorem Evaluators.Respect.restrict {e : Evaluators} {L : Law}
    (h : e.Respect L s (regularAccess (fun _ => True) True)) :
    e.Respect L s (regularAccess small looping) where
  eval hn := h.eval ⟨hn.1, trivial⟩
  exec hn := h.exec hn
  loop hl := h.loop ⟨trivial, hl.2⟩
  frame hfn := h.frame hfn

/-- Evaluating and running regular nodes obeys the law. -/
theorem sound (hs : s.Polite) (fuel : Nat) :
    (evaluators fuel).Respect (soundLaw s) s (regularAccess (fun _ => True) True) := by
  -- Without any bound left nothing is evaluated, and the law asks nothing.
  induction fuel with
  | zero =>
    have hframe : ∀ (fn : Function) (vars : Dict Value),
        Respects (soundLaw s) s (inFrame { vars := vars } (Eval.block (exec 0) .absent fn.body)) := by
      intro fn vars
      refine sound_inFrame (respects_block (fun n _ m _ => ?_) _) vars
      trivial
    exact ⟨fun _ _ _ => trivial, fun _ _ _ => trivial, fun _ _ _ => trivial, fun {fn} _ => hframe fn⟩
  | succ fuel ih =>
    -- Bodies of functions run statements with the bound of this level, so these come first.
    have hexec : ∀ n : Node, n.Regular → Respects (soundLaw s) s (exec (fuel + 1) n) := by
      intro n hn
      refine respects_bind sound_tick fun m _ m' _ hm' => ?_
      exact (effect_built (regular_coversEffect hn hn)).respects (soundLaw_grants hs) ih m' hm'
    refine ⟨fun {n} hn => ?_, fun {n} hn => hexec n hn, fun {test body update} hl => ?_, ?_⟩
    · exact (value_built (regular_covers True hn.1)).respects (soundLaw_grants hs) ih.restrict
    · have hturn : (regularAccess (fun _ => True) True).CoversTurn test body update :=
        ⟨⟨hl.2.test, trivial⟩, hl.2.body, fun n hn => ⟨hl.2.update n hn, trivial⟩, hl⟩
      exact (turn_built hturn).respects (soundLaw_grants hs) ih
    · intro fn hfn vars
      exact sound_inFrame (respects_block (fun n hn => hexec n (hfn.body n hn)) _) vars

/-! ## Runs

A run records the failures of its statements and goes on, so every failure on record is one that a statement
ended with. -/

/-- What a run does with its first statement. -/
theorem runStatements_cases {fuel : Nat} {n : Node} {ns : Program} {r r' : Result} {m m' : Machine}
    (h : runStatements fuel s (n :: ns) r m = some (r', m')) :
    (∃ cause, m.interruption = some cause ∧ r' = { r with stop := some (.cancelled cause) } ∧
      m' = m) ∨
    (∃ v m₁, exec fuel n s m = .done (.next v) m₁ ∧
      runStatements fuel s ns { r with value := v } m₁ = some (r', m')) ∨
    (∃ v, exec fuel n s m = .done (.returned v) m' ∧ r' = { r with value := v, returned := true }) ∨
    (∃ cause, exec fuel n s m = .failed (.interrupted cause) m' ∧
      r' = { r with stop := some (.cancelled cause) }) ∨
    (∃ max m₁, exec fuel n s m = .failed (.stepLimit max) m₁ ∧
      r' = { r with failures := .stepLimit max :: r.failures, stop := some (.stepLimit max) } ∧
      m' = { m₁ with events := .failed n.kind (.stepLimit max) :: m₁.events }) ∨
    ∃ f m₁, exec fuel n s m = .failed f m₁ ∧ ¬ f.Stops ∧
      runStatements fuel s ns { r with failures := f :: r.failures }
        { m₁ with events := .failed n.kind f :: m₁.events } = some (r', m') := by
  unfold runStatements at h
  split at h
  · next cause hcause =>
    obtain ⟨rfl, rfl⟩ := Prod.mk.inj (Option.some.inj h)
    exact .inl ⟨cause, hcause, rfl, rfl⟩
  · right
    cases hrun : exec fuel n s m with
    | starved =>
      rw [hrun] at h
      exact nomatch h
    | done flow m₁ =>
      rw [hrun] at h
      cases flow with
      | next v => exact .inl ⟨v, m₁, rfl, h⟩
      | returned v =>
        obtain ⟨rfl, rfl⟩ := Prod.mk.inj (Option.some.inj h)
        exact .inr (.inl ⟨v, rfl, rfl⟩)
    | failed f m₁ =>
      rw [hrun] at h
      right; right
      -- Two failures stop the run, and behind all others it goes on.
      cases f with
      | interrupted cause =>
        obtain ⟨rfl, rfl⟩ := Prod.mk.inj (Option.some.inj h)
        exact .inl ⟨cause, rfl, rfl⟩
      | stepLimit max =>
        obtain ⟨rfl, rfl⟩ := Prod.mk.inj (Option.some.inj h)
        exact .inr (.inl ⟨max, m₁, rfl, rfl, rfl⟩)
      | _ => exact .inr (.inr ⟨_, m₁, rfl, fun hstops => hstops, h⟩)

/-- What holds of the result and the machine of a run between statements. -/
structure Underway (s : Settings) (r : Result) (m : Machine) : Prop where
  scope : m.scope.Sound
  failures : ∀ f ∈ r.failures, f.Proper
  stop : r.stop = none
  steps : 0 < s.maxSteps → m.steps ≤ s.maxSteps

/-- Turning the record around loses nothing of it. -/
theorem Underway.reversed {r : Result} {m : Machine} (h : Underway s r m) :
    ∀ f ∈ r.failures.reverse, f.Proper :=
  fun f hf => h.failures f (List.mem_reverse.mp hf)

/-- How a run ends that does not get beyond the bound on statements: what it recorded, what stopped
it, and how many statements it counted. -/
structure EndsWithin (s : Settings) (failures : List Failure) (stop : Option Stop) (steps : Nat) :
    Prop where
  failures : ∀ f ∈ failures, f.Proper
  stop : ∀ max, stop ≠ some (.stepLimit max)
  steps : 0 < s.maxSteps → steps ≤ s.maxSteps

/-- How a run ends that gets beyond the bound on statements. -/
structure EndsBeyond (s : Settings) (failures : List Failure) (stop : Option Stop) (steps : Nat) :
    Prop where
  limited : 0 < s.maxSteps
  failures : ∃ fs, failures = fs ++ [.stepLimit s.maxSteps] ∧ ∀ f ∈ fs, f.Proper
  stop : stop = some (.stepLimit s.maxSteps)
  steps : steps = s.maxSteps + 1

/-- How a run that is underway ends. -/
theorem runStatements_proper (hs : s.Polite) {fuel : Nat} {ns : Program} (hns : ∀ n ∈ ns, n.Regular) :
    ∀ {r r' : Result} {m m' : Machine}, Underway s r m → runStatements fuel s ns r m = some (r', m') →
    m'.scope.Sound ∧ (EndsWithin s r'.failures.reverse r'.stop m'.steps ∨
      EndsBeyond s r'.failures.reverse r'.stop m'.steps) := by
  -- By induction on the statements: what is known between two of them holds again after the first.
  induction ns with
  | nil =>
    intro r r' m m' hr h
    obtain ⟨rfl, rfl⟩ := Prod.mk.inj (Option.some.inj h)
    exact ⟨hr.scope, .inl ⟨hr.reversed, fun max => by simp [hr.stop], hr.steps⟩⟩
  | cons n ns ih =>
    intro r r' m m' hr h
    obtain ⟨hn, hns⟩ := List.forall_mem_cons.mp hns
    have hexec : (soundLaw s).Holds m (exec fuel n s m) := (sound hs fuel).exec hn m hr.scope
    -- In order: stopped before the statement, done, returned, stopped in the middle of it, out of
    -- statements, failed otherwise.
    obtain ⟨cause, -, rfl, rfl⟩ | ⟨v, m₁, hrun, hrest⟩ | ⟨v, hrun, rfl⟩ | ⟨cause, hrun, rfl⟩ |
      ⟨max, m₁, hrun, rfl, rfl⟩ | ⟨f, m₁, hrun, hf, hrest⟩ := runStatements_cases h
    · exact ⟨hr.scope, .inl ⟨hr.reversed, fun max => by simp, hr.steps⟩⟩
    · rw [hrun] at hexec
      refine ih hns ?_ hrest
      exact ⟨hexec.1, hr.failures, hr.stop, fun hmax => hexec.2.bounded hmax (hr.steps hmax)⟩
    · rw [hrun] at hexec
      refine ⟨hexec.1, .inl ⟨hr.reversed, fun max => by simp [hr.stop], fun hmax => ?_⟩⟩
      exact hexec.2.bounded hmax (hr.steps hmax)
    · rw [hrun] at hexec
      obtain ⟨hm', ⟨_, hcounts⟩ | ⟨hf, _⟩⟩ := hexec
      · refine ⟨hm', .inl ⟨hr.reversed, fun max => by simp, fun hmax => ?_⟩⟩
        exact hcounts.bounded hmax (hr.steps hmax)
      · exact nomatch hf
    · rw [hrun] at hexec
      obtain ⟨hm', ⟨hf | ⟨_, hf⟩, _⟩ | ⟨hf, hexceeds⟩⟩ := hexec
      · exact hf.elim (fun hordinary => hordinary.elim) fun ⟨_, hlimit⟩ => nomatch hlimit
      · exact nomatch hf
      · obtain rfl := Failure.stepLimit.inj hf
        refine ⟨hm', .inr ⟨hexceeds.limited, ?_, rfl, hexceeds.exceeded (hr.steps hexceeds.limited)⟩⟩
        exact ⟨r.failures.reverse, List.reverse_cons, hr.reversed⟩
    · rw [hrun] at hexec
      obtain ⟨hm', ⟨hproper | ⟨_, rfl⟩, hcounts⟩ | ⟨rfl, _⟩⟩ := hexec
      · refine ih hns ?_ hrest
        exact ⟨hm', List.forall_mem_cons.mpr ⟨hproper, hr.failures⟩, hr.stop,
          fun hmax => hcounts.bounded hmax (hr.steps hmax)⟩
      · exact absurd trivial hf
      · exact absurd trivial hf

/-- How a run ends. -/
theorem runProgram_proper (hs : s.Polite) {fuel : Nat} {program : Program}
    (hprogram : ∀ n ∈ program, n.Regular) {r : Result} {m m' : Machine} (hm : m.scope.Sound)
    (h : runProgram fuel s program m = some (r, m')) :
    m'.scope.Sound ∧ (EndsWithin s r.failures r.stop r.steps ∨
      EndsBeyond s r.failures r.stop r.steps) := by
  unfold runProgram at h
  obtain ⟨⟨r₁, m₁⟩, hrun, hend⟩ := Option.map_eq_some_iff.mp h
  obtain ⟨rfl, rfl⟩ := Prod.mk.inj hend
  refine runStatements_proper hs hprogram ?_ hrun
  exact ⟨hm, fun f hf => absurd hf List.not_mem_nil, rfl, fun hmax => Int.le_of_lt hmax⟩

/-! ## Sessions

The scope that a source leaves is the one that the next source finds. It is sound whenever a source begins,
whatever the settings were under which the earlier ones ran. -/

/-- The scopes that the sources of a session leave behind one after the other, starting from the root.
The rest of the machine may be anything whenever a source is run. -/
inductive Session.Reachable : Scope → Prop where
  | root : Reachable Scope.root
  | eval {fuel : Nat} {s : Settings} {source : Text} {m m' : Machine}
      {answer : Except SyntaxError Result} (hs : s.Polite) (hm : Reachable m.scope)
      (h : Session.eval fuel s source m = some (answer, m')) : Reachable m'.scope

/-- Every scope of a session is sound. -/
theorem Session.Reachable.sound {env : Scope} (h : Session.Reachable env) : env.Sound := by
  induction h with
  | root => exact .root
  | @eval fuel s source m m' answer hs _ h ih =>
    unfold Session.eval at h
    split at h
    -- A source that cannot be read leaves the scope as it was.
    · obtain ⟨-, rfl⟩ := Prod.mk.inj (Option.some.inj h)
      exact ih
    · next program hparse =>
      obtain ⟨⟨r, m₁⟩, hrun, hend⟩ := Option.map_eq_some_iff.mp h
      obtain ⟨-, rfl⟩ := Prod.mk.inj hend
      exact (runProgram_proper hs (formed_of_parse hparse) ih hrun).1

/-- The evaluator went wrong, or it met an operator, a node or a source that it cannot read. -/
def Failure.Wrong (f : Failure) : Prop :=
  (∃ cause, f = .defect cause) ∨
    f.kind? ∈ [some .unknownNodeKind, some .unknownOperator, some .syntaxFailure]

/-- An ordinary failure is none of the evaluator. -/
theorem Failure.Ordinary.not_wrong {f : Failure} (h : f.Ordinary) : ¬ f.Wrong := by
  cases f with
  | badSyntax e => exact h.elim
  | unknownOperator op => exact h.elim
  | unknownNode kind => exact h.elim
  | recursionLimit max => exact h.elim
  | stepLimit max => exact h.elim
  | interrupted cause => exact h.elim
  | defect cause => exact h.elim
  | _ => simp [Failure.Wrong, Failure.kind?]

/-- A failure that a program may cause, a call too many included, is none of the interpreter itself. -/
theorem Failure.Proper.not_wrong {f : Failure} (h : f.Proper) : ¬ f.Wrong := by
  rcases h with hordinary | ⟨max, rfl⟩
  · exact hordinary.not_wrong
  · simp [Failure.Wrong, Failure.kind?]

/-- Nothing on record is wrong. -/
theorem not_wrong_of_ends {failures : List Failure} {stop : Option Stop} {steps : Nat}
    (h : EndsWithin s failures stop steps ∨ EndsBeyond s failures stop steps) :
    ∀ f ∈ failures, ¬ f.Wrong := by
  intro f hf
  obtain hwithin | hbeyond := h
  · exact (hwithin.failures f hf).not_wrong
  · obtain ⟨fs, rfl, hfs⟩ := hbeyond.failures
    obtain hf | hf := List.mem_append.mp hf
    · exact (hfs f hf).not_wrong
    · obtain rfl := List.mem_singleton.mp hf
      simp [Failure.Wrong, Failure.kind?]

/-- Programs that were read never go wrong. In every scope that a session can reach, whatever its
variables hold and whatever is fetched, the statements of a program record no defect of the evaluator
and no complaint about an operator, a node or a source. Leading statements are told of separately: a
later one may run forever. -/
theorem Session.never_wrong {env : Scope} (henv : Session.Reachable env) {source : Text}
    {program : Program} (hparse : Program.parse source = .ok program) {s : Settings} (hs : s.Polite)
    {m : Machine} (hm : m.scope.map Frame.funcs = env.map Frame.funcs) :
    (∀ fuel k r m', runProgram fuel s (program.take k) m = some (r, m') →
      ∀ f ∈ r.failures, ¬ f.Wrong) ∧
    ∀ fuel answer m', Session.eval fuel s source m = some (answer, m') →
      ∃ r, answer = .ok r ∧ ∀ f ∈ r.failures, ¬ f.Wrong := by
  have hscope : m.scope.Sound := by
    unfold Scope.Sound
    rw [hm]
    exact henv.sound
  have hprogram : ∀ n ∈ program, n.Regular := formed_of_parse hparse
  refine ⟨fun fuel k r m' hrun => ?_, fun fuel answer m' heval => ?_⟩
  · have htake : ∀ n ∈ program.take k, n.Regular := fun n hn => hprogram n (List.mem_of_mem_take hn)
    exact not_wrong_of_ends (runProgram_proper hs htake hscope hrun).2
  · unfold Session.eval at heval
    rw [hparse] at heval
    obtain ⟨⟨r, m₁⟩, hrun, hend⟩ := Option.map_eq_some_iff.mp heval
    obtain ⟨rfl, rfl⟩ := Prod.mk.inj hend
    exact ⟨r, rfl, not_wrong_of_ends (runProgram_proper hs hprogram hscope hrun).2⟩

/-- The scope that `hawara f(i) { speicher a[i]; };` leaves behind. -/
def indexing : Scope :=
  [{ funcs := [("f", ⟨"f", ["i"], [.retWith (.index (.identifier "a") (.identifier "i"))]⟩)] }]

/-- A call of `f` with a position that the array does not have: the failure is recorded, and the
evaluator is not to blame for it. -/
theorem Session.never_wrong_indexing : ∃ program r m',
    Program.parse "heast a = [1, 2]; f(5);" = .ok program ∧
    runProgram 9 {} program { scope := indexing } = some (r, m') ∧
    r.failures = [.missed (.position 5 1)] ∧ ∀ f ∈ r.failures, ¬ f.Wrong := by
  have hpolite : Settings.Polite {} := fun _ => Fetcher.disabled_polite
  -- The function comes from an earlier source of the session, so that the scope can be reached.
  obtain ⟨answer, m, hdefined, hm⟩ : ∃ answer m,
      Session.eval 9 {} "hawara f(i) \x7b speicher a[i]; \x7d;" {} = some (answer, m) ∧
        m.scope = indexing := ⟨_, _, rfl, rfl⟩
  have henv : Session.Reachable indexing := hm ▸ .eval hpolite .root hdefined
  obtain ⟨program, hparse, r, m', hrun, hfailures⟩ : ∃ program,
      Program.parse "heast a = [1, 2]; f(5);" = .ok program ∧ ∃ r m',
      runProgram 9 {} program { scope := indexing } = some (r, m') ∧
        r.failures = [.missed (.position 5 1)] := ⟨_, rfl, _, _, rfl, rfl⟩
  refine ⟨program, r, m', hparse, hrun, hfailures, ?_⟩
  have hwhole : runProgram 9 {} (program.take program.length) { scope := indexing } = some (r, m') := by
    rw [List.take_length]
    exact hrun
  exact (Session.never_wrong henv hparse hpolite rfl).1 9 program.length r m' hwhole

end Mundart
