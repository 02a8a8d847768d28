import Mundart.Proofs.Run.Growth

/-!
# Two programs side by side

Two programs that differ inside the bodies of their functions leave machines behind that are the same
but for those bodies and for the number of statements. Bodies are related by a parameter here; what a
node is worth does not depend on the difference as long as related bodies agree when they are run.

* **`Machine.Akin`** — the same machine but for related bodies of functions and the count;
* **`Agrees.bind`** — actions in a row agree;
* **`Agrees.call`** — a call agrees if the bodies of the functions that its name means do;
* **`value_agrees`** — the value of a node agrees if its parts agree and the bodies of functions do.

Neither run is stopped: there is no step limit, and nobody cancels a run.
-/

namespace Mundart

open Mundart.Action

variable {bodies : Program → Program → Prop}

/-! ## Scopes

Two scopes have the same frames with the same variables in them. Only what is inside the bodies of functions
may differ, and a relation between bodies says how. -/

/-- The same function but for its body. -/
structure Function.Akin (bodies : Program → Program → Prop) (f g : Function) : Prop where
  name : g.name = f.name
  params : g.params = f.params
  body : bodies f.body g.body

/-- Functions under the same names in the same order. -/
def Function.AkinAll (bodies : Program → Program → Prop) (fs gs : Dict Function) : Prop :=
  List.Forall₂ (fun f g => g.1 = f.1 ∧ f.2.Akin bodies g.2) fs gs

/-- The same frame but for the bodies of functions. -/
structure Frame.Akin (bodies : Program → Program → Prop) (f g : Frame) : Prop where
  vars : g.vars = f.vars
  funcs : Function.AkinAll bodies f.funcs g.funcs

/-- The same scope but for the bodies of functions. -/
def Scope.Akin (bodies : Program → Program → Prop) (σ τ : Scope) : Prop :=
  List.Forall₂ (Frame.Akin bodies) σ τ

/-- Related functions may be defined under the same name. -/
theorem Function.AkinAll.set {fs gs : Dict Function} (h : AkinAll bodies fs gs) {name : Text}
    {f g : Function} (hfg : f.Akin bodies g) : AkinAll bodies (fs.set name f) (gs.set name g) := by
  -- By induction on the entries: the name is found at the same place on both sides, or at the end.
  induction h with
  | nil => exact .cons ⟨rfl, hfg⟩ .nil
  | @cons e e' fs gs he h ih =>
    obtain ⟨k, f₁⟩ := e
    obtain ⟨k', g₁⟩ := e'
    obtain ⟨rfl, hhead⟩ : k' = k ∧ f₁.Akin bodies g₁ := he
    unfold Dict.set
    by_cases hk : k' = name
    · rw [if_pos hk, if_pos hk]
      exact .cons ⟨rfl, hfg⟩ h
    · rw [if_neg hk, if_neg hk]
      exact .cons ⟨rfl, hhead⟩ ih

/-- A name means related functions on both sides, or none. -/
theorem Function.AkinAll.get? {fs gs : Dict Function} (h : AkinAll bodies fs gs) (name : Text) :
    Option.Rel (Akin bodies) (fs.get? name) (gs.get? name) := by
  induction h with
  | nil => exact .none
  | @cons e e' fs gs he h ih =>
    obtain ⟨k, f₁⟩ := e
    obtain ⟨k', g₁⟩ := e'
    obtain ⟨rfl, hhead⟩ : k' = k ∧ f₁.Akin bodies g₁ := he
    unfold Dict.get?
    by_cases hk : k' = name
    · rw [if_pos hk, if_pos hk]
      exact .some hhead
    · rw [if_neg hk, if_neg hk]
      exact ih

namespace Scope.Akin

variable {σ τ : Scope}

/-- A scope is related to itself. -/
theorem refl (hrefl : ∀ body, bodies body body) (σ : Scope) : Scope.Akin bodies σ σ := by
  refine List.forall₂_same.mpr fun frame _ => ⟨rfl, ?_⟩
  exact List.forall₂_same.mpr fun f _ => ⟨rfl, rfl, rfl, hrefl _⟩

/-- The variables are the same, frame by frame. -/
theorem vars (h : Scope.Akin bodies σ τ) : τ.map Frame.vars = σ.map Frame.vars := by
  induction h with
  | nil => rfl
  | cons hframe _ ih => rw [List.map_cons, List.map_cons, hframe.vars, ih]

/-- A name is the same variable on both sides, or none. -/
theorem lookupVar? (h : Scope.Akin bodies σ τ) (name : Text) :
    τ.lookupVar? name = σ.lookupVar? name := by
  unfold Scope.lookupVar?
  induction h with
  | nil => rfl
  | cons hframe _ ih => rw [List.findSome?_cons, List.findSome?_cons, hframe.vars, ih]

/-- A name means related functions on both sides, or none. -/
theorem lookupFunc? (h : Scope.Akin bodies σ τ) (name : Text) :
    Option.Rel (Function.Akin bodies) (σ.lookupFunc? name) (τ.lookupFunc? name) := by
  unfold Scope.lookupFunc?
  induction h with
  | nil => exact .none
  | cons hframe _ ih =>
    rw [List.findSome?_cons, List.findSome?_cons]
    -- The innermost frame decides, if the name means a function there.
    have hhead := hframe.funcs.get? name
    revert hhead
    generalize Dict.get? _ name = f?
    generalize Dict.get? _ name = g?
    rintro (hfg | _)
    · exact .some hfg
    · exact ih

/-- Changes of the innermost frame that are related. -/
theorem onTop (h : Scope.Akin bodies σ τ) {change change' : Frame → Frame}
    (hchange : ∀ f g, Frame.Akin bodies f g → Frame.Akin bodies (change f) (change' g)) :
    Scope.Akin bodies (σ.onTop change) (τ.onTop change') := by
  cases h with
  | nil => exact .cons (hchange _ _ ⟨rfl, .nil⟩) .nil
  | cons hframe hrest => exact .cons (hchange _ _ hframe) hrest

/-- The same variable is bound. -/
theorem defineVar (h : Scope.Akin bodies σ τ) (name : Text) (v : Value) :
    Scope.Akin bodies (σ.defineVar name v) (τ.defineVar name v) :=
  h.onTop fun _ _ hframe => ⟨by rw [hframe.vars], hframe.funcs⟩

/-- Related functions are defined. -/
theorem defineFunc (h : Scope.Akin bodies σ τ) {f g : Function} (hfg : f.Akin bodies g) :
    Scope.Akin bodies (σ.defineFunc f) (τ.defineFunc g) := by
  refine h.onTop fun _ _ hframe => ⟨hframe.vars, ?_⟩
  rw [hfg.name]
  exact hframe.funcs.set hfg

/-- The innermost frame is left on both sides. -/
theorem tail (h : Scope.Akin bodies σ τ) : Scope.Akin bodies σ.tail τ.tail := by
  cases h with
  | nil => exact .nil
  | cons _ hrest => exact hrest

end Scope.Akin

/-! ## Machines and outcomes

Both runs have the same output, notes and randomness, and the same depth of calls. They need not have
counted the same statements, nor need their bounds be used up at the same point. -/

/-- The same machine but for related bodies of functions and the number of statements. Nobody has
cancelled its run. -/
inductive Machine.Akin (bodies : Program → Program → Prop) (m : Machine) : Machine → Prop where
  | intro {τ : Scope} {steps : Nat} (scope : Scope.Akin bodies m.scope τ)
      (running : m.interruption = none) : Akin bodies m { m with scope := τ, steps := steps }

/-- As many calls are active on both sides. -/
theorem Machine.Akin.depth {m m' : Machine} (h : m.Akin bodies m') : m'.depth = m.depth := by
  cases h
  rfl

/-- Neither run was cancelled. -/
theorem Machine.Akin.running {m m' : Machine} (h : m.Akin bodies m') :
    m.interruption = none ∧ m'.interruption = none := by
  cases h with
  | intro _ hrunning => exact ⟨hrunning, hrunning⟩

/-- Two actions that end the same way, with results that are related. Either of the bounds may be the
one that can be too small. -/
inductive Outcome.Agree {α β : Type} (bodies : Program → Program → Prop) (ahead : Bool)
    (R : α → β → Prop) : Outcome α → Outcome β → Prop where
  | done {a : α} {b : β} {m m' : Machine} (h : R a b) (hm : m.Akin bodies m') :
      Agree bodies ahead R (.done a m) (.done b m')
  | failed {f : Failure} {m m' : Machine} (hm : m.Akin bodies m') :
      Agree bodies ahead R (.failed f m) (.failed f m')
  | left {y : Outcome β} (h : ahead = false) : Agree bodies ahead R .starved y
  | right {x : Outcome α} (h : ahead = true) : Agree bodies ahead R x .starved

/-- Two actions that agree on all machines that are the same but for related bodies. -/
def Agrees {α β : Type} (bodies : Program → Program → Prop) (s : Settings) (ahead : Bool)
    (R : α → β → Prop) (x : Action α) (y : Action β) : Prop :=
  ∀ m m', m.Akin bodies m' → Outcome.Agree bodies ahead R (x s m) (y s m')

/-- Statements that end the same way. Where the next one follows, their values count only if somebody
looks at them. -/
inductive Flow.Akin (valued : Bool) : Flow → Flow → Prop where
  | returned (v : Value) : Akin valued (.returned v) (.returned v)
  | next {v w : Value} (h : valued = true → w = v) : Akin valued (.next v) (.next w)

/-- Where the values count, the ends are the same. -/
theorem Flow.Akin.eq {flow flow' : Flow} (h : Flow.Akin true flow flow') : flow = flow' := by
  cases h with
  | returned v => rfl
  | next hvalue => rw [hvalue rfl]

variable {s : Settings} {ahead : Bool} {α β γ δ : Type}

namespace Agrees

/-- A weaker relation between the results. -/
theorem mono {R Q : α → β → Prop} {x : Action α} {y : Action β} (h : Agrees bodies s ahead R x y)
    (hRQ : ∀ a b, R a b → Q a b) : Agrees bodies s ahead Q x y := by
  intro m m' hm
  have hout := h m m' hm
  -- Only how the two actions end matters from here on.
  generalize x s m = outx at hout
  generalize y s m' = outy at hout
  cases hout with
  | done hab hm₁ => exact .done (hRQ _ _ hab) hm₁
  | failed hm₁ => exact .failed hm₁
  | left hahead => exact .left hahead
  | right hahead => exact .right hahead

/-- What the right action always gives may be relied on. -/
theorem provided {R : α → β → Prop} {P : β → Prop} {x : Action α} {y : Action β}
    (h : Agrees bodies s ahead R x y) (hP : ∀ m b m', y s m = .done b m' → P b) :
    Agrees bodies s ahead (fun a b => R a b ∧ P b) x y := by
  intro m m' hm
  have hout := h m m' hm
  generalize x s m = outx at hout
  generalize hy : y s m' = outy at hout
  cases hout with
  | done hab hm₁ => exact .done ⟨hab, hP _ _ _ hy⟩ hm₁
  | failed hm₁ => exact .failed hm₁
  | left hahead => exact .left hahead
  | right hahead => exact .right hahead

/-- Related results. -/
theorem pure {R : α → β → Prop} {a : α} {b : β} (h : R a b) :
    Agrees bodies s ahead R (pure a) (pure b) := fun _ _ hm => .done h hm

/-- The same failure. -/
theorem fail {R : α → β → Prop} (f : Failure) : Agrees bodies s ahead R (fail f) (fail f) :=
  fun _ _ hm => .failed hm

/-- Actions in a row. -/
theorem bind {R : α → β → Prop} {Q : γ → δ → Prop} {x : Action α} {y : Action β}
    {next : α → Action γ} {next' : β → Action δ} (h : Agrees bodies s ahead R x y)
    (hnext : ∀ a b, R a b → Agrees bodies s ahead Q (next a) (next' b)) :
    Agrees bodies s ahead Q (x >>= next) (y >>= next') := by
  intro m m' hm
  have hout := h m m' hm
  generalize hx : x s m = outx at hout
  generalize hy : y s m' = outy at hout
  -- What comes next is run on both sides or on neither.
  cases hout with
  | done hab hm₁ =>
    rw [bind_of_done hx, bind_of_done hy]
    exact hnext _ _ hab _ _ hm₁
  | failed hm₁ =>
    rw [bind_of_failed hx, bind_of_failed hy]
    exact .failed hm₁
  | left hahead =>
    rw [bind_of_starved hx]
    exact .left hahead
  | right hahead =>
    rw [bind_of_starved hy]
    exact .right hahead

/-- Actions in a row, the first of which gives the same on both sides. -/
theorem andThen {Q : γ → δ → Prop} {x y : Action α} {next : α → Action γ} {next' : α → Action δ}
    (h : Agrees bodies s ahead Eq x y)
    (hnext : ∀ a, Agrees bodies s ahead Q (next a) (next' a)) :
    Agrees bodies s ahead Q (x >>= next) (y >>= next') :=
  h.bind fun a _ hab => hab ▸ hnext a

/-! ## Single actions

Each of them does the same on both sides, as it does not look at the bodies of functions or at the count. -/

/-- A computation without a machine. -/
theorem ofExcept (x : Except Failure α) : Agrees bodies s ahead Eq (ofExcept x) (ofExcept x) := by
  cases x with
  | ok a => exact pure rfl
  | error f => exact fail f

/-- What reads the scope must cope with a related one. -/
theorem scope {R : α → β → Prop} {next : Scope → Action α} {next' : Scope → Action β}
    (h : ∀ σ τ, Scope.Akin bodies σ τ → Agrees bodies s ahead R (next σ) (next' τ)) :
    Agrees bodies s ahead R (scope >>= next) (scope >>= next') := by
  rintro m _ ⟨hscope, hrunning⟩
  exact h _ _ hscope m _ ⟨hscope, hrunning⟩

/-- Binding a variable. -/
theorem define (name : Text) (v : Value) :
    Agrees bodies s ahead Eq (define name v) (define name v) := by
  rintro m _ ⟨hscope, hrunning⟩
  exact .done rfl ⟨hscope.defineVar name v, hrunning⟩

/-- Defining related functions. -/
theorem defineFunc {f g : Function} (hfg : f.Akin bodies g) :
    Agrees bodies s ahead Eq (defineFunc f) (defineFunc g) := by
  rintro m _ ⟨hscope, hrunning⟩
  exact .done rfl ⟨hscope.defineFunc hfg, hrunning⟩

/-- Noting an event. -/
theorem note (event : Event) : Agrees bodies s ahead Eq (note event) (note event) := by
  rintro m _ ⟨hscope, hrunning⟩
  exact .done rfl ⟨hscope, hrunning⟩

/-- Printing. -/
theorem print (t : Text) : Agrees bodies s ahead Eq (print t) (print t) := by
  rintro m _ ⟨hscope, hrunning⟩
  -- Both runs have written equally often, so the output is full for both or for none.
  have hwrite : ∀ {m m' : Machine}, m.Akin bodies m' → ∀ full : Bool,
      Outcome.Agree bodies ahead Eq
        (if full then .failed (.output "disk full") m else .done () { m with printed := t :: m.printed })
        (if full then .failed (.output "disk full") m'
          else .done () { m' with printed := t :: m'.printed }) := by
    rintro m _ ⟨hscope, hrunning⟩ full
    cases full with
    | true => exact .failed ⟨hscope, hrunning⟩
    | false => exact .done rfl ⟨hscope, hrunning⟩
  exact hwrite ⟨hscope, hrunning⟩ _

/-- Fetching, where a fetch cancels nothing. -/
theorem fetch (hcalm : ∀ n url, (s.fetcher n url).cancels = false) (url : Text) :
    Agrees bodies s ahead Eq (fetch url) (fetch url) := by
  rintro m _ ⟨hscope, hrunning⟩
  unfold Action.fetch
  dsimp only
  rw [hcalm, if_neg Bool.false_ne_true]
  split
  · exact .done rfl ⟨hscope, hrunning⟩
  · exact .failed ⟨hscope, hrunning⟩

/-- Calling a method. -/
theorem invoke (method : Method) (receiver : Value) (arg : Option Value) :
    Agrees bodies s ahead Eq (invoke method receiver arg) (invoke method receiver arg) := by
  rintro m _ ⟨hscope, hrunning⟩
  unfold Action.invoke
  dsimp only
  split
  · exact .done rfl ⟨hscope, hrunning⟩
  · exact .failed ⟨hscope, hrunning⟩

/-- The test for the depth of calls. -/
theorem checkDepth : Agrees bodies s ahead Eq checkDepth checkDepth := by
  intro m m' hm
  rcases checkDepth_cases s m with ⟨hroom, hleft⟩ | ⟨hfull, hleft⟩
  · rcases checkDepth_cases s m' with ⟨-, hright⟩ | ⟨hfull, -⟩
    · rw [hleft, hright]
      exact .done rfl hm
    · rw [hm.depth] at hfull
      exact absurd hroom (Nat.not_lt.mpr hfull)
  · rcases checkDepth_cases s m' with ⟨hroom, -⟩ | ⟨-, hright⟩
    · rw [hm.depth] at hroom
      exact absurd hroom (Nat.not_lt.mpr hfull)
    · rw [hleft, hright]
      exact .failed hm

/-- Counting a statement; without a limit the counts need not be the same. -/
theorem tick (hfree : s.maxSteps ≤ 0) : Agrees bodies s ahead Eq tick tick := by
  intro m m' hm
  rw [tick_within (.inl hfree), tick_within (.inl hfree), Machine.counted, Machine.counted,
    hm.running.1, hm.running.2]
  obtain ⟨hscope, -⟩ := hm
  exact .done rfl ⟨hscope, rfl⟩

/-- Running something in a frame of its own. -/
theorem inFrame {R : α → β → Prop} {x : Action α} {y : Action β} (h : Agrees bodies s ahead R x y)
    (vars : Dict Value) :
    Agrees bodies s ahead R (inFrame { vars := vars } x) (inFrame { vars := vars } y) := by
  intro m m' hm
  have henter : (m.enter { vars := vars }).Akin bodies (m'.enter { vars := vars }) := by
    obtain ⟨hscope, hrunning⟩ := hm
    exact ⟨.cons ⟨rfl, .nil⟩ hscope, hrunning⟩
  have hleave : ∀ {m m' : Machine}, m.Akin bodies m' → m.leave.Akin bodies m'.leave := by
    rintro m _ ⟨hscope, hrunning⟩
    exact ⟨hscope.tail, hrunning⟩
  have hout := h _ _ henter
  unfold Action.inFrame
  generalize x s (m.enter { vars := vars }) = outx at hout
  generalize y s (m'.enter { vars := vars }) = outy at hout
  cases hout with
  | done hab hm₁ => exact .done hab (hleave hm₁)
  | failed hm₁ => exact .failed (hleave hm₁)
  | left hahead => exact .left hahead
  | right hahead => exact .right hahead

/-! ## Sequences

Evaluations that go through a list, by induction on it. -/

section

variable {eval eval' : Node → Action Value} (heval : ∀ n, Agrees bodies s ahead Eq (eval n) (eval' n))

include heval

/-- The values of some nodes. -/
theorem values (ns : List Node) :
    Agrees bodies s ahead Eq (Eval.values eval ns) (Eval.values eval' ns) := by
  induction ns with
  | nil => exact pure rfl
  | cons n ns ih => exact andThen (heval n) fun v => andThen ih fun vs => pure rfl

/-- The truth of some nodes. -/
theorem truths (ns : List Node) :
    Agrees bodies s ahead Eq (Eval.truths eval ns) (Eval.truths eval' ns) := by
  induction ns with
  | nil => exact pure rfl
  | cons n ns ih => exact andThen (heval n) fun v => andThen ih fun vs => pure rfl

/-- The keys and values of an association. -/
theorem entries (pairs : List (Node × Node)) : ∀ written : Dict Value,
    Agrees bodies s ahead Eq (Eval.entries eval written pairs)
      (Eval.entries eval' written pairs) := by
  induction pairs with
  | nil => exact fun written => pure rfl
  | cons p pairs ih =>
    intro written
    refine andThen (heval p.1) fun k => ?_
    refine andThen (ofExcept _) fun key => ?_
    exact andThen (heval p.2) fun v => ih _

/-- The elements that a predicate keeps. -/
theorem select (item : Text) (predicate : Node) (element : α → Value) (xs : List α) :
    Agrees bodies s ahead Eq (Eval.select eval item predicate element xs)
      (Eval.select eval' item predicate element xs) := by
  induction xs with
  | nil => exact pure rfl
  | cons x xs ih =>
    refine andThen (define item _) fun _ => ?_
    refine andThen (heval predicate) fun v => ?_
    exact andThen ih fun rest => pure rfl

/-! ## Single nodes

The evaluations of the nodes that take more than one or two steps. -/

/-- An association, if there are as many values as keys. -/
theorem assoc? (keys vals : List Node) :
    Agrees bodies s ahead Eq (Eval.assoc? eval keys vals) (Eval.assoc? eval' keys vals) := by
  unfold Eval.assoc?
  split
  · refine andThen (ofExcept _) fun pairs => ?_
    exact andThen (entries heval pairs []) fun es => pure rfl
  · exact pure rfl

/-- A declaration. -/
theorem declare (name : Text) (init : Node) :
    Agrees bodies s ahead Eq (Eval.declare eval name init) (Eval.declare eval' name init) := by
  unfold Eval.declare
  split
  · refine andThen (assoc? heval _ _) fun found => ?_
    cases found with
    | some v => exact andThen (define name v) fun _ => pure rfl
    | none => exact andThen (note _) fun _ => pure rfl
  · exact andThen (heval _) fun v => andThen (define name v) fun _ => pure rfl

/-- An assignment to an index. -/
theorem indexAssign (name : Text) (position value : Node) :
    Agrees bodies s ahead Eq (Eval.indexAssign eval name position value)
      (Eval.indexAssign eval' name position value) := by
  refine scope fun σ τ hscope => ?_
  have hvar : τ.getVar name = σ.getVar name := by
    unfold Scope.getVar
    rw [hscope.lookupVar?]
  rw [hvar]
  refine andThen (ofExcept _) fun current => ?_
  refine andThen (heval position) fun index => ?_
  refine andThen (heval value) fun v => ?_
  refine andThen (ofExcept _) fun updated => ?_
  exact andThen (define name updated) fun _ => pure rfl

/-- The argument of a method, if there is one. -/
theorem argument (arg : Option Node) :
    Agrees bodies s ahead Eq (Eval.argument eval arg) (Eval.argument eval' arg) := by
  cases arg with
  | none => exact pure rfl
  | some n => exact andThen (heval n) fun v => pure rfl

omit heval in
/-- A method on its receiver, whose result may be stored. -/
theorem useMethod (object : Node) (method : Method) (receiver : Value) (arg : Option Value) :
    Agrees bodies s ahead Eq (Eval.useMethod object method receiver arg)
      (Eval.useMethod object method receiver arg) := by
  unfold Eval.useMethod
  split
  · split
    · refine andThen (invoke method receiver arg) fun result => ?_
      exact andThen (define _ result) fun _ => pure rfl
    · exact fail _
  · exact invoke method receiver arg

/-- A method on the value of an object. -/
theorem property (object : Node) (name : Text) (arg : Option Node) :
    Agrees bodies s ahead Eq (Eval.property eval object name arg)
      (Eval.property eval' object name arg) := by
  unfold Eval.property
  split
  · exact fail _
  · refine andThen (heval object) fun receiver => ?_
    exact andThen (argument heval arg) fun arg => useMethod object _ receiver arg

/-- A filter of an array or an association. -/
theorem filter (collection : Node) (item : Text) (predicate : Node) :
    Agrees bodies s ahead Eq (Eval.filter eval collection item predicate)
      (Eval.filter eval' collection item predicate) := by
  refine andThen (heval collection) fun v => ?_
  split
  · refine andThen (ofExcept _) fun items => ?_
    exact andThen (select heval item predicate id items) fun kept => pure rfl
  · refine andThen (ofExcept _) fun entries => ?_
    exact andThen (select heval item predicate Prod.snd entries) fun kept => pure rfl
  · exact fail _

/-- A postfix operator. -/
theorem unary (op : Text) (operand : Node) :
    Agrees bodies s ahead Eq (Eval.unary eval op operand) (Eval.unary eval' op operand) := by
  refine andThen (heval operand) fun v => ?_
  refine andThen (ofExcept _) fun result => ?_
  split
  · exact andThen (define _ result) fun _ => pure rfl
  · exact pure rfl

omit heval in
/-- A name is the same variable on both sides, or else a function on both. -/
theorem identifier (name : Text) :
    Agrees bodies s ahead Eq (Eval.identifier name) (Eval.identifier name) := by
  refine scope fun σ τ hscope => ?_
  rw [hscope.lookupVar? name]
  have hfunc := hscope.lookupFunc? name
  generalize σ.lookupFunc? name = f? at hfunc
  generalize τ.lookupFunc? name = g? at hfunc
  cases σ.lookupVar? name with
  | some v => exact pure rfl
  | none =>
    cases hfunc with
    | some _ => exact pure rfl
    | none => exact fail _

omit heval in
/-- A fetch from a value that must be a text. -/
theorem fetchFrom (hcalm : ∀ n url, (s.fetcher n url).cancels = false) (v : Value) :
    Agrees bodies s ahead Eq (Eval.fetchFrom v) (Eval.fetchFrom v) := by
  unfold Eval.fetchFrom
  split
  · exact andThen (ofExcept _) fun url => fetch hcalm url
  · exact fail _

end

/-- Related functions take the same arguments, and their bodies run in the same frame. -/
theorem enter {exec exec' : Node → Action Flow} {f g : Function} (hfg : f.Akin bodies g)
    (hbody : Agrees bodies s ahead Eq (Eval.block exec .absent f.body)
      (Eval.block exec' .absent g.body)) (vs : List Value) :
    Agrees bodies s ahead Eq (Eval.enter exec f vs) (Eval.enter exec' g vs) := by
  rw [Eval.enter_eq, Eval.enter_eq, hfg.params, hfg.name]
  split
  · exact fail _
  · refine andThen ?_ fun flow => pure rfl
    exact andThen checkDepth fun _ => inFrame hbody _

/-- A call, if related bodies agree. -/
theorem call {eval eval' : Node → Action Value} {exec exec' : Node → Action Flow}
    (heval : ∀ n, Agrees bodies s ahead Eq (eval n) (eval' n))
    (hbody : ∀ body body', bodies body body' → Agrees bodies s ahead Eq
      (Eval.block exec .absent body) (Eval.block exec' .absent body'))
    (name : Text) (args : List Node) :
    Agrees bodies s ahead Eq (Eval.call eval exec name args) (Eval.call eval' exec' name args) := by
  rintro m m' hm
  have hfunc : Option.Rel (Function.Akin bodies) (m.scope.lookupFunc? name)
      (m'.scope.lookupFunc? name) := by
    obtain ⟨hscope, -⟩ := hm
    exact hscope.lookupFunc? name
  unfold Eval.call
  generalize hf : m.scope.lookupFunc? name = f? at hfunc
  generalize hg : m'.scope.lookupFunc? name = g? at hfunc
  -- The name means related functions on both sides, or none on either.
  cases hfunc with
  | none =>
    rw [bind_of_failed (function_of_none hf), bind_of_failed (function_of_none hg)]
    exact .failed hm
  | some hfg =>
    rw [bind_of_done (function_of_some hf), bind_of_done (function_of_some hg)]
    exact andThen (values heval args) (fun vs => enter hfg (hbody _ _ hfg.body) vs) m m' hm

/-- A body is run for the same elements on both sides. -/
theorem forEach {run run' : Action Flow} (hrun : Agrees bodies s ahead (Flow.Akin false) run run')
    (item : Text) (vs : List Value) :
    Agrees bodies s ahead Eq (Eval.forEach run item vs) (Eval.forEach run' item vs) := by
  induction vs with
  | nil => exact pure rfl
  | cons v vs ih =>
    refine andThen (define item v) fun _ => ?_
    refine bind hrun fun _ _ hflow => ?_
    cases hflow with
    | returned v => exact pure rfl
    | next _ => exact ih

end Agrees

/-! ## All nodes

One case for each kind of node. Functions with related bodies are only told apart where they are called. -/

/-- The value of a node is the same on both sides, if its parts agree and related bodies do. -/
theorem value_agrees (hcalm : ∀ n url, (s.fetcher n url).cancels = false) {e e' : Evaluators}
    (heval : ∀ n, Agrees bodies s ahead Eq (e.eval n) (e'.eval n))
    (hexec : ∀ n, Agrees bodies s ahead Eq (e.exec n) (e'.exec n))
    (hbody : ∀ body body', bodies body body' → Agrees bodies s ahead Eq
      (Eval.block e.exec .absent body) (Eval.block e'.exec .absent body'))
    (hrefl : ∀ body, bodies body body) (n : Node) :
    Agrees bodies s ahead Eq (e.value n) (e'.value n) := by
  cases n with
  | literal v => exact .pure rfl
  | identifier name => exact .identifier name
  | comment text => exact .pure rfl
  | declare name init => exact .declare heval name init
  | assign name value =>
    exact .andThen (heval value) fun v => .andThen (.define name v) fun _ => .pure rfl
  | array elements => exact .andThen (.values heval elements) fun vs => .pure rfl
  | assoc keys vals => exact .andThen (.assoc? heval keys vals) fun v => .pure rfl
  | index collection position =>
    exact .andThen (heval collection) fun c => .andThen (heval position) fun i => .ofExcept _
  | indexAssign name position value => exact .indexAssign heval name position value
  | property object name => exact .property heval object name none
  | propertyCall object name => exact .property heval object name none
  | propertyWith object name arg => exact .property heval object name (some arg)
  | filter collection item predicate => exact .filter heval collection item predicate
  | binary left op right =>
    exact .andThen (heval left) fun a => .andThen (heval right) fun b => .ofExcept _
  | unary op operand => exact .unary heval op operand
  | comparison left op right =>
    refine .andThen (heval left) fun a => .andThen (heval right) fun b => ?_
    exact .andThen (.ofExcept _) fun holds => .pure rfl
  | chain operands ops =>
    refine .andThen (.truths heval operands) fun results => ?_
    exact .andThen (.ofExcept _) fun holds => .pure rfl
  | function name params body =>
    exact .andThen (.defineFunc ⟨rfl, rfl, hrefl body⟩) fun _ => .pure rfl
  | call name args => exact .call heval hbody name args
  | print vals =>
    refine .andThen (.values heval vals) fun vs => ?_
    exact .andThen (.print _) fun _ => .pure rfl
  | fetch url => exact .andThen (heval url) fun v => .fetchFrom hcalm v
  | missing => exact .fail _
  | foreign kind => exact .fail _
  -- Statements in the place of an expression are run, and only their value is kept.
  | ifThen test body => exact .andThen (hexec _) fun flow => .pure rfl
  | ifElse test body otherwise => exact .andThen (hexec _) fun flow => .pure rfl
  | forLoop start test update body => exact .andThen (hexec _) fun flow => .pure rfl
  | whileLoop test body => exact .andThen (hexec _) fun flow => .pure rfl
  | forEach collection item body => exact .andThen (hexec _) fun flow => .pure rfl
  | ret => exact .andThen (hexec _) fun flow => .pure rfl
  | retWith value => exact .andThen (hexec _) fun flow => .pure rfl

end Mundart
