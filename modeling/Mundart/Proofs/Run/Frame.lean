import Mundart.Proofs.Run.Law

/-!
# What a statement leaves alone

A statement binds names in the innermost frame only, and only the names that stand in it where names
are bound (`Node.binds`). Bodies of functions do not count: they run in frames of their own, which are
gone afterwards.

* **`exec_keeps`** — a statement keeps every other binding and all outer frames, also where it fails;
* **`still`** — what binds no names at all leaves the scope exactly as it is;
* **`call_scope`** — a call changes no binding beyond what the evaluation of its arguments changes;
* **`frame_law`** — both, as far as the innermost frame and its ancestors are concerned.
-/

namespace Mundart

open Mundart.Action

/-- A name that is bound, as a variable or as a function. -/
inductive Binding where
  | var (name : Text)
  | func (name : Text)
  deriving DecidableEq, Repr

namespace Node

/-- The variable that a method stores its result to. -/
def stored (object : Node) (name : Text) : List Binding :=
  match object, Method.ofName? name with
  | .identifier target, some method => if method.storesBack then [.var target] else []
  | _, _ => []

/-- The variable that counting up or down changes. -/
def counted : Node → List Binding
  | .identifier name => [.var name]
  | _ => []

mutual

/-- The names that a node binds, not counting the bodies of functions in it. -/
def binds : Node → List Binding
  | .literal _ | .identifier _ | .comment _ | .ret | .missing | .foreign _ => []
  | .declare name init => .var name :: init.binds
  | .assign name value => .var name :: value.binds
  | .array elements => bindsAll elements
  | .assoc keys values => bindsAll keys ++ bindsAll values
  | .index collection position => collection.binds ++ position.binds
  | .indexAssign name position value => .var name :: (position.binds ++ value.binds)
  | .property object name => stored object name ++ object.binds
  | .propertyCall object name => stored object name ++ object.binds
  | .propertyWith object name arg => stored object name ++ (object.binds ++ arg.binds)
  | .binary left _ right => left.binds ++ right.binds
  | .unary _ operand => counted operand ++ operand.binds
  | .comparison left _ right => left.binds ++ right.binds
  | .chain operands _ => bindsAll operands
  | .ifThen test body => test.binds ++ bindsAll body
  | .ifElse test body otherwise => test.binds ++ (bindsAll body ++ bindsAll otherwise)
  | .forLoop start test update body => start.binds ++ (test.binds ++ (update.binds ++ bindsAll body))
  | .whileLoop test body => test.binds ++ bindsAll body
  | .forEach collection item body => .var item :: (collection.binds ++ bindsAll body)
  | .filter collection item predicate => .var item :: (collection.binds ++ predicate.binds)
  | .function name _ _ => [.func name]
  | .call _ args => bindsAll args
  | .print values => bindsAll values
  | .retWith value => value.binds
  | .fetch url => url.binds

def bindsAll : List Node → List Binding
  | [] => []
  | n :: ns => n.binds ++ bindsAll ns

end

/-! ## Parts of what is bound

The lists above are unions, so that what holds of all the names of a node holds of those of its parts. -/

/-- Every node of a list binds no more than the list. -/
theorem bindsAll_subset {ns : List Node} {bound : List Binding} (h : bindsAll ns ⊆ bound) :
    ∀ n ∈ ns, n.binds ⊆ bound := by
  induction ns with
  | nil => exact fun n hn => absurd hn List.not_mem_nil
  | cons m ms ih =>
    obtain ⟨hm, hms⟩ := List.append_subset.mp h
    exact List.forall_mem_cons.mpr ⟨hm, ih hms⟩

/-- The variable that a method stores to is among the names of the node, if there is one. -/
theorem stored_subset {object : Node} {name target : Text} {method : Method}
    {bound : List Binding} (h : stored object name ⊆ bound)
    (hmethod : Method.ofName? name = some method) (hback : method.storesBack = true)
    (hobject : object = .identifier target) : .var target ∈ bound := by
  subst hobject
  apply h
  simp [stored, hmethod, hback]

end Node

/-! ## The law

The scope before and after are compared frame by frame: all but the innermost are the same, and in this one
every name that is not excluded. The names are a parameter, since every statement has its own. -/

/-- The innermost frame. -/
def Scope.top (scope : Scope) : Frame := scope.headD {}

/-- Two scopes that differ at most in some bindings of the innermost frame. -/
structure Kept (bound : List Binding) (before after : Scope) : Prop where
  tail : after.tail = before.tail
  cons : before ≠ [] → after ≠ []
  vars : ∀ x, .var x ∉ bound → after.top.vars.get? x = before.top.vars.get? x
  funcs : ∀ g, .func g ∉ bound → after.top.funcs.get? g = before.top.funcs.get? g

namespace Kept

variable {bound : List Binding}

/-- A scope keeps its own bindings. -/
theorem refl (scope : Scope) : Kept bound scope scope := ⟨rfl, id, fun _ _ => rfl, fun _ _ => rfl⟩

/-- An equal scope keeps all bindings. -/
theorem of_eq {before after : Scope} (h : after = before) : Kept bound before after :=
  h ▸ refl after

/-- What is kept twice is kept. -/
theorem trans {a b c : Scope} (hab : Kept bound a b) (hbc : Kept bound b c) : Kept bound a c where
  tail := hbc.tail.trans hab.tail
  cons := fun h => hbc.cons (hab.cons h)
  vars := fun x hx => (hbc.vars x hx).trans (hab.vars x hx)
  funcs := fun g hg => (hbc.funcs g hg).trans (hab.funcs g hg)

/-- Binding a variable keeps all names but its own. -/
theorem defineVar {name : Text} (h : .var name ∈ bound) (scope : Scope) (v : Value) :
    Kept bound scope (scope.defineVar name v) := by
  have hget : ∀ (d : Dict Value) (x : Text), .var x ∉ bound → (d.set name v).get? x = d.get? x := by
    intro d x hx
    rw [Dict.get?_set, if_neg]
    rintro rfl
    exact hx h
  -- Where there is no frame yet, the binding makes one.
  cases scope with
  | nil => exact ⟨rfl, fun h => absurd rfl h, fun x hx => hget [] x hx, fun _ _ => rfl⟩
  | cons f fs =>
    exact ⟨rfl, fun _ => List.cons_ne_nil _ _, fun x hx => hget f.vars x hx, fun _ _ => rfl⟩

/-- Binding a function keeps all names but its own. -/
theorem defineFunc {fn : Function} (h : .func fn.name ∈ bound) (scope : Scope) :
    Kept bound scope (scope.defineFunc fn) := by
  have hget : ∀ (d : Dict Function) (g : Text), .func g ∉ bound →
      (d.set fn.name fn).get? g = d.get? g := by
    intro d g hg
    rw [Dict.get?_set, if_neg]
    rintro rfl
    exact hg h
  cases scope with
  | nil => exact ⟨rfl, fun h => absurd rfl h, fun _ _ => rfl, fun g hg => hget [] g hg⟩
  | cons f fs =>
    exact ⟨rfl, fun _ => List.cons_ne_nil _ _, fun _ _ => rfl, fun g hg => hget f.funcs g hg⟩

end Kept

/-- Evaluation changes no binding but those given, and only in the innermost frame. -/
def frameLaw (bound : List Binding) : Law where
  inv _ := True
  done m m' := Kept bound m.scope m'.scope
  failed m _ m' := Kept bound m.scope m'.scope
  refl m := .refl m.scope
  trans := .trans
  after := .trans

/-- Nodes that bind no names but those given. -/
def frameAccess (bound : List Binding) : Access where
  writes name := .var name ∈ bound
  defines fn := .func fn.name ∈ bound
  knows _ := True
  fails _ := True
  evals n := n.binds ⊆ bound
  execs n := n.binds ⊆ bound
  loops test body update :=
    test.binds ⊆ bound ∧ (∀ n ∈ body, n.binds ⊆ bound) ∧ ∀ n, update = some n → n.binds ⊆ bound
  tolerates _ _ := trivial

variable {bound : List Binding} {s : Settings}

/-- The law allows all actions but those that bind other names. -/
theorem frameLaw_grants : (frameLaw bound).Grants s (frameAccess bound) where
  quiet hquiet _ := ⟨trivial, .of_eq hquiet.scope⟩
  fail _ _ := .refl _
  fetch _ := trivial
  function _ _ := trivial
  define h _ _ := ⟨trivial, .defineVar h _ _⟩
  defineFunc h _ _ := ⟨trivial, .defineFunc h _⟩
  full _ _ := .refl _

/-- A node that binds no other names needs no other access. -/
theorem frameAccess_covers {n : Node} (h : n.binds ⊆ bound) : (frameAccess bound).Covers n := by
  -- one case for each sort of node: its names are taken apart as `binds` puts them together
  cases n with
  | literal v => trivial
  | identifier name => trivial
  | comment text => trivial
  | declare name init =>
    obtain ⟨hname, hinit⟩ := List.cons_subset.mp h
    refine ⟨hname, hinit, ?_⟩
    -- The declaration of an associative array evaluates its parts itself.
    rintro keys vals rfl
    obtain ⟨hkeys, hvals⟩ := List.append_subset.mp hinit
    exact List.forall_mem_append.mpr ⟨Node.bindsAll_subset hkeys, Node.bindsAll_subset hvals⟩
  | assign name value => exact List.cons_subset.mp h
  | array elements => exact Node.bindsAll_subset h
  | assoc keys vals =>
    obtain ⟨hkeys, hvals⟩ := List.append_subset.mp h
    exact ⟨Node.bindsAll_subset hkeys, Node.bindsAll_subset hvals⟩
  | index collection position => exact List.append_subset.mp h
  | indexAssign name position value =>
    obtain ⟨hname, hparts⟩ := List.cons_subset.mp h
    exact ⟨hname, List.append_subset.mp hparts⟩
  | property object name =>
    obtain ⟨hstored, hobject⟩ := List.append_subset.mp h
    exact ⟨hobject, fun _ _ => Node.stored_subset hstored⟩
  | propertyCall object name =>
    obtain ⟨hstored, hobject⟩ := List.append_subset.mp h
    exact ⟨hobject, fun _ _ => Node.stored_subset hstored⟩
  | propertyWith object name arg =>
    obtain ⟨hstored, hparts⟩ := List.append_subset.mp h
    obtain ⟨hobject, harg⟩ := List.append_subset.mp hparts
    exact ⟨hobject, harg, fun _ _ => Node.stored_subset hstored⟩
  | filter collection item predicate =>
    obtain ⟨hitem, hparts⟩ := List.cons_subset.mp h
    obtain ⟨hcollection, hpredicate⟩ := List.append_subset.mp hparts
    exact ⟨hcollection, hitem, hpredicate⟩
  | binary left op right =>
    obtain ⟨hleft, hright⟩ := List.append_subset.mp h
    exact ⟨hleft, hright, fun _ _ _ _ => trivial⟩
  | unary op operand =>
    obtain ⟨hcounted, hoperand⟩ := List.append_subset.mp h
    refine ⟨hoperand, fun _ _ _ => trivial, ?_⟩
    rintro name rfl
    exact hcounted List.mem_cons_self
  | comparison left op right =>
    obtain ⟨hleft, hright⟩ := List.append_subset.mp h
    exact ⟨hleft, hright, fun _ _ _ _ => trivial⟩
  | chain operands ops => exact ⟨Node.bindsAll_subset h, fun _ _ _ _ => trivial⟩
  | function name params body => exact h List.mem_cons_self
  | call name args => exact Node.bindsAll_subset h
  | print vals => exact Node.bindsAll_subset h
  | fetch url => exact h
  | missing => trivial
  | foreign kind => trivial
  | ifThen test body => exact h
  | ifElse test body otherwise => exact h
  | forLoop start test update body => exact h
  | whileLoop test body => exact h
  | forEach collection item body => exact h
  | ret => exact h
  | retWith value => exact h

/-- A statement needs no other access than its bindings. -/
theorem frameAccess_coversEffect {n : Node} (h : n.binds ⊆ bound) :
    (frameAccess bound).CoversEffect n := by
  cases n with
  | ret => trivial
  | retWith value => exact h
  | ifThen test body =>
    obtain ⟨htest, hbody⟩ := List.append_subset.mp h
    exact ⟨htest, Node.bindsAll_subset hbody⟩
  | ifElse test body otherwise =>
    obtain ⟨htest, hbodies⟩ := List.append_subset.mp h
    obtain ⟨hbody, hotherwise⟩ := List.append_subset.mp hbodies
    exact ⟨htest, Node.bindsAll_subset hbody, Node.bindsAll_subset hotherwise⟩
  | whileLoop test body =>
    obtain ⟨htest, hbody⟩ := List.append_subset.mp h
    exact ⟨htest, Node.bindsAll_subset hbody, fun _ hn => absurd hn (by simp)⟩
  | forLoop start test update body =>
    obtain ⟨hstart, hparts⟩ := List.append_subset.mp h
    obtain ⟨htest, hparts⟩ := List.append_subset.mp hparts
    obtain ⟨hupdate, hbody⟩ := List.append_subset.mp hparts
    exact ⟨hstart, htest, Node.bindsAll_subset hbody, fun _ hn => Option.some.inj hn ▸ hupdate⟩
  | forEach collection item body =>
    obtain ⟨hitem, hparts⟩ := List.cons_subset.mp h
    obtain ⟨hcollection, hbody⟩ := List.append_subset.mp hparts
    exact ⟨hcollection, hitem, Node.bindsAll_subset hbody⟩
  | _ => exact h

/-! ## Calls

A call is the place where the induction needs more than the law. The body of a function binds names that its
caller does not, but in a frame that is left afterwards. So seen from the caller it keeps the scope as it
is, whatever names it binds. -/

/-- Evaluation changes no binding at all. -/
def stillLaw : Law where
  inv _ := True
  done m m' := m'.scope = m.scope
  failed m _ m' := m'.scope = m.scope
  refl _ := rfl
  trans h h' := h'.trans h
  after h h' := h'.trans h

/-- Nothing is bound where no names are allowed. -/
theorem stillLaw_grants : stillLaw.Grants s (frameAccess []) where
  quiet hquiet _ := ⟨trivial, hquiet.scope⟩
  fail _ _ := rfl
  fetch _ := trivial
  function _ _ := trivial
  define h := absurd h List.not_mem_nil
  defineFunc h := absurd h List.not_mem_nil
  full _ _ := rfl

/-- What the law says of an end, whether it is a value or a failure. -/
theorem Law.Holds.kept {α : Type} {out : Outcome α} {m m' : Machine}
    (h : (frameLaw bound).Holds m out) (hm' : out.machine? = some m') :
    Kept bound m.scope m'.scope := by
  obtain hdone | ⟨f, hfailed⟩ := h.ended hm'
  · exact hdone
  · exact hfailed

/-- An end under the law that nothing changes leaves the scope as it was. -/
theorem Law.Holds.still {α : Type} {out : Outcome α} {m m' : Machine} (h : stillLaw.Holds m out)
    (hm' : out.machine? = some m') : m'.scope = m.scope := by
  obtain hdone | ⟨f, hfailed⟩ := h.ended hm'
  · exact hdone
  · exact hfailed

/-- An action that keeps the frames below the innermost one changes nothing for its caller when it
runs in a frame of its own: that frame is all it could change. -/
theorem still_inFrame {α : Type} {x : Action α} (hx : Respects (frameLaw bound) s x) (frame : Frame) :
    Respects stillLaw s (inFrame frame x) := by
  refine respects_inFrame hx (fun _ _ => trivial) (fun m m' _ hkept => ?_) fun m f m' _ hkept => ?_
  · exact ⟨trivial, hkept.tail⟩
  · exact ⟨trivial, hkept.tail⟩

/-- What changes nothing keeps every name. -/
theorem keeps_of_still {α : Type} {x : Action α} (h : Respects stillLaw s x) :
    Respects (frameLaw bound) s x := by
  intro m _
  have hout := h m trivial
  cases hrun : x s m with
  | starved => trivial
  | done a m' =>
    rw [hrun] at hout
    exact ⟨trivial, .of_eq hout.2⟩
  | failed f m' =>
    rw [hrun] at hout
    exact ⟨trivial, .of_eq hout.2⟩

/-! ## All evaluations

By induction on the bound, for all sets of names at once. The bodies of functions are run by the parts, with
sets of their own. -/

/-- Evaluators that keep all names but those a node binds. -/
def Keeping (s : Settings) (e : Evaluators) : Prop :=
  ∀ bound, (∀ n : Node, n.binds ⊆ bound → Respects (frameLaw bound) s (e.eval n)) ∧
    (∀ n : Node, n.binds ⊆ bound → Respects (frameLaw bound) s (e.exec n)) ∧
    ∀ test body update, (frameAccess bound).loops test body update →
      Respects (frameLaw bound) s (e.loop test body update)

/-- The body of a function leaves the scope of its caller as it is. -/
theorem Keeping.still_body {e : Evaluators} (h : Keeping s e) (frame : Frame) (body : List Node) :
    Respects stillLaw s (inFrame frame (Eval.block e.exec .absent body)) := by
  -- Whatever the body binds is bound in its own frame, so no name is excluded here.
  have hbody : ∀ n ∈ body, Respects (frameLaw (Node.bindsAll body)) s (e.exec n) :=
    fun n hn => (h _).2.1 n (Node.bindsAll_subset (List.Subset.refl _) n hn)
  exact still_inFrame (respects_block hbody _) frame

/-- So what keeps all names is a law of the parts, with any set of names. -/
theorem Keeping.respect {e : Evaluators} (h : Keeping s e) :
    e.Respect (frameLaw bound) s (frameAccess bound) where
  eval hn := (h bound).1 _ hn
  exec hn := (h bound).2.1 _ hn
  loop hl := (h bound).2.2 _ _ _ hl
  frame {fn} _ _ := keeps_of_still (h.still_body _ fn.body)

/-- Counting a step binds nothing. -/
theorem keeps_tick : Respects (frameLaw bound) s tick :=
  respects_tick fun m _ => ⟨trivial, .refl m.scope, fun _ _ => .refl m.scope⟩

/-- Counting a step leaves the scope as it is. -/
theorem still_tick : Respects stillLaw s tick := respects_tick fun _ _ => ⟨trivial, rfl, fun _ _ => rfl⟩

/-- A law of the parts is one of the nodes that bind no names but those given. -/
theorem frameAccess_succ {L : Law} {fuel : Nat} (hL : L.Grants s (frameAccess bound))
    (htick : Respects L s tick) (he : (evaluators fuel).Respect L s (frameAccess bound)) :
    (∀ n : Node, n.binds ⊆ bound → Respects L s (eval (fuel + 1) n)) ∧
    (∀ n : Node, n.binds ⊆ bound → Respects L s (exec (fuel + 1) n)) ∧
    ∀ test body update, (frameAccess bound).loops test body update →
      Respects L s (loop (fuel + 1) test body update) := by
  refine ⟨fun n hn => ?_, fun n hn => ?_, fun test body update hl => ?_⟩
  · exact (value_built (frameAccess_covers hn)).respects hL he
  · refine respects_bind htick fun m _ m' _ hm' => ?_
    exact (effect_built (frameAccess_coversEffect hn)).respects hL he m' hm'
  · exact (turn_built ⟨hl.1, hl.2.1, hl.2.2, hl⟩).respects hL he

/-- Evaluation keeps all names but those that are bound, at every bound. -/
theorem keeping (fuel : Nat) : Keeping s (evaluators fuel) := by
  -- For all sets of names at once: bodies of functions bind other names than their callers.
  induction fuel with
  | zero =>
    intro bound
    exact ⟨fun _ _ _ _ => trivial, fun _ _ _ _ => trivial, fun _ _ _ _ _ _ => trivial⟩
  | succ fuel ih => exact fun bound => frameAccess_succ frameLaw_grants keeps_tick ih.respect

/-- What binds no names leaves the scope as it is: not even the order of its entries changes. -/
theorem still (fuel : Nat) : (evaluators fuel).Respect stillLaw s (frameAccess []) := by
  -- Bodies of functions may bind names, but in frames of their own.
  have hbody : ∀ fuel, ∀ {fn : Function}, (frameAccess []).knows fn → ∀ vars : Dict Value,
      Respects stillLaw s (inFrame { vars := vars } (Eval.block (exec fuel) .absent fn.body)) :=
    fun fuel fn _ _ => (keeping fuel).still_body _ fn.body
  induction fuel with
  | zero => exact ⟨fun _ _ _ => trivial, fun _ _ _ => trivial, fun _ _ _ => trivial, hbody 0⟩
  | succ fuel ih =>
    obtain ⟨heval, hexec, hloop⟩ := frameAccess_succ stillLaw_grants still_tick ih
    exact ⟨fun {n} => heval n, fun {n} => hexec n, fun {test body update} => hloop test body update,
      hbody (fuel + 1)⟩

/-- Running a statement keeps what it does not bind, however it ends. -/
theorem exec_keeps {fuel : Nat} {n : Node} {m m' : Machine}
    (h : (exec fuel n s m).machine? = some m') : Kept n.binds m.scope m'.scope := by
  have hexec : Respects (frameLaw n.binds) s (exec fuel n) :=
    (keeping fuel n.binds).2.1 n (List.Subset.refl _)
  exact (hexec m trivial).kept h

/-- Once the arguments of a call have their values, nothing that it does changes a binding. -/
theorem enter_still (fuel : Nat) (fn : Function) (vs : List Value) :
    Respects stillLaw s (Eval.enter (exec fuel) fn vs) := by
  -- The call itself binds nothing: only the body does, inside its frame.
  have hbuilt : Built (frameAccess []) Value fun e => Eval.enter e.exec fn vs := .enter trivial vs
  have hrespects := hbuilt.respects (s := s) stillLaw_grants (still fuel)
  exact hrespects

/-- A call changes no binding beyond what the evaluation of its arguments changes. -/
theorem call_scope {fuel : Nat} {name : Text} {args : List Node} {m m' : Machine}
    (h : (eval (fuel + 1) (.call name args) s m).machine? = some m') :
    (m.scope.lookupFunc? name = none ∧ m'.scope = m.scope) ∨
      ∃ m₁, (Eval.values (eval fuel) args s m).machine? = some m₁ ∧ m'.scope = m₁.scope := by
  have hcall : eval (fuel + 1) (.call name args) = function name >>= fun fn =>
      Eval.values (eval fuel) args >>= Eval.enter (exec fuel) fn := by
    rw [eval]
    rfl
  rw [hcall] at h
  -- The function is looked up first: without one not even the arguments are evaluated.
  cases hfn : m.scope.lookupFunc? name with
  | none =>
    rw [bind_of_failed (function_of_none hfn)] at h
    exact .inl ⟨rfl, (Option.some.inj h).symm ▸ rfl⟩
  | some fn =>
    rw [bind_of_done (function_of_some hfn)] at h
    obtain ⟨m₁, hvalues, rfl | ⟨vs, -, henter⟩⟩ := machine?_bind h
    · exact .inr ⟨m', hvalues, rfl⟩
    · exact .inr ⟨m₁, hvalues, (enter_still fuel fn vs m₁ trivial).still henter⟩

/-! ## Statements and their frames

The law, put in terms of a frame and its ancestors. -/

/-- However a statement ends, the ancestors of the innermost frame stay as they are, and so does every
variable and every function of that frame that the statement does not bind. A call in particular
leaves all frames as the evaluation of its arguments left them. -/
theorem frame_law (s : Settings) :
    (∀ (fuel : Nat) (n : Node) (m m' : Machine) (frame : Frame) (ancestors : List Frame),
      m.scope = frame :: ancestors → (exec fuel n s m).machine? = some m' →
      ∃ frame', m'.scope = frame' :: ancestors ∧
        (∀ x, .var x ∉ n.binds → frame'.vars.get? x = frame.vars.get? x) ∧
        ∀ g, .func g ∉ n.binds → frame'.funcs.get? g = frame.funcs.get? g) ∧
    ∀ (fuel : Nat) (name : Text) (args : List Node) (m m' : Machine),
      (eval (fuel + 1) (.call name args) s m).machine? = some m' →
      (m.scope.lookupFunc? name = none ∧ m'.scope = m.scope) ∨
        ∃ m₁, (Eval.values (eval fuel) args s m).machine? = some m₁ ∧ m'.scope = m₁.scope := by
  refine ⟨fun fuel n m m' frame ancestors hscope h => ?_, fun _ _ _ _ _ h => call_scope h⟩
  have hkept := exec_keeps h
  rw [hscope] at hkept
  obtain ⟨frame', rest, hm'⟩ := List.exists_cons_of_ne_nil (hkept.cons (List.cons_ne_nil _ _))
  rw [hm'] at hkept ⊢
  obtain rfl : rest = ancestors := hkept.tail
  exact ⟨frame', rfl, hkept.vars, hkept.funcs⟩

/-- A machine where `f` writes to `y`, and `y` is a variable of the frame that calls it. -/
def shadowing : Machine where
  scope := [{ vars := [("y", .int 1)], funcs := [("f", ⟨"f", [], [.assign "y" (.literal (.int 2))]⟩)] },
    { vars := [("x", .int 7)] }]

/-- `x = f()` keeps `y`, and also the `x` of the frame around. -/
theorem frame_law_shadowing : ∃ m' frame',
    (exec 6 (.assign "x" (.call "f" [])) {} shadowing).machine? = some m' ∧
    m'.scope = frame' :: shadowing.scope.tail ∧ frame'.vars.get? "y" = some (.int 1) ∧
    ∀ m'', (eval 4 (.call "f" []) {} shadowing).machine? = some m'' →
      m''.scope = shadowing.scope := by
  obtain ⟨m', hrun⟩ : ∃ m', (exec 6 (.assign "x" (.call "f" [])) {} shadowing).machine? = some m' :=
    ⟨_, rfl⟩
  obtain ⟨frame', hscope, hvars, _⟩ :=
    (frame_law {}).1 6 (.assign "x" (.call "f" [])) shadowing m' _ _ rfl hrun
  refine ⟨m', frame', hrun, hscope, (hvars "y" (by decide)).trans rfl, fun m'' hcall => ?_⟩
  obtain ⟨hnone, _⟩ | ⟨m₁, hargs, hsame⟩ := (frame_law {}).2 3 "f" [] shadowing m'' hcall
  · exact nomatch hnone
  · obtain rfl := Option.some.inj hargs
    exact hsame

end Mundart
