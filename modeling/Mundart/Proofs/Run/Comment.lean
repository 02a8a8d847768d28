import Mundart.Proofs.Run.Akin

/-!
# Comments

A comment is a statement: it is counted, and its value is absence. A program that leaves some of its
comments out does the same with fewer statements, as long as no comment is left out whose absence is
the result of a function. The value of a block is that of its last statement, so only a comment at the
end of a function's body matters, or at the end of a branch that ends one.

* **`Program.Uncommented`** — a program without some of its comments;
* **`exec_comment`** — a comment only counts;
* **`block_agrees`**, **`faithful`** — blocks, and so all evaluations, agree with those that leave
  comments out;
* **`runStatements_uncommented`** — so do whole runs, with their failures on record;
* **`runProgram_uncommented`** — a run and the run without the comments end together, with the same
  output, failures and variables;
* **`comment_observed`** — the two places where a comment is noticed.
-/

namespace Mundart

open Mundart.Action

/-! ## Programs without some of their comments

Comments may be left out of any block at any depth, so that the two programs are compared node by node. The
flag says whether the value of a block is seen: where it is, a comment at the end may not go. -/

/-- A statement without a value: wherever the next one follows it, its value is absence. -/
def Node.Silent (n : Node) : Prop :=
  ∀ fuel s m v m', exec fuel n s m = .done (.next v) m' → v = .absent

mutual

/-- The second node is the first one without some of the comments in its bodies. Whether anybody looks
at the value of the node is told apart, since branches hand on the value of their last statement. -/
inductive Node.Uncommented : (valued : Bool) → Node → Node → Prop where
  | same {valued : Bool} (n : Node) : Node.Uncommented valued n n
  | ifThen {valued : Bool} {test : Node} {body body' : Program}
      (hbody : Program.Uncommented valued body body') :
      Node.Uncommented valued (.ifThen test body) (.ifThen test body')
  | ifElse {valued : Bool} {test : Node} {body body' otherwise otherwise' : Program}
      (hbody : Program.Uncommented valued body body')
      (hotherwise : Program.Uncommented valued otherwise otherwise') :
      Node.Uncommented valued (.ifElse test body otherwise) (.ifElse test body' otherwise')
  | forLoop {valued : Bool} {start test update : Node} {body body' : Program}
      (hbody : Program.Uncommented false body body') :
      Node.Uncommented valued (.forLoop start test update body) (.forLoop start test update body')
  | whileLoop {valued : Bool} {test : Node} {body body' : Program}
      (hbody : Program.Uncommented false body body') :
      Node.Uncommented valued (.whileLoop test body) (.whileLoop test body')
  | forEach {valued : Bool} {collection : Node} {item : Text} {body body' : Program}
      (hbody : Program.Uncommented false body body') :
      Node.Uncommented valued (.forEach collection item body) (.forEach collection item body')
  | function {valued : Bool} {name : Text} {params : List Text} {body body' : Program}
      (hbody : Program.Uncommented true body body') :
      Node.Uncommented valued (.function name params body) (.function name params body')

/-- The second block is the first one without some of its comments. Where the value of the block
matters, its last comment stays, unless the statement before it has no value either. -/
inductive Program.Uncommented : (valued : Bool) → Program → Program → Prop where
  | nil {valued : Bool} : Program.Uncommented valued [] []
  | keep {valued : Bool} {n n' : Node} {ns ns' : Program}
      (hn : Node.Uncommented (valued && ns.isEmpty) n n') (hns : Program.Uncommented valued ns ns') :
      Program.Uncommented valued (n :: ns) (n' :: ns')
  | drop {valued : Bool} {text : Text} {ns ns' : Program} (hlast : valued = true → ns ≠ [])
      (hns : Program.Uncommented valued ns ns') : Program.Uncommented valued (.comment text :: ns) ns'
  | dropLast {text : Text} {n n' : Node} (hn : Node.Uncommented false n n') (hsilent : n'.Silent) :
      Program.Uncommented true [n, .comment text] [n']

end

/-- A program may keep all of its comments. -/
theorem Program.Uncommented.refl {valued : Bool} (p : Program) : Program.Uncommented valued p p := by
  induction p with
  | nil => exact .nil
  | cons n ns ih => exact .keep (.same n) ih

/-- A node is of the same kind without comments in it. -/
theorem Node.Uncommented.kind {valued : Bool} {n n' : Node} (h : n.Uncommented valued n') :
    n'.kind = n.kind := by
  cases h <;> rfl

/-! ## Blocks

By induction on how the comments are left out: a statement stays and does the same, or a comment goes that
would only have counted. At the end of a block it also decides about the value. -/

/-- How much larger the bound of the run with the comments is, if that is the one that must not be too
small: a comment takes two levels. -/
def lead (ahead : Bool) : Nat := if ahead then 2 else 0

variable {s : Settings} {ahead : Bool}

/-- Evaluation of a program and of the same program without some of its comments. -/
abbrev Uncommented {α β : Type} (s : Settings) (ahead : Bool) (R : α → β → Prop) (x : Action α)
    (y : Action β) : Prop := Agrees (Program.Uncommented true) s ahead R x y

/-- A comment only counts. Without a lead the bound may be too small even for that. -/
theorem exec_comment (ahead : Bool) (hfree : s.maxSteps ≤ 0) {m : Machine}
    (hm : m.interruption = none) (fuel : Nat) (text : Text) :
    (ahead = false ∧ exec (fuel + lead ahead) (.comment text) s m = .starved) ∨
      exec (fuel + lead ahead) (.comment text) s m =
        .done (.next .absent) { m with steps := m.steps + 1 } := by
  have htick : tick s m = .done () { m with steps := m.steps + 1 } := by
    rw [tick_within (.inl hfree), Machine.counted, hm]
  have hstatement : ∀ k, exec (k + 1) (.comment text) s m =
      (evaluators k).effect (.comment text) s { m with steps := m.steps + 1 } := by
    intro k
    show (tick >>= fun _ => Evaluators.effect _ _) s m = _
    rw [bind_of_done htick]
    rfl
  cases ahead with
  | true => exact .inr (hstatement (fuel + 1))
  | false =>
    -- Without the lead two bounds are too small: for the statement, and for what it does.
    rcases fuel with _ | _ | fuel
    · exact .inl ⟨rfl, rfl⟩
    · exact .inl ⟨rfl, hstatement 0⟩
    · exact .inr (hstatement (fuel + 1))

/-- A comment may be left out on the right. -/
theorem Agrees.skip {β : Type} {bodies : Program → Program → Prop} {R : Flow → β → Prop}
    (hfree : s.maxSteps ≤ 0) (fuel : Nat) (text : Text) {next : Flow → Action Flow} {y : Action β}
    (h : Agrees bodies s ahead R (next (.next .absent)) y) :
    Agrees bodies s ahead R (exec (fuel + lead ahead) (.comment text) >>= next) y := by
  intro m m' hm
  rcases exec_comment ahead hfree hm.running.1 fuel text with ⟨hahead, hcomment⟩ | hcomment
  · rw [bind_of_starved hcomment]
    exact .left hahead
  · rw [bind_of_done hcomment]
    obtain ⟨hscope, hrunning⟩ := hm
    exact h _ _ ⟨hscope, hrunning⟩

/-- Evaluations that agree with those of nodes without some of their comments. -/
structure Faithful (s : Settings) (ahead : Bool) (fuel : Nat) : Prop where
  eval : ∀ {n n' : Node}, n.Uncommented true n' →
    Uncommented s ahead Eq (eval (fuel + lead ahead) n) (eval fuel n')
  exec : ∀ {valued : Bool} {n n' : Node}, n.Uncommented valued n' →
    Uncommented s ahead (Flow.Akin valued) (exec (fuel + lead ahead) n) (exec fuel n')
  loop : ∀ {test : Node} {body body' : Program} {update : Option Node},
    Program.Uncommented false body body' →
    Uncommented s ahead Eq (loop (fuel + lead ahead) test body update) (loop fuel test body' update)

section

variable {fuel : Nat} (hfree : s.maxSteps ≤ 0) (ih : Faithful s ahead fuel)

include hfree ih

/-- A block agrees with the block without some of its comments. The value of the statement before
counts if there is no other. -/
theorem block_agrees {valued : Bool} (ns : Program) : ∀ {ns' : Program} {last last' : Value},
    Program.Uncommented valued ns ns' → (valued = true → ns = [] → last' = last) →
    Uncommented s ahead (Flow.Akin valued) (Eval.block (exec (fuel + lead ahead)) last ns)
      (Eval.block (exec fuel) last' ns') := by
  induction ns with
  | nil =>
    intro ns' last last' h hlast
    cases h with
    | nil => exact .pure (.next fun hvalued => hlast hvalued rfl)
  | cons n ns hrest =>
    intro ns' last last' h hlast
    cases h with
    | keep hn hns =>
      refine .bind (ih.exec hn) fun _ _ hflow => ?_
      cases hflow with
      | returned v => exact .pure (.returned v)
      | next hvalue =>
        refine hrest hns fun hvalued hnil => hvalue ?_
        rw [hvalued, hnil]
        rfl
    | drop hmore hns =>
      refine .skip hfree fuel _ ?_
      exact hrest hns fun hvalued hnil => absurd hnil (hmore hvalued)
    | dropLast hn hsilent =>
      -- The comment is worth as little as the statement before it.
      have hexec := (ih.exec hn).provided (P := fun flow => ∀ v, flow = .next v → v = .absent)
        fun m flow m' hrun v hflow => hsilent fuel s m v m' (hflow ▸ hrun)
      refine .bind hexec fun _ _ ⟨hflow, habsent⟩ => ?_
      cases hflow with
      | returned v => exact .pure (.returned v)
      | next _ =>
        refine .skip hfree fuel _ ?_
        exact .pure (.next fun _ => habsent _ rfl)

/-- The bodies of functions and branches agree from their start. -/
theorem body_agrees {valued : Bool} {body body' : Program}
    (h : Program.Uncommented valued body body') :
    Uncommented s ahead (Flow.Akin valued) (Eval.block (exec (fuel + lead ahead)) .absent body)
      (Eval.block (exec fuel) .absent body') :=
  block_agrees hfree ih body h fun _ _ => rfl

/-! ## All nodes

The nodes whose parts are blocks are treated one by one, with a flag for each block. In all others comments
change nothing, since they are built from the same parts. -/

/-- The values of nodes agree if one has fewer comments in its blocks. -/
theorem eval_agrees (hcalm : ∀ n url, (s.fetcher n url).cancels = false) {n n' : Node}
    (h : n.Uncommented true n') :
    Uncommented s ahead Eq ((evaluators (fuel + lead ahead)).value n)
      ((evaluators fuel).value n') := by
  have hexec : ∀ {n n' : Node}, n.Uncommented true n' →
      Uncommented s ahead Eq (exec (fuel + lead ahead) n) (exec fuel n') :=
    fun h => (ih.exec h).mono fun _ _ => Flow.Akin.eq
  cases h with
  -- No comment is left out of the node itself, but the functions that it calls may have lost some.
  | same n =>
    have hbody : ∀ body body', Program.Uncommented true body body' → Uncommented s ahead Eq
        (Eval.block (exec (fuel + lead ahead)) .absent body) (Eval.block (exec fuel) .absent body') :=
      fun _ _ hbody => (body_agrees hfree ih hbody).mono fun _ _ => Flow.Akin.eq
    exact value_agrees hcalm (fun n => ih.eval (.same n)) (fun n => hexec (.same n)) hbody
      Program.Uncommented.refl n
  | function hbody => exact .andThen (.defineFunc ⟨rfl, rfl, hbody⟩) fun _ => .pure rfl
  -- As expressions these statements have the value that they end with.
  | ifThen hbody => exact .andThen (hexec (.ifThen hbody)) fun flow => .pure rfl
  | ifElse hbody hotherwise => exact .andThen (hexec (.ifElse hbody hotherwise)) fun flow => .pure rfl
  | forLoop hbody => exact .andThen (hexec (.forLoop hbody)) fun flow => .pure rfl
  | whileLoop hbody => exact .andThen (hexec (.whileLoop hbody)) fun flow => .pure rfl
  | forEach hbody => exact .andThen (hexec (.forEach hbody)) fun flow => .pure rfl

/-- A branch agrees with itself without comments. -/
theorem ifThen_agrees {valued : Bool} (test : Node) {body body' : Program}
    (hbody : Program.Uncommented valued body body') :
    Uncommented s ahead (Flow.Akin valued) ((evaluators (fuel + lead ahead)).effect (.ifThen test body))
      ((evaluators fuel).effect (.ifThen test body')) := by
  refine .andThen (ih.eval (.same test)) fun v => ?_
  split
  · exact body_agrees hfree ih hbody
  · exact .pure (.next fun _ => rfl)

/-- A choice between two branches agrees with itself without comments in them. -/
theorem ifElse_agrees {valued : Bool} (test : Node) {body body' otherwise otherwise' : Program}
    (hbody : Program.Uncommented valued body body')
    (hotherwise : Program.Uncommented valued otherwise otherwise') :
    Uncommented s ahead (Flow.Akin valued)
      ((evaluators (fuel + lead ahead)).effect (.ifElse test body otherwise))
      ((evaluators fuel).effect (.ifElse test body' otherwise')) := by
  refine .andThen (ih.eval (.same test)) fun v => ?_
  cases v.truthy with
  | true => exact body_agrees hfree ih hbody
  | false => exact body_agrees hfree ih hotherwise

/-- A loop over items agrees with itself without comments, since its body has no value. -/
theorem forEach_agrees (collection : Node) (item : Text) {body body' : Program}
    (hbody : Program.Uncommented false body body') :
    Uncommented s ahead Eq ((evaluators (fuel + lead ahead)).effect (.forEach collection item body))
      ((evaluators fuel).effect (.forEach collection item body')) := by
  refine .andThen (ih.eval (.same collection)) fun v => ?_
  split
  · exact .forEach (body_agrees hfree ih hbody) item _
  · exact .fail _

omit hfree in
/-- A counting loop agrees with itself without comments, since its body has no value. -/
theorem forLoop_agrees (start test update : Node) {body body' : Program}
    (hbody : Program.Uncommented false body body') :
    Uncommented s ahead Eq
      ((evaluators (fuel + lead ahead)).effect (.forLoop start test update body))
      ((evaluators fuel).effect (.forLoop start test update body')) :=
  .andThen (ih.eval (.same start)) fun _ => ih.loop hbody

/-- What a statement does once it is counted. -/
theorem effect_agrees {valued : Bool} {n n' : Node} (h : n.Uncommented valued n') :
    Uncommented s ahead (Flow.Akin valued) ((evaluators (fuel + lead ahead)).effect n)
      ((evaluators fuel).effect n') := by
  have hequal : ∀ flow flow' : Flow, flow = flow' → Flow.Akin valued flow flow' := by
    rintro (v | v) _ rfl
    · exact .next fun _ => rfl
    · exact .returned v
  have hvalue : ∀ {n n' : Node}, n.Uncommented true n' → Uncommented s ahead (Flow.Akin valued)
      (do let v ← eval (fuel + lead ahead) n; pure (.next v))
      (do let v ← eval fuel n'; pure (.next v)) :=
    fun h => .andThen (ih.eval h) fun v => .pure (.next fun _ => rfl)
  cases h with
  | ifThen hbody => exact ifThen_agrees hfree ih _ hbody
  | ifElse hbody hotherwise => exact ifElse_agrees hfree ih _ hbody hotherwise
  | whileLoop hbody => exact (ih.loop hbody).mono hequal
  | forLoop hbody => exact (forLoop_agrees ih _ _ _ hbody).mono hequal
  | forEach hbody => exact (forEach_agrees hfree ih _ _ hbody).mono hequal
  | function hbody => exact hvalue (.function hbody)
  | same n =>
    cases n with
    | ret => exact .pure (.returned _)
    | retWith value => exact .andThen (ih.eval (.same value)) fun v => .pure (.returned v)
    | ifThen test body => exact ifThen_agrees hfree ih _ (.refl _)
    | ifElse test body otherwise => exact ifElse_agrees hfree ih _ (.refl _) (.refl _)
    | whileLoop test body => exact (ih.loop (.refl _)).mono hequal
    | forLoop start test update body => exact (forLoop_agrees ih _ _ _ (.refl _)).mono hequal
    | forEach collection item body => exact (forEach_agrees hfree ih _ _ (.refl _)).mono hequal
    -- Everything else is an expression.
    | _ => exact hvalue (.same _)

/-- A turn of a loop agrees with a turn of the loop without comments. -/
theorem turn_agrees (test : Node) {body body' : Program} (update : Option Node)
    (hbody : Program.Uncommented false body body') :
    Uncommented s ahead Eq ((evaluators (fuel + lead ahead)).turn test body update)
      ((evaluators fuel).turn test body' update) := by
  refine .andThen (ih.eval (.same test)) fun v => ?_
  split
  · refine .bind (body_agrees hfree ih hbody) fun _ _ hflow => ?_
    cases hflow with
    | returned v => exact .pure rfl
    | next _ =>
      -- Only a counting loop has an update.
      cases update with
      | none => exact ih.loop hbody
      | some node => exact .andThen (ih.eval (.same node)) fun _ => ih.loop hbody
  · exact .pure rfl

end

/-- All evaluations agree with those that leave comments out. -/
theorem faithful (ahead : Bool) (hfree : s.maxSteps ≤ 0)
    (hcalm : ∀ n url, (s.fetcher n url).cancels = false) (fuel : Nat) : Faithful s ahead fuel := by
  induction fuel with
  | zero =>
    -- The smaller bound of the two is nothing, and its run is the one that may end without an answer.
    have hstarved : ∀ {α β : Type} {R : α → β → Prop} {x : Nat → Action α},
        x 0 = starve → Uncommented s ahead R (x (0 + lead ahead)) starve := by
      intro α β R x hx m m' _
      cases ahead with
      | true => exact .right rfl
      | false =>
        rw [show (0 + lead false) = 0 from rfl, hx]
        exact .left rfl
    exact ⟨fun {n _} _ => hstarved (x := fun k => eval k n) rfl,
      fun {_ n _} _ => hstarved (x := fun k => exec k n) rfl,
      fun {test body _ update} _ => hstarved (x := fun k => loop k test body update) rfl⟩
  | succ fuel ih =>
    have hlead : fuel + 1 + lead ahead = fuel + lead ahead + 1 := Nat.add_right_comm _ _ _
    refine ⟨fun h => ?_, fun h => ?_, fun h => ?_⟩
    · rw [hlead]
      exact eval_agrees hfree ih hcalm h
    · rw [hlead]
      exact .andThen (.tick hfree) fun _ => effect_agrees hfree ih h
    · rw [hlead]
      exact turn_agrees hfree ih _ _ h

/-! ## Runs

A run records the failures of its statements and goes on. Both runs record the same, as a comment never
fails. -/

/-- Results that tell the same, whatever the last value was. -/
structure Result.Akin (r r' : Result) : Prop where
  failures : r'.failures = r.failures
  returned : r'.returned = r.returned
  stop : r'.stop = r.stop

/-- Two runs that end alike, as far as their bounds let them end. -/
inductive EndAlike (ahead : Bool) :
    Option (Result × Machine) → Option (Result × Machine) → Prop where
  | ended {r r' : Result} {m m' : Machine} (hr : r.Akin r')
      (hm : m.Akin (Program.Uncommented true) m') : EndAlike ahead (some (r, m)) (some (r', m'))
  | left {y : Option (Result × Machine)} (h : ahead = false) : EndAlike ahead none y
  | right {x : Option (Result × Machine)} (h : ahead = true) : EndAlike ahead x none

/-- Statements one after the other, from machines that are alike. By induction on how comments are left out.
-/
theorem runStatements_uncommented (ahead : Bool) (hfree : s.maxSteps ≤ 0)
    (hcalm : ∀ n url, (s.fetcher n url).cancels = false) (fuel : Nat) (ns : Program) :
    ∀ {ns' : Program} {r r' : Result} {m m' : Machine}, Program.Uncommented false ns ns' → r.Akin r' →
    m.Akin (Program.Uncommented true) m' →
    EndAlike ahead (runStatements (fuel + lead ahead) s ns r m) (runStatements fuel s ns' r' m') := by
  induction ns with
  | nil =>
    intro ns' r r' m m' h hr hm
    cases h with
    | nil => exact .ended hr hm
  | cons n ns ih =>
    intro ns' r r' m m' h hr hm
    cases h with
    -- A statement stays, perhaps with fewer comments inside it.
    | @keep _ _ n' _ _ hn hns =>
      have hout := (faithful ahead hfree hcalm fuel).exec hn m m' hm
      rw [runStatements, runStatements, hm.running.1, hm.running.2]
      dsimp only
      generalize exec (fuel + lead ahead) n s m = outx at hout
      generalize exec fuel n' s m' = outy at hout
      cases hout with
      | left hahead => exact .left hahead
      | right hahead => exact .right hahead
      | done hflow hm₁ =>
        cases hflow with
        | returned v => exact .ended ⟨hr.failures, rfl, hr.stop⟩ hm₁
        | next _ => exact ih hns ⟨hr.failures, hr.returned, hr.stop⟩ hm₁
      -- The failure is noted with the kind of the statement, which is the same.
      | @failed f m₁ m₁' hm₁ =>
        have hevents : Machine.Akin (Program.Uncommented true)
            { m₁ with events := .failed n.kind f :: m₁.events }
            { m₁' with events := .failed n'.kind f :: m₁'.events } := by
          rw [hn.kind]
          obtain ⟨hscope, hrunning⟩ := hm₁
          exact ⟨hscope, hrunning⟩
        have hfailures : f :: r'.failures = f :: r.failures := by rw [hr.failures]
        cases f with
        | interrupted cause => exact .ended ⟨hr.failures, hr.returned, rfl⟩ hm₁
        | stepLimit max => exact .ended ⟨hfailures, hr.returned, rfl⟩ hevents
        | _ => exact ih hns ⟨hfailures, hr.returned, hr.stop⟩ hevents
    -- A comment goes: it has counted a step and done nothing else.
    | drop _ hns =>
      rw [runStatements, hm.running.1]
      dsimp only
      rcases exec_comment ahead hfree hm.running.1 fuel _ with ⟨hahead, hcomment⟩ | hcomment
      · rw [hcomment]
        exact .left hahead
      · rw [hcomment]
        obtain ⟨hscope, hrunning⟩ := hm
        exact ih hns ⟨hr.failures, hr.returned, hr.stop⟩ ⟨hscope, hrunning⟩

/-- A run that was cancelled before it starts does nothing. -/
theorem runStatements_interrupted (fuel : Nat) (ns : Program) (r : Result) {m : Machine}
    {cause : Interruption} (hm : m.interruption = some cause) :
    ∃ stop, runStatements fuel s ns r m = some ({ r with stop := stop }, m) := by
  cases ns with
  | nil => exact ⟨r.stop, rfl⟩
  | cons n ns =>
    refine ⟨some (.cancelled cause), ?_⟩
    rw [runStatements, hm]

/-- Two runs with the same effect: what was printed, what failed, and the variables of all frames in the
end are the same. -/
structure SameEffect (r : Result) (m : Machine) (r' : Result) (m' : Machine) : Prop where
  output : r'.output = r.output
  diagnostics : r'.diagnostics = r.diagnostics
  vars : m'.scope.map Frame.vars = m.scope.map Frame.vars

/-- A run and the run without some of the comments, one of which may have a bound that is too small. -/
theorem runProgram_alike (hfree : s.maxSteps ≤ 0)
    (hcalm : ∀ n url, (s.fetcher n url).cancels = false) {p p' : Program}
    (h : Program.Uncommented false p p') (ahead : Bool) (fuel : Nat) (m : Machine) :
    (ahead = false ∧ runProgram (fuel + lead ahead) s p m = none) ∨
    (ahead = true ∧ runProgram fuel s p' m = none) ∨
    ∃ r r' m₁ m₂, runProgram (fuel + lead ahead) s p m = some (r, m₁) ∧
      runProgram fuel s p' m = some (r', m₂) ∧ SameEffect r m₁ r' m₂ := by
  unfold runProgram
  dsimp only
  cases hint : m.interruption with
  -- A run that was cancelled before it starts does nothing in either program.
  | some cause =>
    have hm : m.restart.interruption = some cause := hint
    obtain ⟨stop, hleft⟩ :=
      runStatements_interrupted (s := s) (fuel + lead ahead) p {} hm
    obtain ⟨stop', hright⟩ := runStatements_interrupted (s := s) fuel p' {} hm
    rw [hleft, hright]
    exact .inr (.inr ⟨_, _, _, _, rfl, rfl, rfl, rfl, rfl⟩)
  | none =>
    have hm : m.restart.Akin (Program.Uncommented true) m.restart := ⟨.refl .refl _, hint⟩
    have hruns := runStatements_uncommented ahead hfree hcalm fuel p h
      (r := {}) ⟨rfl, rfl, rfl⟩ hm
    generalize runStatements (fuel + lead ahead) s p {} m.restart = x at hruns
    generalize runStatements fuel s p' {} m.restart = y at hruns
    cases hruns with
    | left hahead => exact .inl ⟨hahead, rfl⟩
    | right hahead => exact .inr (.inl ⟨hahead, rfl⟩)
    | ended hr hm₁ =>
      obtain ⟨hscope, -⟩ := hm₁
      refine .inr (.inr ⟨_, _, _, _, rfl, rfl, rfl, ?_, hscope.vars⟩)
      -- The failures are noted from the last one on.
      show List.map Failure.message (List.reverse _) = List.map Failure.message (List.reverse _)
      rw [hr.failures]

/-- Comments do nothing, as far as nobody looks at the absence that they are worth. A program without
some of its comments ends exactly if the program itself does, and then prints the same, reports the
same and leaves the same variables. -/
theorem runProgram_uncommented {s : Settings} (hfree : s.maxSteps ≤ 0)
    (hcalm : ∀ n url, (s.fetcher n url).cancels = false) {p p' : Program}
    (h : Program.Uncommented false p p') (m : Machine) :
    ((∃ fuel r m₁, runProgram fuel s p m = some (r, m₁)) ↔
      ∃ fuel r m₁, runProgram fuel s p' m = some (r, m₁)) ∧
    ∀ fuel fuel' r r' m₁ m₂, runProgram fuel s p m = some (r, m₁) →
      runProgram fuel' s p' m = some (r', m₂) →
      r'.output = r.output ∧ r'.diagnostics = r.diagnostics ∧
        m₂.scope.map Frame.vars = m₁.scope.map Frame.vars := by
  refine ⟨⟨?_, ?_⟩, ?_⟩
  · rintro ⟨fuel, r, m₁, hrun⟩
    rcases runProgram_alike hfree hcalm h false fuel m with ⟨-, hnone⟩ | ⟨hahead, -⟩ |
      ⟨_, r', _, m₂, -, hright, -⟩
    · exact absurd (hrun.symm.trans hnone) (by simp)
    · exact nomatch hahead
    · exact ⟨fuel, r', m₂, hright⟩
  · rintro ⟨fuel, r', m₂, hrun⟩
    rcases runProgram_alike hfree hcalm h true fuel m with ⟨hahead, -⟩ | ⟨-, hnone⟩ |
      ⟨r, _, m₁, _, hleft, -, -⟩
    · exact nomatch hahead
    · exact absurd (hrun.symm.trans hnone) (by simp)
    · exact ⟨fuel + 2, r, m₁, hleft⟩
  · intro fuel fuel' r r' m₁ m₂ hleft hright
    -- Both runs have the same answers with the larger of the two bounds.
    have hleft := runProgram_extends (le_max_left fuel fuel') hleft
    have hright := runProgram_extends (le_max_right fuel fuel') hright
    rcases runProgram_alike hfree hcalm h false (max fuel fuel') m with ⟨-, hnone⟩ | ⟨hahead, -⟩ |
      ⟨_, _, _, _, hx, hy, hsame⟩
    · exact absurd (hleft.symm.trans hnone) (by simp)
    · exact nomatch hahead
    · obtain ⟨rfl, rfl⟩ := Prod.mk.inj (Option.some.inj (hleft.symm.trans hx))
      obtain ⟨rfl, rfl⟩ := Prod.mk.inj (Option.some.inj (hright.symm.trans hy))
      exact ⟨hsame.output, hsame.diagnostics, hsame.vars⟩

/-- Printing has no value. -/
theorem Node.silent_print (vals : List Node) : (Node.print vals).Silent := by
  intro fuel s m v m' h
  -- Two bounds are too small to print anything.
  match fuel with
  | 0 => exact nomatch h
  | 1 =>
    obtain ⟨_, _, -, h⟩ := bind_eq_done (x := tick) h
    exact nomatch h
  | fuel + 2 =>
    obtain ⟨_, _, -, h⟩ := bind_eq_done (x := tick) h
    obtain ⟨w, _, hprint, hpure⟩ := bind_eq_done (x := eval (fuel + 1) (.print vals)) h
    obtain ⟨_, _, -, hprint⟩ := bind_eq_done (x := Eval.values (eval fuel) vals) hprint
    obtain ⟨_, _, -, hprint⟩ := bind_eq_done (x := Action.print _) hprint
    cases hprint
    cases hpure
    rfl

/-- `heast i = 0; geh weida (i klana 2) { i plusplus; kommentar "a" }`, a function that prints between
two comments, a call of it and an unknown name: without the three comments the same is printed, told
and bound. -/
theorem runProgram_uncommented_counting :
    let test : Node := .comparison (.identifier "i") "klana" (.literal (.int 2))
    let count : Node := .unary "plusplus" (.identifier "i")
    let program (body fbody : Program) : Program := [.declare "i" (.literal (.int 0)),
      .whileLoop test body, .function "f" [] fbody, .call "f" [], .identifier "z"]
    let p := program [count, .comment "a"] [.comment "b", .print [.identifier "i"], .comment "c"]
    let p' := program [count] [.print [.identifier "i"]]
    Program.parse ("heast i = 0; geh weida (i klana 2) \x7b i plusplus; kommentar \"a\" \x7d " ++
      "hawara f() \x7b kommentar \"b\"; oida.sag(i); kommentar \"c\" \x7d f(); z") = .ok p ∧
    ∃ r m₁ r' m₂, runProgram 12 {} p {} = some (r, m₁) ∧ runProgram 12 {} p' {} = some (r', m₂) ∧
      r'.output = "2\n" ∧ r'.output = r.output ∧
      r'.diagnostics = [(Failure.unknownVariable "z").message] ∧ r'.diagnostics = r.diagnostics ∧
      m₂.scope.map Frame.vars = m₁.scope.map Frame.vars := by
  intro test count program p p'
  -- The comment in the loop ends its block: there it may go, since a loop does not ask for the value.
  have hbody : Program.Uncommented false [count, .comment "a"] [count] :=
    .keep (.same count) (.drop nofun .nil)
  -- The one that ends the function may go behind a statement without a value.
  have hfunction : Program.Uncommented true [.comment "b", .print [.identifier "i"], .comment "c"]
      [.print [.identifier "i"]] :=
    .drop (fun _ => by simp) (.dropLast (.same _) (Node.silent_print _))
  have h : Program.Uncommented false p p' :=
    .keep (.same _) (.keep (.whileLoop hbody) (.keep (.function hfunction) (.refl _)))
  have hended : (runProgram 12 {} p' {}).map (fun x => (x.1.output, x.1.diagnostics)) =
      some (("2\n" : Text), [(Failure.unknownVariable "z").message]) := by
    decide +kernel
  obtain ⟨⟨r', m₂⟩, hright, hshown⟩ := Option.map_eq_some_iff.mp hended
  obtain ⟨houtput, hdiagnostics⟩ := Prod.mk.inj hshown
  obtain ⟨⟨r, m₁⟩, hleft⟩ : ∃ x, runProgram 12 {} p {} = some x :=
    Option.isSome_iff_exists.mp (by decide +kernel)
  obtain ⟨-, hsame⟩ := runProgram_uncommented (s := {}) (Int.le_refl 0) (fun _ _ => rfl) h {}
  obtain ⟨hout, hdiags, hbound⟩ := hsame 12 12 r r' m₁ m₂ hleft hright
  exact ⟨rfl, r, m₁, r', m₂, hleft, hright, houtput, hout, hdiagnostics, hdiags, hbound⟩

/-- A comment is noticed in two places. At the end of a function its absence is the value of the call,
where the statement before it has another one. And after a fetch during which the run was cancelled it
is the next statement, at which the run stops: without it the loop still counts up. -/
theorem comment_observed :
    (∃ r m r' m',
      Session.eval 6 {} "hawara f() \x7b 5; kommentar \"a\" \x7d oida.sag(f())" {} = some (.ok r, m) ∧
      Session.eval 6 {} "hawara f() \x7b 5 \x7d oida.sag(f())" {} = some (.ok r', m') ∧
      r.output = "\n" ∧ r'.output = "5\n") ∧
    let s : Settings := { fetcher := fun _ _ => { result := .ok .absent, cancels := true } }
    let loop : Text := "aufi (heast i = 0; i klana 1; i plusplus) "
    ∃ r m r' m',
      Session.eval 9 s (loop ++ "\x7b holma(\"u\"); kommentar \"a\" \x7d") {} = some (.ok r, m) ∧
      Session.eval 9 s (loop ++ "\x7b holma(\"u\") \x7d") {} = some (.ok r', m') ∧
      m.scope.lookupVar? "i" = some (.int 0) ∧ m'.scope.lookupVar? "i" = some (.int 1) :=
  ⟨⟨_, _, _, _, rfl, rfl, rfl, rfl⟩, ⟨_, _, _, _, rfl, rfl, rfl, rfl⟩⟩

end Mundart
