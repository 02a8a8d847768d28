import Mundart.Proofs.Grammar.Form
import Mundart.Proofs.Run.StoreBack

/-!
# What a filter selects

A filter binds its item's name in the scope around it to one element after the other and evaluates its
predicate there. A predicate that neither counts nor stores nor filters binds nothing itself, so every element
is judged in the scope of the filter with nothing but the item's name added.

* **`binds_of_formed`** — which expressions bind no names;
* **`eval_still`** — what binds no names leaves the scope exactly as it is;
* **`filter_selects`** — the elements that are kept, and what the variables hold afterwards.
-/

namespace Mundart

open Mundart.Action

/-! ## Expressions that bind nothing

What may stand as the predicate of a filter may bind names, though few expressions do. One that binds none
leaves the scope as it is. -/

namespace Node

/-- The nodes right below a node. -/
def parts : Node → List Node
  | .literal _ | .identifier _ | .comment _ | .ret | .missing | .foreign _ => []
  | .declare _ value | .assign _ value | .retWith value | .fetch value => [value]
  | .array elements => elements
  | .assoc keys values => keys ++ values
  | .index collection position => [collection, position]
  | .indexAssign _ position value => [position, value]
  | .property object _ | .propertyCall object _ => [object]
  | .propertyWith object _ arg => [object, arg]
  | .binary left _ right | .comparison left _ right => [left, right]
  | .unary _ operand => [operand]
  | .chain operands _ => operands
  | .ifThen test body | .whileLoop test body => test :: body
  | .ifElse test body otherwise => test :: (body ++ otherwise)
  | .forLoop start test update body => start :: test :: update :: body
  | .forEach collection _ body => collection :: body
  | .filter collection _ predicate => [collection, predicate]
  | .function _ _ body => body
  | .call _ args => args
  | .print values => values

/-- A node is another one or stands somewhere in it. -/
inductive Within : Node → Node → Prop
  | self (n : Node) : Within n n
  | part {n part whole : Node} (hpart : part ∈ whole.parts) (h : Within n part) : Within n whole

/-- The expressions that bind a name: counting, filters, and methods that store their result back. -/
def rebinds : Node → Bool
  | .unary _ _ | .filter _ _ _ => true
  | .property _ name | .propertyCall _ name | .propertyWith _ name _ =>
    (Method.ofName? name).any Method.storesBack
  | _ => false

/-- A method that stores nothing back binds nothing. -/
theorem stored_eq_nil {object : Node} {name : Text}
    (h : (Method.ofName? name).any Method.storesBack = false) : stored object name = [] := by
  unfold stored
  split
  · next target method hmethod =>
    rw [hmethod, Option.any_some] at h
    rw [h]
    rfl
  · rfl

/-- Nodes bind nothing together if none of them binds anything. -/
theorem bindsAll_eq_nil {ns : List Node} (h : ∀ n ∈ ns, n.binds = []) : bindsAll ns = [] := by
  induction ns with
  | nil => rfl
  | cons n ns ih =>
    obtain ⟨hn, hns⟩ := List.forall_mem_cons.mp h
    rw [bindsAll, hn, ih hns]
    rfl

open Grammar in
/-- An expression without counting, methods that store back and filters binds no names. -/
theorem binds_of_formed {number : Value → Prop} {place : Place} {n : Node} (h : Formed number place n)
    (hplace : place ∉ [.start, .update, .statement]) (hfree : ∀ k, Within k n → k.rebinds = false) :
    n.binds = [] := by
  have hpart : ∀ {whole : Node}, (∀ k, Within k whole → k.rebinds = false) →
      ∀ part ∈ whole.parts, ∀ k, Within k part → k.rebinds = false :=
    fun hwhole part hpart k hk => hwhole k (.part hpart hk)
  induction h with
  | name | number | string | truth => rfl
  | index _ _ ihc ihp =>
    have hc := ihc (by decide) (hpart hfree _ (by simp [parts]))
    have hp := ihp (by decide) (hpart hfree _ (by simp [parts]))
    rw [binds, hc, hp, List.append_nil]
  | array _ ih =>
    exact bindsAll_eq_nil fun n hn => ih n hn (by decide) (hpart hfree n hn)
  | assoc _ _ ihk ihv =>
    have hk := bindsAll_eq_nil fun n hn =>
      ihk n hn (by decide) (hpart hfree n (List.mem_append_left _ hn))
    have hv := bindsAll_eq_nil fun n hn =>
      ihv n hn (by decide) (hpart hfree n (List.mem_append_right _ hn))
    rw [binds, hk, hv, List.append_nil]
  | property _ _ _ ih =>
    have ho := ih (by decide) (hpart hfree _ (by simp [parts]))
    rw [binds, stored_eq_nil (hfree _ (.self _)), ho, List.append_nil]
  | propertyCall _ _ _ ih =>
    have ho := ih (by decide) (hpart hfree _ (by simp [parts]))
    rw [binds, stored_eq_nil (hfree _ (.self _)), ho, List.append_nil]
  | propertyWith _ _ _ _ iho iha =>
    have ho := iho (by decide) (hpart hfree _ (by simp [parts]))
    have ha := iha (by decide) (hpart hfree _ (by simp [parts]))
    rw [binds, stored_eq_nil (hfree _ (.self _)), ho, ha]
    rfl
  | fetch _ ih => exact ih (by decide) (hpart hfree _ (by simp [parts]))
  | call _ _ ih => exact bindsAll_eq_nil fun n hn => ih n hn (by decide) (hpart hfree n hn)
  | binary _ _ _ _ ihl ihr =>
    have hl := ihl (by decide) (hpart hfree _ (by simp [parts]))
    have hr := ihr (by decide) (hpart hfree _ (by simp [parts]))
    rw [binds, hl, hr, List.append_nil]
  | comparison _ _ _ ihl ihr =>
    have hl := ihl (by decide) (hpart hfree _ (by simp [parts]))
    have hr := ihr (by decide) (hpart hfree _ (by simp [parts]))
    rw [binds, hl, hr, List.append_nil]
  | chain _ _ _ _ ih => exact bindsAll_eq_nil fun n hn => ih n hn (by decide) (hpart hfree n hn)
  -- Counting and filters bind names.
  | unary | filter => exact Bool.noConfusion (hfree _ (.self _))
  | ofTarget _ ih | ofPrimary _ ih | ofOperand _ ih | ofComparison _ ih => exact ih (by decide) hfree
  -- Everything else is no expression.
  | _ => exact absurd (by decide) hplace

end Node

/-! ## Scopes that stay

A filter binds its item for each element and evaluates its predicate there. The item is bound in the frame
that is there already. -/

variable {s : Settings}

/-- What binds nothing is evaluated in the scope and leaves it. -/
theorem eval_still {fuel : Nat} {n : Node} (hn : n.binds = []) {m m' : Machine} {v : Value}
    (h : eval fuel n s m = .done v m') : m'.scope = m.scope := by
  have hnone : n.binds ⊆ [] := List.subset_nil.mpr hn
  have heval : Respects stillLaw s (eval fuel n) := (still fuel).eval hnone
  have hout := heval m trivial
  rw [h] at hout
  exact hout.still rfl

/-! ## Judging one element after the other

The verdicts are a list beside the elements. Each is the value of the predicate in a scope that differs in
the item only. -/

/-- The elements that verdicts are in favour of, in the same order. -/
def chosen {α : Type} (verdicts : List Bool) (xs : List α) : List α :=
  ((xs.zip verdicts).filter Prod.snd).map Prod.fst

/-- The part of a collection that verdicts are in favour of, for an associative array with its keys. -/
inductive Value.Chosen (verdicts : List Bool) : Value → Value → Prop
  | array (items : List Value) : Chosen verdicts (.array items) (.array (chosen verdicts items))
  | assoc (entries : Dict Value) : Chosen verdicts (.assoc entries) (.assoc (chosen verdicts entries))

/-- Verdicts on elements from left to right: each one is the truth of a predicate in the same scope with the
item's name bound to the element. What the predicates print, fetch and draw adds up. -/
inductive Judged (fuel : Nat) (s : Settings) (scope : Scope) (item : Text) (predicate : Node) :
    Machine → List Value → List Bool → Machine → Prop
  | nil (m : Machine) : Judged fuel s scope item predicate m [] [] m
  | cons {m m₁ m' : Machine} {element v : Value} {elements : List Value} {verdicts : List Bool}
      (heval : eval fuel predicate s { m with scope := scope.defineVar item element } = .done v m₁)
      (hrest : Judged fuel s scope item predicate m₁ elements verdicts m') :
      Judged fuel s scope item predicate m (element :: elements) (v.truthy :: verdicts) m'

variable {fuel : Nat} {scope : Scope} {item : Text} {predicate : Node} {m m' : Machine}

/-- Every element has a verdict. -/
theorem Judged.length_eq {elements : List Value} {verdicts : List Bool}
    (h : Judged fuel s scope item predicate m elements verdicts m') : verdicts.length = elements.length := by
  induction h with
  | nil => rfl
  | cons _ _ ih => rw [List.length_cons, List.length_cons, ih]

/-- Of two bindings of a name the later one stays. -/
theorem Scope.defineVar_defineVar (scope : Scope) (name : Text) (v w : Value) :
    (scope.defineVar name v).defineVar name w = scope.defineVar name w := by
  cases scope with
  | nil => simp [defineVar, onTop, Dict.set_set]
  | cons frame frames => simp [defineVar, onTop, Dict.set_set]

/-- The scope differs from the one at the start of a filter at most in what the item's name is bound to. -/
theorem select_done (hpredicate : predicate.binds = []) {α : Type} {element : α → Value} {xs kept : List α}
    (hscope : ∀ v, m.scope.defineVar item v = scope.defineVar item v)
    (h : Eval.select (eval fuel) item predicate element xs s m = .done kept m') :
    ∃ verdicts, Judged fuel s scope item predicate m (xs.map element) verdicts m' ∧
      kept = chosen verdicts xs ∧
      m'.scope = ((xs.map element).getLast?).elim m.scope fun v => scope.defineVar item v := by
  induction xs generalizing m kept with
  | nil =>
    obtain ⟨rfl, rfl⟩ := Outcome.done.inj h
    exact ⟨[], .nil _, rfl, rfl⟩
  | cons x xs ih =>
    obtain ⟨_, m₀, hdefine, hafterDefine⟩ := bind_eq_done h
    obtain ⟨v, m₁, hverdict, hafterEval⟩ := bind_eq_done hafterDefine
    obtain ⟨rest, m₂, hrest, hkept⟩ := bind_eq_done hafterEval
    obtain ⟨rfl, rfl⟩ := Outcome.done.inj hkept
    -- The element is bound in the scope of the start, since only this name was bound since.
    have hdefined : m₀ = { m with scope := scope.defineVar item (element x) } := by
      rw [← (Outcome.done.inj hdefine).2, ← hscope]
    have heval : eval fuel predicate s { m with scope := scope.defineVar item (element x) } = .done v m₁ := by
      rw [← hdefined]
      exact hverdict
    -- The predicate leaves the scope as it found it.
    have hstill : m₁.scope = scope.defineVar item (element x) := eval_still hpredicate heval
    have hsame : ∀ v, m₁.scope.defineVar item v = scope.defineVar item v := by
      intro v
      rw [hstill, Scope.defineVar_defineVar]
    obtain ⟨verdicts, hjudged, rfl, hend⟩ := ih hsame hrest
    refine ⟨v.truthy :: verdicts, .cons heval hjudged, ?_, ?_⟩
    · cases hv : v.truthy with
      | true => simp [chosen]
      | false => simp [chosen]
    · rw [hend, hstill]
      -- The last element is the one that stays bound.
      cases xs with
      | nil => rfl
      | cons y ys => rw [List.map_cons, List.map_cons, List.map_cons, List.getLast?_cons_cons]; rfl

/-! ## Filters

For a list the elements are judged as they stand; for an associative array its values are, and their keys
are kept with them. -/

/-- A filter over a variable judges the elements of its value in the scope around it. -/
theorem filter_done (hpredicate : predicate.binds = []) {x : Text} {coll v : Value}
    (hcoll : m.scope.lookupVar? x = some coll)
    (h : eval (fuel + 1) (.filter (.identifier x) item predicate) s m = .done v m') :
    ∃ elements verdicts, coll.elements? = some elements ∧
      Judged fuel s m.scope item predicate m elements verdicts m' ∧ Value.Chosen verdicts coll v ∧
      m'.scope = elements.getLast?.elim m.scope fun w => m.scope.defineVar item w := by
  rw [eval] at h
  obtain ⟨w, m₁, hread, hselect⟩ := bind_eq_done h
  obtain ⟨rfl, rfl⟩ := identifier_of_some hcoll hread
  cases w with
  | array items =>
    obtain ⟨items', m₂, hitems, hafterItems⟩ := bind_eq_done hselect
    obtain ⟨rfl, rfl⟩ := Outcome.done.inj hitems
    obtain ⟨kept, m₃, hkept, hdone⟩ := bind_eq_done hafterItems
    obtain ⟨rfl, rfl⟩ := Outcome.done.inj hdone
    obtain ⟨verdicts, hjudged, rfl, hscope⟩ := select_done hpredicate (fun _ => rfl) hkept
    rw [List.map_id] at hjudged hscope
    exact ⟨items, verdicts, rfl, hjudged, .array items, hscope⟩
  | assoc entries =>
    obtain ⟨entries', m₂, hentries, hafterEntries⟩ := bind_eq_done hselect
    obtain ⟨rfl, rfl⟩ := Outcome.done.inj hentries
    obtain ⟨kept, m₃, hkept, hdone⟩ := bind_eq_done hafterEntries
    obtain ⟨rfl, rfl⟩ := Outcome.done.inj hdone
    obtain ⟨verdicts, hjudged, rfl, hscope⟩ := select_done hpredicate (fun _ => rfl) hkept
    exact ⟨_, verdicts, rfl, hjudged, .assoc entries, hscope⟩
  -- Nothing else can be filtered.
  | _ => cases hselect

open Grammar in
/-- A filter over a variable keeps exactly the elements, in their order and with their keys, for which its
predicate is true with the item's name bound to the element and everything else as it was. Afterwards the
item's name is bound to the last element, and every other name, that of the variable among them, to what it
was bound to before. -/
theorem filter_selects {number : Value → Prop} (fuel : Nat) (s : Settings) (m m' : Machine) (x item : Text)
    (predicate : Node) (coll v : Value) (hformed : Formed number .expression predicate)
    (hfree : ∀ n, Node.Within n predicate → n.rebinds = false) (hcoll : m.scope.lookupVar? x = some coll)
    (h : eval (fuel + 1) (.filter (.identifier x) item predicate) s m = .done v m') :
    ∃ elements verdicts, coll.elements? = some elements ∧ verdicts.length = elements.length ∧
      Judged fuel s m.scope item predicate m elements verdicts m' ∧ Value.Chosen verdicts coll v ∧
      m'.scope = elements.getLast?.elim m.scope (fun w => m.scope.defineVar item w) ∧
      m'.scope.lookupVar? x = (if item = x then elements.getLast?.or (some coll) else some coll) ∧
      ∀ y ≠ item, m'.scope.lookupVar? y = m.scope.lookupVar? y := by
  have hpredicate : predicate.binds = [] := Node.binds_of_formed hformed (by decide) hfree
  obtain ⟨elements, verdicts, helements, hjudged, hchosen, hscope⟩ := filter_done hpredicate hcoll h
  -- Only the name of the item is ever written to.
  have hother : ∀ y ≠ item, m'.scope.lookupVar? y = m.scope.lookupVar? y := by
    intro y hy
    rw [hscope]
    cases elements.getLast? with
    | none => rfl
    | some w =>
      have hkept : Kept [.var item] m.scope (m.scope.defineVar item w) := .defineVar List.mem_cons_self _ w
      exact hkept.lookupVar? (by simpa using hy)
  refine ⟨elements, verdicts, helements, hjudged.length_eq, hjudged, hchosen, hscope, ?_, hother⟩
  -- The item may be named like the variable, which is then bound to the last element.
  split
  · next hitem =>
    rw [hscope, hitem]
    cases elements.getLast? with
    | none => exact hcoll
    | some w => exact lookupVar?_defineVar m.scope x w
  · next hitem => rw [hother x (Ne.symm hitem), hcoll]

/-- A machine where `big` reads `n`, whatever that is where it is called. -/
def reading : Machine where
  scope := [{ vars := [("x", .array [.int 1, .int 2]), ("n", .int 7)], funcs := [("big",
    ⟨"big", [], [.retWith (.comparison (.identifier "n") "größer" (.literal (.int 1)))]⟩)] }]

/-- `x.nimmAusse(n => { big() })`: the function that the predicate calls sees each element as `n`. -/
theorem filter_selects_called : ∃ m' verdicts,
    eval 9 (.filter (.identifier "x") "n" (.call "big" [])) {} reading = .done (.array [.int 2]) m' ∧
    Value.Chosen verdicts (.array [.int 1, .int 2]) (.array [.int 2]) ∧
    m'.scope.lookupVar? "x" = some (.array [.int 1, .int 2]) ∧ m'.scope.lookupVar? "n" = some (.int 2) := by
  obtain ⟨m', hrun⟩ : ∃ m', eval 9 (.filter (.identifier "x") "n" (.call "big" [])) {} reading =
      .done (.array [.int 2]) m' := ⟨_, rfl⟩
  have hname : Token.Kind.identifier.Carries "big" := ⟨"big", by decide +kernel⟩
  -- The predicate is one that can be read, and nothing in it rebinds.
  have hformed : Grammar.Formed (fun _ => True) .expression (.call "big" []) :=
    .ofComparison (.ofOperand (.ofPrimary (.call hname (by simp))))
  have hfree : ∀ n, Node.Within n (.call "big" []) → n.rebinds = false := by
    intro n hn
    cases hn with
    | self => rfl
    | part hpart => exact absurd hpart List.not_mem_nil
  obtain ⟨elements, verdicts, helements, -, -, hchosen, hscope, hx, -⟩ := filter_selects 8 {} reading m' "x" "n"
    (.call "big" []) (.array [.int 1, .int 2]) (.array [.int 2]) hformed hfree rfl hrun
  obtain rfl := Option.some.inj helements
  refine ⟨m', verdicts, hrun, hchosen, hx, ?_⟩
  rw [hscope]
  rfl

/-- `x.nimmAusse(x => { x })`: the item has the name of the variable, which is a number afterwards. -/
theorem filter_rebinds : ∃ predicate m',
    Grammar.Formed (fun _ => True) .expression predicate ∧
    (∀ n, Node.Within n predicate → n.rebinds = false) ∧
    reading.scope.lookupVar? "x" = some (.array [.int 1, .int 2]) ∧
    eval 3 (.filter (.identifier "x") "x" predicate) {} reading = .done (.array [.int 1, .int 2]) m' ∧
    m'.scope.lookupVar? "x" = some (.int 2) := by
  have hname : Token.Kind.identifier.Carries "x" := ⟨"x", by decide +kernel⟩
  refine ⟨.identifier "x", _, .ofComparison (.ofOperand (.ofPrimary (.ofTarget (.name hname)))), ?_, rfl, rfl,
    rfl⟩
  intro n hn
  cases hn with
  | self => rfl
  | part hpart => exact absurd hpart List.not_mem_nil

end Mundart
