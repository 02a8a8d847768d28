import Mundart.Proofs.Run.Frame
import Mundart.Proofs.Run.ReadBack
import Mundart.Proofs.Scope.Snapshot

/-!
# Storing back

An assignment to a place of a collection, and a method that changes its receiver, read a variable, change what
they read and store it back. They read first: what is changed is the value from before the index and the new
value were evaluated, and whatever these stored in the variable is overwritten.

* **`Written`** — a collection with one place written;
* **`indexAssign_done`**, **`push_done`** — what is read, evaluated and stored, in this order;
* **`store_back`** — both, with the variable as the evaluations leave it if they do not bind it.
-/

namespace Mundart

open Mundart.Action

/-! ## One place

Writing an item and reading it in the same place. Every other place is read as before, and what cannot be
written leaves the collection as it is. -/

/-- A collection with a value written to one place: an element of a list replaced, one appended, or a key of
an associative array set. -/
inductive Written (index v : Value) : Value → Value → Prop
  | replaced {n : Int64} {items : List Value} {i : Nat} (hindex : index = .int n) (hn : n.toInt = i)
      (hi : i < items.length) : Written index v (.array items) (.array (items.set i v))
  | appended {n : Int64} {items : List Value} (hindex : index = .int n) (hn : n.toInt = items.length) :
      Written index v (.array items) (.array (items ++ [v]))
  | keyed {key : Text} {entries : Dict Value} (hkey : index.key? = some key) :
      Written index v (.assoc entries) (.assoc (entries.set key v))

/-- Writing never makes a list shorter. -/
theorem Written.length_le {index v : Value} {items items' : List Value}
    (h : Written index v (.array items) (.array items')) : items.length ≤ items'.length := by
  generalize hnew : Value.array items' = new at h
  cases h with
  | replaced hindex hn hi => simp [Value.array.inj hnew]
  | appended hindex hn => simp [Value.array.inj hnew]

/-- What has one item replaced is the collection that was written. -/
theorem written_of_withItem {name : Text} {old index v new : Value}
    (h : Value.withItem name old index v = .ok new) : Written index v old new := by
  cases old with
  | array items =>
    cases index with
    | int n =>
      have hwrite : Value.withItem name (.array items) (.int n) v =
          if 0 ≤ n.toInt ∧ n.toInt < items.length then do
            let items ← Trusted.replace items n.toInt.toNat v
            .ok (.array items)
          else if n.toInt = items.length then .ok (.array (items ++ [v]))
          else .error (.missed (.position n.toInt items.length)) := rfl
      rw [hwrite] at h
      -- inside the list, at its end, or beyond it
      split at h
      · next hinside =>
        have hlt : n.toInt.toNat < items.length := by omega
        rw [Trusted.replace, if_pos hlt] at h
        obtain rfl := Except.ok.inj h
        exact .replaced rfl (by omega) hlt
      split at h
      · next hend =>
        obtain rfl := Except.ok.inj h
        exact .appended rfl hend
      · cases h
    | _ => cases h
  | assoc entries =>
    have hwrite : Value.withItem name (.assoc entries) index v =
        Value.asKey index >>= fun key => .ok (.assoc (Dict.set entries key v)) := rfl
    -- A key is anything that can be shown as one; it need not be there yet.
    rw [hwrite, Value.asKey] at h
    cases hkey : index.key? with
    | none =>
      rw [hkey] at h
      cases h
    | some key =>
      rw [hkey] at h
      obtain rfl := Except.ok.inj h
      exact .keyed hkey
  | _ => cases h

/-! ## Names that are not bound

An index and a value may bind names themselves. Only if they do not bind the written one is it read
afterwards as it was before. -/

/-- A variable is looked up in the innermost frame, then in the others. -/
theorem Scope.lookupVar?_eq (scope : Scope) (x : Text) :
    scope.lookupVar? x = (scope.top.vars.get? x).or (Scope.lookupVar? scope.tail x) := by
  cases scope with
  | nil => rfl
  | cons f fs => exact lookupVar?_cons f fs x

/-- A name that is not bound is looked up as before. -/
theorem Kept.lookupVar? {bound : List Binding} {before after : Scope} (h : Kept bound before after) {x : Text}
    (hx : .var x ∉ bound) : after.lookupVar? x = before.lookupVar? x := by
  rw [Scope.lookupVar?_eq, Scope.lookupVar?_eq before, h.tail, h.vars x hx]

/-- Evaluating a node keeps the variables that it does not bind. -/
theorem eval_keeps_var {fuel : Nat} {n : Node} {s : Settings} {m m' : Machine} {v : Value}
    (h : eval fuel n s m = .done v m') {x : Text} (hx : .var x ∉ n.binds) :
    m'.scope.lookupVar? x = m.scope.lookupVar? x := by
  have heval : Respects (frameLaw n.binds) s (eval fuel n) :=
    (keeping fuel n.binds).1 n (List.Subset.refl _)
  have hout := heval m trivial
  rw [h] at hout
  exact Kept.lookupVar? (hout.kept rfl) hx

/-! ## Reading first

Both forms of the statement read the variable first. What changes it meanwhile is lost when the changed copy
is written back. -/

section

variable {fuel : Nat} {x : Text} {i e : Node} {s : Settings} {m m' : Machine} {v : Value}

/-- A result without a failure is a value, and the machine stays. -/
theorem ofExcept_eq_done {α : Type} {r : Except Failure α} {a : α} (h : ofExcept r s m = .done a m') :
    r = .ok a ∧ m' = m := by
  cases r with
  | ok b =>
    obtain ⟨rfl, rfl⟩ := Outcome.done.inj h
    exact ⟨rfl, rfl⟩
  | error f => cases h

/-- An assignment to a place reads the variable, evaluates index and value, and stores back what it read with
the place written. -/
theorem indexAssign_done (h : eval (fuel + 1) (.indexAssign x i e) s m = .done v m') :
    ∃ old new index m₁ m₂, m.scope.lookupVar? x = some old ∧ eval fuel i s m = .done index m₁ ∧
      eval fuel e s m₁ = .done v m₂ ∧ Written index v old new ∧
      m' = { m₂ with scope := m₂.scope.defineVar x new } := by
  -- The steps as they follow each other, to be taken apart one by one.
  have hsteps : eval (fuel + 1) (.indexAssign x i e) s m =
      (ofExcept (m.scope.getVar x) >>= fun old => eval fuel i >>= fun index => eval fuel e >>= fun v =>
        ofExcept (Value.withItem x old index v) >>= fun new => define x new >>= fun _ => pure v) s m := by
    rw [eval]
    rfl
  rw [hsteps] at h
  obtain ⟨old, m₀, hread, hafterRead⟩ := bind_eq_done h
  obtain ⟨index, m₁, hindex, hafterIndex⟩ := bind_eq_done hafterRead
  obtain ⟨w, m₂, hvalue, hafterValue⟩ := bind_eq_done hafterIndex
  obtain ⟨new, m₃, hwrite, hstore⟩ := bind_eq_done hafterValue
  obtain ⟨hold, rfl⟩ := ofExcept_eq_done hread
  obtain ⟨hnew, rfl⟩ := ofExcept_eq_done hwrite
  obtain ⟨rfl, rfl⟩ := Outcome.done.inj hstore
  -- What is read comes from the machine before index and value were evaluated.
  refine ⟨old, new, index, m₁, m₃, ?_, hindex, hvalue, written_of_withItem hnew, rfl⟩
  rw [Scope.getVar] at hold
  split at hold
  · next u hu => rw [hu, Except.ok.inj hold]
  · cases hold

/-- A variable that is there is read as it is. -/
theorem identifier_of_some {old : Value} (hold : m.scope.lookupVar? x = some old)
    (h : eval fuel (.identifier x) s m = .done v m') : v = old ∧ m' = m := by
  cases fuel with
  | zero => cases h
  | succ fuel =>
    rw [eval] at h
    obtain ⟨names, m₀, hscope, hname⟩ := bind_eq_done h
    obtain ⟨rfl, rfl⟩ := Outcome.done.inj hscope
    rw [hold] at hname
    obtain ⟨rfl, rfl⟩ := Outcome.done.inj hname
    exact ⟨rfl, rfl⟩

/-- What is read as a list is a variable; a function's name is no list. -/
theorem identifier_done {receiver : Value} (h : eval fuel (.identifier x) s m = .done receiver m')
    (hlist : receiver.kind = .array) : m.scope.lookupVar? x = some receiver ∧ m' = m := by
  cases hvar : m.scope.lookupVar? x with
  | some old =>
    obtain ⟨rfl, rfl⟩ := identifier_of_some hvar h
    exact ⟨rfl, rfl⟩
  -- The name of a function has a value too, but no list.
  | none =>
    cases fuel with
    | zero => cases h
    | succ fuel =>
      rw [eval] at h
      obtain ⟨names, m₀, hscope, hname⟩ := bind_eq_done h
      obtain ⟨rfl, rfl⟩ := Outcome.done.inj hscope
      rw [hvar] at hname
      cases hfunc : m.scope.lookupFunc? x with
      | some fn =>
        rw [hfunc] at hname
        obtain ⟨rfl, rfl⟩ := Outcome.done.inj hname
        cases hlist
      | none =>
        rw [hfunc] at hname
        cases hname

/-- Pushing reads the variable, evaluates the argument, and stores back the list that it read with the
argument behind it. -/
theorem push_done (h : eval (fuel + 1) (.propertyWith (.identifier x) "ane" e) s m = .done v m') :
    ∃ items w m₁, m.scope.lookupVar? x = some (.array items) ∧ eval fuel e s m = .done w m₁ ∧
      v = .absent ∧ m' = { m₁ with scope := m₁.scope.defineVar x (.array (items ++ [w])) } := by
  -- A method that stores back: read, evaluate, invoke, define.
  have hsteps : eval (fuel + 1) (.propertyWith (.identifier x) "ane" e) s m =
      (eval fuel (.identifier x) >>= fun receiver => (eval fuel e >>= fun w => pure (some w)) >>= fun arg =>
        invoke .push receiver arg >>= fun new => define x new >>= fun _ => pure Value.absent) s m := by
    rw [eval]
    rfl
  rw [hsteps] at h
  obtain ⟨receiver, m₀, hread, hafterRead⟩ := bind_eq_done h
  obtain ⟨arg, m₁, hargument, hafterArgument⟩ := bind_eq_done hafterRead
  obtain ⟨w, m₂, hvalue, hsome⟩ := bind_eq_done hargument
  obtain ⟨new, m₃, hpush, hstore⟩ := bind_eq_done hafterArgument
  obtain ⟨rfl, rfl⟩ := Outcome.done.inj hsome
  obtain ⟨rfl, rfl⟩ := Outcome.done.inj hstore
  -- Only lists can be pushed to.
  cases receiver with
  | array items =>
    obtain ⟨hlookup, rfl⟩ := identifier_done hread rfl
    obtain ⟨rfl, rfl⟩ := Outcome.done.inj hpush
    exact ⟨items, w, m₂, hlookup, hvalue, rfl, rfl⟩
  | _ => cases hpush

/-- Assignments to a place and pushing change the value that a variable held when they began, in one place,
and store it back. If the evaluations in between do not bind the variable, it is the value that it holds
then. -/
theorem store_back (fuel : Nat) (x : Text) (s : Settings) (m m' : Machine) (v : Value) :
    (∀ i e, eval (fuel + 1) (.indexAssign x i e) s m = .done v m' →
      ∃ old new index m₁ m₂, m.scope.lookupVar? x = some old ∧
        eval fuel i s m = .done index m₁ ∧ eval fuel e s m₁ = .done v m₂ ∧
        Written index v old new ∧ m' = { m₂ with scope := m₂.scope.defineVar x new } ∧
        m'.scope.lookupVar? x = some new ∧
        (.var x ∉ i.binds → .var x ∉ e.binds → m₂.scope.lookupVar? x = some old)) ∧
    ∀ e, eval (fuel + 1) (.propertyWith (.identifier x) "ane" e) s m = .done v m' →
      ∃ items w m₁, m.scope.lookupVar? x = some (.array items) ∧ eval fuel e s m = .done w m₁ ∧
        v = .absent ∧ m' = { m₁ with scope := m₁.scope.defineVar x (.array (items ++ [w])) } ∧
        m'.scope.lookupVar? x = some (.array (items ++ [w])) ∧
        (.var x ∉ e.binds → m₁.scope.lookupVar? x = some (.array items)) := by
  constructor
  · intro i e h
    obtain ⟨old, new, index, m₁, m₂, hold, hindex, hvalue, hwritten, rfl⟩ := indexAssign_done h
    refine ⟨old, new, index, m₁, m₂, hold, hindex, hvalue, hwritten, rfl, lookupVar?_defineVar _ _ _, ?_⟩
    intro hi he
    rw [eval_keeps_var hvalue he, eval_keeps_var hindex hi, hold]
  · intro e h
    obtain ⟨items, w, m₁, hitems, hvalue, hv, rfl⟩ := push_done h
    refine ⟨items, w, m₁, hitems, hvalue, hv, rfl, lookupVar?_defineVar _ _ _, ?_⟩
    intro he
    rw [eval_keeps_var hvalue he, hitems]

end

/-- A machine where `x` is a list of one. -/
def listing : Machine where
  scope := [{ vars := [("x", .array [.int 1])] }]

/-- `x[1] = y = 5` writes behind the list that `x` still is when `y` is bound, and so does `x.ane(5)`. -/
theorem store_back_appending : ∃ (index new w : Value) (items : List Value) (m₁ m' m'' : Machine),
    eval 4 (.indexAssign "x" (.literal (.int 1)) (.assign "y" (.literal (.int 5)))) {} listing =
      .done (.int 5) m' ∧
    m₁.scope.lookupVar? "x" = some (.array [.int 1]) ∧ Written index (.int 5) (.array [.int 1]) new ∧
    m'.scope.lookupVar? "x" = some new ∧
    eval 4 (.propertyWith (.identifier "x") "ane" (.literal (.int 5))) {} listing = .done .absent m'' ∧
    listing.scope.lookupVar? "x" = some (.array items) ∧
    m''.scope.lookupVar? "x" = some (.array (items ++ [w])) := by
  obtain ⟨m', hassign⟩ : ∃ m', eval 4 (.indexAssign "x" (.literal (.int 1))
      (.assign "y" (.literal (.int 5)))) {} listing = .done (.int 5) m' := ⟨_, rfl⟩
  obtain ⟨m'', hpush⟩ : ∃ m'', eval 4 (.propertyWith (.identifier "x") "ane" (.literal (.int 5))) {} listing =
      .done .absent m'' := ⟨_, rfl⟩
  -- both statements at once, each by its half of the theorem
  obtain ⟨old, new, index, _, m₁, hold, -, -, hwritten, -, hnew, hkept⟩ :=
    (store_back 3 "x" {} listing m' (.int 5)).1 _ _ hassign
  obtain ⟨items, w, _, hitems, -, -, -, hstored, -⟩ := (store_back 3 "x" {} listing m'' .absent).2 _ hpush
  obtain rfl : Value.array [.int 1] = old := Option.some.inj hold
  exact ⟨index, new, w, items, m₁, m', m'', hassign, hkept (by decide) (by decide), hwritten, hnew, hpush,
    hitems, hstored⟩

/-- `x[0] = x.ane(2)` and `x.ane(x.ane(2))`: the element that was pushed in between is gone. -/
theorem push_lost : ∃ m₁ m₂ m₃ : Machine,
    eval 3 (.propertyWith (.identifier "x") "ane" (.literal (.int 2))) {} listing = .done .absent m₁ ∧
    m₁.scope.lookupVar? "x" = some (.array [.int 1, .int 2]) ∧
    eval 4 (.indexAssign "x" (.literal (.int 0))
      (.propertyWith (.identifier "x") "ane" (.literal (.int 2)))) {} listing = .done .absent m₂ ∧
    m₂.scope.lookupVar? "x" = some (.array [.absent]) ∧
    ¬ Written (.int 0) .absent (.array [.int 1, .int 2]) (.array [.absent]) ∧
    eval 4 (.propertyWith (.identifier "x") "ane"
      (.propertyWith (.identifier "x") "ane" (.literal (.int 2)))) {} listing = .done .absent m₃ ∧
    m₃.scope.lookupVar? "x" = some (.array [.int 1, .absent]) := by
  refine ⟨_, _, _, rfl, rfl, rfl, rfl, ?_, rfl, rfl⟩
  intro h
  exact absurd h.length_le (by decide)

end Mundart
