import Mundart.Proofs.Dict
import Mundart.Proofs.Run.Composition
import Mundart.Proofs.Run.Fuel
import Mundart.Proofs.Value.Literal

/-!
# Reading back what was shown

A session that declares a variable with the shown form of a collection binds the collection, apart
from the signs of negative integers.

* **`Denotes`** — a node that has the same value on every machine and leaves no trace;
* **`Readable.denotes`** — the literal of a value denotes the value without its signs;
* **`Session.eval_display`** — the whole way from the shown form to the variable.
-/

namespace Mundart

open Mundart.Action

/-- A node that has some value on every machine, which it leaves as it is. -/
def Denotes (n : Node) (v : Value) : Prop :=
  ∃ bound, ∀ fuel ≥ bound, ∀ s m, eval fuel n s m = .done v m

/-! ## Sequences

Keys, items and values are evaluated one after the other, each by the same evaluator. -/

section

variable {α : Type} {node : α → Node} {value : α → Value} {xs : List α}

/-- One bound is enough for finitely many nodes. -/
theorem exists_bound_of_denotes (h : ∀ x ∈ xs, Denotes (node x) (value x)) :
    ∃ bound, ∀ fuel ≥ bound, ∀ x ∈ xs, ∀ s m, eval fuel (node x) s m = .done (value x) m := by
  induction xs with
  | nil => exact ⟨0, fun _ _ x hx => absurd hx List.not_mem_nil⟩
  | cons x xs ih =>
    obtain ⟨hx, hxs⟩ := List.forall_mem_cons.mp h
    obtain ⟨first, hfirst⟩ := hx
    obtain ⟨others, hothers⟩ := ih hxs
    refine ⟨max first others, fun fuel hfuel => List.forall_mem_cons.mpr ⟨?_, ?_⟩⟩
    · exact hfirst fuel (le_trans (le_max_left _ _) hfuel)
    · exact hothers fuel (le_trans (le_max_right _ _) hfuel)

variable {ev : Node → Action Value} {s : Settings} {m : Machine}

/-- Nodes that have their values in every machine have them one after the other. -/
theorem values_done (h : ∀ x ∈ xs, ∀ s m, ev (node x) s m = .done (value x) m) :
    Eval.values ev (xs.map node) s m = .done (xs.map value) m := by
  induction xs with
  | nil => rfl
  | cons x xs ih =>
    obtain ⟨hx, hxs⟩ := List.forall_mem_cons.mp h
    rw [List.map_cons, Eval.values, bind_of_done (hx s m), bind_of_done (ih hxs)]
    rfl

/-- Entries with keys that are all new are written one behind the other. -/
theorem entries_done {entries : Dict Value} {f : Value → Node} {g : Value → Value}
    (hkeys : ∀ e ∈ entries, ∀ s m, ev (.literal (.text e.1)) s m = .done (.text e.1) m)
    (hvalues : ∀ e ∈ entries, ∀ s m, ev (f e.2) s m = .done (g e.2) m) : ∀ written : Dict Value,
    (written.keys ++ entries.keys).Nodup →
    Eval.entries ev written (entries.map fun e => (.literal (.text e.1), f e.2)) s m =
      .done (written ++ entries.map fun e => (e.1, g e.2)) m := by
  induction entries with
  | nil =>
    intro written _
    rw [List.map_nil, List.map_nil, List.append_nil]
    rfl
  | cons e es ih =>
    intro written hnodup
    obtain ⟨key, v⟩ := e
    obtain ⟨hkey, hkeys⟩ := List.forall_mem_cons.mp hkeys
    obtain ⟨hvalue, hvalues⟩ := List.forall_mem_cons.mp hvalues
    -- A new key is put behind the others; one that was there would keep its place.
    have hnew : key ∉ written.keys := by
      intro hold
      exact (List.nodup_append.mp hnodup).2.2 key hold key List.mem_cons_self rfl
    have hlater : (Dict.keys (written ++ [(key, g v)]) ++ Dict.keys es).Nodup := by
      simpa [Dict.keys] using hnodup
    have hasKey : ofExcept (Value.asKey (.text key)) s m = .done key m := rfl
    rw [List.map_cons, Eval.entries, bind_of_done (hkey s m), bind_of_done hasKey,
      bind_of_done (hvalue s m), Dict.set_of_notMem hnew, ih hkeys hvalues _ hlater,
      List.append_assoc]
    rfl

end

/-! ## Literals

The literal of a value is evaluated to it without touching the machine, within some bound that depends on
how deep it is nested. -/

/-- A plain literal is its value. -/
theorem eval_literal (fuel : Nat) (v : Value) (s : Settings) (m : Machine) :
    eval (fuel + 1) (.literal v) s m = .done v m := by
  rw [eval]
  rfl

/-- So it denotes it. -/
theorem denotes_literal (v : Value) : Denotes (.literal v) v := by
  refine ⟨1, fun fuel hfuel s m => ?_⟩
  obtain ⟨fuel, rfl⟩ : ∃ k, fuel = k + 1 := ⟨fuel - 1, by omega⟩
  exact eval_literal fuel v s m

/-- The literal of a list denotes it if those of its items do. -/
theorem denotes_array {items : List Value} (h : ∀ v ∈ items, Denotes v.literal v.unsigned) :
    Denotes (Value.array items).literal (Value.array items).unsigned := by
  obtain ⟨bound, hbound⟩ := exists_bound_of_denotes h
  refine ⟨bound + 1, fun fuel hfuel s m => ?_⟩
  obtain ⟨fuel, rfl⟩ : ∃ k, fuel = k + 1 := ⟨fuel - 1, by omega⟩
  have hvalues := @values_done _ _ _ _ _ s m (hbound fuel (by omega))
  rw [Value.literal, Value.unsigned, Value.literalItems_eq, Value.unsignedItems_eq, eval]
  show (Eval.values (eval fuel) (items.map Value.literal) >>= fun vs => pure (Value.array vs)) s m = _
  rw [bind_of_done hvalues]
  rfl

/-- An associative array with the keys and values of some entries. -/
theorem assoc?_done {entries : Dict Value} (hnodup : entries.keys.Nodup)
    (h : ∀ e ∈ entries, Denotes e.2.literal e.2.unsigned) :
    ∃ bound, ∀ fuel ≥ bound, ∀ s m,
      Eval.assoc? (eval fuel) (entries.map fun e => .literal (.text e.1))
        (entries.map fun e => e.2.literal) s m = .done (some (Value.assoc entries).unsigned) m := by
  obtain ⟨bound, hbound⟩ := exists_bound_of_denotes h
  refine ⟨bound + 1, fun fuel hfuel s m => ?_⟩
  obtain ⟨k, rfl⟩ : ∃ k, fuel = k + 1 := ⟨fuel - 1, by omega⟩
  -- There are as many keys as values, since both come from the entries.
  have hpairs : Trusted.pairs (entries.map fun e => Node.literal (.text e.1))
      (entries.map fun e => e.2.literal) =
        .ok (entries.map fun e => (Node.literal (.text e.1), e.2.literal)) := by
    rw [Trusted.pairs, if_pos (by simp), List.zip_map']
  have hgiven : ofExcept (Trusted.pairs (entries.map fun e => Node.literal (.text e.1))
      (entries.map fun e => e.2.literal)) s m =
        .done (entries.map fun e => (Node.literal (.text e.1), e.2.literal)) m := by
    rw [hpairs]
    rfl
  have hentries := @entries_done (eval (k + 1)) s m entries Value.literal Value.unsigned
    (fun e _ s m => eval_literal k (.text e.1) s m) (hbound (k + 1) (by omega)) [] hnodup
  rw [Eval.assoc?, if_pos (by simp), bind_of_done hgiven, bind_of_done hentries, Value.unsigned,
    Value.unsignedEntries_eq]
  rfl

/-- The literal of an associative array denotes it if those of its values do. Its keys are written in their
order, so that the dictionary comes out the same. -/
theorem denotes_assoc {entries : Dict Value} (hnodup : entries.keys.Nodup)
    (h : ∀ e ∈ entries, Denotes e.2.literal e.2.unsigned) :
    Denotes (Value.assoc entries).literal (Value.assoc entries).unsigned := by
  obtain ⟨bound, hbound⟩ := assoc?_done hnodup h
  refine ⟨bound + 1, fun fuel hfuel s m => ?_⟩
  obtain ⟨fuel, rfl⟩ : ∃ k, fuel = k + 1 := ⟨fuel - 1, by omega⟩
  have hassoc := hbound fuel (by omega) s m
  rw [Value.literal, Value.literalValues_eq, eval]
  show (Eval.assoc? (eval fuel) _ _ >>= fun v => pure (v.getD .absent)) s m = _
  rw [bind_of_done hassoc]
  rfl

/-- The literal of a value denotes the value without its signs. -/
theorem Value.Readable.denotes {v : Value} (h : v.Readable) : Denotes v.literal v.unsigned := by
  induction h with
  | bool b => exact denotes_literal _
  | int hn => exact denotes_literal _
  | text ht => exact denotes_literal _
  | array _ ih => exact denotes_array ih
  | assoc hkeys _ _ ih => exact denotes_assoc hkeys ih

/-! ## Declarations

The declaration is the only statement of its source. It is counted, evaluates the literal and binds the
name. -/

/-- A declaration with the literal of a value binds the value without its signs. -/
theorem declare_done {v : Value} (h : v.Readable) (name : Text) :
    ∃ bound, ∀ fuel ≥ bound, ∀ s m, Eval.declare (eval fuel) name v.literal s m =
      .done v.unsigned { m with scope := m.scope.defineVar name v.unsigned } := by
  -- An associative array is declared in a way of its own.
  have hplain : (∀ keys vals, v.literal ≠ .assoc keys vals) →
      ∃ bound, ∀ fuel ≥ bound, ∀ s m, Eval.declare (eval fuel) name v.literal s m =
        .done v.unsigned { m with scope := m.scope.defineVar name v.unsigned } := by
    intro hne
    obtain ⟨bound, hbound⟩ := h.denotes
    refine ⟨bound, fun fuel hfuel s m => ?_⟩
    rw [Eval.declare]
    · rw [bind_of_done (hbound fuel hfuel s m)]
      rfl
    · exact hne
  cases h with
  | bool b => exact hplain nofun
  | int hn => exact hplain nofun
  | text ht => exact hplain nofun
  | array hitems => exact hplain (by simp [Value.literal])
  | @assoc entries hkeys hquotable hvalues =>
    obtain ⟨bound, hbound⟩ := assoc?_done hkeys fun e he => (hvalues e he).denotes
    refine ⟨bound, fun fuel hfuel s m => ?_⟩
    rw [Value.literal, Value.literalValues_eq, Eval.declare, bind_of_done (hbound fuel hfuel s m)]
    rfl

/-- A declaration that is counted first is done as its parts say. -/
theorem exec_declare {fuel : Nat} {name : Text} {init : Node} {v : Value} {s : Settings}
    {m m' : Machine} (hm : m.interruption = none) (hsteps : m.steps = 0)
    (h : Eval.declare (eval fuel) name init s { m with steps := 1 } = .done v m') :
    exec (fuel + 2) (.declare name init) s m = .done (.next v) m' := by
  -- It is the first statement, and the limit allows at least one.
  have hcounted : tick s m = .done () { m with steps := 1 } := by
    rw [tick_within (by omega), Machine.counted, hm, hsteps]
  have hvalue : eval (fuel + 1) (.declare name init) s { m with steps := 1 } = .done v m' := by
    rw [eval]
    exact h
  rw [exec, Evaluators.statement, bind_of_done hcounted]
  show (eval (fuel + 1) (.declare name init) >>= fun v => pure (Flow.next v)) s _ = _
  rw [bind_of_done hvalue]
  rfl

/-- A name that was just bound is found. -/
theorem lookupVar?_defineVar (scope : Scope) (name : Text) (v : Value) :
    (scope.defineVar name v).lookupVar? name = some v := by
  have htop : ∀ d : Dict Value, (d.set name v).get? name = some v := by
    intro d
    rw [Dict.get?_set, if_pos rfl]
  cases scope with
  | nil => simp [Scope.defineVar, Scope.onTop, Scope.lookupVar?, htop]
  | cons frame frames => simp [Scope.defineVar, Scope.onTop, Scope.lookupVar?, htop]

namespace Session

/-- The shown form of a collection, declared in a session that was not cancelled, is read back without a
failure: the variable is bound to the collection with the absolute value of every integer in it. It is
equal to the collection exactly if there was no negative integer. -/
theorem eval_display {v : Value} (hv : v.Readable) (hcollection : v.isCollection = true)
    (s : Settings) {m : Machine} (hm : m.interruption = none) :
    (∃ program, Program.parse (utf8 "heast c = " ++ v.display) = .ok program) ∧
      (∃ bound, ∀ fuel ≥ bound, ∃ r m',
        eval fuel s (utf8 "heast c = " ++ v.display) m = some (.ok r, m') ∧
          r.failures = [] ∧ r.stop = none ∧ m'.scope = m.scope.defineVar "c" v.unsigned ∧
          m'.scope.lookupVar? "c" = some v.unsigned) ∧
      (v.equal v.unsigned = true ↔ ¬ v.HasNegative) := by
  have hparse := Program.parse_display hv hcollection
  refine ⟨⟨_, hparse⟩, ?_, hv.equal_unsigned⟩
  obtain ⟨bound, hbound⟩ := declare_done hv "c"
  refine ⟨bound + 2, fun fuel hfuel => ?_⟩
  -- One bound is for the statement and one for the declaration in it.
  obtain ⟨fuel, rfl⟩ : ∃ k, fuel = k + 2 := ⟨fuel - 2, by omega⟩
  have hstart : m.restart.interruption = none := hm
  have hexec := exec_declare hstart rfl (hbound fuel (by omega) s { m.restart with steps := 1 })
  have hrun : runStatements (fuel + 2) s [.declare "c" v.literal] {} m.restart =
      some ({ value := v.unsigned },
        { m.restart with steps := 1, scope := m.scope.defineVar "c" v.unsigned }) := by
    rw [runStatements, hstart, hexec]
    rfl
  have heval : ∃ r, runProgram (fuel + 2) s [.declare "c" v.literal] m = some (r,
      { m.restart with steps := 1, scope := m.scope.defineVar "c" v.unsigned }) ∧
        r.failures = [] ∧ r.stop = none := by
    rw [runProgram, hrun]
    exact ⟨_, rfl, rfl, rfl⟩
  obtain ⟨r, hr, hfailures, hstop⟩ := heval
  exact ⟨r, _, (eval_eq_some hparse).mpr hr, hfailures, hstop, rfl, lookupVar?_defineVar _ _ _⟩

/-- `["a", "b: ["] : [[-5, basst], [] : []]` -/
def shown : Value :=
  .assoc [("a", .array [.int (-5), .bool true]), ("b: [", .assoc [])]

/-- The example can be read back. -/
theorem readable_shown : shown.Readable := by
  refine .assoc (by decide +kernel) (by decide +kernel) ?_
  have hnumbers : (Value.array [.int (-5), .bool true]).Readable := by
    refine .array (List.forall_mem_cons.mpr ⟨.int (by decide), ?_⟩)
    exact List.forall_mem_singleton.mpr (.bool true)
  have hempty : (Value.assoc []).Readable := by
    exact .assoc List.nodup_nil (List.forall_mem_nil _) (List.forall_mem_nil _)
  exact List.forall_mem_cons.mpr ⟨hnumbers, List.forall_mem_singleton.mpr hempty⟩

/-- The example comes back with the sign of its integer lost. -/
theorem eval_display_shown :
    shown.display = utf8 "[\"a\", \"b: [\"] : [[-5, basst], [] : []]" ∧
      (∃ bound, ∀ fuel ≥ bound, ∃ r m',
        eval fuel {} (utf8 "heast c = " ++ shown.display) {} = some (.ok r, m') ∧
          r.failures = [] ∧ m'.scope.lookupVar? "c" =
            some (.assoc [("a", .array [.int 5, .bool true]), ("b: [", .assoc [])])) ∧
      ¬ shown.equal shown.unsigned = true := by
  obtain ⟨-, ⟨bound, hbound⟩, hequal⟩ :=
    eval_display readable_shown rfl {} (m := {}) rfl
  -- The negative integer stands in a list inside the associative array.
  have hnegative : shown.HasNegative :=
    .entry List.mem_cons_self (.item List.mem_cons_self (.int (by decide)))
  refine ⟨by decide +kernel, ⟨bound, fun fuel hfuel => ?_⟩, fun h => hequal.mp h hnegative⟩
  obtain ⟨r, m', heval, hfailures, -, -, hlookup⟩ := hbound fuel hfuel
  exact ⟨r, m', heval, hfailures, hlookup⟩

end Session

end Mundart
