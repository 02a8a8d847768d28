import Mundart.Method
import Mundart.Value.Arithmetic
import Mundart.Proofs.Token.Lexeme

/-!
# Operations that only fail in an orderly way

A failure is ordinary if an operation of a program that was read may run into it. The others are
defects, where an operation was trusted with something it has no answer for, complaints about
operators and nodes that the grammar does not know, and the limits on steps and calls and
interruptions, which are the business of runs. Every operation of the evaluator is orderly: each trusting access in it stands
behind the test that justifies the trust.

* **`Value.arithmetic_orderly`**, **`Value.compareBy_orderly`**, **`Value.step_orderly`** — operators
  with words that tokens carry; a divisor that is no zero as a double is no zero as an integer;
* **`Value.foldChain_orderly`** — chains with one operator fewer than operands;
* **`Method.invoke_orderly`** — methods, with any receiver, argument and random state;
* **`Value.arithmetic_contained`**, **`Value.compareBy_contained`**, **`Value.step_contained`**,
  **`Value.foldChain_contained`** — operators with any words at least leave the limits to the run.
-/

namespace Mundart

/-! ## Kinds of failures

Three ways to look at a failure: whether a program that was read may run into it, whether it ends the run,
and whether it is about the limits of the run. -/

/-- A failure that an operation of a program which was read may run into. -/
def Failure.Ordinary : Failure → Prop
  | .badSyntax _ | .unknownOperator _ | .unknownNode _ | .recursionLimit _ | .stepLimit _
  | .interrupted _ | .defect _ => False
  | _ => True

/-- A failure that ends the whole run and not only the statement it happens in. -/
def Failure.Stops : Failure → Prop
  | .stepLimit _ | .interrupted _ => True
  | _ => False

/-- A failure that is about how far a run may go. -/
def Failure.OfRun : Failure → Prop
  | .recursionLimit _ | .stepLimit _ | .interrupted _ => True
  | _ => False

/-- What ends a run is about its limits. -/
theorem Failure.Stops.ofRun {f : Failure} (h : f.Stops) : f.OfRun := by
  cases f with
  | stepLimit max => trivial
  | interrupted cause => trivial
  | _ => exact h.elim

/-- An ordinary failure is not about the limits of a run. -/
theorem Failure.Ordinary.not_ofRun {f : Failure} (h : f.Ordinary) : ¬ f.OfRun := by
  cases f with
  | recursionLimit max => exact h.elim
  | stepLimit max => exact h.elim
  | interrupted cause => exact h.elim
  | _ => exact fun hrun => hrun

/-- So it does not end a run. -/
theorem Failure.Ordinary.not_stops {f : Failure} (h : f.Ordinary) : ¬ f.Stops := mt Stops.ofRun h.not_ofRun

/-- An operation that fails in ordinary ways only. -/
def Orderly {α : Type} (x : Except Failure α) : Prop := ∀ f, x = .error f → f.Ordinary

section

variable {α β : Type}

/-- A result is no failure. -/
theorem orderly_ok (a : α) : Orderly (.ok a : Except Failure α) := fun _ h => nomatch h

/-- An ordinary failure. -/
theorem orderly_error {f : Failure} (h : f.Ordinary) : Orderly (.error f : Except Failure α) :=
  fun _ hf => Except.error.inj hf ▸ h

/-- One operation after the other; the second one may rely on what the first one gives. -/
theorem orderly_bind {x : Except Failure α} {next : α → Except Failure β} (hx : Orderly x)
    (hnext : ∀ a, x = .ok a → Orderly (next a)) : Orderly (x >>= next) := by
  cases x with
  | error f => exact orderly_error (hx f rfl)
  | ok a => exact hnext a rfl

end

/-! ## Trusted accesses behind their tests

A trusting access has no answer for a value of another kind or for a position that does not exist. Behind
the test that its callers make it gives a result. -/

namespace Value

/-- An integer is one. -/
theorem asInt_orderly {v : Value} (h : v.kind = .int) : Orderly v.asInt := by
  cases v with
  | int n => exact orderly_ok n
  | _ => exact absurd h (by simp [kind])

/-- A double is one. -/
theorem asDouble_orderly {v : Value} (h : v.kind = .double) : Orderly v.asDouble := by
  cases v with
  | double x => exact orderly_ok x
  | _ => exact absurd h (by simp [kind])

/-- A text is one. -/
theorem asText_orderly {v : Value} (h : v.kind = .text) : Orderly v.asText := by
  cases v with
  | text t => exact orderly_ok t
  | _ => exact absurd h (by simp [kind])

/-- An array is one. -/
theorem asArray_orderly {v : Value} (h : v.kind = .array) : Orderly v.asArray := by
  cases v with
  | array items => exact orderly_ok items
  | _ => exact absurd h (by simp [kind])

/-- An association is one. -/
theorem asAssoc_orderly {v : Value} (h : v.kind = .assoc) : Orderly v.asAssoc := by
  cases v with
  | assoc entries => exact orderly_ok entries
  | _ => exact absurd h (by simp [kind])

end Value

namespace Trusted

variable {α : Type}

/-- An item at a position of the list. -/
theorem item_orderly {xs : List α} {i : Nat} (h : i < xs.length) : Orderly (item xs i) := by
  rw [item, List.getElem?_eq_getElem h]
  exact orderly_ok _

/-- Replacing an item at a position of the list. -/
theorem replace_orderly {xs : List α} {i : Nat} {x : α} (h : i < xs.length) :
    Orderly (replace xs i x) := by
  rw [replace, if_pos h]
  exact orderly_ok _

/-- The rest of a list from a position on; there may be nothing left. -/
theorem rest_orderly {xs : List α} {i : Nat} (h : i ≤ xs.length) : Orderly (rest xs i) := by
  rw [rest, if_pos h]
  exact orderly_ok _

end Trusted

/-! ## Operators

The words are those that tokens carry. An operator with any other word is refused in a way that a program
cannot run into. -/

namespace Value

/-- Arithmetic on integers, if nothing is divided by zero. -/
theorem onInts_orderly (op : ArithOp) (a b : Int64) (h : op = .divide → b ≠ 0) :
    Orderly (op.onInts a b) := by
  cases op with
  | plus => exact orderly_ok _
  | minus => exact orderly_ok _
  | times => exact orderly_ok _
  | divide =>
    have hb := h rfl
    -- A division looks at the remainder first, and both trust the divisor.
    have hremainder : Trusted.remainder a b = .ok (a % b) := if_neg hb
    have hquotient : Trusted.quotient a b = .ok (a / b) := if_neg hb
    show Orderly (Trusted.remainder a b >>= _)
    rw [hremainder]
    show Orderly (if a % b = 0 then Trusted.quotient a b >>= _ else _)
    split
    · rw [hquotient]
      exact orderly_ok _
    · exact orderly_ok _

/-- Zero as an integer is zero as a double. -/
theorem ofInt64_zero : (Double.ofInt64 0 == 0.0) = true := by decide +kernel

/-- Arithmetic on numbers: a zero is refused before integers are divided. -/
theorem onNumbers_orderly (op : ArithOp) {left right : Value} {a b : Float}
    (hright : right.number? = some b) : Orderly (op.onNumbers left right a b) := by
  unfold ArithOp.onNumbers
  split
  · exact orderly_error trivial
  · next hzero =>
    split
    · next hints =>
      refine orderly_bind (asInt_orderly hints.1) fun m _ => ?_
      refine orderly_bind (asInt_orderly hints.2) fun n hn => ?_
      have hdivisor : op = .divide → n ≠ 0 := by
        rintro rfl rfl
        -- The integer zero was refused as a double.
        cases right with
        | int n' =>
          obtain rfl : n' = 0 := Except.ok.inj hn
          obtain rfl : Double.ofInt64 0 = b := Option.some.inj hright
          exact hzero (by simp [ofInt64_zero])
        | _ => exact absurd hints.2 (by simp [kind])
      refine orderly_bind (onInts_orderly op m n hdivisor) fun result _ => ?_
      cases result with
      | none => exact orderly_ok _
      | some n => exact orderly_ok _
    · exact orderly_ok _

/-- Arithmetic with one of the four words. -/
theorem arithmetic_orderly {word : Text} (hword : (ArithOp.ofWord? word).isSome = true)
    (left right : Value) : Orderly (arithmetic word left right) := by
  unfold arithmetic
  split
  · exact orderly_ok _
  · split
    · next a b _ hright =>
      obtain ⟨op, hop⟩ := Option.isSome_iff_exists.mp hword
      rw [hop]
      exact onNumbers_orderly op hright
    · exact orderly_error trivial

/-- Counting up or down by one. -/
theorem step_orderly {word : Text} (hword : word = "plusplus" ∨ word = "minusminus") (v : Value) :
    Orderly (v.step word) := by
  unfold step
  dsimp only
  split
  · next hnone =>
    -- Both words have a step, so this case is empty.
    rcases hword with rfl | rfl
    · exact nomatch hnone
    · exact nomatch hnone
  · split
    · next hkind => exact orderly_bind (asInt_orderly hkind) fun _ _ => orderly_ok _
    · next hkind => exact orderly_bind (asDouble_orderly hkind) fun _ _ => orderly_ok _
    · exact orderly_error trivial

/-- Comparing with one of the words for it. -/
theorem compareBy_orderly {word : Text}
    (hword : word = "gleich" ∨ word = "isned" ∨ (orderTest? word).isSome = true)
    (left right : Value) : Orderly (compareBy word left right) := by
  unfold compareBy
  split
  · exact orderly_ok _
  · next hequal =>
    split
    · exact orderly_ok _
    · next hunequal =>
      -- Neither of the words for equality, so it is one of those for an order.
      have htest : (orderTest? word).isSome = true := by
        rcases hword with rfl | rfl | h
        · exact absurd (beq_self_eq_true _) hequal
        · exact absurd (beq_self_eq_true _) hunequal
        · exact h
      split
      · next hnone => exact absurd htest (by rw [hnone]; decide)
      · split
        · exact orderly_ok _
        · exact orderly_error trivial

/-- Folding goes on orderly while there is a truth value for every operator that is left. -/
theorem fold_orderly {results : List Bool} {ops : List Text}
    (hops : ∀ op ∈ ops, op = "und" ∨ op = "oda") : ∀ {acc : Bool} {i : Nat},
    i + ops.length ≤ results.length → Orderly (foldChain.fold results acc i ops) := by
  induction ops with
  | nil =>
    intro acc i hlen
    exact orderly_ok acc
  | cons op ops ih =>
    intro acc i hlen
    obtain ⟨hop, hops⟩ := List.forall_mem_cons.mp hops
    rw [List.length_cons] at hlen
    -- The next truth value is looked at only where the result still depends on it.
    have hitem : Orderly (Trusted.item results i) := Trusted.item_orderly (by omega)
    have hmore : ∀ acc, Orderly (foldChain.fold results acc (i + 1) ops) := fun acc =>
      ih hops (by omega)
    unfold foldChain.fold
    rcases hop with rfl | rfl
    · rw [if_pos (beq_self_eq_true _)]
      split
      · exact orderly_bind hitem fun _ _ => hmore _
      · exact hmore _
    · rw [if_neg (by decide), if_pos (beq_self_eq_true _)]
      split
      · exact hmore _
      · exact orderly_bind hitem fun _ _ => hmore _

/-- The truth of a chain with one operator fewer than operands. -/
theorem foldChain_orderly {results : List Bool} {ops : List Text}
    (hops : ∀ op ∈ ops, op = "und" ∨ op = "oda") (hlen : ops.length + 1 = results.length) :
    Orderly (foldChain results ops) := by
  refine orderly_bind (Trusted.item_orderly (by omega)) fun first _ => ?_
  exact fold_orderly hops (by omega)

/-! ## Indexes and keys

A position is compared with the length before it is used, for arrays and texts alike. -/

/-- A position that was found in a sequence is one of its positions. -/
theorem lt_of_positionIn {index : Value} {length i : Nat} (h : positionIn index length = .ok i) :
    i < length := by
  unfold positionIn at h
  split at h
  · cases index with
    | int n =>
      -- Only integers get this far, and they are compared with the length.
      have h : (if 0 ≤ n.toInt ∧ n.toInt < length then (.ok n.toInt.toNat : Except Failure Nat)
        else .error (.missed (.position n.toInt (length - 1)))) = .ok i := h
      split at h
      · next hrange =>
        obtain rfl := Except.ok.inj h
        omega
      · exact nomatch h
    | _ => exact nomatch h
  · exact nomatch h

/-- Finding a position in a sequence. -/
theorem positionIn_orderly (index : Value) (length : Nat) : Orderly (positionIn index length) := by
  unfold positionIn
  split
  · next hkind =>
    refine orderly_bind (asInt_orderly hkind) fun i _ => ?_
    split
    · exact orderly_ok _
    · exact orderly_error trivial
  · exact orderly_error trivial

/-- What may be a key of an association. -/
theorem asKey_orderly (v : Value) : Orderly v.asKey := by
  unfold asKey
  split
  · exact orderly_ok _
  · exact orderly_error trivial

/-- Reading at an index. -/
theorem itemAt_orderly (collection index : Value) : Orderly (collection.itemAt index) := by
  unfold itemAt
  -- Arrays and texts by their positions, associations by their keys.
  split
  · next hkind =>
    refine orderly_bind (asArray_orderly hkind) fun items _ => ?_
    refine orderly_bind (positionIn_orderly _ _) fun i hi => ?_
    exact Trusted.item_orderly (lt_of_positionIn hi)
  · next hkind =>
    refine orderly_bind (asKey_orderly _) fun key _ => ?_
    refine orderly_bind (asAssoc_orderly hkind) fun entries _ => ?_
    split
    · exact orderly_ok _
    · exact orderly_error trivial
  · next hkind =>
    refine orderly_bind (asText_orderly hkind) fun t _ => ?_
    refine orderly_bind (positionIn_orderly _ _) fun i hi => ?_
    refine orderly_bind (Trusted.item_orderly (lt_of_positionIn hi)) fun c _ => ?_
    exact orderly_ok _
  · exact orderly_error trivial

/-- Writing at an index, into a copy. -/
theorem withItem_orderly (name : Text) (collection index v : Value) :
    Orderly (withItem name collection index v) := by
  unfold withItem
  split
  · next hkind =>
    refine orderly_bind (asArray_orderly hkind) fun items _ => ?_
    split
    · next hint =>
      refine orderly_bind (asInt_orderly hint) fun i _ => ?_
      split
      -- In range an item is replaced; right behind the last one it is appended.
      · next hrange =>
        exact orderly_bind (Trusted.replace_orderly (by omega)) fun _ _ => orderly_ok _
      · split
        · exact orderly_ok _
        · exact orderly_error trivial
    · exact orderly_error trivial
  · next hkind =>
    refine orderly_bind (asKey_orderly _) fun key _ => ?_
    exact orderly_bind (asAssoc_orderly hkind) fun _ _ => orderly_ok _
  · exact orderly_error trivial

end Value

/-! ## Random draws

A draw below a number gives a number below it, so that what is picked with it exists. -/

namespace Random

/-- A draw is smaller than a word. -/
theorem mix_lt (r : Random) : r.mix < word := Nat.mod_lt _ (by decide)

/-- A fair draw is below its bound, also when it gives up. -/
theorem drawFair_lt {n : Nat} (hn : 0 < n) (tries : Nat) : ∀ r : Random, (drawFair n tries r).1 < n := by
  induction tries with
  | zero => exact fun _ => hn
  | succ tries ih =>
    intro r
    unfold drawFair
    dsimp only [draw]
    split
    · exact ih _
    -- A draw is scaled down from a whole word, and the word is larger than what was drawn.
    · rw [Nat.div_lt_iff_lt_mul (by decide), Nat.mul_comm n]
      exact Nat.mul_lt_mul_of_pos_right (mix_lt _) hn

/-- A draw below a number. -/
theorem below_lt {n : Nat} (hn : 0 < n) (r : Random) : (r.below n).1 < n := by
  unfold below
  split
  · exact Nat.mod_lt _ hn
  · exact drawFair_lt hn _ r

end Random

/-! ## Methods

Each method looks at the kinds of its receiver and argument before it trusts them. -/

namespace Method

open Value

/-- The length of a text, an array or an association. -/
theorem lengthOf_orderly (m : Method) (receiver : Value) : Orderly (m.lengthOf receiver) := by
  unfold lengthOf
  split
  · next hkind => exact orderly_bind (asText_orderly hkind) fun _ _ => orderly_ok _
  · next hkind => exact orderly_bind (asArray_orderly hkind) fun _ _ => orderly_ok _
  · next hkind => exact orderly_bind (asAssoc_orderly hkind) fun _ _ => orderly_ok _
  · exact orderly_error trivial

/-- Whether something is contained. -/
theorem containsIn_orderly (arg receiver : Value) : Orderly (containsIn arg receiver) := by
  unfold containsIn
  split
  -- in a list, an associative array or a text
  · next hkind => exact orderly_bind (asArray_orderly hkind) fun _ _ => orderly_ok _
  · next hkind =>
    split
    · exact orderly_bind (asAssoc_orderly hkind) fun _ _ => orderly_ok _
    · exact orderly_ok _
  · next hkind =>
    split
    · next harg =>
      refine orderly_bind (asText_orderly harg) fun part _ => ?_
      exact orderly_bind (asText_orderly hkind) fun _ _ => orderly_ok _
    · exact orderly_error trivial
  · exact orderly_error trivial

/-- The part from a position on. -/
theorem slice_orderly (arg receiver : Value) : Orderly (slice arg receiver) := by
  unfold slice
  split
  · next harg =>
    refine orderly_bind (asInt_orderly harg) fun start _ => ?_
    split
    · exact orderly_error trivial
    · split
      · next hkind =>
        refine orderly_bind (asArray_orderly hkind) fun items _ => ?_
        split
        · exact orderly_ok _
        -- The start was compared with the length just before.
        · exact orderly_bind (Trusted.rest_orderly (by omega)) fun _ _ => orderly_ok _
      · next hkind =>
        refine orderly_bind (asText_orderly hkind) fun t _ => ?_
        dsimp only
        split
        · exact orderly_ok _
        · exact orderly_bind (Trusted.rest_orderly (by omega)) fun _ _ => orderly_ok _
      · exact orderly_error trivial
  · exact orderly_error trivial

/-- An item at random. -/
theorem pickFrom_orderly (random : Random) (receiver : Value) :
    Orderly (pickFrom random receiver).1 := by
  unfold pickFrom
  split
  · exact orderly_error trivial
  · exact orderly_ok _
  · next items hne _ =>
    -- An empty array was sorted out, so there is something to pick.
    have hpos : 0 < items.length := List.length_pos_of_ne_nil fun h => hne (by rw [h])
    exact Trusted.item_orderly (Random.below_lt hpos random)

/-- An array with one item more. -/
theorem pushTo_orderly (arg receiver : Value) : Orderly (pushTo arg receiver) := by
  unfold pushTo
  split
  · next hkind => exact orderly_bind (asArray_orderly hkind) fun _ _ => orderly_ok _
  · exact orderly_error trivial

/-- A sorted array, if its items can be compared. -/
theorem sorted_orderly (receiver : Value) : Orderly (sorted receiver) := by
  unfold sorted
  split
  · next hkind =>
    refine orderly_bind (asArray_orderly hkind) fun items _ => ?_
    split
    · exact orderly_error trivial
    · exact orderly_ok _
  · exact orderly_error trivial

/-- The number that a text stands for. -/
theorem numberOf_orderly (receiver : Value) : Orderly (numberOf receiver) := by
  unfold numberOf
  split
  · exact orderly_ok _
  · exact orderly_ok _
  · next hkind =>
    -- An integer, a double, or neither.
    refine orderly_bind (asText_orderly hkind) fun t _ => ?_
    split
    · exact orderly_ok _
    · exact orderly_ok _
    · exact orderly_error trivial
  · exact orderly_error trivial

/-- Any method, with its argument or with nothing for one. -/
theorem apply_orderly (m : Method) (receiver arg : Value) (random : Random) :
    Orderly (m.apply receiver arg random).1 := by
  cases m with
  | length => exact lengthOf_orderly _ receiver
  | count => exact lengthOf_orderly _ receiver
  | contains => exact containsIn_orderly arg receiver
  | isText => exact orderly_ok _
  | isArray => exact orderly_ok _
  | isNoArray => exact orderly_ok _
  | isNumber => exact orderly_ok _
  | sliceFrom => exact slice_orderly arg receiver
  | pick => exact pickFrom_orderly random receiver
  | push => exact pushTo_orderly arg receiver
  | sort => exact sorted_orderly receiver
  | toText => exact orderly_ok _
  | toNumber => exact numberOf_orderly receiver

/-- Any method, with as many arguments as it takes. -/
theorem invoke_orderly (m : Method) (receiver : Value) (arg : Option Value) (random : Random) :
    Orderly (m.invoke receiver arg random).1 := by
  unfold invoke
  split
  · exact apply_orderly m receiver _ random
  · exact orderly_error trivial

end Method

/-! ## Operators with any words

A node that was not read off tokens may have any word for an operator. The failure may then be one that no
program runs into, but it is still none of the limits of the run. -/

/-- An operation whose failures are not about how far the run may go. -/
def Contained {α : Type} (x : Except Failure α) : Prop := ∀ f, x = .error f → ¬ f.OfRun

section

variable {α β : Type}

/-- What is orderly is contained. -/
theorem Orderly.contained {x : Except Failure α} (h : Orderly x) : Contained x :=
  fun f hf => (h f hf).not_ofRun

/-- A failure that is not about the limits of a run. -/
theorem contained_error {f : Failure} (h : ¬ f.OfRun) : Contained (.error f : Except Failure α) :=
  fun _ hf => Except.error.inj hf ▸ h

/-- One operation after the other. -/
theorem contained_bind {x : Except Failure α} {next : α → Except Failure β} (hx : Contained x)
    (hnext : ∀ a, Contained (next a)) : Contained (x >>= next) := by
  cases x with
  | error f => exact contained_error (hx f rfl)
  | ok a => exact hnext a

/-- Trusting a position that does not exist is no limit of a run. -/
theorem Trusted.item_contained (xs : List α) (i : Nat) : Contained (Trusted.item xs i) := by
  unfold Trusted.item
  split
  · exact (orderly_ok _).contained
  · exact contained_error fun h => h

end

namespace Value

/-- Arithmetic with any word. -/
theorem arithmetic_contained (word : Text) (left right : Value) :
    Contained (arithmetic word left right) := by
  -- What is no word for an operation is unknown, or the operands do not fit. Neither concerns the run.
  by_cases hword : (ArithOp.ofWord? word).isSome = true
  · exact (arithmetic_orderly hword left right).contained
  · rw [Bool.not_eq_true, Option.isSome_eq_false_iff, Option.isNone_iff_eq_none] at hword
    unfold arithmetic
    rw [hword]
    split
    · exact (orderly_ok _).contained
    · split
      · exact contained_error fun h => h
      · exact contained_error fun h => h

/-- Counting with any word. -/
theorem step_contained (word : Text) (v : Value) : Contained (v.step word) := by
  by_cases hword : word = "plusplus" ∨ word = "minusminus"
  · exact (step_orderly hword v).contained
  -- Any other word is neither of the two that are tested for.
  · have hplus : (word == utf8 "plusplus") = false := by
      rw [beq_eq_false_iff_ne]
      exact fun h => hword (.inl h)
    have hminus : (word == utf8 "minusminus") = false := by
      rw [beq_eq_false_iff_ne]
      exact fun h => hword (.inr h)
    unfold step
    rw [hplus, hminus]
    exact contained_error fun h => h

/-- Comparing with any word. -/
theorem compareBy_contained (word : Text) (left right : Value) :
    Contained (compareBy word left right) := by
  unfold compareBy
  split
  · exact (orderly_ok _).contained
  · split
    · exact (orderly_ok _).contained
    · split
      · exact contained_error fun h => h
      · split
        · exact (orderly_ok _).contained
        · exact contained_error fun h => h

/-- Folding with any words, however many truth values there are. -/
theorem fold_contained (results : List Bool) (ops : List Text) : ∀ (acc : Bool) (i : Nat),
    Contained (foldChain.fold results acc i ops) := by
  induction ops with
  | nil => exact fun acc i => (orderly_ok acc).contained
  | cons op ops ih =>
    intro acc i
    -- A truth value that is missing is a defect, and no failure of the run either.
    have hitem := contained_bind (Trusted.item_contained results i) fun b => ih b (i + 1)
    unfold foldChain.fold
    split
    · split
      · exact hitem
      · exact ih _ _
    · split
      · split
        · exact ih _ _
        · exact hitem
      · exact contained_error fun h => h

/-- A chain with any words. -/
theorem foldChain_contained (results : List Bool) (ops : List Text) :
    Contained (foldChain results ops) :=
  contained_bind (Trusted.item_contained results 0) fun first => fold_contained results ops first 1

end Value

/-! ## Words that tokens carry

The scanner makes tokens with these words only, so the operators of a program that was read have a meaning.
-/

namespace Token

/-- An arithmetic word stands after its operand or is one of the four operators. -/
theorem Kind.Carries.arithmetic {op : Text} (h : Kind.arithmetic.Carries op) :
    op = "plusplus" ∨ op = "minusminus" ∨ (Value.ArithOp.ofWord? op).isSome = true := by
  have hrule : (Kind.arithmetic, Pattern.word ["plusplus", "minusminus", "mal", "dividier", "plus",
    "minus"]) ∈ rules := by simp [rules]
  have hmem := h.mem_words hrule (by decide)
  simp only [List.mem_cons, List.not_mem_nil, or_false] at hmem
  rcases hmem with rfl | rfl | rfl | rfl | rfl | rfl
  · exact .inl rfl
  · exact .inr (.inl rfl)
  all_goals exact .inr (.inr (by decide))

/-- A word of comparison is one of the two for equality or has an order test. -/
theorem Kind.Carries.comparison {op : Text} (h : Kind.comparison.Carries op) :
    op = "gleich" ∨ op = "isned" ∨ (Value.orderTest? op).isSome = true := by
  have hrule : (Kind.comparison, Pattern.word ["gleich", "isned", "klanaglei", "größerglei",
    "gößerglei", "klana", "größer"]) ∈ rules := by simp [rules]
  have hmem := h.mem_words hrule (by decide)
  simp only [List.mem_cons, List.not_mem_nil, or_false] at hmem
  rcases hmem with rfl | rfl | rfl | rfl | rfl | rfl | rfl
  · exact .inl rfl
  · exact .inr (.inl rfl)
  all_goals exact .inr (.inr (by decide +kernel))

/-- A logical operator is one of two words. -/
theorem Kind.Carries.link {op : Text} (h : Kind.andWord.Carries op ∨ Kind.orWord.Carries op) :
    op = "und" ∨ op = "oda" := by
  have hand : (Kind.andWord, Pattern.word ["und"]) ∈ rules := by simp [rules]
  have hor : (Kind.orWord, Pattern.word ["oda"]) ∈ rules := by simp [rules]
  rcases h with h | h
  · exact .inl (List.mem_singleton.mp (h.mem_words hand (by decide)))
  · exact .inr (List.mem_singleton.mp (h.mem_words hor (by decide)))

end Token

end Mundart
