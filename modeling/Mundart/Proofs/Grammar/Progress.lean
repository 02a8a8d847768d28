import Mathlib.Logic.Function.Iterate
import Mundart.Proofs.Grammar.Derivation.Statements

/-!
# Productions make progress

A production that finds a node leaves fewer tokens than it was given, and so do the productions inside it.
Hence a production asks the reader of smaller expressions or statements about later tokens only, and what
that reader would say of other tokens does not matter. Both facts need each other: that a second question
is about later tokens is the progress of the first answer.

* **`Later ts rest`** — what is left of some tokens behind at least one of them;
* **`Matches ts P x y`** — two readings among the tokens `ts` come to the same, a complaint about one of
  these places or a result for which `P` holds;
* **`Concurs bound p q`** — two productions do so, with fewer tokens left, for all tokens that are fewer
  than a bound; **`Advances p`** — a production does so with itself, whatever the tokens;
* **`iterate_concurs`** — nested often enough, such a production does not depend on its innermost calls.

`Progress.Expressions` and `Progress.Statements` go through the productions.
-/

namespace Mundart

namespace Grammar

variable {α β : Type} {ts rest after : List Token}

/-! ## Places

A syntax error names a token or the end. The tokens that a production passes on are always an end of those
that it was given, so the places it complains about are places of its own tokens. -/

/-- A complaint about a place among the tokens, or about their end. -/
def Among (ts : List Token) (e : SyntaxError) : Prop :=
  ∃ rest, rest <:+ ts ∧ e.position = rest.head?.map Token.position

/-- What is left of the tokens behind at least one of them. -/
structure Later (ts rest : List Token) : Prop where
  suffix : rest <:+ ts
  shorter : rest.length < ts.length

/-- Later in some tokens that are an end of others. -/
theorem Later.behind (h : Later rest after) (hrest : rest <:+ ts) : Later ts after :=
  ⟨h.suffix.trans hrest, Nat.lt_of_lt_of_le h.shorter hrest.length_le⟩

/-- An end of what is left is left as well. -/
theorem Later.shorten (h : Later ts rest) (hafter : after <:+ rest) : Later ts after :=
  ⟨hafter.trans h.suffix, Nat.lt_of_le_of_lt hafter.length_le h.shorter⟩

/-- What is left is shorter than the next smaller bound. -/
theorem Later.lt {bound : Nat} (h : Later ts rest) (hlt : ts.length < bound + 1) : rest.length < bound :=
  Nat.lt_of_lt_of_le h.shorter (Nat.le_of_lt_succ hlt)

/-- What follows a token is later. -/
theorem later_of_cons {t : Token} (h : t :: rest <:+ ts) : Later ts rest := by
  apply Later.behind _ h
  exact ⟨List.suffix_cons t rest, Nat.lt_succ_self _⟩

/-- One token more has been read. -/
theorem Later.tail {t : Token} (h : Later ts (t :: rest)) : Later ts rest :=
  (later_of_cons List.suffix_rfl).behind h.suffix

/-- What follows the first token. -/
theorem later_cons (t : Token) (rest : List Token) : Later (t :: rest) rest :=
  later_of_cons List.suffix_rfl

/-- Nothing was found, or a node with fewer tokens left. -/
inductive Onward (ts : List Token) : Option (Node × List Token) → Prop where
  | nothing : Onward ts none
  | node (n : Node) {rest : List Token} (h : Later ts rest) : Onward ts (some (n, rest))

/-- Progress in an end of the tokens is progress in the tokens. -/
theorem Onward.behind {found : Option (Node × List Token)} (h : Onward rest found) (hrest : rest <:+ ts) :
    Onward ts found := by
  cases h with
  | nothing => exact .nothing
  | node n h => exact .node n (h.behind hrest)

/-- A node that was found has left fewer tokens. -/
theorem Onward.later {n : Node} (h : Onward ts (some (n, rest))) : Later ts rest := by
  cases h with
  | node _ h => exact h

/-! ## Readings that come to the same

For a production that is compared with itself this says that it makes progress and that its complaints are
about its own tokens; for two productions, that they are the same on these tokens besides. -/

/-- Two readings among the tokens that come to the same: they complain about one of these places, or they
have a result as wanted. -/
inductive Matches (ts : List Token) (P : α → Prop) :
    Except SyntaxError α → Except SyntaxError α → Prop where
  | fails {e : SyntaxError} (h : Among ts e) : Matches ts P (.error e) (.error e)
  | gives {a : α} (h : P a) : Matches ts P (.ok a) (.ok a)

namespace Matches

variable {P : α → Prop} {Q : β → Prop} {x y : Except SyntaxError α}

/-- Readings that come to the same are equal. -/
theorem eq (h : Matches ts P x y) : x = y := by
  cases h with
  | fails => rfl
  | gives => rfl

/-- More tokens and a weaker wish. -/
theorem mono {P' : α → Prop} (h : Matches rest P x y) (hrest : rest <:+ ts) (hP : ∀ a, P a → P' a) :
    Matches ts P' x y := by
  cases h with
  | fails h =>
    obtain ⟨place, hplace, hposition⟩ := h
    exact .fails ⟨place, hplace.trans hrest, hposition⟩
  | gives h => exact .gives (hP _ h)

/-- The same complaint on both sides. -/
theorem complain (h : rest <:+ ts) (c : Complaint) : Matches ts P (complain rest c) (complain rest c) :=
  .fails ⟨rest, h, rfl⟩

/-- Step by step: what comes next comes to the same after a result as wanted. -/
theorem bind {f g : α → Except SyntaxError β} (h : Matches ts P x y)
    (hnext : ∀ a, P a → Matches ts Q (f a) (g a)) : Matches ts Q (x >>= f) (y >>= g) := by
  cases h with
  | fails h => exact .fails h
  | gives h => exact hnext _ h

/-- A function of the result. -/
theorem map {f : α → β} (h : Matches ts P x y) (hf : ∀ a, P a → Q (f a)) :
    Matches ts Q (f <$> x) (f <$> y) := by
  cases h with
  | fails h => exact .fails h
  | gives h => exact .gives (hf _ h)

/-- What comes next need only be equal after a result as wanted. -/
theorem bind_congr {f g : α → Except SyntaxError β} (h : Matches ts P x y)
    (hfg : ∀ a, P a → f a = g a) : (x >>= f) = (y >>= g) := by
  cases h with
  | fails => rfl
  | gives h => exact hfg _ h

/-- The second reading comes to the same as itself. -/
theorem right (h : Matches ts P x y) : Matches ts P y y := by
  cases h with
  | fails h => exact .fails h
  | gives h => exact .gives h

/-- A reading of an end of the tokens, behind at least one of them. -/
theorem within {x y : Except SyntaxError (α × List Token)} (h : Matches rest (fun r => r.2 <:+ rest) x y)
    (hrest : Later ts rest) : Matches ts (fun r => Later ts r.2) x y :=
  h.mono hrest.suffix fun _ hr => hrest.shorten hr

/-- An expected token. -/
theorem of_expect {kind : Token.Kind} {construct : Text} (h : rest <:+ ts) :
    Matches ts (Later ts) (expect kind construct rest) (expect kind construct rest) := by
  unfold expect
  split
  · split
    · exact .gives (later_of_cons h)
    · exact .complain h _
  · exact .complain h _

/-- A node that must be there. -/
theorem of_require {p q : Production} {c : Complaint} (h : rest <:+ ts)
    (hp : Matches ts (Onward ts) (p rest) (q rest)) :
    Matches ts (fun r => Later ts r.2) (require p c rest) (require q c rest) := by
  refine .bind hp fun found hfound => ?_
  cases hfound with
  | nothing => exact .complain h c
  | node n hafter => exact .gives hafter

/-- What goes on after an expected token. -/
theorem expect {kind : Token.Kind} {construct : Text} {f g : List Token → Except SyntaxError β}
    (h : rest <:+ ts) (hnext : ∀ {after}, Later ts after → Matches ts Q (f after) (g after)) :
    Matches ts Q (expect kind construct rest >>= f) (expect kind construct rest >>= g) :=
  .bind (.of_expect h) fun _ hafter => hnext hafter

/-- What goes on after a node that must be there. -/
theorem require {p q : Production} {c : Complaint} {f g : Node × List Token → Except SyntaxError β}
    (h : rest <:+ ts) (hp : Matches ts (Onward ts) (p rest) (q rest))
    (hnext : ∀ n {after}, Later ts after → Matches ts Q (f (n, after)) (g (n, after))) :
    Matches ts Q (require p c rest >>= f) (require q c rest >>= g) :=
  .bind (.of_require h hp) fun r hafter => hnext r.1 hafter

end Matches

/-! ## Productions

What has been said of two readings, now for two productions and all tokens below a bound. -/

/-- Two productions come to the same for all tokens that are fewer than a bound, and make progress there. -/
def Concurs (bound : Nat) (p q : Production) : Prop :=
  ∀ ⦃ts : List Token⦄, ts.length < bound → Matches ts (Onward ts) (p ts) (q ts)

namespace Concurs

variable {bound : Nat} {p q : Production}

/-- In an end of the tokens that is below the bound. -/
theorem behind (h : Concurs bound p q) (hlt : rest.length < bound) (hrest : rest <:+ ts) :
    Matches ts (Onward ts) (p rest) (q rest) :=
  (h hlt).mono hrest fun _ hfound => hfound.behind hrest

/-- In later tokens the bound may be larger by one. -/
theorem later (h : Concurs bound p q) (hlt : ts.length < bound + 1) (hrest : Later ts rest) :
    Matches ts (Onward ts) (p rest) (q rest) :=
  h.behind (hrest.lt hlt) hrest.suffix

/-- The second production comes to the same as itself. -/
theorem right (h : Concurs bound p q) : Concurs bound q q := fun _ hlt => (h hlt).right

end Concurs

/-- The production makes progress, whatever the tokens. -/
def Advances (p : Production) : Prop := ∀ ts : List Token, Matches ts (Onward ts) (p ts) (p ts)

namespace Advances

variable {p : Production}

/-- A production that concurs with itself at every bound makes progress. -/
theorem of_concurs (h : ∀ bound, Concurs (bound + 1) p p) : Advances p :=
  fun ts => h ts.length (Nat.lt_succ_self _)

/-- What a rule reads with the help of a production. -/
theorem rule {rule : Production → Production} (h : Advances p)
    (hrule : ∀ {bound q r}, Concurs bound q r → Concurs (bound + 1) (rule q) (rule r)) :
    Advances (rule p) :=
  of_concurs fun _ => hrule fun ts _ => h ts

/-- What makes progress concurs with itself. -/
theorem concurs (h : Advances p) {bound : Nat} : Concurs bound p p := fun ts _ => h ts

/-- In an end of the tokens. -/
theorem behind (h : Advances p) (hrest : rest <:+ ts) : Matches ts (Onward ts) (p rest) (p rest) :=
  (h rest).mono hrest fun _ hfound => hfound.behind hrest

end Advances

/-- An ordered choice between productions that concur one by one. -/
theorem firstOf_concurs {bound : Nat} {ps qs : List Production} (h : List.Forall₂ (Concurs bound) ps qs) :
    Concurs bound (firstOf ps) (firstOf qs) := by
  induction h with
  | nil => exact fun _ _ => .gives .nothing
  | cons hp _ ih =>
    intro ts hlt
    refine .bind (hp hlt) fun found hfound => ?_
    -- A choice that finds nothing goes on with the same tokens.
    cases hfound with
    | nothing => exact ih hlt
    | node n h => exact .gives (.node n h)

/-! ## Nesting

The productions of expressions and of statements contain themselves, down to a depth. At each level the
bound on the tokens goes down by one, so with as many levels as there are tokens the innermost call is never
asked. -/

/-- A rule that asks about later tokens only, nested as often as there are tokens or more, comes to the same
whatever its innermost calls would give. -/
theorem iterate_concurs {rule : Production → Production}
    (hrule : ∀ {bound p q}, Concurs bound p q → Concurs (bound + 1) (rule p) (rule q))
    (deeper deeper' : Production) (bound : Nat) : ∀ {n m}, bound ≤ n → bound ≤ m →
    Concurs bound (rule^[n] deeper) (rule^[m] deeper') := by
  -- By induction on the bound: both sides have a call left for the tokens that are fewer.
  induction bound with
  | zero => exact fun _ _ _ hlt => absurd hlt (Nat.not_lt_zero _)
  | succ bound ih =>
    intro n m hn hm
    cases n with
    | zero => exact absurd hn (Nat.not_succ_le_zero _)
    | succ n =>
      cases m with
      | zero => exact absurd hm (Nat.not_succ_le_zero _)
      | succ m =>
        rw [Function.iterate_succ_apply', Function.iterate_succ_apply']
        exact hrule (ih (Nat.le_of_succ_le_succ hn) (Nat.le_of_succ_le_succ hm))

/-- A bound that is counted down is a number of nested calls. -/
theorem eq_iterate (call : α → α) (upTo : Nat → α) (h : ∀ n, upTo (n + 1) = call (upTo n)) (n : Nat) :
    upTo n = call^[n] (upTo 0) := by
  induction n with
  | zero => rfl
  | succ n ih => rw [h, ih, Function.iterate_succ_apply']

/-- For a bound on the nesting, the number of tokens is enough. -/
theorem nested_concurs {rule : Production → Production} {upTo : Nat → Production}
    (hrule : ∀ {bound p q}, Concurs bound p q → Concurs (bound + 1) (rule p) (rule q))
    (hupTo : ∀ n, upTo (n + 1) = rule (upTo n)) (deeper : Production) (n : Nat) :
    Concurs n (rule^[n] deeper) fun ts => upTo (ts.length + 1) ts := by
  intro ts hlt
  show Matches ts (Onward ts) (rule^[n] deeper ts) (upTo (ts.length + 1) ts)
  rw [eq_iterate rule upTo hupTo (ts.length + 1)]
  exact iterate_concurs hrule deeper _ (ts.length + 1) hlt (Nat.le_refl _) (Nat.lt_succ_self _)

end Grammar

end Mundart
