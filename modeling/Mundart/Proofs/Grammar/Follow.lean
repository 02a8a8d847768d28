import Mathlib.Data.List.Forall2
import Mundart.Proofs.Grammar.Derivation

/-!
# Tokens that are read alike

Reading does not look at the positions of tokens, and it does not look beyond the end of what it
reads: where nothing more follows it stops in the same way as in front of a semicolon. Two lists of
tokens are therefore read alike if they differ in positions only and the second one goes on, behind
the end of the first one, with a semicolon (`Follows`). Only a syntax error may turn out differently,
so the statements here are about readings that succeed.

* **`Follows tail`** — the same tokens up to their positions, and a tail behind the second ones;
* **`Alike`** — what the first reading finds, the second one finds as well;
* **`Agrees tail bound p p'`** — two productions read alike what is shorter than a bound;
* **`expect_alike`**, **`require_alike`**, **`firstOf_agrees`** — the steps of a production, on both sides
  at once.

`Follow.Expressions` and `Follow.Statements` go through the productions, and `Joined` puts two programs
behind one another.
-/

namespace Mundart

namespace Grammar

/-- The same tokens, perhaps at other positions, and a tail behind them. -/
inductive Follows (tail : List Token) : List Token → List Token → Prop where
  | done : Follows tail [] tail
  | next (kind : Token.Kind) (value : Text) (position position' : Nat) {ts ts' : List Token}
      (h : Follows tail ts ts') :
      Follows tail (⟨kind, value, position⟩ :: ts) (⟨kind, value, position'⟩ :: ts')

/-- A tail in front of which reading stops: there is none, or it starts with a semicolon. -/
def Ends (tail : List Token) : Prop :=
  tail = [] ∨ ∃ value position more, tail = ⟨.semicolon, value, position⟩ :: more

/-- The second list is longer by the tail. -/
theorem Follows.length {tail ts ts' : List Token} (h : Follows tail ts ts') :
    ts'.length = tail.length + ts.length := by
  induction h with
  | done => rfl
  | next kind value position position' h ih =>
    rw [List.length_cons, List.length_cons, ih]
    omega

/-! ## Results

Two readings side by side. The first one is the one that is known to succeed; nothing is said of the second
one where the first one fails. -/

section

variable {α β γ δ : Type}

/-- The second result is related to the first one, if that is no error. -/
def Alike (R : α → β → Prop) (x : Except SyntaxError α) (y : Except SyntaxError β) : Prop :=
  ∀ a, x = .ok a → ∃ b, y = .ok b ∧ R a b

variable {R : α → β → Prop} {S : γ → δ → Prop}

/-- Two results that are related. -/
theorem Alike.ok {a : α} {b : β} (h : R a b) : Alike R (.ok a) (.ok b) := by
  intro a' ha
  obtain rfl := Except.ok.inj ha
  exact ⟨b, rfl, h⟩

/-- Of a complaint nothing is asked. -/
theorem Alike.complain {ts : List Token} {c : Complaint} {y : Except SyntaxError β} :
    Alike R (complain ts c) y :=
  fun _ ha => absurd ha not_complain

/-- Step by step: what comes next is alike after related results. -/
theorem Alike.bind {x : Except SyntaxError α} {y : Except SyntaxError β}
    {next : α → Except SyntaxError γ} {next' : β → Except SyntaxError δ} (h : Alike R x y)
    (hnext : ∀ a b, R a b → Alike S (next a) (next' b)) : Alike S (x >>= next) (y >>= next') := by
  intro c hc
  obtain ⟨a, ha, hc⟩ := bind_eq_ok.mp hc
  obtain ⟨b, rfl, hab⟩ := h a ha
  exact hnext a b hab c hc

/-- A weaker relation between the results. -/
theorem Alike.mono {R' : α → β → Prop} {x : Except SyntaxError α} {y : Except SyntaxError β}
    (h : Alike R x y) (hR : ∀ a b, R a b → R' a b) : Alike R' x y := by
  intro a ha
  obtain ⟨b, hb, hab⟩ := h a ha
  exact ⟨b, hb, hR a b hab⟩

end

variable {tail : List Token}

/-- The same was read, and fewer tokens than a bound are left. -/
inductive Reads {α : Type} (tail : List Token) (bound : Nat) :
    α × List Token → α × List Token → Prop where
  | mk (a : α) {rest rest' : List Token} (h : Follows tail rest rest') (hlt : rest.length < bound) :
      Reads tail bound (a, rest) (a, rest')

/-- Nothing was found, or the same node, and then fewer tokens than a bound are left. -/
inductive Found (tail : List Token) (bound : Nat) :
    Option (Node × List Token) → Option (Node × List Token) → Prop where
  | none : Found tail bound none none
  | some (n : Node) {rest rest' : List Token} (h : Follows tail rest rest')
      (hlt : rest.length < bound) : Found tail bound (some (n, rest)) (some (n, rest'))

/-- A larger bound for what is left. -/
theorem Found.mono {bound bound' : Nat} (hle : bound ≤ bound') (x y : Option (Node × List Token))
    (h : Found tail bound x y) : Found tail bound' x y := by
  cases h with
  | none => exact .none
  | some n h hlt => exact .some n h (Nat.lt_of_lt_of_le hlt hle)

/-- Two productions find the same in tokens that are fewer than a bound. -/
def Agrees (tail : List Token) (bound : Nat) (p p' : Production) : Prop :=
  ∀ {ts ts' : List Token}, Follows tail ts ts' → ts.length < bound →
    Alike (Found tail ts.length) (p ts) (p' ts')

/-! ## Steps

The checks of a production give the same on both sides, since the tokens are of the same kinds; at the end
of the first ones nothing is found but the end or a semicolon. -/

section

variable {α β : Type} {R : α → β → Prop} {ts ts' : List Token}

/-- A token of another kind than a semicolon comes next on both sides or on neither. -/
theorem nextIs_follows (htail : Ends tail) {kind : Token.Kind} (hkind : kind ≠ .semicolon)
    (h : Follows tail ts ts') : nextIs kind ts' = nextIs kind ts := by
  cases h with
  | next k value position position' h => rfl
  | done =>
    rcases htail with rfl | ⟨value, position, more, rfl⟩
    · rfl
    · exact beq_eq_false_iff_ne.mpr fun hsemi => hkind hsemi.symm

/-- An expected token that is there is passed over. -/
theorem expect_cons {kind : Token.Kind} {construct value : Text} {position : Nat} {rest : List Token} :
    expect kind construct (⟨kind, value, position⟩ :: rest) = .ok rest := if_pos rfl

/-- An expected token, and what comes next. -/
theorem expect_alike {kind : Token.Kind} {construct : Text}
    {next : List Token → Except SyntaxError α} {next' : List Token → Except SyntaxError β}
    (h : Follows tail ts ts')
    (hnext : ∀ {rest rest'}, Follows tail rest rest' → rest.length < ts.length →
      Alike R (next rest) (next' rest')) :
    Alike R (expect kind construct ts >>= next) (expect kind construct ts' >>= next') := by
  intro a ha
  obtain ⟨value, position, rest, rfl, hrest⟩ := expect_bind ha
  -- The token stands in front of the first tokens, so it does in front of the second ones.
  cases h with
  | @next _ _ _ position' _ rest' h =>
    obtain ⟨b, hb, hab⟩ := hnext h (Nat.lt_succ_self _) a hrest
    refine ⟨b, ?_, hab⟩
    rw [expect_cons]
    exact hb

/-- A node that must be there, and what comes next. -/
theorem require_alike {p p' : Production} {c : Complaint}
    {next : Node × List Token → Except SyntaxError α} {next' : Node × List Token → Except SyntaxError β}
    (hp : Alike (Found tail ts.length) (p ts) (p' ts'))
    (hnext : ∀ n {rest rest'}, Follows tail rest rest' → rest.length < ts.length →
      Alike R (next (n, rest)) (next' (n, rest'))) :
    Alike R (require p c ts >>= next) (require p' c ts' >>= next') := by
  intro a ha
  obtain ⟨n, rest, hfound, hrest⟩ := require_bind ha
  obtain ⟨found, hfound', hfinds⟩ := hp _ hfound
  cases hfinds with
  | @some _ _ rest' h hlt =>
    obtain ⟨b, hb, hab⟩ := hnext n h hlt a hrest
    have hrequire : require p' c ts' = .ok (n, rest') := by
      rw [require, hfound']
      rfl
    refine ⟨b, ?_, hab⟩
    rw [hrequire]
    exact hb

end

/-- A production that finds nothing at the end, nor in front of a semicolon, is looked at where there
is a token to read. -/
theorem agrees_of_next (htail : Ends tail) {bound : Nat} {p p' : Production} (hnil : p [] = .ok none)
    (hnil' : p' [] = .ok none)
    (hsemicolon : ∀ value position more, p' (⟨.semicolon, value, position⟩ :: more) = .ok none)
    (hnext : ∀ (kind : Token.Kind) (value : Text) (position position' : Nat) {ts ts' : List Token},
      Follows tail ts ts' → ts.length < bound →
      Alike (Found tail (ts.length + 1)) (p (⟨kind, value, position⟩ :: ts))
        (p' (⟨kind, value, position'⟩ :: ts'))) : Agrees tail (bound + 1) p p' := by
  intro ts ts' h hlt
  cases h with
  -- At the end of the first tokens the second ones have ended or go on with a semicolon.
  | done =>
    rw [hnil]
    rcases htail with rfl | ⟨value, position, more, rfl⟩
    · rw [hnil']
      exact .ok .none
    · rw [hsemicolon]
      exact .ok .none
  | next kind value position position' h =>
    exact hnext kind value position position' h (Nat.lt_of_succ_lt_succ hlt)

/-- An ordered choice between productions that agree one by one. -/
theorem firstOf_agrees {bound : Nat} {ps ps' : List Production}
    (h : List.Forall₂ (Agrees tail bound) ps ps') : Agrees tail bound (firstOf ps) (firstOf ps') := by
  -- The same alternative is chosen on both sides, since those before it find nothing on either.
  induction h with
  | nil => exact fun _ _ => .ok .none
  | cons hp _ ih =>
    intro ts ts' h hlt
    refine .bind (hp h hlt) fun a b hab => ?_
    cases hab with
    | none => exact ih h hlt
    | some n h hlt => exact .ok (.some n h hlt)

end Grammar

end Mundart
