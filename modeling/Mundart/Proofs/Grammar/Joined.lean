import Mundart.Proofs.Grammar.Follow.Statements
import Mundart.Proofs.Grammar.Nesting
import Mundart.Proofs.Token.Seam

/-!
# Programs behind one another

A program is read in front of a semicolon as it is read alone, and reading goes on behind the semicolon as
if the second program stood there alone. So two sources with a semicolon on a line between them are one
source, and its program is the first one with the second one behind it.

* **`statements_seam`** — the statements of the first program are read up to the semicolon;
* **`ofTokens_joined`**, **`parse_joined`** — two programs with a semicolon between them are read one
  after the other.
-/

namespace Mundart

namespace Grammar

variable {tail : List Token}

/-! ## The seam

The first program is read to its end, so its last statement ends where the semicolon stands. A semicolon at
its own end would be read along with that statement, and the one at the seam would then stand alone. -/

section Seam

variable {value : Text} {position : Nat} {more : List Token} {bound : Nat} {inner inner' : Production}
  (hinner : Agrees (⟨.semicolon, value, position⟩ :: more) bound inner inner')
  (hnil : inner [] = .ok none) (hsound : Sound .statement inner)

include hinner hnil hsound

/-- The statements of a program are read in front of a semicolon as they are at the end, and then
reading goes on behind the semicolon. -/
theorem statements_seam (k n : Nat) : ∀ (read : List Node) {ts ts' : List Token},
    Follows (⟨.semicolon, value, position⟩ :: more) ts ts' → ts.length < n → ts.length < bound →
    ts ≠ [] → (∀ v p, ¬ [⟨.semicolon, v, p⟩] <:+ ts) →
    ∀ {nodes : List Node}, statements inner n read ts = .ok (nodes, []) →
    ∃ n', statements inner' (k + n) read ts' = statements inner' (k + n') nodes.reverse more := by
  -- By induction on the bound. The tokens that are left are the end of the first program, and there is no
  -- semicolon at the end of them either.
  induction n with
  | zero => exact fun _ _ _ _ hlt => absurd hlt (Nat.not_lt_zero _)
  | succ n ih =>
    intro read ts ts' h hn hlt hne hlast nodes hrun
    obtain ⟨found, hfound, hrest⟩ := bind_eq_ok.mp hrun
    obtain ⟨found', hfound', hsame⟩ := hinner h hlt _ hfound
    rw [← Nat.add_assoc, statements, hfound']
    cases hsame with
    | none =>
      obtain ⟨-, rfl⟩ := Prod.mk.inj (Except.ok.inj hrest)
      exact absurd rfl hne
    | some node hleft hless =>
      have hsuffix := (hsound hfound).nests.suffix
      cases hleft with
      -- This was the last statement, and the semicolon of the seam is read along with it.
      | done =>
        have hend := hrest.symm.trans (statements_nil hnil n (node :: read))
        obtain ⟨rfl, -⟩ := Prod.mk.inj (Except.ok.inj hend)
        rw [List.reverse_reverse]
        exact ⟨n, rfl⟩
      | next kind v p p' hleft =>
        have hstay := Follows.next kind v p p' hleft
        have hshort := hless
        rw [List.length_cons] at hshort
        cases kind with
        | semicolon =>
          refine ih (node :: read) hleft (by omega) (by omega) ?_ (fun v' p'' hend => ?_) hrest
          · rintro rfl
            exact hlast v p hsuffix
          · exact hlast v' p'' (hend.trans ((List.suffix_cons _ _).trans hsuffix))
        | _ =>
          exact ih (node :: read) hstay (by omega) (by omega) (List.cons_ne_nil _ _)
            (fun v' p'' hend => hlast v' p'' (hend.trans hsuffix)) hrest

end Seam

/-- Tokens and the same ones with the tail behind them. -/
theorem Follows.append (ts : List Token) : Follows tail ts (ts ++ tail) := by
  induction ts with
  | nil => exact .done
  | cons t ts ih => exact .next t.kind t.value t.position t.position ih

/-- Tokens and the same ones at later positions. -/
theorem Follows.shifted (distance : Nat) (ts : List Token) : Follows [] ts (ts.map (Token.shift distance)) := by
  induction ts with
  | nil => exact .done
  | cons t ts ih => exact .next t.kind t.value t.position _ ih

end Grammar

/-! ## Programs

The first reading goes up to the semicolon as if the tokens ended there, and goes on behind it as the second
one does. -/

namespace Program

open Mundart.Grammar

/-- Two programs with a semicolon between them are read one after the other, if there is something
in the first one and no semicolon at its end. -/
theorem ofTokens_joined {ts₁ ts₂ ts₂' : List Token} {p₁ p₂ : Program} (h₁ : ofTokens ts₁ = .ok p₁)
    (h₂ : ofTokens ts₂ = .ok p₂) (hsame : Follows [] ts₂ ts₂') (hne : ts₁ ≠ [])
    (hlast : ∀ v p, ¬ [⟨.semicolon, v, p⟩] <:+ ts₁) (value : Text) (position : Nat) :
    ofTokens (ts₁ ++ ⟨.semicolon, value, position⟩ :: ts₂') = .ok (p₁ ++ p₂) := by
  have hlength : (ts₁ ++ ⟨.semicolon, value, position⟩ :: ts₂').length + 1 =
      (ts₂.length + 1) + (ts₁.length + 1) := by
    rw [List.length_append, List.length_cons, hsame.length, List.length_nil]
    omega
  rw [ofTokens_eq_ok] at h₁ h₂ ⊢
  rw [hlength]
  -- The first program is read up to the semicolon.
  have hfirst : Agrees (⟨.semicolon, value, position⟩ :: ts₂') (ts₁.length + 1)
      (statementAt (ts₁.length + 1)) (statementAt (ts₂.length + 1 + (ts₁.length + 1))) :=
    statementAt_agrees (.inr ⟨value, position, ts₂', rfl⟩) _ _
  obtain ⟨n, hseam⟩ := statements_seam hfirst (statementAt_nil _) (statementAt_sound _) (ts₂.length + 1)
    (ts₁.length + 1) [] (.append ts₁) (Nat.lt_succ_self _) (Nat.lt_succ_self _) hne hlast h₁
  rw [hseam]
  -- The second one is read behind the first one.
  have hsecond : Agrees [] (ts₂.length + 1) (statementAt (ts₂.length + 1))
      (statementAt (ts₁.length + 1 + (ts₂.length + 1))) := statementAt_agrees (.inl rfl) _ _
  obtain ⟨rest, hrun, hrest, -⟩ := statements_agrees hsecond (statementAt_nil _) n p₁.reverse
    (ts₂.length + 1) [] hsame (Nat.lt_succ_self _) (Nat.lt_succ_self _) h₂ fun _ => rfl
  cases hrest
  rw [Nat.add_comm (ts₁.length + 1), List.nil_append, List.reverse_reverse, Nat.add_comm n] at hrun
  exact hrun

/-- Two sources that are joined by a semicolon on a line of its own are read as the two programs, one after
the other. -/
theorem parse_joined {source₁ source₂ : Text} {p₁ p₂ : Program} (h₁ : parse source₁ = .ok p₁)
    (h₂ : parse source₂ = .ok p₂) (hne : Token.scan source₁ ≠ [])
    (hlast : (Token.scan source₁).getLast?.map Token.kind ≠ some .semicolon) :
    parse (source₁ ++ "\n;\n" ++ source₂) = .ok (p₁ ++ p₂) := by
  unfold parse
  rw [Token.scan_joined]
  refine ofTokens_joined h₁ h₂ (.shifted _ _) hne (fun v p hsuffix => hlast ?_) _ _
  obtain ⟨ts, hts⟩ := hsuffix
  rw [← hts, List.getLast?_concat]
  rfl

end Program

end Mundart
