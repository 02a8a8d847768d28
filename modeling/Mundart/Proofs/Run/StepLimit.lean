import Mundart.Proofs.Run.Coupling
import Mundart.Proofs.Run.Halting

/-!
# Raising the step limit

A run under a step limit and a run under a larger one do the same until the smaller limit is
exceeded. The first one ends there; the other one goes on and keeps what was printed and recorded.

* **`tick_limits`** — counting parts two runs only at the smaller limit;
* **`runStatements_loosened`** — two runs are the same, or the first one ends at its limit;
* **`runProgram_loosened`** — a run that does not end at its limit does not depend on it;
* **`runProgram_extends_limit`** — a larger limit only extends a run.
-/

namespace Mundart

open Mundart.Action

/-- A run beside one with a larger step limit. Past the smaller limit the second one has printed what
the first one had, and counted more than the first one may. -/
def limits (s : Settings) (n k : Int)
    (hfetch : ∀ i url max, (s.fetcher i url).result ≠ .error (.stepLimit max)) : Coupling where
  left := { s with maxSteps := n }
  right := { s with maxSteps := k }
  lead := 0
  shared f := ∀ max, f ≠ .stepLimit max
  parts f := f = .stepLimit n
  parted m m' := m.printed <:+ m'.printed ∧ n < m'.steps
  contained := by
    rintro f hf max rfl
    exact hf trivial
  fetcher := rfl
  fetchFails := by
    rintro i url f hf max rfl
    exact hfetch i url max hf
  writeLimit := rfl
  later h hlater := ⟨h.1.trans hlater.printed, by have := hlater.steps; omega⟩
  leave h := h

section

variable {s : Settings} {n k : Int}
  {hfetch : ∀ i url max, (s.fetcher i url).result ≠ .error (.stepLimit max)}

/-- Counting a statement is the same under both limits, or the smaller one is reported. -/
theorem tick_limits (hn : 0 < n) (hlt : n < k ∨ k ≤ 0) : (limits s n k hfetch).Couples tick := by
  intro m
  have hcounted : ∀ m', (tick (limits s n k hfetch).right m).machine? = some m' →
      m' = { m with steps := m.steps + 1 } := by
    intro m' h
    unfold tick at h
    dsimp only at h
    split at h
    · exact (Option.some.inj h).symm
    · split at h
      · exact (Option.some.inj h).symm
      · exact (Option.some.inj h).symm
  by_cases hexceeded : n < ((m.steps + 1 : Nat) : Int)
  -- The smaller limit is exceeded, whatever the other run makes of this statement.
  · have hleft : tick (limits s n k hfetch).left m =
        .failed (.stepLimit n) { m with steps := m.steps + 1 } := by
      have hlimit : (decide (0 < n) && decide (n < ((m.steps + 1 : Nat) : Int))) = true := by
        simp only [Bool.and_eq_true, decide_eq_true_eq]
        exact ⟨hn, hexceeded⟩
      exact if_pos hlimit
    rw [hleft]
    refine .inr ⟨rfl, fun m' hm' => ?_⟩
    rw [hcounted m' hm']
    exact ⟨List.suffix_rfl, hexceeded⟩
  · have htick : ∀ max : Int, max ≤ 0 ∨ n ≤ max → tick { s with maxSteps := max } m = m.counted := by
      intro max hmax
      have hroom : max ≤ 0 ∨ (m.steps : Int) < max := by omega
      exact tick_within hroom
    show (limits s n k hfetch).Holds (tick { s with maxSteps := n } m) (tick { s with maxSteps := k } m)
    rw [htick n (.inr (Int.le_refl n)), htick k (by omega), Machine.counted]
    split
    · exact .inl ⟨by simp [limits], rfl⟩
    · exact rfl

/-- A statement does the same under both limits, or it exceeds the smaller one. -/
theorem exec_limits (hn : 0 < n) (hlt : n < k ∨ k ≤ 0) (fuel : Nat) (node : Node) :
    (limits s n k hfetch).Couples (exec fuel node) :=
  (Coupling.coupled (tick_limits hn hlt) (.checkDepth rfl (by simp [limits])) fuel).exec node

/-- Two runs under different limits, of which the second one may be none, are the same, or the first one
ends at its limit and the second one keeps what it had printed and recorded before. -/
theorem runStatements_loosened
    (hfetch : ∀ i url max, (s.fetcher i url).result ≠ .error (.stepLimit max)) (hn : 0 < n)
    (hlt : n < k ∨ k ≤ 0) {fuel : Nat} {ns : Program} :
    ∀ {r r₁ : Result} {m m₁ : Machine}, r.stop = none →
    runStatements fuel { s with maxSteps := n } ns r m = some (r₁, m₁) →
    ((∀ max, r₁.stop ≠ some (.stepLimit max)) ∧
      runStatements fuel { s with maxSteps := k } ns r m = some (r₁, m₁)) ∨
    (r₁.stop = some (.stepLimit n) ∧ ∃ fs, r₁.failures = .stepLimit n :: fs ∧
      ∀ r₂ m₂, runStatements fuel { s with maxSteps := k } ns r m = some (r₂, m₂) →
        fs <:+ r₂.failures ∧ m₁.printed <:+ m₂.printed ∧ n < m₂.steps) := by
  induction ns with
  | nil =>
    intro r r₁ m m₁ hr h
    obtain ⟨rfl, rfl⟩ := Prod.mk.inj (Option.some.inj h)
    exact .inl ⟨by simp [hr], rfl⟩
  | cons node ns ih =>
    intro r r₁ m m₁ hr h
    have hexec : (limits s n k hfetch).Holds (exec fuel node { s with maxSteps := n } m)
        (exec fuel node { s with maxSteps := k } m) := exec_limits hn hlt fuel node m
    cases hint : m.interruption with
    | some cause =>
      rw [runStatements, hint] at h
      obtain ⟨rfl, rfl⟩ := Prod.mk.inj (Option.some.inj h)
      refine .inl ⟨by simp, ?_⟩
      rw [runStatements, hint]
    | none =>
      rw [runStatements, hint] at h
      cases hrun : exec fuel node { s with maxSteps := n } m with
      | starved =>
        rw [hrun] at h
        exact absurd h (by simp)
      | done flow m₂ =>
        rw [hrun] at h hexec
        have hright : exec fuel node { s with maxSteps := k } m = .done flow m₂ := hexec
        rw [runStatements, hint, hright]
        cases flow with
        | next v => exact ih hr h
        | returned v =>
          obtain ⟨rfl, rfl⟩ := Prod.mk.inj (Option.some.inj h)
          exact .inl ⟨by simp [hr], rfl⟩
      | failed f m₂ =>
        rw [hrun] at h hexec
        rcases hexec with ⟨hshared, hsame⟩ | ⟨rfl, hparted⟩
        · have hright : exec fuel node { s with maxSteps := k } m = .failed f m₂ := hsame
          rw [runStatements, hint, hright]
          cases f with
          | interrupted cause =>
            obtain ⟨rfl, rfl⟩ := Prod.mk.inj (Option.some.inj h)
            exact .inl ⟨by simp, rfl⟩
          | stepLimit max => exact absurd rfl (hshared max)
          | _ => exact ih hr h
        -- The smaller limit ends the run here, and the other run keeps what there is.
        · obtain ⟨rfl, rfl⟩ := Prod.mk.inj (Option.some.inj h)
          refine .inr ⟨rfl, r.failures, rfl, fun r₂ m₃ hlarger => ?_⟩
          obtain ⟨m₄, hended, hfailures, hlater⟩ := runStatements_cons_later hint hlarger
          obtain ⟨hprinted, hsteps⟩ := hparted m₄ hended
          have hmore := hlater.steps
          exact ⟨hfailures, hprinted.trans hlater.printed, by omega⟩

/-- Statements one after the other: both runs do the same until the smaller limit is reached, and then only
the one with the larger limit goes on. -/
theorem runStatements_limits
    (hfetch : ∀ i url max, (s.fetcher i url).result ≠ .error (.stepLimit max)) (hn : 0 < n)
    (hlt : n < k) {fuel : Nat} {ns : Program} {r r₁ : Result} {m m₁ : Machine} (hr : r.stop = none)
    (h : runStatements fuel { s with maxSteps := n } ns r m = some (r₁, m₁)) :
    ((∀ max, r₁.stop ≠ some (.stepLimit max)) ∧
      runStatements fuel { s with maxSteps := k } ns r m = some (r₁, m₁)) ∨
    (r₁.stop = some (.stepLimit n) ∧ ∃ fs, r₁.failures = .stepLimit n :: fs ∧
      ∀ r₂ m₂, runStatements fuel { s with maxSteps := k } ns r m = some (r₂, m₂) →
        fs <:+ r₂.failures ∧ m₁.printed <:+ m₂.printed ∧ n < m₂.steps) :=
  runStatements_loosened hfetch hn (.inl hlt) hr h

/-- A run that does not end at its limit is the same under a larger one and under none. -/
theorem runProgram_loosened
    (hfetch : ∀ i url max, (s.fetcher i url).result ≠ .error (.stepLimit max)) (hn : 0 < n)
    (hlt : n < k ∨ k ≤ 0) {fuel : Nat} {program : Program} {r : Result} {m m' : Machine}
    (h : runProgram fuel { s with maxSteps := n } program m = some (r, m'))
    (hstop : ∀ max, r.stop ≠ some (.stepLimit max)) :
    runProgram fuel { s with maxSteps := k } program m = some (r, m') := by
  obtain ⟨⟨r₁, m₁⟩, hrun, hend⟩ := Option.map_eq_some_iff.mp h
  obtain ⟨rfl, rfl⟩ := Prod.mk.inj hend
  rcases runStatements_loosened hfetch hn hlt rfl hrun with ⟨-, hlarger⟩ | ⟨hlimit, -⟩
  · rw [runProgram, hlarger]
    rfl
  · exact absurd hlimit (hstop n)

end

/-- A larger step limit only extends a run. A run that does not end at its limit is the same under
every larger one. Where a run does end there, its output and its failures but the last one are the
beginning of those under a larger limit, and more statements are counted there. Both runs end if the
program was read and the scope comes from a session. -/
theorem runProgram_extends_limit {s : Settings}
    (hfetch : ∀ i url max, (s.fetcher i url).result ≠ .error (.stepLimit max)) {n k : Int} (hn : 0 < n)
    (hlt : n < k) (program : Program) (m : Machine) :
    (∀ fuel r m', runProgram fuel { s with maxSteps := n } program m = some (r, m') →
      (∀ max, r.stop ≠ some (.stepLimit max)) →
      runProgram fuel { s with maxSteps := k } program m = some (r, m')) ∧
    (∀ fuel r m₁ max, runProgram fuel { s with maxSteps := n } program m = some (r, m₁) →
      r.stop = some (.stepLimit max) → ∀ fuel' r' m₂,
      runProgram fuel' { s with maxSteps := k } program m = some (r', m₂) →
      r.output <+: r'.output ∧ r.diagnostics.dropLast <+: r'.diagnostics ∧ n < r'.steps) ∧
    (s.Polite → ∀ source, Program.parse source = .ok program → Session.Reachable m.scope →
      ∃ fuel r r' m₁ m₂, runProgram fuel { s with maxSteps := n } program m = some (r, m₁) ∧
        runProgram fuel { s with maxSteps := k } program m = some (r', m₂)) := by
  refine ⟨fun fuel r m' h hstop => ?_, fun fuel r m₁ max h hstop fuel' r' m₂ h' => ?_,
    fun hs source hparse hm => ?_⟩
  · obtain ⟨⟨r₁, m₁⟩, hrun, hend⟩ := Option.map_eq_some_iff.mp h
    obtain ⟨rfl, rfl⟩ := Prod.mk.inj hend
    rcases runStatements_limits hfetch hn hlt rfl hrun with ⟨-, hlarger⟩ | ⟨hlimit, -⟩
    · rw [runProgram, hlarger]
      rfl
    · exact absurd hlimit (hstop n)
  · obtain ⟨⟨r₁, m₁'⟩, hrun, hend⟩ := Option.map_eq_some_iff.mp h
    obtain ⟨rfl, rfl⟩ := Prod.mk.inj hend
    obtain ⟨⟨r₂, m₂'⟩, hrun', hend'⟩ := Option.map_eq_some_iff.mp h'
    obtain ⟨rfl, rfl⟩ := Prod.mk.inj hend'
    -- Both runs have the same answers with the larger of the two bounds.
    have hleft := runStatements_extends (le_max_left fuel fuel') hrun
    have hright := runStatements_extends (le_max_right fuel fuel') hrun'
    rcases runStatements_limits hfetch hn hlt rfl hleft with ⟨hnone, -⟩ | ⟨-, fs, hfailures, hlarger⟩
    · exact absurd hstop (hnone max)
    · obtain ⟨hkept, hprinted, hsteps⟩ := hlarger r₂ m₂' hright
      obtain ⟨-, hlater⟩ := runStatements_later hleft
      refine ⟨?_, ?_, hsteps⟩
      · show m₁'.outputSince _ <+: m₂'.outputSince _
        rw [Machine.outputSince_of_suffix hprinted hlater.printed.length_le]
        exact List.prefix_append _ _
      · show (List.map Failure.message r₁.failures.reverse).dropLast <+: _
        rw [hfailures, List.reverse_cons, List.map_append, List.map_singleton, List.dropLast_concat]
        exact (List.reverse_prefix.mpr hkept).map _
  · have hprogram : ∀ n ∈ program, n.Regular := Grammar.formed_of_parse hparse
    obtain ⟨fuel, r, m₁, hrun⟩ :=
      runProgram_ends (s := { s with maxSteps := n }) hs hn hprogram hm.sound
    obtain ⟨fuel', r', m₂, hrun'⟩ :=
      runProgram_ends (s := { s with maxSteps := k }) hs (Int.lt_trans hn hlt) hprogram hm.sound
    exact ⟨max fuel fuel', r, r', m₁, m₂, runProgram_extends (le_max_left _ _) hrun,
      runProgram_extends (le_max_right _ _) hrun'⟩

/-- `x; oida.sag(1);` under the limits one and two: the second statement is beyond the smaller limit.
The first statement alone, which fails, is the same under both. -/
theorem runProgram_extends_limit_printing :
    let program : Program := [.identifier "x", .print [.literal (.int 1)]]
    Program.parse "x; oida.sag(1);" = .ok program ∧
    (∃ r r' m₁ m₂, runProgram 3 { maxSteps := 1 } program {} = some (r, m₁) ∧
      runProgram 3 { maxSteps := 2 } program {} = some (r', m₂) ∧
      r.output = [] ∧ r'.output = "1\n" ∧ r.output <+: r'.output ∧
      r.diagnostics.dropLast <+: r'.diagnostics ∧ 1 < r'.steps) ∧
    ∃ r m₁, r.failures = [.unknownVariable "x"] ∧
      runProgram 3 { maxSteps := 2 } (program.take 1) {} = some (r, m₁) := by
  intro program
  have hfetch : ∀ i url max, (({} : Settings).fetcher i url).result ≠ .error (.stepLimit max) :=
    fun i url max h => nomatch Except.error.inj h
  refine ⟨rfl, ?_, ?_⟩
  · obtain ⟨r, m₁, hrun, hstop, hout⟩ : ∃ r m₁,
        runProgram 3 { maxSteps := 1 } program {} = some (r, m₁) ∧ r.stop = some (.stepLimit 1) ∧
          r.output = [] := ⟨_, _, rfl, rfl, rfl⟩
    obtain ⟨r', m₂, hrun', hout'⟩ : ∃ r' m₂,
        runProgram 3 { maxSteps := 2 } program {} = some (r', m₂) ∧ r'.output = "1\n" :=
      ⟨_, _, rfl, rfl⟩
    obtain ⟨-, hextended, -⟩ := runProgram_extends_limit (n := 1) (k := 2) hfetch (by decide)
      (by decide) program {}
    obtain ⟨houtput, hdiagnostics, hsteps⟩ := hextended 3 r m₁ 1 hrun hstop 3 r' m₂ hrun'
    exact ⟨r, r', m₁, m₂, hrun, hrun', hout, hout', houtput, hdiagnostics, by omega⟩
  · obtain ⟨r, m₁, hrun, hstop, hfailures⟩ : ∃ r m₁,
        runProgram 3 { maxSteps := 1 } (program.take 1) {} = some (r, m₁) ∧ r.stop = none ∧
          r.failures = [.unknownVariable "x"] := ⟨_, _, rfl, rfl, rfl⟩
    obtain ⟨hsame, -, -⟩ := runProgram_extends_limit (n := 1) (k := 2) hfetch (by decide) (by decide)
      (program.take 1) {}
    exact ⟨r, m₁, hfailures, hsame 3 r m₁ hrun (by simp [hstop])⟩

end Mundart
