import Mundart.Method
import Mundart.Proofs.Dict
import Mundart.Proofs.Sorting.StableSort
import Mundart.Proofs.Value.Comparison

/-!
# Sorting values

Sorting a list of values notes the first two values that it cannot compare, goes on as if they were in order,
and fails in the end. It is the sort that stops at such a pair, as long as there is none (`Follows`). One is
met in every list of two or more that holds neither numbers only nor texts only: merging asks about some
element of each part, and what can be compared with the same value can be compared with each other.

* **`stableSort_follows`** — noting what has no answer, and stopping there;
* **`sorted_eq`** — sorting a list of values, by the sort that stops;
* **`stableSort_eq_none_iff`** — when it stops;
* **`Keyed`**, **`sorts_of_keyed`** — lists whose order is that of keys: numbers by rank, texts by bytes;
* **`sort_exact`** — when sorting fails, and what it gives otherwise.
-/

namespace Mundart.Sorting

/-! ## Noting and stopping

The sort of the program never stops: what it cannot compare it notes, and takes as in order. The theory of
the sort is about one that stops. Every function of the sort is run in both ways here, and the two agree for
as long as every question has an answer. -/

section

variable {α β γ δ : Type}

/-- A computation that notes what has no answer follows one that stops there: it has the same result where the
other one has one, and has noted something where it has none. What is noted stays noted. -/
def Follows (x : StateM (Option δ) β) (y : Option β) : Prop :=
  (∀ seen, (x.run seen).2 = none → seen = none) ∧
    (∀ b, y = some b → x.run none = (b, none)) ∧ (y = none → (x.run none).2 ≠ none)

/-- What asks nothing has a result on both sides and notes nothing. -/
theorem follows_pure (b : β) : Follows (pure b : StateM (Option δ) β) (pure b) :=
  ⟨fun _ h => h, fun _ h => Option.some.inj h ▸ rfl, fun h => nomatch h⟩

/-- One computation after another: the second is met with the same value, unless the first one has noted
something, which is never forgotten. -/
theorem follows_bind {x : StateM (Option δ) β} {y : Option β} {next : β → StateM (Option δ) γ}
    {next' : β → Option γ} (hx : Follows x y) (hnext : ∀ b, Follows (next b) (next' b)) :
    Follows (x >>= next) (y >>= next') := by
  obtain ⟨hkept, hsame, hnoted⟩ := hx
  -- The state is the note, which the second computation is handed.
  have hrun (seen : Option δ) : (x >>= next).run seen = (next (x.run seen).1).run (x.run seen).2 := rfl
  refine ⟨fun seen h => hkept seen ((hnext _).1 _ h), ?_, ?_⟩
  · intro c hc
    obtain ⟨b, rfl, hc⟩ := Option.bind_eq_some_iff.mp hc
    rw [hrun, hsame b rfl]
    exact (hnext b).2.1 c hc
  · intro hnone hstill
    rw [hrun] at hstill
    -- What was noted by the first computation is still noted behind the second one.
    cases y with
    | none => exact hnoted rfl ((hnext _).1 _ hstill)
    | some b =>
      rw [hsame b rfl] at hstill
      exact (hnext b).2.2 hnone hstill

variable {less : α → α → StateM (Option δ) Bool} {ask : α → α → Option Bool}
  (hless : ∀ a b, Follows (less a b) (ask a b))

include hless

/-- Putting an element in its place from behind goes the same way in both. -/
theorem insertBack_follows (x : α) (ys : List α) : Follows (insertBack less x ys) (insertBack ask x ys) := by
  induction ys with
  | nil => exact follows_pure _
  | cons y ys ih =>
    rw [insertBack, insertBack]
    refine follows_bind (hless x y) fun answer => ?_
    cases answer with
    | true => exact follows_bind ih fun _ => follows_pure _
    | false => exact follows_pure _

/-- Sorting a block by insertions goes the same way in both. -/
theorem insertionSort_follows (block : List α) :
    Follows (insertionSort less block) (insertionSort ask block) := by
  -- The fold starts from no elements, and the induction is on those to come.
  have hfold (sorted : List α) : Follows (block.foldlM (fun sorted x => insertBack less x sorted) sorted)
      (block.foldlM (fun sorted x => insertBack ask x sorted) sorted) := by
    induction block generalizing sorted with
    | nil => exact follows_pure _
    | cons x block ih =>
      rw [List.foldlM_cons, List.foldlM_cons]
      exact follows_bind (insertBack_follows hless x sorted) ih
  exact follows_bind (hfold []) fun _ => follows_pure _

/-- A question about two positions has the same answer in both. -/
theorem lessAt_follows (xs : List α) (i j : Nat) : Follows (lessAt less xs i j) (lessAt ask xs i j) := by
  rw [lessAt, lessAt]
  split
  · exact hless _ _
  · exact follows_pure _

omit hless in
/-- A search by halves goes the same way in both, if its test does. -/
theorem search_follows {test : Nat → StateM (Option δ) Bool} {test' : Nat → Option Bool}
    (htest : ∀ i, Follows (test i) (test' i)) (fuel low high : Nat) :
    Follows (search test fuel low high) (search test' fuel low high) := by
  induction fuel generalizing low high with
  | zero => exact follows_pure _
  | succ fuel ih =>
    rw [search, search]
    split
    · refine follows_bind (htest _) fun answer => ?_
      cases answer with
      | true => exact ih _ _
      | false => exact ih _ _
    · exact follows_pure _

/-- A merge of two runs goes the same way in both. -/
theorem symMerge_follows (fuel : Nat) (left right : List α) :
    Follows (symMerge less fuel left right) (symMerge ask fuel left right) := by
  induction fuel generalizing left right with
  | zero => exact follows_pure _
  | succ fuel ih =>
    rw [symMerge, symMerge]
    dsimp only
    -- an empty part, a part of one element on either side, or two longer parts that are split
    split
    · exact follows_pure _
    split
    · have htest (h : Nat) := follows_bind (lessAt_follows hless (left ++ right) h 0) fun answer =>
        follows_pure (!answer)
      exact follows_bind (search_follows htest _ _ _) fun _ => follows_pure _
    split
    · exact follows_bind (search_follows (lessAt_follows hless _ _) _ _ _) fun _ => follows_pure _
    · refine follows_bind (search_follows (fun c => lessAt_follows hless _ _ c) _ _ _) fun start => ?_
      exact follows_bind (ih _ _) fun _ => follows_bind (ih _ _) fun _ => follows_pure _

/-- Merging the runs two by two goes the same way in both. -/
theorem mergePairs_follows (bs : List (List α)) : Follows (mergePairs less bs) (mergePairs ask bs) := by
  fun_induction mergePairs ask bs with
  | case1 b c bs ih =>
    rw [mergePairs]
    exact follows_bind (symMerge_follows hless _ b c) fun _ => follows_bind ih fun _ => follows_pure _
  -- Fewer than two runs are left as they are.
  | case2 bs hshort =>
    rw [mergePairs]
    · exact follows_pure _
    · exact hshort

/-- Merging until one run is left goes the same way in both. -/
theorem mergeAll_follows (fuel : Nat) (bs : List (List α)) :
    Follows (mergeAll less fuel bs) (mergeAll ask fuel bs) := by
  induction fuel generalizing bs with
  | zero => exact follows_pure _
  | succ fuel ih =>
    match bs with
    | [] => exact follows_pure _
    | [b] => exact follows_pure _
    | b :: c :: bs => exact follows_bind (mergePairs_follows hless _) ih

/-- Noting what has no answer, and stopping there. -/
theorem stableSort_follows (xs : List α) : Follows (stableSort less xs) (stableSort ask xs) := by
  have hblocks (bs : List (List α)) :
      Follows (bs.mapM (insertionSort less)) (bs.mapM (insertionSort ask)) := by
    induction bs with
    | nil => exact follows_pure _
    | cons b bs ih =>
      rw [List.mapM_cons, List.mapM_cons]
      exact follows_bind (insertionSort_follows hless b) fun _ => follows_bind ih fun _ => follows_pure _
  exact follows_bind (hblocks _) (mergeAll_follows hless _)

end

end Mundart.Sorting

namespace Mundart

/-! ## Comparable values

Numbers are compared with numbers and texts with texts, and with nothing else. This relation is transitive,
so that a list that a sort gets through is of one sort of values. In it the order is the one of a key, which
is linear. -/

/-- Texts compare as equal only if they are the same. -/
theorem Text.compare_eq_iff (s t : Text) : Text.compare s t = .eq ↔ s = t := by
  induction s generalizing t with
  | nil => cases t <;> simp [Text.compare]
  | cons a s ih =>
    cases t with
    | nil => simp [Text.compare]
    | cons b t =>
      rw [Text.compare]
      split
      · next hlt => simp [UInt8.ne_of_lt hlt]
      split
      · next hlt => simp [(UInt8.ne_of_lt hlt).symm]
      -- neither byte comes before the other
      · next hle hge =>
        have hab : a = b := UInt8.le_antisymm (UInt8.not_lt.mp hge) (UInt8.not_lt.mp hle)
        simp [hab, ih]

namespace Value

/-- Both numbers, or both texts. -/
def Related (a b : Value) : Prop :=
  (a.isNumber = true ∧ b.isNumber = true) ∨ (a.kind = .text ∧ b.kind = .text)

/-- There is an order of two values exactly if they are related. -/
theorem compare?_isSome_iff (a b : Value) : (a.compare? b).isSome = true ↔ Related a b := by
  cases a <;> cases b <;> simp [compare?, number?, Related, isNumber, kind]

/-- Numbers are compared as doubles, of whatever type they are. -/
theorem compare?_of_number {a b : Value} {x y : Float} (ha : a.number? = some x) (hb : b.number? = some y) :
    a.compare? b = some (compareDoubles x y) := by
  cases a <;> cases b <;> simp_all [compare?, number?]

/-- Being related does not depend on the side. -/
theorem related_symm {a b : Value} (h : Related a b) : Related b a := h.imp And.symm And.symm

/-- No value is both a number and a text. -/
theorem isNumber_ne_text {v : Value} (h : v.isNumber = true) : v.kind ≠ .text := by
  cases v <;> simp [isNumber, kind] at h ⊢

/-- What is related to the same value is related. -/
theorem related_trans {a b c : Value} (hab : Related a b) (hbc : Related b c) : Related a c := by
  -- The value in the middle decides which of the two it is.
  rcases hab with ⟨ha, hb⟩ | ⟨ha, hb⟩
  · exact .inl ⟨ha, (hbc.resolve_right fun h => isNumber_ne_text hb h.1).2⟩
  · exact .inr ⟨ha, (hbc.resolve_left fun h => isNumber_ne_text h.1 hb).2⟩

/-- The order of the values is that of keys. -/
def Keyed {κ : Type} [LinearOrder κ] (key : Value → κ) (xs : List Value) : Prop :=
  ∀ a ∈ xs, ∀ b ∈ xs, ∃ order, a.compare? b = some order ∧
    (order = .lt ↔ key a < key b) ∧ (order = .eq ↔ key a = key b)

/-- The rank of a number. -/
def rankOf (v : Value) : Int := (v.number?.map Double.rank).getD 0

/-- The bytes of a text. -/
def bytesOf (v : Value) : List Nat := (v.asText?.getD []).map UInt8.toNat

/-- A number is read as a double, which is no NaN unless the number is one. -/
theorem exists_number {v : Value} (hv : v.isNumber = true) (hnumber : ∀ x, v = .double x → x.isNaN = false) :
    ∃ x, v.number? = some x ∧ x.isNaN = false := by
  cases v with
  | int n => exact ⟨_, rfl, (Double.rank_ofInt64 n).2⟩
  | double x => exact ⟨x, rfl, hnumber x rfl⟩
  | _ => exact nomatch hv

/-- Numbers are ordered by their ranks, if none of them is a NaN. -/
theorem keyed_numbers {xs : List Value} (hxs : ∀ v ∈ xs, v.isNumber = true)
    (hnumber : ∀ x, .double x ∈ xs → x.isNaN = false) : Keyed rankOf xs := by
  intro a ha b hb
  obtain ⟨x, hx, hxnumber⟩ := exists_number (hxs a ha) fun x h => hnumber x (h ▸ ha)
  obtain ⟨y, hy, hynumber⟩ := exists_number (hxs b hb) fun x h => hnumber x (h ▸ hb)
  refine ⟨_, compare?_of_number hx hy, ?_⟩
  have hranka : rankOf a = Double.rank x := by simp [rankOf, hx]
  have hrankb : rankOf b = Double.rank y := by simp [rankOf, hy]
  rw [compareDoubles_eq hxnumber hynumber, hranka, hrankb]
  exact ⟨Int.compare_eq_lt, Int.compare_eq_eq⟩

/-- Texts are ordered by their bytes. -/
theorem keyed_texts {xs : List Value} (hxs : ∀ v ∈ xs, v.kind = .text) : Keyed bytesOf xs := by
  have htext : ∀ v ∈ xs, ∃ t, v = .text t := by
    intro v hv
    have hkind := hxs v hv
    cases v with
    | text t => exact ⟨t, rfl⟩
    | _ => exact nomatch hkind
  intro a ha b hb
  obtain ⟨s, rfl⟩ := htext a ha
  obtain ⟨t, rfl⟩ := htext b hb
  refine ⟨Text.compare s t, rfl, ?_, ?_⟩
  · rw [← beq_iff_eq]
    exact Text.before_iff s t
  · rw [Text.compare_eq_iff]
    exact (List.map_injective_iff.mpr fun _ _ => UInt8.toNat_inj.mp).eq_iff.symm

/-- Two or more values that are neither all numbers nor all texts. -/
def Mixed (xs : List Value) : Prop :=
  2 ≤ xs.length ∧ ¬ (∀ v ∈ xs, v.isNumber = true) ∧ ¬ ∀ v ∈ xs, v.kind = .text

end Value

namespace Method

open Sorting Value

/-! ## Sorting

The sort of values is the sort that stops, and it stops exactly in mixed lists: merging asks about every
run, so that its questions link all of the elements. -/

/-- What the sort asks. -/
def comesBefore (a b : Value) : Option Bool := (a.compare? b).map (· == .lt)

/-- The question of the program notes the two values exactly where there is no order of them. -/
theorem sortsBefore_follows (a b : Value) : Follows (sortsBefore a b) (comesBefore a b) := by
  unfold sortsBefore comesBefore
  cases a.compare? b with
  | some order => exact follows_pure _
  | none =>
    refine ⟨fun seen hnone => ?_, fun _ h => (nomatch h), fun _ h => (nomatch h)⟩
    cases seen with
    | none => rfl
    | some p => exact nomatch hnone

/-- Sorting a list of values, by the sort that stops at two values that cannot be compared. -/
theorem sorted_eq (xs : List Value) :
    (∃ ys, stableSort comesBefore xs = some ys ∧ sorted (.array xs) = .ok (.array ys)) ∨
      (stableSort comesBefore xs = none ∧
        ∃ a b : Value, sorted (.array xs) = .error (.mismatch (.sorted a.kind b.kind))) := by
  obtain ⟨-, hsame, hnoted⟩ := stableSort_follows sortsBefore_follows xs
  have hkind : (Value.array xs).kind = .array := rfl
  have hitems : (Value.array xs).asArray = pure xs := rfl
  cases hstop : stableSort comesBefore xs with
  | some ys =>
    refine .inl ⟨ys, rfl, ?_⟩
    rw [sorted, if_pos hkind, hitems, pure_bind, hsame ys hstop]
  | none =>
    refine .inr ⟨rfl, ?_⟩
    have hsome := hnoted hstop
    rw [sorted, if_pos hkind, hitems, pure_bind]
    cases hrun : (stableSort sortsBefore xs).run none with
    | mk items seen =>
      rw [hrun] at hsome
      cases seen with
      | none => exact absurd rfl hsome
      | some p => exact ⟨p.1, p.2, rfl⟩

/-- The question has an answer for related values. -/
theorem comesBefore_isSome_iff (a b : Value) : (comesBefore a b).isSome = true ↔ Related a b := by
  rw [comesBefore, Option.isSome_map, compare?_isSome_iff]

/-- What the theory of the sort says of lists of values. -/
theorem stableSort_values (xs : List Value) :
    Gives (Answers comesBefore (· ∈ xs)) (stableSort comesBefore xs) (Sorts comesBefore xs) :=
  stableSort_gives fun _ ha => ha

/-- The sort stops at two values that cannot be compared exactly in mixed lists. -/
theorem stableSort_eq_none_iff (xs : List Value) : stableSort comesBefore xs = none ↔ Mixed xs := by
  obtain ⟨hsorts, hsome⟩ := stableSort_values xs
  constructor
  · intro hnone
    -- If all the questions had an answer, there would be a result.
    have hstuck : ¬ Answers comesBefore (· ∈ xs) := by
      intro hall
      rw [hnone] at hsome
      exact nomatch hsome hall
    refine ⟨?_, ?_, ?_⟩
    · by_contra hshort
      match xs with
      | [] => exact nomatch hnone
      | [x] => exact nomatch hnone
      | x :: y :: xs => exact hshort (by simp)
    · intro hnumbers
      exact hstuck fun a b ha hb => (comesBefore_isSome_iff a b).mpr (.inl ⟨hnumbers a ha, hnumbers b hb⟩)
    · intro htexts
      exact hstuck fun a b ha hb => (comesBefore_isSome_iff a b).mpr (.inr ⟨htexts a ha, htexts b hb⟩)
  · rintro ⟨hlength, hnumbers, htexts⟩
    by_contra hsome
    obtain ⟨ys, hys⟩ := Option.ne_none_iff_exists'.mp hsome
    have hrelated := (hsorts ys hys).linked Related related_symm related_trans
      (fun a b => (comesBefore_isSome_iff a b).mp) hlength
    -- All of the elements are related to the first one, and it is a number or it is not.
    obtain ⟨x, hx⟩ := List.exists_mem_of_length_pos (show 0 < xs.length by omega)
    by_cases hnumber : x.isNumber = true
    · refine hnumbers fun v hv => ?_
      rcases hrelated v hv x hx with h | h
      · exact h.1
      · exact absurd h.2 (isNumber_ne_text hnumber)
    · refine htexts fun v hv => ?_
      rcases hrelated v hv x hx with h | h
      · exact absurd h.2 hnumber
      · exact h.1

/-- Lists whose order is that of keys are sorted by these, and equal values keep their order. -/
theorem sorts_of_keyed {κ : Type} [LinearOrder κ] {key : Value → κ} {xs ys : List Value}
    (hkeyed : Keyed key xs) (hsorts : Sorts comesBefore xs ys) :
    ys.Pairwise (fun a b => ∃ order, a.compare? b = some order ∧ order ≠ .gt) ∧
      ∀ v ∈ xs, ys.filter (fun a => a.compare? v == some .eq) =
        xs.filter (fun a => a.compare? v == some .eq) := by
  -- Every answer is the one that the keys give.
  have hkey {a b : Value} {answer : Bool} (ha : a ∈ xs) (hb : b ∈ xs) (h : comesBefore a b = some answer) :
      answer = decide (key a < key b) := by
    obtain ⟨order, horder, hlt, -⟩ := hkeyed a ha b hb
    rw [comesBefore, horder, Option.map_some, Option.some.injEq] at h
    rw [← h, Bool.eq_iff_iff, beq_iff_eq, decide_eq_true_iff, hlt]
  obtain ⟨hascending, halike⟩ := hsorts.ordered hkey fun _ ha => ha
  have hmem {a : Value} (ha : a ∈ ys) : a ∈ xs := hsorts.perm.mem_iff.mp ha
  constructor
  · refine hascending.imp_of_mem fun {a b} ha hb hle => ?_
    obtain ⟨order, horder, hlt, heq⟩ := hkeyed a (hmem ha) b (hmem hb)
    refine ⟨order, horder, ?_⟩
    rintro rfl
    rcases hle.lt_or_eq with h | h
    · exact nomatch hlt.mpr h
    · exact nomatch heq.mpr h
  · intro v hv
    -- Comparing as equal is having the same key, on both sides of the law.
    have hsame : ∀ a ∈ xs, (a.compare? v == some .eq) = decide (key a = key v) := by
      intro a ha
      obtain ⟨order, horder, -, heq⟩ := hkeyed a ha v hv
      rw [horder, Bool.eq_iff_iff, beq_iff_eq, decide_eq_true_iff, Option.some.injEq, heq]
    rw [List.filter_congr hsame, List.filter_congr fun a ha => hsame a (hmem ha)]
    exact halike (key v)

/-- Sorting a list of values fails exactly if it has two elements or more and is neither one of numbers nor
one of texts, and then the types do not match. Otherwise its result has the same elements, in ascending order
unless there is a NaN, and those that compare as equal in the order that they had. -/
theorem sort_exact (xs : List Value) (random : Random) :
    ((∃ f, (invoke .sort (.array xs) none random).1 = .error f) ↔ Mixed xs) ∧
      (∀ f, (invoke .sort (.array xs) none random).1 = .error f → f.kind? = some .typeMismatch) ∧
      (¬ Mixed xs → ∃ ys, (invoke .sort (.array xs) none random).1 = .ok (.array ys) ∧ ys.Perm xs ∧
        ((∀ x, .double x ∈ xs → x.isNaN = false) →
          ys.Pairwise (fun a b => ∃ order, a.compare? b = some order ∧ order ≠ .gt) ∧
          ∀ v ∈ xs, ys.filter (fun a => a.compare? v == some .eq) =
            xs.filter (fun a => a.compare? v == some .eq))) := by
  have hinvoke : (invoke .sort (.array xs) none random).1 = sorted (.array xs) := rfl
  rw [hinvoke, ← stableSort_eq_none_iff]
  rcases sorted_eq xs with ⟨ys, hys, hok⟩ | ⟨hnone, a, b, herror⟩
  · rw [hok, hys]
    refine ⟨by simp, by simp, fun _ => ⟨ys, rfl, ?_⟩⟩
    have hsorts := (stableSort_values xs).1 ys hys
    refine ⟨hsorts.perm, fun hnumber => ?_⟩
    -- There is a result, so the list is not mixed: it holds numbers, or texts, or at most one value.
    have hsettled : ¬ Mixed xs := by
      rw [← stableSort_eq_none_iff, hys]
      exact nofun
    by_cases hnumbers : ∀ v ∈ xs, v.isNumber = true
    · exact sorts_of_keyed (keyed_numbers hnumbers hnumber) hsorts
    by_cases htexts : ∀ v ∈ xs, v.kind = .text
    · exact sorts_of_keyed (keyed_texts htexts) hsorts
    have hshort : xs.length < 2 := by
      by_contra hlong
      exact hsettled ⟨by omega, hnumbers, htexts⟩
    match xs with
    | [] =>
      rw [List.perm_nil.mp hsorts.perm]
      exact ⟨.nil, fun _ _ => rfl⟩
    | [x] =>
      rw [List.perm_singleton.mp hsorts.perm]
      exact ⟨List.pairwise_singleton _ x, fun _ _ => rfl⟩
    | x :: y :: xs => exact absurd hshort (by simp)
  · rw [herror, hnone]
    refine ⟨by simp, fun f hf => ?_, fun h => absurd rfl h⟩
    rw [← Except.error.inj hf]
    rfl

/-- Two numbers, of either type. -/
theorem sort_exact_pair : ∃ ys,
    (invoke .sort (.array [.int 2, .double (Double.ofInt64 1)]) none ⟨0⟩).1 = .ok (.array ys) ∧
      ys.Perm [.int 2, .double (Double.ofInt64 1)] ∧
      ys.Pairwise (fun a b => ∃ order, a.compare? b = some order ∧ order ≠ .gt) := by
  have hnumbers : ∀ v ∈ [Value.int 2, .double (Double.ofInt64 1)], v.isNumber = true := by decide +kernel
  obtain ⟨ys, hys, hperm, hordered⟩ := (sort_exact [.int 2, .double (Double.ofInt64 1)] ⟨0⟩).2.2
    fun h => h.2.1 hnumbers
  refine ⟨ys, hys, hperm, (hordered fun x hx => ?_).1⟩
  simp only [List.mem_cons, reduceCtorEq, Value.double.injEq, List.not_mem_nil, or_false, false_or] at hx
  rw [hx]
  exact (Double.rank_ofInt64 1).2

end Method

end Mundart
