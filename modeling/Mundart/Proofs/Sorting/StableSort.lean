import Mundart.Proofs.Sorting.Derivation
import Mundart.Sorting

/-!
# The stable sort

The sort asks its questions one after the other; here it stops at the first one that has no answer. Each of
its functions gives a derivation of the merges that it made, if it comes to an end, and does so if every
question has an answer. Both are said at once by `Gives`, which is closed under sequencing, so that each
function is opened once.

* **`search_gives`** — a search ends where the answers change;
* **`symMerge_gives`** — the symmetric merge merges: a search finds one place or the cut, and two parts change
  places;
* **`stableSort_gives`** — the sort sorts.
-/

namespace Mundart.Sorting

/-- A computation that may fail to have an answer gives a result: any answer has the property, and if
everything is known there is an answer. -/
def Gives {β : Type} (all : Prop) (x : Option β) (P : β → Prop) : Prop :=
  (∀ b, x = some b → P b) ∧ (all → x.isSome = true)

section

variable {β γ : Type} {all : Prop} {P : β → Prop}

/-! ## Giving a result

The two halves of `Gives` go along the same steps: an answer of the whole comes from answers of the steps,
and if each step has one so has the whole. -/

/-- What asks nothing gives its result. -/
theorem gives_pure {b : β} (h : P b) : Gives all (pure b) P :=
  ⟨fun _ hb => Option.some.inj hb ▸ h, fun _ => rfl⟩

/-- One computation after another gives what the second one does. -/
theorem gives_bind {x : Option β} {next : β → Option γ} {Q : γ → Prop} (hx : Gives all x P)
    (hnext : ∀ b, P b → Gives all (next b) Q) : Gives all (x >>= next) Q := by
  cases x with
  | none => exact ⟨fun _ h => (nomatch h), hx.2⟩
  | some b => exact hnext b (hx.1 b rfl)

/-- What is given may be weakened. -/
theorem gives_imp {x : Option β} {Q : β → Prop} (hx : Gives all x P) (himp : ∀ b, P b → Q b) :
    Gives all x Q :=
  ⟨fun b hb => himp b (hx.1 b hb), hx.2⟩

end

variable {α : Type} {ask : α → α → Option Bool} {S : α → Prop}

/-- Every two elements of a kind have an answer. -/
def Answers (ask : α → α → Option Bool) (S : α → Prop) : Prop := ∀ a b, S a → S b → (ask a b).isSome = true

/-- A question gives its answer. -/
theorem ask_gives {a b : α} (ha : S a) (hb : S b) :
    Gives (Answers ask S) (ask a b) fun answer => ask a b = some answer :=
  ⟨fun _ h => h, fun hall => hall a b ha hb⟩

/-! ## Blocks

A block is sorted by inserting its elements from the front. What is sorted so far is kept in reverse, so
that an insertion passes over the larger elements first. -/

/-- Inserting is merging with a run of one. -/
theorem insertBack_gives {x : α} (hx : S x) {ys : List α} (hys : ∀ a ∈ ys, S a) :
    Gives (Answers ask S) (insertBack ask x ys) fun zs => Merges ask ys.reverse [x] zs.reverse := by
  induction ys with
  | nil => exact gives_pure (.right [x])
  | cons y ys ih =>
    obtain ⟨hy, hys⟩ := List.forall_mem_cons.mp hys
    rw [insertBack, List.reverse_cons]
    refine gives_bind (ask_gives hx hy) fun answer hanswer => ?_
    cases answer with
    -- The element comes before the last one, which is cut off behind both runs.
    | true =>
      refine gives_bind (ih hys) fun zs hzs => gives_pure ?_
      rw [List.reverse_cons]
      have hcut : Merges ask (ys.reverse ++ [y]) ([x] ++ []) (zs.reverse ++ [y]) :=
        .cut (by simpa using hanswer) (by simp) hzs (.left [y])
      exact hcut
    -- It stays behind all of them.
    | false =>
      refine gives_pure ?_
      rw [List.reverse_cons, List.reverse_cons]
      exact .append (by simpa using hanswer)

/-- After some elements, those and the sorted ones before them are sorted together. By induction on the
elements to come. -/
theorem foldlM_insertBack_gives {block xs sorted : List α} (hblock : ∀ a ∈ block, S a) (hxs : ∀ a ∈ xs, S a)
    (hsorted : Sorts ask xs sorted.reverse) :
    Gives (Answers ask S) (block.foldlM (fun sorted x => insertBack ask x sorted) sorted)
      fun sorted => Sorts ask (xs ++ block) sorted.reverse := by
  induction block generalizing xs sorted with
  | nil =>
    refine gives_pure ?_
    rwa [List.append_nil]
  | cons x block ih =>
    obtain ⟨hx, hblock⟩ := List.forall_mem_cons.mp hblock
    have hmem : ∀ a ∈ sorted, S a := fun a ha => hxs a (hsorted.perm.mem_iff.mp (List.mem_reverse.mpr ha))
    rw [List.foldlM_cons]
    refine gives_bind (insertBack_gives hx hmem) fun sorted' hmerge => ?_
    -- To insert an element is to merge it as a run of its own.
    have hmerged : Sorts ask (xs ++ [x]) sorted'.reverse := .merge hsorted (.single x) hmerge
    have hnext := ih hblock (List.forall_mem_append.mpr ⟨hxs, by simpa using hx⟩) hmerged
    rwa [List.append_assoc] at hnext

/-- So a block is sorted. -/
theorem insertionSort_gives {block : List α} (hblock : ∀ a ∈ block, S a) :
    Gives (Answers ask S) (insertionSort ask block) (Sorts ask block) := by
  have hempty : Sorts ask [] ([] : List α).reverse := .nil
  refine gives_bind (foldlM_insertBack_gives hblock (by simp) hempty) fun sorted hsorted => ?_
  exact gives_pure hsorted

/-! ## Merging

The merge of two runs without a second list: a cut of both around the middle of the result is searched for,
the parts in between change places, and each half is merged again. The searches are what asks; the cut is
right because of the answers on both sides of it. -/

/-- A search ends where the answers change: the test fails just below, and holds there. -/
theorem search_gives {all : Prop} {test : Nat → Option Bool} {answers : Nat → Bool → Prop}
    {fuel low high : Nat} (htest : ∀ i, Gives all (test i) (answers i)) (hle : low ≤ high)
    (hfuel : high - low ≤ fuel) :
    Gives all (search test fuel low high) fun i =>
      low ≤ i ∧ i ≤ high ∧ (i = low ∨ answers (i - 1) false) ∧ (i = high ∨ answers i true) := by
  -- on the bound: each question halves what is left to search
  induction fuel generalizing low high with
  | zero => exact gives_pure ⟨by omega, by omega, .inl rfl, .inl (by omega)⟩
  | succ fuel ih =>
    rw [search]
    split
    · next hlt =>
      refine gives_bind (htest _) fun answer hanswer => ?_
      cases answer with
      | true =>
        refine gives_imp (ih (by omega) (by omega)) fun i ⟨hlow, hhigh, hbelow, habove⟩ => ?_
        refine ⟨hlow, by omega, hbelow, .inr ?_⟩
        rcases habove with rfl | habove
        · exact hanswer
        · exact habove
      | false =>
        refine gives_imp (ih (by omega) (by omega)) fun i ⟨hlow, hhigh, hbelow, habove⟩ => ?_
        refine ⟨by omega, hhigh, .inr ?_, habove⟩
        rcases hbelow with rfl | hbelow
        · exact hanswer
        · exact hbelow
    · exact gives_pure ⟨by omega, by omega, .inl rfl, .inl (by omega)⟩

/-- The last of the first elements stands just below their number. -/
theorem mem_getLast?_take {xs : List α} {k : Nat} (hk : k ≤ xs.length) {x : α}
    (hx : x ∈ (xs.take k).getLast?) : 0 < k ∧ x ∈ xs[k - 1]? := by
  rw [List.getLast?_take] at hx
  split at hx
  · exact nomatch hx
  · rw [List.getElem?_eq_getElem (show k - 1 < xs.length by omega)] at hx ⊢
    exact ⟨by omega, hx⟩

/-- A cut at two indexes. -/
theorem Merges.cutAt {left right ys zs : List α} {i j : Nat} (hi : i ≤ left.length) (hj : j ≤ right.length)
    (hpass : 0 < j → ∀ x ∈ right[j - 1]?, ∀ y ∈ left[i]?, ask x y = some true)
    (hstay : 0 < i → ∀ x ∈ right[j]?, ∀ y ∈ left[i - 1]?, ask x y = some false)
    (first : Merges ask (left.take i) (right.take j) ys)
    (second : Merges ask (left.drop i) (right.drop j) zs) :
    Merges ask left right (ys ++ zs) := by
  have h : Merges ask (left.take i ++ left.drop i) (right.take j ++ right.drop j) (ys ++ zs) := by
    -- what stands at the cut, last in front of it and first behind it
    refine .cut (fun x hx y hy => ?_) (fun x hx y hy => ?_) first second
    · rw [List.head?_drop] at hy
      obtain ⟨hpos, hx⟩ := mem_getLast?_take hj hx
      exact hpass hpos x hx y hy
    · rw [List.head?_drop] at hx
      obtain ⟨hpos, hy⟩ := mem_getLast?_take hi hy
      exact hstay hpos x hx y hy
  rwa [List.take_append_drop, List.take_append_drop] at h

/-- An element that is put in its place in the run behind it. -/
theorem Merges.putBehind {x : α} {right : List α} {j : Nat} (hj : j ≤ right.length)
    (hpass : 0 < j → ∀ y ∈ right[j - 1]?, ask y x = some true)
    (hstay : ∀ y ∈ right[j]?, ask y x = some false) :
    Merges ask [x] right (right.take j ++ ([x] ++ right.drop j)) := by
  refine .cutAt (Nat.zero_le 1) hj ?_ (fun h => absurd h (by omega)) (.right _) (.append ?_)
  · intro hpos y hy z hz
    obtain rfl := Option.some.inj hz
    exact hpass hpos y hy
  · intro y hy z hz
    obtain rfl := Option.some.inj hz
    rw [List.head?_drop] at hy
    exact hstay y hy

/-- An element that is put in its place in the run before it. -/
theorem Merges.putBefore {y : α} {left : List α} {i : Nat} (hi : i ≤ left.length)
    (hpass : ∀ x ∈ left[i]?, ask y x = some true)
    (hstay : 0 < i → ∀ x ∈ left[i - 1]?, ask y x = some false) :
    Merges ask left [y] (left.take i ++ [y] ++ left.drop i) := by
  -- The run of one is wholly in front of the cut, so that its part behind it is empty.
  refine .cutAt hi (Nat.le_refl 1) ?_ ?_ (.append ?_) (.left _)
  · intro _ z hz x hx
    obtain rfl := Option.some.inj hz
    exact hpass x hx
  · intro _ z hz
    exact nomatch hz
  · intro z hz x hx
    obtain rfl := Option.some.inj hz
    obtain ⟨hpos, hx⟩ := mem_getLast?_take hi hx
    exact hstay hpos x hx

/-- The parts of a list, cut out of it again. -/
theorem slices_append {a b c d : List α} {i j k : Nat} (hi : a.length = i) (hj : i + b.length = j)
    (hk : j + c.length = k) :
    (a ++ b ++ c ++ d).take i = a ∧ ((a ++ b ++ c ++ d).take j).drop i = b ∧
      ((a ++ b ++ c ++ d).take k).drop j = c ∧ (a ++ b ++ c ++ d).drop k = d := by
  subst hi hj hk
  refine ⟨?_, ?_, ?_, ?_⟩
  · simp [List.append_assoc]
  · rw [List.append_assoc (a ++ b), ← List.length_append, List.take_left, List.drop_left]
  · rw [← List.length_append, ← List.length_append, List.take_left, List.drop_left]
  · rw [← List.length_append, ← List.length_append, List.drop_left]

/-- The parts of two runs after those in the middle have changed places. -/
theorem slices_rotated {left right : List α} {start middle : Nat} (hstart : start ≤ left.length)
    (hmiddle : start ≤ middle) (hright : middle - start ≤ right.length) :
    let data := left ++ right
    let stop := middle + left.length - start
    let rotated := data.take start ++ (data.take stop).drop left.length ++ (data.take left.length).drop start
      ++ data.drop stop
    rotated.take start = left.take start ∧
      (rotated.take middle).drop start = right.take (middle - start) ∧
      (rotated.take stop).drop middle = left.drop start ∧
      rotated.drop stop = right.drop (middle - start) := by
  intro data stop rotated
  have hlength₁ : (left.take start).length = start := List.length_take_of_le hstart
  have hlength₂ : (left.drop start).length = left.length - start := List.length_drop
  have hlength₃ : (right.take (middle - start)).length = middle - start := List.length_take_of_le hright
  -- Both lists have the same four parts, with the two in the middle in different order.
  have hdata : data = left.take start ++ left.drop start ++ right.take (middle - start) ++
      right.drop (middle - start) := by
    rw [List.append_assoc, List.take_append_drop, List.take_append_drop]
  have hrotated : rotated = left.take start ++ right.take (middle - start) ++ left.drop start ++
      right.drop (middle - start) := by
    obtain ⟨hl₁, hl₂, hr₁, hr₂⟩ := slices_append (d := right.drop (middle - start)) hlength₁
      (show start + (left.drop start).length = left.length by omega)
      (show left.length + (right.take (middle - start)).length = stop by omega)
    rw [← hdata] at hl₁ hl₂ hr₁ hr₂
    show data.take start ++ (data.take stop).drop left.length ++ (data.take left.length).drop start ++
      data.drop stop = _
    rw [hl₁, hl₂, hr₁, hr₂]
  rw [hrotated]
  exact slices_append hlength₁ (by omega) (by omega)

/-- A question about two positions is one about the elements that stand there. -/
theorem lessAt_gives {data : List α} (hdata : ∀ a ∈ data, S a) (i j : Nat) :
    Gives (Answers ask S) (lessAt ask data i j) fun answer =>
      ∀ x ∈ data[i]?, ∀ y ∈ data[j]?, ask x y = some answer := by
  rw [lessAt]
  cases hi : data[i]? with
  | none => exact gives_pure (by simp)
  | some x =>
    cases hj : data[j]? with
    | none => exact gives_pure (by simp)
    | some y =>
      have hx := hdata x (List.mem_of_getElem? hi)
      have hy := hdata y (List.mem_of_getElem? hj)
      exact gives_imp (ask_gives hx hy) (by simp)

/-- The search for the place of an element in the run behind it. -/
theorem searchBehind_gives {x : α} {right : List α} (hdata : ∀ a ∈ [x] ++ right, S a) {size : Nat}
    (hsize : right.length + 1 = size) :
    Gives (Answers ask S) (search (fun h => do return !(← lessAt ask ([x] ++ right) h 0)) size 1 size)
      fun i => ∃ j ≤ right.length, i = j + 1 ∧ (0 < j → ∀ y ∈ right[j - 1]?, ask y x = some true) ∧
        ∀ y ∈ right[j]?, ask y x = some false := by
  -- The test is whether an element of the run does not come before this one.
  have htest (h : Nat) : Gives (Answers ask S) (do return !(← lessAt ask ([x] ++ right) h 0)) fun answer =>
      ∀ y ∈ ([x] ++ right)[h]?, ask y x = some (!answer) := by
    refine gives_bind (lessAt_gives hdata h 0) fun answer hanswer => gives_pure fun y hy => ?_
    rw [Bool.not_not]
    exact hanswer y hy x rfl
  refine gives_imp (search_gives htest (by omega) (by omega)) fun i ⟨hlow, hhigh, hbelow, habove⟩ => ?_
  -- The search starts behind the element itself, which is at the first position.
  obtain ⟨j, rfl⟩ : ∃ j, i = j + 1 := ⟨i - 1, by omega⟩
  refine ⟨j, by omega, rfl, fun hpos y hy => ?_, fun y hy => ?_⟩
  · refine hbelow.resolve_left (by omega) y ?_
    obtain ⟨k, rfl⟩ : ∃ k, j = k + 1 := ⟨j - 1, by omega⟩
    exact hy
  · have hlt := (List.getElem?_eq_some_iff.mp hy).1
    exact habove.resolve_left (by omega) y hy

/-- The search for the place of an element in the run before it. -/
theorem searchBefore_gives {y : α} {left : List α} (hdata : ∀ a ∈ left ++ [y], S a) {size : Nat}
    (hsize : left.length ≤ size) :
    Gives (Answers ask S) (search (fun h => lessAt ask (left ++ [y]) left.length h) size 0 left.length)
      fun i => i ≤ left.length ∧ (∀ x ∈ left[i]?, ask y x = some true) ∧
        (0 < i → ∀ x ∈ left[i - 1]?, ask y x = some false) := by
  -- The element stands behind the run, so that positions in the run are those in the list.
  have htest (h : Nat) : Gives (Answers ask S) (lessAt ask (left ++ [y]) left.length h) fun answer =>
      ∀ x ∈ left[h]?, ask y x = some answer := by
    refine gives_imp (lessAt_gives hdata left.length h) fun answer hanswer x hx => ?_
    have hlt := (List.getElem?_eq_some_iff.mp hx).1
    exact hanswer y (by simp) x (by rwa [List.getElem?_append_left hlt])
  refine gives_imp (search_gives htest (by omega) (by omega)) fun i ⟨_, hhigh, hbelow, habove⟩ => ?_
  refine ⟨hhigh, fun x hx => ?_, fun hpos x hx => ?_⟩
  · have hlt := (List.getElem?_eq_some_iff.mp hx).1
    exact habove.resolve_left (by omega) x hx
  · exact hbelow.resolve_left (by omega) x hx

/-- The search for the cut of two runs around the middle of the result. -/
theorem searchCut_gives {left right : List α} (hdata : ∀ a ∈ left ++ right, S a) {size middle low high : Nat}
    (hsize : left.length + right.length = size) (hmiddle : middle = size / 2)
    (hlow : low = if middle < left.length then middle + left.length - size else 0)
    (hhigh : high = if middle < left.length then middle else left.length) :
    Gives (Answers ask S)
      (search (fun c => lessAt ask (left ++ right) (middle + left.length - 1 - c) c) size low high)
      fun start =>
        start ≤ left.length ∧ start ≤ middle ∧ middle - start ≤ right.length ∧
        (0 < middle - start → ∀ x ∈ right[middle - start - 1]?, ∀ y ∈ left[start]?, ask x y = some true) ∧
        (0 < start → ∀ x ∈ right[middle - start]?, ∀ y ∈ left[start - 1]?, ask x y = some false) := by
  -- At either end of the search one of the parts that would meet there is empty.
  have hbounds : low ≤ high ∧ high - low ≤ size ∧ high ≤ left.length ∧ high ≤ middle ∧
      middle - low ≤ right.length ∧ (high = left.length ∨ high = middle) ∧
      (low = 0 ∨ middle - low = right.length) := by
    subst hlow hhigh
    split
    · omega
    · omega
  refine gives_imp (search_gives (fun c => lessAt_gives hdata (middle + left.length - 1 - c) c)
    hbounds.1 hbounds.2.1) fun start ⟨hlow', hhigh', hbelow, habove⟩ => ?_
  refine ⟨by omega, by omega, by omega, fun hpos x hx y hy => ?_, fun hpos x hx y hy => ?_⟩
  · have hlt := (List.getElem?_eq_some_iff.mp hy).1
    have hindex : middle + left.length - 1 - start - left.length = middle - start - 1 := by omega
    refine habove.resolve_left (by omega) x ?_ y ?_
    · rwa [List.getElem?_append_right (by omega), hindex]
    · rwa [List.getElem?_append_left hlt]
  · have hlt := (List.getElem?_eq_some_iff.mp hx).1
    have hlt' := (List.getElem?_eq_some_iff.mp hy).1
    have hindex : middle + left.length - 1 - (start - 1) - left.length = middle - start := by omega
    refine hbelow.resolve_left (by omega) x ?_ y ?_
    · rwa [List.getElem?_append_right (by omega), hindex]
    · rwa [List.getElem?_append_left hlt']

/-- The symmetric merge merges. -/
theorem symMerge_gives {fuel : Nat} {left right : List α} (hfuel : left.length + right.length ≤ fuel)
    (hdata : ∀ a ∈ left ++ right, S a) :
    Gives (Answers ask S) (symMerge ask fuel left right) (Merges ask left right) := by
  induction fuel generalizing left right with
  | zero =>
    have hleft : left = [] := List.length_eq_zero_iff.mp (by omega)
    rw [symMerge, hleft]
    exact gives_pure (.right right)
  | succ fuel ih =>
    rw [symMerge]
    dsimp only
    -- an empty run, a run of one on either side, or two longer ones
    by_cases hempty : (left.isEmpty || right.isEmpty) = true
    · rw [if_pos hempty]
      rw [Bool.or_eq_true, List.isEmpty_iff, List.isEmpty_iff] at hempty
      rcases hempty with rfl | rfl
      · exact gives_pure (.right right)
      · rw [List.append_nil]
        exact gives_pure (.left left)
    rw [if_neg hempty]
    have hnonempty : 0 < left.length ∧ 0 < right.length := by
      rw [Bool.or_eq_true, List.isEmpty_iff, List.isEmpty_iff, not_or] at hempty
      exact ⟨List.length_pos_iff.mpr hempty.1, List.length_pos_iff.mpr hempty.2⟩
    split
    · next hone =>
      obtain ⟨x, rfl⟩ := List.length_eq_one_iff.mp hone
      refine gives_bind (searchBehind_gives hdata (by simp)) ?_
      rintro i ⟨j, hj, rfl, hpass, hstay⟩
      refine gives_pure ?_
      simpa using Merges.putBehind hj hpass hstay
    split
    · next hone =>
      rw [List.length_append, Nat.add_sub_cancel_left] at hone
      obtain ⟨y, rfl⟩ := List.length_eq_one_iff.mp hone
      refine gives_bind (searchBefore_gives hdata (by simp)) ?_
      rintro i ⟨hi, hpass, hstay⟩
      refine gives_pure ?_
      have hput := Merges.putBefore hi hpass hstay
      rwa [List.take_append_of_le_length hi, List.drop_left, List.take_left]
    -- Both runs have two elements or more: cut, and merge the halves.
    generalize hhalf : (left ++ right).length / 2 = middle
    rw [List.length_append] at hhalf
    have hmiddle : middle = (left ++ right).length / 2 := by rw [List.length_append, hhalf]
    refine gives_bind (searchCut_gives hdata List.length_append.symm hmiddle rfl rfl) ?_
    rintro start ⟨hstart, hbefore, hright, hpass, hstay⟩
    obtain ⟨hl₁, hr₁, hl₂, hr₂⟩ := slices_rotated hstart hbefore hright
    rw [hl₁, hr₁, hl₂, hr₂]
    have hlength₁ : (left.take start).length = start := List.length_take_of_le hstart
    have hlength₂ : (right.take (middle - start)).length = middle - start := List.length_take_of_le hright
    have hpart {xs ys : List α} (hxs : xs ⊆ left) (hys : ys ⊆ right) : ∀ a ∈ xs ++ ys, S a := fun a ha =>
      hdata a (List.mem_append.mpr ((List.mem_append.mp ha).imp (@hxs a) (@hys a)))
    have hfirst : (left.take start).length + (right.take (middle - start)).length ≤ fuel := by omega
    have hsecond : (left.drop start).length + (right.drop (middle - start)).length ≤ fuel := by
      rw [List.length_drop, List.length_drop]
      omega
    refine gives_bind (ih hfirst (hpart (left.take_subset start) (right.take_subset _))) fun ys hys => ?_
    refine gives_bind (ih hsecond (hpart (left.drop_subset start) (right.drop_subset _))) fun zs hzs => ?_
    exact gives_pure (.cutAt hstart hright hpass hstay hys hzs)

/-! ## The whole sort

Blocks of a fixed size are sorted, then merged two by two until one is left. `Pieces` keeps track of which
part of the list each of them sorts. -/

/-- The sorted parts of a list. -/
inductive Pieces (ask : α → α → Option Bool) : List α → List (List α) → Prop
  | nil : Pieces ask [] []
  | cons {x xs y : List α} {ys : List (List α)} (h : Sorts ask x y) (rest : Pieces ask xs ys) :
      Pieces ask (x ++ xs) (y :: ys)

/-- The blocks are the list, cut into pieces. -/
theorem blocks_flatten {size fuel : Nat} (hsize : 0 < size) {xs : List α} (hfuel : xs.length ≤ fuel) :
    (blocks size fuel xs).flatten = xs := by
  induction fuel generalizing xs with
  | zero => exact (List.length_eq_zero_iff.mp (by omega)).symm
  | succ fuel ih =>
    rw [blocks]
    split
    · next hempty => exact (List.isEmpty_iff.mp hempty).symm
    · have hrest : (xs.drop size).length ≤ fuel := by
        rw [List.length_drop]
        omega
      rw [List.flatten_cons, ih hrest, List.take_append_drop]

/-- There are no more of them than their bound. -/
theorem length_blocks_le (size fuel : Nat) (xs : List α) : (blocks size fuel xs).length ≤ fuel := by
  induction fuel generalizing xs with
  | zero => exact Nat.le_refl 0
  | succ fuel ih =>
    rw [blocks]
    split
    · exact Nat.zero_le _
    · exact Nat.succ_le_succ (ih _)

/-- Each of them is sorted by itself. -/
theorem sortBlocks_gives {bs : List (List α)} (hbs : ∀ a ∈ bs.flatten, S a) :
    Gives (Answers ask S) (bs.mapM (insertionSort ask)) fun cs =>
      Pieces ask bs.flatten cs ∧ cs.length = bs.length := by
  induction bs with
  | nil => exact gives_pure ⟨.nil, rfl⟩
  | cons b bs ih =>
    rw [List.flatten_cons] at hbs
    obtain ⟨hb, hbs⟩ := List.forall_mem_append.mp hbs
    rw [List.mapM_cons]
    refine gives_bind (insertionSort_gives hb) fun c hc => ?_
    refine gives_bind (ih hbs) fun cs hcs => ?_
    exact gives_pure ⟨.cons hc hcs.1, by rw [List.length_cons, List.length_cons, hcs.2]⟩

/-- One pass halves the number of pieces. -/
theorem mergePairs_gives {xs : List α} {bs : List (List α)} (hbs : Pieces ask xs bs) (hxs : ∀ a ∈ xs, S a) :
    Gives (Answers ask S) (mergePairs ask bs) fun cs =>
      Pieces ask xs cs ∧ cs.length = (bs.length + 1) / 2 := by
  fun_induction mergePairs ask bs generalizing xs with
  | case1 b c bs ih =>
    cases hbs with
    | @cons x xs _ _ hb rest =>
      cases rest with
      | @cons x' xs _ _ hc rest =>
        have hx : ∀ a ∈ x, S a := fun a ha => hxs a (by simp [ha])
        have hx' : ∀ a ∈ x', S a := fun a ha => hxs a (by simp [ha])
        have hrest : ∀ a ∈ xs, S a := fun a ha => hxs a (by simp [ha])
        -- Every piece has the elements of the part that it sorts.
        have hdata : ∀ a ∈ b ++ c, S a := List.forall_mem_append.mpr
          ⟨fun a ha => hx a (hb.perm.mem_iff.mp ha), fun a ha => hx' a (hc.perm.mem_iff.mp ha)⟩
        refine gives_bind (symMerge_gives (Nat.le_refl _) hdata) fun merged hmerged => ?_
        refine gives_bind (ih rest hrest) fun cs ⟨hcs, hcount⟩ => gives_pure ⟨?_, ?_⟩
        · rw [← List.append_assoc]
          exact .cons (.merge hb hc hmerged) hcs
        · simp only [List.length_cons, hcount]
          omega
  -- Fewer than two runs stay as they are.
  | case2 bs hshort =>
    refine gives_pure ⟨hbs, ?_⟩
    match bs, hshort with
    | [], _ => simp
    | [b], _ => simp
    | b :: c :: bs, hshort => exact absurd rfl (hshort b c bs)

/-- Merging two by two ends with one run, which sorts the list. -/
theorem mergeAll_gives {fuel : Nat} {xs : List α} {bs : List (List α)} (hfuel : bs.length ≤ fuel)
    (hbs : Pieces ask xs bs) (hxs : ∀ a ∈ xs, S a) :
    Gives (Answers ask S) (mergeAll ask fuel bs) (Sorts ask xs) := by
  induction fuel generalizing bs with
  | zero =>
    cases hbs with
    | nil => exact gives_pure .nil
    | cons h rest => exact absurd hfuel (by simp)
  | succ fuel ih =>
    -- Nothing to sort, one run that is sorted, or a pass that leaves fewer runs.
    match bs with
    | [] =>
      cases hbs with
      | nil => exact gives_pure .nil
    | [b] =>
      cases hbs with
      | cons h rest =>
        cases rest with
        | nil =>
          rw [List.append_nil]
          exact gives_pure h
    | b :: c :: bs =>
      refine gives_bind (mergePairs_gives hbs hxs) fun cs ⟨hcs, hcount⟩ => ?_
      rw [List.length_cons, List.length_cons] at hcount hfuel
      exact ih (by omega) hcs

/-- The stable sort sorts. -/
theorem stableSort_gives {xs : List α} (hxs : ∀ a ∈ xs, S a) :
    Gives (Answers ask S) (stableSort ask xs) (Sorts ask xs) := by
  have hflatten : (blocks 20 xs.length xs).flatten = xs := blocks_flatten (by omega) (Nat.le_refl _)
  have hlength := length_blocks_le 20 xs.length xs
  have hmem : ∀ a ∈ (blocks 20 xs.length xs).flatten, S a := by rwa [hflatten]
  refine gives_bind (sortBlocks_gives hmem) fun cs ⟨hcs, hcount⟩ => ?_
  rw [hflatten] at hcs
  exact mergeAll_gives (by omega) hcs hxs

end Mundart.Sorting
