import Mathlib.Data.List.Basic
import Mathlib.Order.Lattice

/-!
# Sorting by merging

What a stable sort does is told by the questions it asks, whatever the order in which it asks them. A merge of
two runs cuts both and merges the parts; it is told by the answers at the cuts (`Merges`). A sort merges the
sorted parts of a list (`Sorts`). Inserting an element is merging with a run of one. An order that does not
know an answer gives none, so a derivation says of itself that everything it needed was known.

* **`Merges.append`** — runs that stay as they are;
* **`Sorts.perm`** — nothing gets lost;
* **`Sorts.linked`** — a list of two or more can only be sorted if its elements are related by questions that
  have an answer;
* **`Sorts.ordered`** — if the answers are those of an order, the result ascends, and elements that are equal
  in this order keep theirs.
-/

namespace Mundart.Sorting

variable {α : Type} {ask : α → α → Option Bool}

/-- A merge of two runs, by the answers that it is based on. The parts of a cut meet at their ends: the last
element that moves forward comes before the first one that it passes, and the first one that does not move
does not come before the last one in front of it. -/
inductive Merges (ask : α → α → Option Bool) : List α → List α → List α → Prop
  | left (l : List α) : Merges ask l [] l
  | right (r : List α) : Merges ask [] r r
  | cut {l₁ l₂ r₁ r₂ ys zs : List α}
      (hpass : ∀ x ∈ r₁.getLast?, ∀ y ∈ l₂.head?, ask x y = some true)
      (hstay : ∀ x ∈ r₂.head?, ∀ y ∈ l₁.getLast?, ask x y = some false)
      (first : Merges ask l₁ r₁ ys) (second : Merges ask l₂ r₂ zs) :
      Merges ask (l₁ ++ l₂) (r₁ ++ r₂) (ys ++ zs)

/-- A sort of a list: its parts are sorted and merged. -/
inductive Sorts (ask : α → α → Option Bool) : List α → List α → Prop
  | nil : Sorts ask [] []
  | single (x : α) : Sorts ask [x] [x]
  | merge {l r l' r' ys : List α} (hl : Sorts ask l l') (hr : Sorts ask r r') (h : Merges ask l' r' ys) :
      Sorts ask (l ++ r) ys

namespace Merges

variable {l r ys : List α}

/-- Runs that are in order already. -/
theorem append (hstay : ∀ x ∈ r.head?, ∀ y ∈ l.getLast?, ask x y = some false) :
    Merges ask l r (l ++ r) := by
  have h : Merges ask (l ++ []) ([] ++ r) (l ++ r) := .cut (by simp) hstay (.left l) (.right r)
  rwa [List.append_nil] at h

/-- A merge has the elements of both runs. -/
theorem perm (h : Merges ask l r ys) : ys.Perm (l ++ r) := by
  induction h with
  | left l => rw [List.append_nil]
  | right r => exact .refl r
  | @cut l₁ l₂ r₁ r₂ ys zs hpass hstay first second ih₁ ih₂ =>
    have hmiddle : (r₁ ++ l₂ ++ r₂).Perm (l₂ ++ r₁ ++ r₂) := List.perm_append_comm.append_right r₂
    have hparts : ((l₁ ++ r₁) ++ (l₂ ++ r₂)).Perm ((l₁ ++ l₂) ++ (r₁ ++ r₂)) := by
      simp only [List.append_assoc] at hmiddle ⊢
      exact hmiddle.append_left l₁
    exact (ih₁.append ih₂).trans hparts

/-- Two runs cannot be merged without a question about an element of each. -/
theorem exists_asked (h : Merges ask l r ys) (hl : l ≠ []) (hr : r ≠ []) :
    ∃ x ∈ l, ∃ y ∈ r, (ask y x).isSome = true := by
  induction h with
  | left l => exact absurd rfl hr
  | right r => exact absurd rfl hl
  | @cut l₁ l₂ r₁ r₂ ys zs hpass hstay first second ih₁ ih₂ =>
    -- Either elements of both runs meet at a cut, or one part holds all elements of both.
    by_cases hmoved : r₁ = []
    · subst hmoved
      by_cases hfirst : l₁ = []
      · subst hfirst
        exact ih₂ hl hr
      · rw [List.nil_append] at hr
        refine ⟨l₁.getLast hfirst, by simp, r₂.head hr, by simp, ?_⟩
        rw [hstay _ (List.head_mem_head? hr) _ (List.getLast_mem_getLast? hfirst)]
        rfl
    · by_cases hpassed : l₂ = []
      · subst hpassed
        rw [List.append_nil] at hl
        obtain ⟨x, hx, y, hy, hxy⟩ := ih₁ hl hmoved
        exact ⟨x, by simpa using hx, y, List.mem_append_left r₂ hy, hxy⟩
      · refine ⟨l₂.head hpassed, by simp, r₁.getLast hmoved, by simp, ?_⟩
        rw [hpass _ (List.getLast_mem_getLast? hmoved) _ (List.head_mem_head? hpassed)]
        rfl

end Merges

/-! ## Sorts

How a list was sorted: cut into parts that were sorted, and merged. It keeps no more of the algorithm than
this, and no less than what order and stability follow from. -/

namespace Sorts

variable {xs ys : List α}

/-- What is sorted has the elements of the list. -/
theorem perm (h : Sorts ask xs ys) : ys.Perm xs := by
  induction h with
  | nil => exact .refl _
  | single x => exact .refl _
  | merge hl hr h ihl ihr => exact h.perm.trans (ihl.append ihr)

/-- The elements of a sorted list are related by questions that have an answer. -/
theorem linked (related : α → α → Prop) (hsymm : ∀ {a b}, related a b → related b a)
    (htrans : ∀ {a b c}, related a b → related b c → related a c)
    (hask : ∀ a b, (ask a b).isSome = true → related a b) (h : Sorts ask xs ys) :
    2 ≤ xs.length → ∀ a ∈ xs, ∀ b ∈ xs, related a b := by
  induction h with
  | nil => simp
  | single x => simp
  | @merge l r l' r' ys hl hr h ihl ihr =>
    intro hlength
    by_cases hleft : l = []
    · subst hleft
      simpa using ihr (by simpa using hlength)
    by_cases hright : r = []
    · subst hright
      simpa using ihl (by simpa using hlength)
    have hleft' : l' ≠ [] := fun h => hleft (List.nil_perm.mp (h ▸ hl.perm))
    have hright' : r' ≠ [] := fun h => hright (List.nil_perm.mp (h ▸ hr.perm))
    obtain ⟨x, hx, y, hy, hyx⟩ := h.exists_asked hleft' hright'
    rw [hl.perm.mem_iff] at hx
    rw [hr.perm.mem_iff] at hy
    have hcross : related x y := hsymm (hask y x hyx)
    -- A part of one element has only the one that is related to the other part.
    have hone {zs : List α} {z : α} (hz : z ∈ zs) (hzz : related z z)
        (ih : 2 ≤ zs.length → ∀ a ∈ zs, ∀ b ∈ zs, related a b) : ∀ a ∈ zs, related a z := by
      intro a ha
      by_cases hlong : 2 ≤ zs.length
      · exact ih hlong a ha z hz
      · obtain ⟨w, rfl⟩ := List.length_eq_one_iff.mp
          (show zs.length = 1 by have := List.length_pos_of_mem hz; omega)
        rw [List.mem_singleton] at ha hz
        rwa [ha, ← hz]
    have hall : ∀ a ∈ l ++ r, related a x := by
      intro a ha
      rcases List.mem_append.mp ha with ha | ha
      · exact hone hx (htrans hcross (hsymm hcross)) ihl a ha
      · exact htrans (hone hy (htrans (hsymm hcross) hcross) ihr a ha) (hsymm hcross)
    intro a ha b hb
    exact htrans (hall a ha) (hsymm (hall b hb))

end Sorts

/-! ## Order

The answers are those of keys, so that runs which ascend are merged to one that does, and elements with one
key stay in their order. -/

section

variable {κ : Type} [LinearOrder κ] {key : α → κ} {S : α → Prop}

/-- The elements ascend by their keys. -/
def Ascending (key : α → κ) (xs : List α) : Prop := xs.Pairwise fun a b => key a ≤ key b

/-- The elements with equal keys are the same in the same order. -/
def Alike (key : α → κ) (xs ys : List α) : Prop :=
  ∀ k, xs.filter (fun a => key a = k) = ys.filter (fun a => key a = k)

/-- Lists with the same elements of each key can be put together. -/
theorem Alike.append {xs ys xs' ys' : List α} (h : Alike key xs ys) (h' : Alike key xs' ys') :
    Alike key (xs ++ xs') (ys ++ ys') := by
  intro k
  rw [List.filter_append, List.filter_append, h k, h' k]

/-- Lists with the same elements of each key as a third have the same ones. -/
theorem Alike.trans {xs ys zs : List α} (h : Alike key xs ys) (h' : Alike key ys zs) : Alike key xs zs :=
  fun k => (h k).trans (h' k)

/-- Runs without equal elements can change places. -/
theorem alike_swap {xs ys : List α} (h : ∀ a ∈ xs, ∀ b ∈ ys, key a ≠ key b) :
    Alike key (xs ++ ys) (ys ++ xs) := by
  intro k
  rw [List.filter_append, List.filter_append]
  by_cases hk : ∃ a ∈ xs, key a = k
  · obtain ⟨a, ha, rfl⟩ := hk
    have hnone : ys.filter (fun b => key b = key a) = [] := by
      simpa [List.filter_eq_nil_iff] using fun b hb => (h a ha b hb).symm
    rw [hnone, List.append_nil, List.nil_append]
  · have hnone : xs.filter (fun b => key b = k) = [] := by
      simpa [List.filter_eq_nil_iff] using fun b hb hbk => hk ⟨b, hb, hbk⟩
    rw [hnone, List.append_nil, List.nil_append]

/-- A run that is not empty has a last element, and no key in it is larger than the one of this element. -/
theorem Ascending.exists_last {xs : List α} (h : Ascending key xs) {a : α} (ha : a ∈ xs) :
    ∃ x ∈ xs.getLast?, x ∈ xs ∧ key a ≤ key x := by
  have hne : xs ≠ [] := List.ne_nil_of_mem ha
  refine ⟨xs.getLast hne, List.getLast_mem_getLast? hne, List.getLast_mem hne, ?_⟩
  unfold Ascending at h
  rw [← List.dropLast_append_getLast hne, List.pairwise_append] at h
  rw [← List.dropLast_append_getLast hne, List.mem_append, List.mem_singleton] at ha
  rcases ha with ha | ha
  · exact h.2.2 a ha _ (List.mem_singleton.mpr rfl)
  · rw [ha]

/-- A run that is not empty has a first element, and no key in it is smaller than the one of this element.
-/
theorem Ascending.exists_first {xs : List α} (h : Ascending key xs) {a : α} (ha : a ∈ xs) :
    ∃ x ∈ xs.head?, x ∈ xs ∧ key x ≤ key a := by
  cases xs with
  | nil => exact nomatch ha
  | cons x xs =>
    refine ⟨x, rfl, List.mem_cons_self, ?_⟩
    rcases List.mem_cons.mp ha with rfl | ha
    · exact le_refl _
    · exact (List.pairwise_cons.mp h).1 a ha

/-- Merging keeps the order, if the answers are those of the keys. -/
theorem Merges.ordered {l r ys : List α}
    (hkey : ∀ {a b answer}, S a → S b → ask a b = some answer → answer = decide (key a < key b))
    (h : Merges ask l r ys) (hl : ∀ a ∈ l, S a) (hr : ∀ a ∈ r, S a)
    (hleft : Ascending key l) (hright : Ascending key r) :
    Ascending key ys ∧ Alike key ys (l ++ r) := by
  induction h with
  | left l =>
    rw [List.append_nil]
    exact ⟨hleft, fun _ => rfl⟩
  | right r => exact ⟨hright, fun _ => rfl⟩
  | @cut l₁ l₂ r₁ r₂ ys zs hpass hstay first second ih₁ ih₂ =>
    obtain ⟨hl₁, hl₂⟩ := List.forall_mem_append.mp hl
    obtain ⟨hr₁, hr₂⟩ := List.forall_mem_append.mp hr
    obtain ⟨hleft₁, hleft₂, hleft⟩ := List.pairwise_append.mp hleft
    obtain ⟨hright₁, hright₂, hright⟩ := List.pairwise_append.mp hright
    obtain ⟨hys, hysAlike⟩ := ih₁ hl₁ hr₁ hleft₁ hright₁
    obtain ⟨hzs, hzsAlike⟩ := ih₂ hl₂ hr₂ hleft₂ hright₂
    have hpassed : ∀ a ∈ r₁, ∀ b ∈ l₂, key a < key b := by
      intro a ha b hb
      obtain ⟨x, hx, hxmem, hax⟩ := Ascending.exists_last hright₁ ha
      obtain ⟨y, hy, hymem, hyb⟩ := Ascending.exists_first hleft₂ hb
      have hxy := hkey (hr₁ x hxmem) (hl₂ y hymem) (hpass x hx y hy)
      exact hax.trans_lt ((of_decide_eq_true hxy.symm).trans_le hyb)
    have hstayed : ∀ a ∈ l₁, ∀ b ∈ r₂, key a ≤ key b := by
      intro a ha b hb
      obtain ⟨y, hy, hymem, hay⟩ := Ascending.exists_last hleft₁ ha
      obtain ⟨x, hx, hxmem, hxb⟩ := Ascending.exists_first hright₂ hb
      have hxy := hkey (hr₂ x hxmem) (hl₁ y hymem) (hstay x hx y hy)
      exact hay.trans ((not_lt.mp (of_decide_eq_false hxy.symm)).trans hxb)
    constructor
    · refine List.pairwise_append.mpr ⟨hys, hzs, fun a ha b hb => ?_⟩
      rw [first.perm.mem_iff, List.mem_append] at ha
      rw [second.perm.mem_iff, List.mem_append] at hb
      rcases ha with ha | ha <;> rcases hb with hb | hb
      · exact hleft a ha b hb
      · exact hstayed a ha b hb
      · exact (hpassed a ha b hb).le
      · exact hright a ha b hb
    · have hswap : Alike key (r₁ ++ l₂) (l₂ ++ r₁) := alike_swap fun a ha b hb => (hpassed a ha b hb).ne
      refine (hysAlike.append hzsAlike).trans fun k => ?_
      have hk := hswap k
      simp only [List.filter_append, List.append_assoc] at hk ⊢
      rw [← List.append_assoc (r₁.filter _), hk, List.append_assoc]

/-- A sorted list ascends and has equal elements in their order, if the answers are those of the keys. -/
theorem Sorts.ordered {xs ys : List α}
    (hkey : ∀ {a b answer}, S a → S b → ask a b = some answer → answer = decide (key a < key b))
    (h : Sorts ask xs ys) (hxs : ∀ a ∈ xs, S a) : Ascending key ys ∧ Alike key ys xs := by
  induction h with
  | nil => exact ⟨.nil, fun _ => rfl⟩
  | single x => exact ⟨List.pairwise_singleton _ x, fun _ => rfl⟩
  | @merge l r l' r' ys hl hr h ihl ihr =>
    obtain ⟨hmeml, hmemr⟩ := List.forall_mem_append.mp hxs
    obtain ⟨hleft, hleftAlike⟩ := ihl hmeml
    obtain ⟨hright, hrightAlike⟩ := ihr hmemr
    obtain ⟨hys, halike⟩ := h.ordered hkey (fun a ha => hmeml a (hl.perm.mem_iff.mp ha))
      (fun a ha => hmemr a (hr.perm.mem_iff.mp ha)) hleft hright
    exact ⟨hys, halike.trans (hleftAlike.append hrightAlike)⟩

end

end Mundart.Sorting
