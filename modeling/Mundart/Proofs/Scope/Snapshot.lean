import Mundart.Proofs.Dict
import Mundart.Scope

/-!
# What is visible in a scope

A lookup goes through the frames of a scope from the inside out and stops at the first one that has the
name. A snapshot is taken from the outside in, with the inner definitions written over the outer ones. Both
see the same variables, and the names of all visible functions are listed once each.

* **`get?_snapshot`** — a snapshot has the value that a lookup finds;
* **`mem_functionNames`**, **`ascending_functionNames`** — the listed functions are those that a lookup
  finds, in strictly ascending order.
-/

namespace Mundart

/-- The entries of a second dictionary, written over those of a first one. -/
theorem Dict.get?_foldl_set {α : Type} {writes : Dict α} (hwrites : writes.keys.Nodup) :
    ∀ (d : Dict α) (key : Text),
      Dict.get? (writes.foldl (fun d e => d.set e.1 e.2) d) key = (writes.get? key).or (d.get? key) := by
  induction writes with
  | nil => exact fun d key => rfl
  | cons e writes ih =>
    obtain ⟨k, v⟩ := e
    intro d key
    obtain ⟨hnew, hrest⟩ := List.nodup_cons.mp hwrites
    rw [List.foldl_cons, ih hrest, Dict.get?_set, Dict.get?]
    by_cases hkey : k = key
    -- No other entry has this key.
    · have hnone : Dict.get? writes key = none := (Dict.get?_eq_none_iff writes key).mpr (hkey ▸ hnew)
      simp [hkey, hnone]
    · simp [hkey]

/-- Writing entries makes no key stand twice. -/
theorem Dict.nodup_keys_foldl_set {α : Type} (writes : Dict α) : ∀ {d : Dict α}, d.keys.Nodup →
    (Dict.keys (writes.foldl (fun d e => d.set e.1 e.2) d)).Nodup := by
  induction writes with
  | nil => exact fun hd => hd
  | cons e writes ih => exact fun hd => ih (Dict.nodup_keys_set hd e.1 e.2)

/-- Nothing stands twice where repetitions were left out. -/
theorem Text.nodup_eraseDups (ts : List Text) : ts.eraseDups.Nodup := by
  cases ts with
  | nil => simp
  | cons t ts =>
    rw [List.eraseDups_cons, List.nodup_cons]
    constructor
    · simp
    · exact nodup_eraseDups (ts.filter fun u => !u == t)
termination_by ts.length
decreasing_by exact Nat.lt_succ_of_le (List.length_filter_le _ _)

/-- A frame where every name is defined once at most. -/
structure Frame.Tidy (f : Frame) : Prop where
  vars : f.vars.keys.Nodup
  funcs : f.funcs.keys.Nodup

namespace Scope

/-- A name is looked up in the innermost frame first. -/
theorem lookupVar?_cons (f : Frame) (fs : Scope) (name : Text) :
    lookupVar? (f :: fs) name = (f.vars.get? name).or (lookupVar? fs name) := by
  show List.findSome? _ (f :: fs) = _
  rw [List.findSome?_cons]
  cases f.vars.get? name with
  | none => rfl
  | some v => rfl

/-- The innermost frame is written over the others. -/
theorem snapshot_cons (f : Frame) (fs : Scope) :
    snapshot (f :: fs) = f.vars.foldl (fun d e => d.set e.1 e.2) (snapshot fs) := by
  simp [snapshot]

/-- A snapshot has the value that a lookup finds. -/
theorem get?_snapshot {s : Scope} (hs : ∀ f ∈ s, f.Tidy) (name : Text) :
    s.snapshot.get? name = s.lookupVar? name := by
  induction s with
  | nil => rfl
  | cons f fs ih =>
    obtain ⟨hf, hfs⟩ := List.forall_mem_cons.mp hs
    rw [snapshot_cons, Dict.get?_foldl_set hf.vars, ih hfs, lookupVar?_cons]

/-- A snapshot has every name once. -/
theorem nodup_keys_snapshot (s : Scope) : s.snapshot.keys.Nodup := by
  induction s with
  | nil => exact List.nodup_nil
  | cons f fs ih =>
    rw [snapshot_cons]
    exact Dict.nodup_keys_foldl_set f.vars ih

/-- It has exactly the names that are found. -/
theorem mem_keys_snapshot {s : Scope} (hs : ∀ f ∈ s, f.Tidy) (name : Text) :
    name ∈ s.snapshot.keys ↔ ∃ v, s.lookupVar? name = some v := by
  rw [Dict.mem_keys_iff_get?, get?_snapshot hs]

/-- Reading a variable fails for the names that no snapshot shows. -/
theorem getVar_fails_iff {s : Scope} (hs : ∀ f ∈ s, f.Tidy) (name : Text) :
    (∃ e, s.getVar name = .error e ∧ e.kind? = some .unknownIdentifier) ↔ name ∉ s.snapshot.keys := by
  rw [mem_keys_snapshot hs, getVar]
  cases s.lookupVar? name with
  | none => simp [Failure.kind?]
  | some v => simp

/-- The listed functions are those that a lookup finds. -/
theorem mem_functionNames (s : Scope) (name : Text) :
    name ∈ s.functionNames ↔ ∃ fn, s.lookupFunc? name = some fn := by
  have hlisted : name ∈ s.functionNames ↔ ∃ f ∈ s, name ∈ f.funcs.keys := by
    simp [functionNames, List.mem_mergeSort, List.mem_eraseDups]
  have hfound : ∀ f : Frame, name ∈ f.funcs.keys ↔ (f.funcs.get? name).isSome = true := by
    intro f
    rw [Dict.mem_keys_iff_get?, Option.isSome_iff_exists]
  rw [hlisted, ← Option.isSome_iff_exists, lookupFunc?, List.isSome_findSome?, List.any_eq_true]
  simp only [hfound]

/-- The names of functions are told in their order. -/
theorem ascending_functionNames (s : Scope) :
    s.functionNames.Pairwise fun a b => Text.before a b = true := by
  apply Text.ascending_mergeSort id
  rw [List.map_id]
  exact Text.nodup_eraseDups _

end Scope

end Mundart
