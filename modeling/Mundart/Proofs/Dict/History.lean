import Mathlib.Data.List.Induction
import Mundart.Proofs.Dict

/-!
# Dictionaries and what was written to them

A dictionary shows the history of its writes: the keys stand in the order of their first write, and a key is
read as what was written to it last.

* **`keys_ofWrites`**, **`get?_ofWrites`** — keys and values by the writes that led to the dictionary;
* **`forall_ofWrites`** — it has no values but those that were written.
-/

namespace Mundart

namespace Dict

variable {α : Type}

/-- The last write is written to what the others lead to. -/
theorem ofWrites_concat (writes : List (Text × α)) (w : Text × α) :
    ofWrites (writes ++ [w]) = (ofWrites writes).set w.1 w.2 := by
  simp [ofWrites]

/-- Whatever is written, no key stands twice. -/
theorem nodup_keys_ofWrites (writes : List (Text × α)) : (ofWrites writes).keys.Nodup := by
  induction writes using List.reverseRecOn with
  | nil => exact List.nodup_nil
  | append_singleton writes w ih =>
    rw [ofWrites_concat]
    exact nodup_keys_set ih w.1 w.2

/-- The keys are those that were written to, in the order of their first write. -/
theorem keys_ofWrites (writes : List (Text × α)) :
    (ofWrites writes).keys = (writes.map Prod.fst).eraseDups := by
  induction writes using List.reverseRecOn with
  | nil => simp [ofWrites]
  | append_singleton writes w ih =>
    rw [ofWrites_concat, keys_set, ih, List.map_append, List.eraseDups_append]
    by_cases hknown : w.1 ∈ writes.map Prod.fst
    · have hkept : [w.1].removeAll (writes.map Prod.fst) = [] := by
        simpa [List.removeAll] using hknown
      rw [if_pos (List.mem_eraseDups.mpr hknown)]
      simp [hkept]
    · have hnew : [w.1].removeAll (writes.map Prod.fst) = [w.1] := by
        simpa [List.removeAll] using hknown
      rw [if_neg fun h => hknown (List.mem_eraseDups.mp h)]
      simp [hnew, List.eraseDups_cons]

/-- A key is read as what was written to it last. -/
theorem get?_ofWrites (writes : List (Text × α)) (key : Text) :
    (ofWrites writes).get? key = ((writes.filter fun w => w.1 = key).getLast?).map Prod.snd := by
  induction writes using List.reverseRecOn with
  | nil => rfl
  | append_singleton writes w ih =>
    rw [ofWrites_concat, get?_set, ih, List.filter_append]
    by_cases hkey : w.1 = key
    · simp [hkey]
    · simp [hkey]

/-- Every value in a dictionary was written to it. -/
theorem forall_ofWrites {P : α → Prop} {writes : List (Text × α)} (h : ∀ w ∈ writes, P w.2) :
    ∀ e ∈ ofWrites writes, P e.2 := by
  induction writes using List.reverseRecOn with
  | nil => simp [ofWrites]
  | append_singleton writes w ih =>
    intro e he
    rw [ofWrites_concat] at he
    rcases mem_of_mem_set he with rfl | hold
    · exact h w (by simp)
    · exact ih (fun w' hw' => h w' (by simp [hw'])) e hold

end Dict

end Mundart
