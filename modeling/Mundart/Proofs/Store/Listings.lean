import Mathlib
import Mundart.Proofs.Store.Lifecycle

/-!
# What the listings show

Scripts are listed by their ids and runs by their starts, the newest first. A listing walks through
tables and sorts what it meets there, so which order the tables have must not be seen in it. It is not,
as long as no two runs were started at the same moment: then every listing is the one arrangement of
what the store holds that is in order.

* **`mem_storedRuns`**, **`nodup_storedRuns`** — the runs that a walk meets are those that are found,
  each of them once;
* **`filter_storedRuns`** — those of one script stand on its shelf;
* **`eq_newestFirst`** — runs in strict order are in the only order;
* **`listings_complete`** — all listings, after every history.
-/

namespace Mundart.Store

/-- All runs, script by script, in the order of the tables. -/
def storedRuns (s : Store) : List Run := s.runs.values.flatMap Dict.values

/-! ## Order

A sorted list is known by what is in it, if the order is strict. So all that is to be shown of a listing is
that it is in order and what it holds. -/

/-- The first run started later than the second one. -/
def Newer (a b : Run) : Prop := b.started < a.started

/-- Sorting runs loses none of them. -/
theorem newestFirst_perm (runs : List Run) : (newestFirst runs).Perm runs := List.mergeSort_perm ..

/-- Without a limit all stored runs are listed. -/
theorem recentRuns_perm {s : Store} : (s.recentRuns 0).Perm s.storedRuns := newestFirst_perm _

/-- Runs with different starts are put in strict order. -/
theorem newestFirst_descends {runs : List Run} (h : (runs.map Run.started).Nodup) :
    (newestFirst runs).Pairwise Newer := by
  have hsorted : (newestFirst runs).Pairwise fun a b => b.started ≤ a.started := by
    have hall : (newestFirst runs).Pairwise fun a b => decide (b.started ≤ a.started) = true := by
      apply List.pairwise_mergeSort
      · intro a b c hab hbc
        rw [decide_eq_true_eq] at hab hbc ⊢
        exact Int.le_trans hbc hab
      · intro a b
        simpa using Int.le_total b.started a.started
    simpa using hall
  -- The order of the sort is strict once no two starts are the same.
  have hdistinct : (newestFirst runs).Pairwise fun a b => a.started ≠ b.started := by
    apply List.pairwise_map.mp
    exact ((newestFirst_perm runs).map Run.started).nodup_iff.mpr h
  apply (hsorted.and hdistinct).imp
  intro a b hab
  show b.started < a.started
  exact Int.lt_iff_le_and_ne.mpr ⟨hab.1, hab.2.symm⟩

/-- Two arrangements in strict order are the same. -/
theorem eq_of_newer {runs runs' : List Run} (hperm : runs.Perm runs') (h : runs.Pairwise Newer)
    (h' : runs'.Pairwise Newer) : runs = runs' := by
  apply hperm.eq_of_pairwise _ h h'
  intro a b _ _ hab hba
  exact absurd (show b.started < a.started from hab) (Int.lt_asymm hba)

/-- Putting runs in order and choosing some of them can be done one way and the other. -/
theorem filter_newestFirst {runs : List Run} (h : (runs.map Run.started).Nodup) (p : Run → Bool) :
    (newestFirst runs).filter p = newestFirst (runs.filter p) := by
  have hchosen : ((runs.filter p).map Run.started).Nodup :=
    List.Nodup.sublist (List.filter_sublist.map Run.started) h
  apply eq_of_newer
  · exact ((newestFirst_perm runs).filter p).trans (newestFirst_perm _).symm
  · exact (newestFirst_descends h).filter p
  · exact newestFirst_descends hchosen

/-- Scripts in the strict order of their ids are in the only order. -/
theorem eq_of_before {scripts scripts' : List Script} (hperm : scripts.Perm scripts')
    (h : scripts.Pairwise fun a b => Text.before a.id b.id = true)
    (h' : scripts'.Pairwise fun a b => Text.before a.id b.id = true) : scripts = scripts' := by
  apply hperm.eq_of_pairwise _ h h'
  intro a b _ _ hab hba
  rw [Text.before_iff] at hab hba
  exact absurd hab (lt_asymm hba)

/-! ## Content

A walk goes over the shelves and over the runs on each. It meets a run once, since a run stands on the shelf
of its own script and under its own id: this is what the invariant of the store says. -/

section

variable {s : Store} (hs : s.Consistent)

include hs

/-- A run stands on the shelf of its script. -/
theorem script_of_mem_shelf {e : Text × Dict Run} (he : e ∈ s.runs) {run : Run} (hrun : run ∈ e.2.values) :
    run.script = e.1 :=
  (hs.of_run? (run?_of_mem_values hs he hrun)).2.1

/-- The runs that are met are those that are found by script and id. -/
theorem mem_storedRuns {run : Run} : run ∈ s.storedRuns ↔ s.run? run.script run.id = some run := by
  constructor
  · intro hrun
    obtain ⟨shelf, hshelf, hrun⟩ := List.mem_flatMap.mp hrun
    obtain ⟨e, he, rfl⟩ := List.mem_map.mp hshelf
    rw [script_of_mem_shelf hs he hrun]
    exact run?_of_mem_values hs he hrun
  · intro hrun
    obtain ⟨shelf, hshelf, hget⟩ := Option.bind_eq_some_iff.mp hrun
    apply List.mem_flatMap.mpr
    refine ⟨shelf, ?_, ?_⟩
    · exact List.mem_map_of_mem (Dict.mem_of_get? hshelf)
    · exact List.mem_map_of_mem (f := Prod.snd) (Dict.mem_of_get? hget)

/-- The ids on a shelf are its keys, and every shelf has runs of its own script only. -/
theorem nodup_storedRuns : s.storedRuns.Nodup := by
  have hshelf : ∀ e ∈ s.runs, e.2.values.Nodup := by
    intro e he
    have hids : e.2.values.map Run.id = e.2.keys := by
      simp only [Dict.values, Dict.keys, List.map_map]
      exact List.map_congr_left fun f hf => (hs.runs e he f hf).1
    exact List.Nodup.of_map Run.id (hids ▸ hs.distinct.2.2 e he)
  show ((s.runs.map Prod.snd).flatMap Dict.values).Nodup
  rw [List.flatMap_map, List.nodup_flatMap]
  refine ⟨hshelf, ?_⟩
  apply (List.pairwise_map.mp hs.distinct.2.1).imp_of_mem
  intro e f he hf hne run hrun hrun'
  exact hne ((script_of_mem_shelf hs he hrun).symm.trans (script_of_mem_shelf hs hf hrun'))

/-- A run cannot be met on the shelf of another script. -/
theorem filter_storedRuns (script : Text) :
    (s.storedRuns.filter fun run => run.script = script) =
      ((s.runs.get? script).map Dict.values).getD [] := by
  have hall : ∀ e ∈ s.runs, ∀ run ∈ e.2.values, run.script = e.1 :=
    fun e he run hrun => script_of_mem_shelf hs he hrun
  have hkeys := hs.distinct.2.1
  unfold storedRuns
  generalize s.runs = shelves at hall hkeys
  -- By induction on the table: the shelf of the script is kept as it is, all others vanish.
  induction shelves with
  | nil => rfl
  | cons e shelves ih =>
    obtain ⟨hnew, hkeys⟩ := List.nodup_cons.mp hkeys
    have hrest := ih (fun f hf => hall f (List.mem_cons_of_mem e hf)) hkeys
    have hfirst := hall e List.mem_cons_self
    show ((e.2.values ++ (Dict.values shelves).flatMap Dict.values).filter _) = _
    rw [List.filter_append, hrest]
    by_cases he : e.1 = script
    · have hnone : Dict.get? shelves script = none := (Dict.get?_eq_none_iff _ _).mpr (he ▸ hnew)
      have hkept : (e.2.values.filter fun run => run.script = script) = e.2.values := by
        apply List.filter_eq_self.mpr
        simp +contextual [hfirst, he]
      simp [hkept, hnone, Dict.get?, he]
    · have hgone : (e.2.values.filter fun run => run.script = script) = [] := by
        apply List.filter_eq_nil_iff.mpr
        simp +contextual [hfirst, he]
      simp [hgone, Dict.get?, he]

/-- The scripts that are listed are those that are found by id. -/
theorem mem_listScripts {script : Script} :
    script ∈ s.listScripts ↔ s.scripts.get? script.id = some script := by
  have hmem : script ∈ s.listScripts ↔ ∃ e ∈ s.scripts, e.2 = script := by
    simp [listScripts, Dict.values, (Dict.byKey_perm s.scripts).mem_iff]
  rw [hmem]
  constructor
  · rintro ⟨e, he, rfl⟩
    rw [hs.scripts e he]
    exact Dict.get?_of_mem hs.distinct.1 he
  · intro hget
    exact ⟨_, Dict.mem_of_get? hget, rfl⟩

/-- Scripts are listed in the order of their ids. -/
theorem ascending_listScripts : s.listScripts.Pairwise fun a b => Text.before a.id b.id = true := by
  have hids : s.listScripts.map Script.id = s.scripts.byKey.keys := by
    simp only [listScripts, Dict.values, Dict.keys, List.map_map]
    apply List.map_congr_left
    intro e he
    exact hs.scripts e ((Dict.byKey_perm s.scripts).mem_iff.mp he)
  have hascending : (s.listScripts.map Script.id).Pairwise fun a b => Text.before a b = true := by
    rw [hids]
    exact Dict.ascending_byKey hs.distinct.1
  exact List.pairwise_map.mp hascending

/-- Scripts are listed once each. -/
theorem nodup_listScripts : s.listScripts.Nodup := by
  apply (ascending_listScripts hs).imp
  rintro a b hab rfl
  rw [Text.before_iff] at hab
  exact lt_irrefl _ hab

/-- So a script that is there is listed exactly once. -/
theorem count_listScripts {id : Text} {script : Script} (hget : s.getScript id = .ok script) :
    s.listScripts.count script = 1 := by
  rw [getScript_eq_ok] at hget
  apply List.count_eq_one_of_mem (nodup_listScripts hs)
  rw [mem_listScripts hs, hs.scripts _ (Dict.mem_of_get? hget)]
  exact hget

/-- Without a limit the runs that are listed are those that are there. -/
theorem mem_recentRuns {run : Run} : run ∈ s.recentRuns 0 ↔ s.getRun run.script run.id = .ok run := by
  rw [recentRuns_perm.mem_iff, mem_storedRuns hs, getRun_eq_ok]

/-- Without a limit every run is listed exactly once. -/
theorem count_recentRuns {script id : Text} {run : Run} (hget : s.getRun script id = .ok run) :
    (s.recentRuns 0).count run = 1 := by
  obtain ⟨hid, hscript, -⟩ := hs.of_run? (getRun_eq_ok.mp hget)
  apply List.count_eq_one_of_mem
  · exact recentRuns_perm.nodup_iff.mpr (nodup_storedRuns hs)
  · rw [mem_recentRuns hs, hscript, hid]
    exact hget

/-- The runs of a script are the chosen ones among all runs. -/
theorem listRuns_eq (hstarts : (s.storedRuns.map Run.started).Nodup) (script : Text) :
    s.listRuns script =
      (s.getScript script).map fun _ => (s.recentRuns 0).filter fun run => run.script = script := by
  have hchosen : ((s.recentRuns 0).filter fun run => run.script = script) =
      newestFirst (((s.runs.get? script).map Dict.values).getD []) := by
    show ((newestFirst s.storedRuns).filter _) = _
    rw [filter_newestFirst hstarts, filter_storedRuns hs]
  -- A script has a shelf exactly if it is there, so that two of the four cases do not occur.
  have hboth := hs.ids script
  rw [Dict.mem_keys_iff_get?, Dict.mem_keys_iff_get?] at hboth
  rw [hchosen]
  unfold listRuns getScript
  cases hshelf : s.runs.get? script with
  | none =>
    cases howner : s.scripts.get? script with
    | none => rfl
    | some owner => simp [hshelf, howner] at hboth
  | some shelf =>
    cases howner : s.scripts.get? script with
    | none => simp [hshelf, howner] at hboth
    | some owner => rfl

end

/-- A limit cuts the listing of all runs. -/
theorem recentRuns_limited (s : Store) {limit : Int} (hlimit : 0 < limit) :
    s.recentRuns limit = (s.recentRuns 0).take limit.toNat := by
  show (if 0 < limit then _ else _) = _
  rw [if_pos hlimit]
  rfl

/-- A limit that is not positive is none. -/
theorem recentRuns_unlimited (s : Store) {limit : Int} (hlimit : ¬ 0 < limit) :
    s.recentRuns limit = s.recentRuns 0 := by
  show (if 0 < limit then _ else _) = _
  rw [if_neg hlimit]
  rfl

/-! ## The order of the tables

The tables are walked through in an order that nothing promises. Two walks over the same tables meet the
same runs, so sorting them makes the same list. -/

section

variable {s t : Store} (hs : s.Consistent) (ht : t.Consistent)

include hs ht

/-- Two stores that find the same scripts list the same. -/
theorem listScripts_congr (hsame : ∀ id, t.getScript id = s.getScript id) :
    t.listScripts = s.listScripts := by
  apply eq_of_before _ (ascending_listScripts ht) (ascending_listScripts hs)
  apply (List.perm_ext_iff_of_nodup (nodup_listScripts ht) (nodup_listScripts hs)).mpr
  intro script
  rw [mem_listScripts ht, mem_listScripts hs, ← getScript_eq_ok, ← getScript_eq_ok, hsame]

/-- Two stores that find the same runs hold the same. -/
theorem storedRuns_perm (hsame : ∀ script id, t.getRun script id = s.getRun script id) :
    t.storedRuns.Perm s.storedRuns := by
  apply (List.perm_ext_iff_of_nodup (nodup_storedRuns ht) (nodup_storedRuns hs)).mpr
  intro run
  rw [mem_storedRuns ht, mem_storedRuns hs, ← getRun_eq_ok, ← getRun_eq_ok, hsame]

/-- They list the same, as long as the starts tell their runs apart. -/
theorem recentRuns_congr (hstarts : (s.storedRuns.map Run.started).Nodup)
    (hsame : ∀ script id, t.getRun script id = s.getRun script id) (limit : Int) :
    t.recentRuns limit = s.recentRuns limit := by
  have hperm := storedRuns_perm hs ht hsame
  have hall : t.recentRuns 0 = s.recentRuns 0 := by
    apply eq_of_newer
    · exact (recentRuns_perm.trans hperm).trans recentRuns_perm.symm
    · exact newestFirst_descends ((hperm.map Run.started).nodup_iff.mpr hstarts)
    · exact newestFirst_descends hstarts
  by_cases hlimit : 0 < limit
  · rw [recentRuns_limited t hlimit, recentRuns_limited s hlimit, hall]
  · rw [recentRuns_unlimited t hlimit, recentRuns_unlimited s hlimit, hall]

end

/-! ## All listings

The invariant holds after every history, and with it all of the above. -/

/-- What is listed after a history that started no two of the stored runs at the same moment. Every
script is listed once, in strictly ascending order of ids, and every run once, the newest first; the
runs of one script are the listed ones that belong to it, and a limit cuts the listing after so many
runs. The order of the tables is not seen: another store in which the same scripts and runs are found
lists the same. -/
theorem listings_complete (history : List Operation)
    (hstarts : ((after history).storedRuns.map Run.started).Nodup) :
    let s := after history
    (s.listScripts.Pairwise (fun a b => Text.before a.id b.id = true) ∧
      (∀ id script, s.getScript id = .ok script → s.listScripts.count script = 1) ∧
      ∀ script ∈ s.listScripts, s.getScript script.id = .ok script) ∧
    ((s.recentRuns 0).Pairwise (fun a b => b.started < a.started) ∧
      (∀ script id run, s.getRun script id = .ok run → (s.recentRuns 0).count run = 1) ∧
      ∀ run ∈ s.recentRuns 0, s.getRun run.script run.id = .ok run) ∧
    (∀ script, s.listRuns script =
      (s.getScript script).map fun _ => (s.recentRuns 0).filter fun run => run.script = script) ∧
    (∀ limit, 0 < limit → s.recentRuns limit <+: s.recentRuns 0 ∧
      (s.recentRuns limit).length = min limit.toNat s.storedRuns.length) ∧
    ∀ t : Store, t.Consistent → (∀ id, t.getScript id = s.getScript id) →
      (∀ script id, t.getRun script id = s.getRun script id) →
      t.listScripts = s.listScripts ∧ (∀ script, t.listRuns script = s.listRuns script) ∧
        ∀ limit, t.recentRuns limit = s.recentRuns limit := by
  intro s
  have hs : s.Consistent := consistent_after history
  refine ⟨⟨ascending_listScripts hs, fun _ _ => count_listScripts hs, fun script hscript => ?_⟩,
    ⟨newestFirst_descends hstarts, fun _ _ _ => count_recentRuns hs, fun _ => (mem_recentRuns hs).mp⟩,
    listRuns_eq hs hstarts, fun limit hlimit => ?_, fun t ht hscripts hruns => ?_⟩
  · rw [getScript_eq_ok]
    exact (mem_listScripts hs).mp hscript
  · rw [recentRuns_limited s hlimit, List.length_take, recentRuns_perm.length_eq]
    exact ⟨List.take_prefix _ _, rfl⟩
  -- The other store has the same runs in some order, and sorting forgets the order.
  · have hperm := storedRuns_perm hs ht hruns
    have hstarts' := (hperm.map Run.started).nodup_iff.mpr hstarts
    have hrecent := recentRuns_congr hs ht hstarts hruns
    refine ⟨listScripts_congr hs ht hscripts, fun script => ?_, hrecent⟩
    rw [listRuns_eq hs hstarts, listRuns_eq ht hstarts', hrecent, hscripts]

/-- Two scripts, made against the order of their ids, with three runs that take turns: the listings put
both in order, whatever has become of the runs. -/
theorem listings_complete_taking_turns :
    let history : List Operation := [.createScript "zins" "speicher 1" [] ⟨0, "aaa"⟩,
      .createScript "amt" "speicher 2" [] ⟨1, "bbb"⟩, .createRun "zins" ⟨2, "r1"⟩,
      .createRun "amt" ⟨3, "r2"⟩, .createRun "zins" ⟨4, "r3"⟩, .finishRun "zins" "r1" .cancelled 5]
    ((after history).storedRuns.map Run.started).Nodup ∧
    (after history).listScripts.map Script.id = (["amt", "zins"] : List Text) ∧
    ((after history).recentRuns 0).map Run.id = (["r3", "r2", "r1"] : List Text) ∧
    ((after history).recentRuns 0).count
      ⟨"r1", "zins", ⟨1, "aaa"⟩, 2, .cancelled, [], [], none, 0, some 5⟩ = 1 ∧
    ((after history).recentRuns 2).length = 2 ∧
    ((after history).listRuns "zins").map (List.map Run.id) = .ok ["r3", "r1"] := by
  intro history
  have hstarts : ((after history).storedRuns.map Run.started).Nodup := by decide +kernel
  obtain ⟨-, ⟨-, hruns, -⟩, hlist, hlimit, -⟩ := listings_complete history hstarts
  refine ⟨hstarts, ?_, ?_, ?_, ?_, ?_⟩
  · cbv
  · cbv
  -- a run that is found is counted once by the theorem
  · exact hruns "zins" "r1" _ (by cbv)
  · rw [(hlimit 2 (by decide)).2]
    decide +kernel
  · rw [hlist]
    cbv

end Mundart.Store
