import Mathlib.Logic.Function.Basic
import Mundart.Proofs.Dict.History
import Mundart.Proofs.Memory.Sharing

/-!
# Maps under names

Maps that are written to and copied in turn show their own histories. A copy takes over the history of its
origin and goes its own way from then on, at all depths: it has no part in common with any other map, and so
nothing that is done to another one shows in it.

One step keeps this invariant. Either it makes new objects, which nobody else can have as a part, or it
changes one object, the map itself, which is nobody else's part since maps have none in common.

* **`Inv`** — the maps show dictionaries and stay apart from each other;
* **`Inv.apply`** — a step keeps the invariant and leaves the other maps alone;
* **`inv_run`** — after any steps each map shows the dictionary that its history leads to;
* **`refines_history`** — keys, values, reading and isolation of all maps by their histories.
-/

namespace Mundart.Maps

open Memory (Part Shows Loopless Fresh)
open OrderedMap (Mirrors)

/-! ## Histories

What a map should show is said without memory: the list of writes that it has seen, those before a copy
included. A copy takes over a list, and lists are never shared. -/

namespace Step

/-- The histories of all maps after a step: a copy takes over that of its origin. -/
def record (histories : Text → List (Text × Value)) : Step → Text → List (Text × Value)
  | .write name key v => Function.update histories name (histories name ++ [(key, v)])
  | .copy origin name => Function.update histories name (histories origin)

/-- The name whose map the step writes to or replaces. -/
def target : Step → Text
  | .write name _ _ => name
  | .copy _ name => name

/-- The dictionaries that all maps show after a step. -/
def effect (dicts : Text → Dict Value) : Step → Text → Dict Value
  | .write name key v => Function.update dicts name ((dicts name).set key v)
  | .copy origin name => Function.update dicts name (dicts origin)

/-- What is written, if anything is, has no key twice and is not nested deeper than is followed. Every value
has a finite nesting, so some bound is large enough for any steps. -/
def Fits (fuel : Nat) : Step → Prop
  | .write _ _ v => v.Tidy ∧ v.nesting ≤ fuel
  | .copy _ _ => True

end Step

/-- What was written to each map in some steps, and to its origin before it was copied. -/
def histories (steps : List Step) : Text → List (Text × Value) := steps.foldl Step.record fun _ => []

/-- The last step is what the last record says. -/
theorem histories_concat (steps : List Step) (step : Step) :
    histories (steps ++ [step]) = step.record (histories steps) := by
  simp [histories]

/-- Everything in the histories was written in some step. -/
theorem fits_histories {fuel : Nat} {steps : List Step} (h : ∀ step ∈ steps, step.Fits fuel) :
    ∀ name, ∀ w ∈ histories steps name, w.2.Tidy ∧ w.2.nesting ≤ fuel := by
  induction steps using List.reverseRecOn with
  | nil => simp [histories]
  | append_singleton steps step ih =>
    have hbefore := ih fun earlier hearlier => h earlier (by simp [hearlier])
    have hstep : step.Fits fuel := h step (by simp)
    intro name w hw
    rw [histories_concat] at hw
    -- Only the name that is written to or copied to has another history.
    cases step with
    | write written key v =>
      rw [Step.record, Function.update_apply] at hw
      split at hw
      · rcases List.mem_append.mp hw with hold | hnew
        · exact hbefore written w hold
        · rw [List.mem_singleton.mp hnew]
          exact hstep
      · exact hbefore name w hw
    | copy origin copied =>
      rw [Step.record, Function.update_apply] at hw
      split at hw
      · exact hbefore origin w hw
      · exact hbefore name w hw

/-! ## The invariant

That no two maps have a part in common is what keeps them isolated. It cannot be told from the values that
they show, and it is the part that a copy which shares anything would break. -/

/-- An object that the map under a name depends on. -/
def PartOf (ms : Maps) (name : Text) (p : Address) : Prop :=
  ∃ a, ms.places.get? name = some a ∧ Part ms.memory (.ref a) p

/-- Each map shows a dictionary and does not contain itself, and no two of them have a part in common. -/
structure Inv (ms : Maps) (dicts : Text → Dict Value) : Prop where
  shown : ∀ {name a}, ms.places.get? name = some a →
    Shows ms.memory (.ref a) (.assoc (dicts name)) ∧ Loopless ms.memory (.ref a)
  blank : ∀ {name}, ms.places.get? name = none → dicts name = []
  apart : ∀ {name other p}, name ≠ other → ms.PartOf name p → ¬ ms.PartOf other p

/-- All maps are as they were, except perhaps for the one under a name. -/
structure Changed (name : Text) (ms ms' : Maps) : Prop where
  places : ∀ other ≠ name, ms'.places.get? other = ms.places.get? other
  memory : ∀ other ≠ name, ∀ p, ms.PartOf other p → ms'.memory[p]? = ms.memory[p]?

variable {ms ms' ms'' : Maps} {dicts : Text → Dict Value} {name other : Text} {a : Address} {d : Dict Value}
  {fuel : Nat}

/-- Without any map there is nothing to show. -/
theorem inv_empty : Inv {} fun _ => [] := by
  refine ⟨nofun, fun _ => rfl, ?_⟩
  rintro name other p - ⟨a, hplace, -⟩
  exact nomatch hplace

/-- Parts of maps are in use. -/
theorem Inv.part_lt (h : ms.Inv dicts) {p : Address} (hp : ms.PartOf name p) : p < ms.memory.length := by
  obtain ⟨a, hplace, hpart⟩ := hp
  exact (h.shown hplace).1.part_lt hpart

/-- Parts of the other maps are the ones that they were. -/
theorem Changed.partOf (h : Changed name ms ms') (hother : other ≠ name) {p : Address}
    (hp : ms'.PartOf other p) : ms.PartOf other p := by
  obtain ⟨a, hplace, hpart⟩ := hp
  rw [h.places other hother] at hplace
  exact ⟨a, hplace, hpart.frame fun q hq => h.memory other hother q ⟨a, hplace, hq⟩⟩

/-- One map may be changed twice. -/
theorem Changed.trans (h : Changed name ms ms') (h' : Changed name ms' ms'') : Changed name ms ms'' := by
  refine ⟨fun other hother => (h'.places other hother).trans (h.places other hother), ?_⟩
  rintro other hother p ⟨a, hplace, hpart⟩
  have hplace' : ms'.places.get? other = some a := (h.places other hother).trans hplace
  have hpart' : Part ms'.memory (.ref a) p :=
    hpart.keep fun q hq => h.memory other hother q ⟨a, hplace, hq⟩
  exact (h'.memory other hother p ⟨a, hplace', hpart'⟩).trans (h.memory other hother p ⟨a, hplace, hpart⟩)

/-- To replace or change one map keeps the invariant, if what stands under its name then is made of new
objects and of parts that this map had before. -/
theorem Inv.change (h : ms.Inv dicts) (hchanged : Changed name ms ms')
    (hplace : ms'.places.get? name = some a) (hshows : Shows ms'.memory (.ref a) (.assoc d))
    (hloopless : Loopless ms'.memory (.ref a))
    (hparts : ∀ p, Part ms'.memory (.ref a) p → ms.memory.length ≤ p ∨ ms.PartOf name p) :
    ms'.Inv (Function.update dicts name d) := by
  -- The parts under the name belong to nobody else.
  have hapart : ∀ {other p}, other ≠ name → ms'.PartOf name p → ¬ ms'.PartOf other p := by
    rintro other p hother ⟨b, hb, hpart⟩ hpart'
    obtain rfl := Option.some.inj (hplace.symm.trans hb)
    have hold := hchanged.partOf hother hpart'
    obtain hnew | hown := hparts p hpart
    · exact absurd (h.part_lt hold) (Nat.not_lt_of_le hnew)
    · exact h.apart hother hold hown
  refine ⟨fun {other b} hb => ?_, fun {other} hnone => ?_, fun {first second p} hne hfirst hsecond => ?_⟩
  · by_cases hother : other = name
    · subst hother
      obtain rfl := Option.some.inj (hplace.symm.trans hb)
      rw [Function.update_self]
      exact ⟨hshows, hloopless⟩
    · rw [hchanged.places other hother] at hb
      obtain ⟨hshown, hopen⟩ := h.shown hb
      have hsame : ∀ p, Part ms.memory (.ref b) p → ms'.memory[p]? = ms.memory[p]? :=
        fun p hp => hchanged.memory other hother p ⟨b, hb, hp⟩
      rw [Function.update_of_ne hother]
      exact ⟨hshown.frame hsame, hopen.frame hsame⟩
  · have hother : other ≠ name := by
      rintro rfl
      exact nomatch hplace.symm.trans hnone
    rw [hchanged.places other hother] at hnone
    rw [Function.update_of_ne hother]
    exact h.blank hnone
  -- If neither of the two was changed, they were apart before.
  · by_cases hname : first = name
    · subst hname
      exact hapart (Ne.symm hne) hfirst hsecond
    · by_cases hname' : second = name
      · subst hname'
        exact hapart hname hsecond hfirst
      · exact h.apart hne (hchanged.partOf hname hfirst) (hchanged.partOf hname' hsecond)

/-! ## One step

A write first looks for the map, then holds the value, and then changes the map. A copy makes new objects,
or an empty map if there is nothing to copy. Each of these keeps the invariant, by the theory of single
objects. -/

/-- One name gets the new place, all others keep theirs. -/
theorem get?_settle (ms : Maps) (name other : Text) (made : Address × Memory) :
    (ms.settle name made).places.get? other =
      if name = other then some made.1 else ms.places.get? other :=
  Dict.get?_set ms.places name other made.1

/-- A new map is put under a name. -/
theorem Inv.settle (h : ms.Inv dicts) (name : Text) {made : Address × Memory}
    (hmade : Fresh ms.memory made.2 (.ref made.1) (.assoc d)) :
    (ms.settle name made).Inv (Function.update dicts name d) ∧ Changed name ms (ms.settle name made) := by
  have hchanged : Changed name ms (ms.settle name made) := by
    refine ⟨fun other hother => ?_, ?_⟩
    · rw [get?_settle, if_neg (Ne.symm hother)]
    · rintro other - p ⟨b, hb, hpart⟩
      exact (h.shown hb).1.same_of_grown hmade.grown hpart
  have hplace : (ms.settle name made).places.get? name = some made.1 := by
    rw [get?_settle, if_pos rfl]
  exact ⟨h.change hchanged hplace hmade.shows hmade.loopless fun p hp => .inl (hmade.parts p hp), hchanged⟩

/-- An empty map is new. -/
theorem fresh_empty (mem : Memory) : Fresh mem (mem.new (.map {})).2 (.ref (mem.new (.map {})).1) (.assoc []) := by
  refine Memory.fresh_new List.prefix_rfl ?_ ?_
  · exact Memory.shows_of_mirrors (by simp) (OrderedMap.mirrors_empty _)
  · rintro x ⟨key, hkey⟩
    rw [OrderedMap.get?_empty] at hkey
    exact nomatch hkey

/-- To look for the place of a map makes an empty one at most, which shows what was there. -/
theorem Inv.locate (h : ms.Inv dicts) (name : Text) :
    (ms.locate name).2.Inv dicts ∧ Changed name ms (ms.locate name).2 ∧
      (ms.locate name).2.places.get? name = some (ms.locate name).1 := by
  unfold Maps.locate
  cases hplace : ms.places.get? name with
  | some a => exact ⟨h, ⟨fun _ _ => rfl, fun _ _ _ _ => rfl⟩, hplace⟩
  | none =>
    obtain ⟨hinv, hchanged⟩ := h.settle name (fresh_empty ms.memory)
    -- A name without a place shows the empty dictionary, as the new map does.
    have hsame : Function.update dicts name [] = dicts := by
      rw [← h.blank hplace, Function.update_eq_self]
    rw [hsame] at hinv
    refine ⟨hinv, hchanged, ?_⟩
    rw [get?_settle, if_pos rfl]
    rfl

/-- A key of a map is written. -/
theorem Inv.write (h : ms.Inv dicts) (hplace : ms.places.get? name = some a) (key : Text) {v : Value}
    (hv : v.Tidy) :
    let held := ms.memory.hold v
    let ms' : Maps := { ms with memory := held.2.set a (.map ((held.2.mapAt a).set key held.1)) }
    ms'.Inv (Function.update dicts name ((dicts name).set key v)) ∧ Changed name ms ms' := by
  intro held ms'
  obtain ⟨hshown, hopen⟩ := h.shown hplace
  have hfresh : Fresh ms.memory held.2 held.1 v := Memory.hold_fresh hv ms.memory
  obtain ⟨hshows, hloopless, hparts⟩ := hshown.write hopen hfresh key
  -- The other maps have neither the written map as a part nor anything new.
  have hchanged : Changed name ms ms' := by
    refine ⟨fun _ _ => rfl, ?_⟩
    rintro other hother p ⟨b, hb, hpart⟩
    have hne : a ≠ p := by
      rintro rfl
      exact h.apart hother ⟨b, hb, hpart⟩ ⟨_, hplace, .root⟩
    have hold : held.2[p]? = ms.memory[p]? := (h.shown hb).1.same_of_grown hfresh.grown hpart
    exact (List.getElem?_set_ne hne).trans hold
  refine ⟨h.change hchanged hplace hshows hloopless fun p hp => ?_, hchanged⟩
  exact (hparts p hp).imp id fun hpart => ⟨a, hplace, hpart⟩

/-- A map with values that are not nested too deep is copied by a new one. -/
theorem Inv.copy (h : ms.Inv dicts) (hplace : ms.places.get? name = some a)
    (hdepth : ∀ e ∈ dicts name, e.2.nesting ≤ fuel) : ∃ made,
    ms.memory.copyObject (Memory.copy fuel) a = some made ∧
      Fresh ms.memory made.2 (.ref made.1) (.assoc (dicts name)) := by
  have hshown := (h.shown hplace).1
  have hnesting : (Value.assoc (dicts name)).nesting ≤ fuel + 1 :=
    Nat.succ_le_succ (Value.nestingEntries_le hdepth)
  have hcopy := hshown.copy hnesting ms.memory List.prefix_rfl
  obtain ⟨made, hmade, hheld⟩ := Option.map_eq_some_iff.mp hcopy
  have hfresh := Memory.hold_fresh hshown.tidy ms.memory
  rw [← hheld] at hfresh
  exact ⟨made, hmade, hfresh⟩

/-- A step succeeds, keeps the invariant and leaves all maps alone but one. -/
theorem Inv.apply (h : ms.Inv dicts) {step : Step} (hstep : step.Fits fuel)
    (hdepth : ∀ name, ∀ e ∈ dicts name, e.2.nesting ≤ fuel) : ∃ ms',
    ms.apply fuel step = some ms' ∧ ms'.Inv (step.effect dicts) ∧ Changed step.target ms ms' := by
  cases step with
  | write name key v =>
    obtain ⟨hlocated, hchanged, hplace⟩ := h.locate name
    obtain ⟨hinv, hwritten⟩ := hlocated.write hplace key hstep.1
    exact ⟨_, rfl, hinv, hchanged.trans hwritten⟩
  | copy origin name =>
    -- A copy of what was never written to is an empty map.
    cases hplace : ms.places.get? origin with
    | none =>
      have happly : ms.apply fuel (.copy origin name) = some (ms.settle name (ms.memory.new (.map {}))) := by
        simp only [Maps.apply, hplace]
      obtain ⟨hinv, hchanged⟩ := h.settle name (fresh_empty ms.memory)
      rw [← h.blank hplace] at hinv
      exact ⟨_, happly, hinv, hchanged⟩
    | some a =>
      obtain ⟨made, hmade, hfresh⟩ := h.copy hplace (hdepth origin)
      have happly : ms.apply fuel (.copy origin name) = some (ms.settle name made) := by
        simp only [Maps.apply, hplace, hmade, Option.map_some]
      obtain ⟨hinv, hchanged⟩ := h.settle name hfresh
      exact ⟨_, happly, hinv, hchanged⟩

/-! ## All steps

By induction on the steps from their end, with the histories alongside. -/

/-- The last step starts where the others have led. -/
theorem run_concat (fuel : Nat) (steps : List Step) (step : Step) :
    run fuel (steps ++ [step]) = (run fuel steps).bind fun ms => ms.apply fuel step := by
  rw [run, List.foldlM_append]
  refine congrArg (Option.bind _) (funext fun ms => ?_)
  exact Option.bind_fun_some _

/-- The dictionary that the history of each map leads to. -/
def shown (steps : List Step) (name : Text) : Dict Value := Dict.ofWrites (histories steps name)

/-- What maps show after it follows from what they showed before. -/
theorem shown_concat (steps : List Step) (step : Step) :
    shown (steps ++ [step]) = step.effect (shown steps) := by
  funext name
  rw [shown, histories_concat]
  -- Only the name that is written to has a longer history.
  cases step with
  | write written key v =>
    rw [Step.record, Step.effect, Function.update_apply, Function.update_apply]
    split
    · exact Dict.ofWrites_concat _ _
    · rfl
  | copy origin copied =>
    rw [Step.record, Step.effect, Function.update_apply, Function.update_apply]
    split
    · rfl
    · rfl

/-- Nothing is shown that was not written, so that all of it can be followed. -/
theorem nesting_shown {steps : List Step} (h : ∀ step ∈ steps, step.Fits fuel) :
    ∀ name, ∀ e ∈ shown steps name, e.2.nesting ≤ fuel := by
  intro name
  apply Dict.forall_ofWrites (P := fun v => Value.nesting v ≤ fuel)
  exact fun w hw => (fits_histories h name w hw).2

/-- After any steps each map shows the dictionary that its history leads to. -/
theorem inv_run {steps : List Step} (h : ∀ step ∈ steps, step.Fits fuel) :
    ∃ ms, run fuel steps = some ms ∧ ms.Inv (shown steps) := by
  induction steps using List.reverseRecOn with
  | nil => exact ⟨{}, rfl, inv_empty⟩
  | append_singleton steps step ih =>
    have hbefore : ∀ step ∈ steps, step.Fits fuel := fun earlier hearlier => h earlier (by simp [hearlier])
    obtain ⟨ms, hrun, hinv⟩ := ih hbefore
    obtain ⟨ms', happly, hinv', -⟩ := hinv.apply (h step (by simp)) (nesting_shown hbefore)
    refine ⟨ms', ?_, shown_concat steps step ▸ hinv'⟩
    rw [run_concat, hrun, Option.bind_some, happly]

/-! ## What can be told about one map

Everything that a program can ask of a map: its list of keys, its entries, and what these are read as.
`SameAt` says that none of it has changed. -/

/-- A map is the same object as before, and each of its entries is read as before. -/
structure SameAt (fuel : Nat) (name : Text) (ms ms' : Maps) : Prop where
  find : ms'.find name = ms.find name
  read : ∀ key h, (ms.find name).get? key = some h → ms'.memory.read fuel h = ms.memory.read fuel h

/-- What has changed in neither of two steps has not changed. -/
theorem SameAt.trans (h : SameAt fuel name ms ms') (h' : SameAt fuel name ms' ms'') :
    SameAt fuel name ms ms'' := by
  refine ⟨h'.find.trans h.find, fun key held hheld => ?_⟩
  rw [h'.read key held (by rw [h.find, hheld]), h.read key held hheld]

/-- A name is looked up by its place. -/
theorem find_of_place {m : OrderedMap Held} (hplace : ms.places.get? name = some a)
    (hobject : ms.memory[a]? = some (.map m)) : ms.find name = m := by
  simp only [Maps.find, hplace, Memory.mapAt, hobject]

/-- A name without a place has an empty map. -/
theorem find_of_none (hplace : ms.places.get? name = none) : ms.find name = {} := by
  rw [Maps.find, hplace]

/-- What is found under a name shows the dictionary of this name. -/
theorem Inv.find_mirrors (h : ms.Inv dicts) (name : Text) :
    Mirrors (Shows ms.memory) (ms.find name) (dicts name) := by
  cases hplace : ms.places.get? name with
  | none =>
    rw [find_of_none hplace, h.blank hplace]
    exact OrderedMap.mirrors_empty _
  | some a =>
    have hshown := (h.shown hplace).1
    obtain ⟨m, hobject⟩ := hshown.exists_map
    rw [find_of_place hplace hobject]
    exact hshown.map_mirrors hobject

/-- Every entry of a map is read as the value that the dictionary has. -/
theorem Inv.read (h : ms.Inv dicts) (hdepth : ∀ e ∈ dicts name, e.2.nesting ≤ fuel) (key : Text) :
    ((ms.find name).get? key).map (ms.memory.read fuel) = ((dicts name).get? key).map some := by
  have hmirrors := h.find_mirrors name
  cases hheld : (ms.find name).get? key with
  | none =>
    rw [hmirrors.inStep.get?_eq_none_iff, hmirrors.keys] at hheld
    rw [(Dict.get?_eq_none_iff _ _).mpr hheld]
    rfl
  | some held =>
    obtain ⟨v, hv⟩ := hmirrors.exists_value hheld
    have hshows : Shows ms.memory held v := hmirrors.values key held v hheld hv
    rw [hv, Option.map_some, Option.map_some, hshows.read (hdepth _ (Dict.mem_of_get? hv))]

/-- As long as its own parts stay as they are, nothing changes about a map. -/
theorem Inv.sameAt (h : ms.Inv dicts) (hdepth : ∀ e ∈ dicts name, e.2.nesting ≤ fuel)
    (hplace : ms'.places.get? name = ms.places.get? name)
    (hsame : ∀ p, ms.PartOf name p → ms'.memory[p]? = ms.memory[p]?) : SameAt fuel name ms ms' := by
  cases hfound : ms.places.get? name with
  -- Without a place there is an empty map before and after.
  | none =>
    have hfind : ms.find name = {} := find_of_none hfound
    refine ⟨(find_of_none (hplace.trans hfound)).trans hfind.symm, fun key held hheld => ?_⟩
    rw [hfind, OrderedMap.get?_empty] at hheld
    exact nomatch hheld
  | some a =>
    obtain ⟨m, hobject⟩ := (h.shown hfound).1.exists_map
    -- The map itself is one of its own parts.
    have hobject' : ms'.memory[a]? = some (.map m) := (hsame a ⟨a, hfound, .root⟩).trans hobject
    have hfind : ms.find name = m := find_of_place hfound hobject
    refine ⟨(find_of_place (hplace.trans hfound) hobject').trans hfind.symm, fun key held hheld => ?_⟩
    have hmirrors := h.find_mirrors name
    obtain ⟨v, hv⟩ := hmirrors.exists_value hheld
    have hshows : Shows ms.memory held v := hmirrors.values key held v hheld hv
    have hholds : (Object.map m).Holds held := ⟨key, hfind ▸ hheld⟩
    -- So are all parts of what it holds.
    have hshows' : Shows ms'.memory held v :=
      hshows.frame fun p hp => hsame p ⟨a, hfound, .inside hobject hholds hp⟩
    have hdepth' : v.nesting ≤ fuel := hdepth _ (Dict.mem_of_get? hv)
    rw [hshows'.read hdepth', hshows.read hdepth']

/-- Later steps that do not write to a map or replace it do not change anything about it. -/
theorem sameAt_later {steps later : List Step} (hsteps : ∀ step ∈ steps, step.Fits fuel)
    (hlater : ∀ step ∈ later, step.Fits fuel ∧ step.target ≠ name) (hrun : run fuel steps = some ms) :
    ∃ ms', run fuel (steps ++ later) = some ms' ∧ SameAt fuel name ms ms' := by
  induction later using List.reverseRecOn with
  | nil =>
    rw [List.append_nil]
    exact ⟨ms, hrun, rfl, fun _ _ _ => rfl⟩
  | append_singleton later step ih =>
    obtain ⟨ms₁, hrun₁, hsame⟩ := ih fun earlier hearlier => hlater earlier (by simp [hearlier])
    -- The steps before the last one are still under the bound, so that the invariant holds behind them.
    have hall : ∀ step ∈ steps ++ later, step.Fits fuel := by
      intro earlier hearlier
      obtain hearlier | hearlier := List.mem_append.mp hearlier
      · exact hsteps earlier hearlier
      · exact (hlater earlier (by simp [hearlier])).1
    obtain ⟨ms₁', hrun₁', hinv⟩ := inv_run hall
    obtain rfl := Option.some.inj (hrun₁.symm.trans hrun₁')
    obtain ⟨hfits, htarget⟩ := hlater step (by simp)
    obtain ⟨ms₂, happly, -, hchanged⟩ := hinv.apply hfits (nesting_shown hall)
    refine ⟨ms₂, ?_, hsame.trans ?_⟩
    · rw [← List.append_assoc, run_concat, hrun₁, Option.bind_some, happly]
    · exact hinv.sameAt (nesting_shown hall name) (hchanged.places name (Ne.symm htarget))
        (hchanged.memory name (Ne.symm htarget))

/-- Maps that are written to and copied show their own histories: the keys that were written to in the order
of their first write, each read as what was written to it last, and no others. Whatever is done under other
names afterwards, copies and origins of this map among them, nothing changes about it, and not even a change
to the objects that another map is made of, at any depth, would show in it. -/
theorem refines_history {steps : List Step} (hsteps : ∀ step ∈ steps, step.Fits fuel) :
    ∃ ms, run fuel steps = some ms ∧ ∀ name,
      let m := ms.find name
      let history := histories steps name
      (m.keys = (history.map Prod.fst).eraseDups ∧ m.keys.Nodup) ∧
      (∀ key, (m.get? key).map (ms.memory.read fuel) =
        ((history.filter fun w => w.1 = key).getLast?).map fun w => some w.2) ∧
      (∀ key, m.get? key = none ↔ key ∉ history.map Prod.fst) ∧
      m.values.map some = m.keys.map m.get? ∧ m.length = m.keys.length ∧
      (∀ later, (∀ step ∈ later, step.Fits fuel ∧ step.target ≠ name) →
        ∃ ms', run fuel (steps ++ later) = some ms' ∧ SameAt fuel name ms ms') ∧
      ∀ other ≠ name, ∀ memory : Memory, (∀ p, ¬ ms.PartOf other p → memory[p]? = ms.memory[p]?) →
        SameAt fuel name ms { ms with memory := memory } := by
  obtain ⟨ms, hrun, hinv⟩ := inv_run hsteps
  refine ⟨ms, hrun, fun name => ?_⟩
  intro m history
  have hdepth := nesting_shown hsteps name
  have hmirrors : Mirrors (Shows ms.memory) m (shown steps name) := hinv.find_mirrors name
  have hkeys : m.keys = (history.map Prod.fst).eraseDups := hmirrors.keys.trans (Dict.keys_ofWrites history)
  -- The map mirrors the dictionary of its history; what is left is what that history says.
  refine ⟨⟨hkeys, hmirrors.inStep.nodup⟩, fun key => ?_, fun key => ?_, hmirrors.inStep.values, rfl, ?_, ?_⟩
  · rw [hinv.read hdepth key, shown, Dict.get?_ofWrites, Option.map_map]
    rfl
  · rw [hmirrors.inStep.get?_eq_none_iff, hkeys, List.mem_eraseDups]
  · exact fun later hlater => sameAt_later hsteps hlater hrun
  -- No part of another map is a part of this one.
  · exact fun other hother memory hmemory => hinv.sameAt hdepth rfl fun p hp =>
      hmemory p (hinv.apart (Ne.symm hother) hp)

/-- The key `a` is written twice, once before and once after the copy: the copy keeps the first value, and
its own `c` does not show in its origin. -/
theorem refines_history_branching :
    let steps : List Step := [.write "m" "b" (.int 1), .write "m" "a" (.array [.int 2]), .copy "m" "n",
      .write "m" "a" .absent, .write "n" "c" (.int 3)]
    (∀ step ∈ steps, step.Fits 1) ∧ ∃ ms, run 1 steps = some ms ∧
      (ms.find "m").keys = ["b", "a"] ∧
      ((ms.find "m").get? "a").map (ms.memory.read 1) = some (some .absent) ∧
      (ms.find "n").keys = ["b", "a", "c"] ∧
      ((ms.find "n").get? "a").map (ms.memory.read 1) = some (some (.array [.int 2])) := by
  intro steps
  -- a list inside a list is the deepest value that is written
  have hfits : ∀ step ∈ steps, step.Fits 1 := by
    have hlist : (Value.array [.int 2]).Tidy := .array (by simpa using Value.Tidy.plain rfl)
    simp only [steps, List.forall_mem_cons]
    exact ⟨⟨.plain rfl, by decide⟩, ⟨hlist, by decide⟩, trivial, ⟨.plain rfl, by decide⟩,
      ⟨.plain rfl, by decide⟩, nofun⟩
  obtain ⟨ms, hrun, hall⟩ := refines_history hfits
  obtain ⟨⟨horigin, -⟩, hread, -⟩ := hall "m"
  obtain ⟨⟨hcopy, -⟩, hkept, -⟩ := hall "n"
  exact ⟨hfits, ms, hrun, horigin.trans (by decide), (hread "a").trans rfl, hcopy.trans (by decide),
    (hkept "a").trans rfl⟩

end Mundart.Maps
