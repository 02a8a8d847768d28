import Mundart.Memory
import Mundart.Proofs.OrderedMap
import Mundart.Value.Json

/-!
# What objects show and what they share

What is held somewhere in memory shows a value, if following the addresses leads to one. It depends on all
objects on the way, its parts, and on no others. So a value stays as it is as long as nobody changes one of
its parts, and two values stay apart as long as they have no part in common.

Two operations make new objects, to hold a value and to copy what is held. They make the same ones: a copy of
something that shows a value is what holding that value makes. All parts of it are new.

* **`Shows`** — what is held shows a value; **`Part`** — an object that it depends on;
* **`Shows.frame`**, **`Part.frame`** — they depend on the parts only;
* **`Shows.read`** — what is shown can be read;
* **`hold_fresh`** — to hold a value makes new objects that show it and changes no other;
* **`Shows.write`** — a map that is changed where it is shows what was written to it;
* **`Shows.copy`** — to copy what shows a value is to hold the value.
-/

namespace Mundart

/-- An object holds something as an item or as a value. -/
def Object.Holds : Object → Held → Prop
  | .list items, h => h ∈ items
  | .map m, h => ∃ key, m.get? key = some h

/-- No key of an associative array stands twice, at any depth. -/
inductive Value.Tidy : Value → Prop
  | plain {v : Value} (hv : v.isCollection = false) : Tidy v
  | array {items : List Value} (hitems : ∀ v ∈ items, Tidy v) : Tidy (.array items)
  | assoc {entries : List (Text × Value)} (hkeys : (Dict.keys entries).Nodup)
      (hvalues : ∀ e ∈ entries, Tidy e.2) : Tidy (.assoc entries)

namespace Memory

open OrderedMap (InStep Mirrors)

/-! ## Values and parts

Showing and being a part follow the addresses in the same way, the one with a value alongside and the other
on its own. Neither of them says that the objects are apart: two values may share some, and one may occur
twice in another. -/

/-- What is held shows a value. A map that does has its list of keys and its table in step. -/
inductive Shows (mem : Memory) : Held → Value → Prop where
  | plain (v : Value) (hv : v.isCollection = false) : Shows mem (.plain v hv) v
  | list {a : Address} {items : List Held} {vs : List Value} (hobject : mem[a]? = some (.list items))
      (hlength : items.length = vs.length) (hitems : ∀ p ∈ items.zip vs, Shows mem p.1 p.2) :
      Shows mem (.ref a) (.array vs)
  | map {a : Address} {m : OrderedMap Held} {d : Dict Value} (hobject : mem[a]? = some (.map m))
      (hstep : m.InStep) (hkeys : m.keys = d.keys)
      (hvalues : ∀ key h v, m.get? key = some h → d.get? key = some v → Shows mem h v) :
      Shows mem (.ref a) (.assoc d)

/-- The addresses that one gets to from what is held. -/
inductive Part (mem : Memory) : Held → Address → Prop where
  | root {a : Address} : Part mem (.ref a) a
  | inside {a b : Address} {o : Object} {h : Held} (hobject : mem[a]? = some o) (hholds : o.Holds h)
      (hpart : Part mem h b) : Part mem (.ref a) b

variable {mem mem' mem'' : Memory} {h : Held} {v : Value} {a b : Address} {o : Object}

/-- An associative array is shown by a map. -/
theorem Shows.exists_map {d : Dict Value} (h : Shows mem (.ref a) (.assoc d)) :
    ∃ m, mem[a]? = some (.map m) := by
  cases h with
  | map hobject => exact ⟨_, hobject⟩

/-- The map that shows an associative array mirrors its entries. -/
theorem Shows.map_mirrors {m : OrderedMap Held} {d : Dict Value} (h : Shows mem (.ref a) (.assoc d))
    (hobject : mem[a]? = some (.map m)) : Mirrors (Shows mem) m d := by
  cases h with
  | map hobject' hstep hkeys hvalues =>
    rw [hobject] at hobject'
    cases hobject'
    exact ⟨hstep, hkeys, hvalues⟩

/-- A map that mirrors entries shows them. -/
theorem shows_of_mirrors {m : OrderedMap Held} {d : Dict Value} (hobject : mem[a]? = some (.map m))
    (h : Mirrors (Shows mem) m d) : Shows mem (.ref a) (.assoc d) :=
  .map hobject h.inStep h.keys h.values

section

variable {α β : Type} {xs : List α} {ys : List β}

/-- What stands in the same place in two lists is matched. -/
theorem getElem_mem_zip {i : Nat} (hx : i < xs.length) (hy : i < ys.length) :
    (xs[i], ys[i]) ∈ xs.zip ys := by
  have hi : i < (xs.zip ys).length := by
    rw [List.length_zip]
    omega
  have hpair : (xs.zip ys)[i] = (xs[i], ys[i]) := List.getElem_zip
  rw [← hpair]
  exact List.getElem_mem hi

/-- Two lists of one length are matched item by item. -/
theorem exists_mem_zip (hlength : xs.length = ys.length) {x : α} (hx : x ∈ xs) :
    ∃ y, (x, y) ∈ xs.zip ys := by
  obtain ⟨i, hi, rfl⟩ := List.getElem_of_mem hx
  exact ⟨ys[i], getElem_mem_zip hi (hlength ▸ hi)⟩

/-- If every item of a list leads to the one that it is matched with, the list leads to the other one. -/
theorem mapM_eq_some {f : α → Option β} (hlength : xs.length = ys.length)
    (h : ∀ p ∈ xs.zip ys, f p.1 = some p.2) : xs.mapM f = some ys := by
  induction xs generalizing ys with
  | nil =>
    obtain rfl := List.length_eq_zero_iff.mp hlength.symm
    rfl
  | cons x xs ih =>
    cases ys with
    | nil => exact nomatch hlength
    | cons y ys =>
      rw [List.zip_cons_cons, List.forall_mem_cons] at h
      rw [List.mapM_cons, h.1, ih (Nat.succ.inj hlength) h.2]
      rfl

end

/-- What an object holds that is part of a value shows a value itself. -/
theorem Shows.held (hshows : Shows mem (.ref a) v) (hobject : mem[a]? = some o) (hholds : o.Holds h) :
    ∃ w, Shows mem h w := by
  cases hshows with
  | list hobject' hlength hitems =>
    rw [hobject] at hobject'
    cases hobject'
    obtain ⟨w, hw⟩ := exists_mem_zip hlength hholds
    exact ⟨w, hitems _ hw⟩
  | map hobject' hstep hkeys hvalues =>
    rw [hobject] at hobject'
    cases hobject'
    -- What a map holds is under a key, and the dictionary has a value there.
    obtain ⟨key, hkey⟩ := hholds
    have hmirrors : Mirrors (Shows mem) _ _ := ⟨hstep, hkeys, hvalues⟩
    obtain ⟨w, hw⟩ := hmirrors.exists_value hkey
    exact ⟨w, hvalues key h w hkey hw⟩

/-- All parts of a value are there. -/
theorem Shows.exists_part (hshows : Shows mem h v) (hpart : Part mem h b) : ∃ o, mem[b]? = some o := by
  induction hpart generalizing v with
  | root =>
    -- The address itself: there is a list or a map at it.
    cases hshows with
    | list hobject => exact ⟨_, hobject⟩
    | map hobject => exact ⟨_, hobject⟩
  | inside hobject hholds _ ih =>
    obtain ⟨w, hw⟩ := hshows.held hobject hholds
    exact ih hw

/-- So addresses of parts are in use. -/
theorem Shows.part_lt (hshows : Shows mem h v) (hpart : Part mem h b) : b < mem.length := by
  obtain ⟨o, ho⟩ := hshows.exists_part hpart
  exact (List.getElem?_eq_some_iff.mp ho).1

/-! ## What depends on the parts only

All three are inductions along the addresses. They are what isolation rests on: a change elsewhere is a
change to no part. -/

/-- As long as the parts stay as they are, no others come to them. -/
theorem Part.frame (hpart : Part mem' h b) (hsame : ∀ p, Part mem h p → mem'[p]? = mem[p]?) :
    Part mem h b := by
  induction hpart with
  | root => exact .root
  | inside hobject hholds _ ih =>
    rw [hsame _ .root] at hobject
    exact .inside hobject hholds (ih fun p hp => hsame p (.inside hobject hholds hp))

/-- No part of a value goes when all of its parts stay as they are. -/
theorem Part.keep (hpart : Part mem h b) (hsame : ∀ p, Part mem h p → mem'[p]? = mem[p]?) :
    Part mem' h b := by
  induction hpart with
  | root => exact .root
  | inside hobject hholds _ ih =>
    have hkept := (hsame _ .root).trans hobject
    exact .inside hkept hholds (ih fun p hp => hsame p (.inside hobject hholds hp))

/-- As long as its parts stay as they are, what is held shows the same value. -/
theorem Shows.frame (hshows : Shows mem h v) (hsame : ∀ p, Part mem h p → mem'[p]? = mem[p]?) :
    Shows mem' h v := by
  induction hshows with
  | plain v hv => exact .plain v hv
  | list hobject hlength _ ih =>
    refine .list ((hsame _ .root).trans hobject) hlength fun p hp => ih p hp fun q hq => ?_
    exact hsame q (.inside hobject (List.of_mem_zip hp).1 hq)
  | map hobject hstep hkeys _ ih =>
    refine .map ((hsame _ .root).trans hobject) hstep hkeys fun key h v hh hv => ih key h v hh hv ?_
    exact fun q hq => hsame q (.inside hobject ⟨key, hh⟩ hq)

/-- New objects behind the others leave the parts of a value as they are. -/
theorem Shows.same_of_grown (hshows : Shows mem h v) (hgrown : mem <+: mem') {p : Address}
    (hp : Part mem h p) : mem'[p]? = mem[p]? := by
  obtain ⟨o, ho⟩ := hshows.exists_part hp
  obtain ⟨rest, rfl⟩ := hgrown
  exact List.getElem?_append_left (hshows.part_lt hp)

/-- A value is still shown in a memory that has grown. -/
theorem Shows.grow (hshows : Shows mem h v) (hgrown : mem <+: mem') : Shows mem' h v :=
  hshows.frame fun _ hp => hshows.same_of_grown hgrown hp

/-- None of the parts of a shown value is among the new objects of a memory that has grown. -/
theorem Part.shrink (hpart : Part mem' h b) (hshows : Shows mem h v) (hgrown : mem <+: mem') :
    Part mem h b :=
  hpart.frame fun _ hp => hshows.same_of_grown hgrown hp

/-! ## Reading

Reading follows addresses up to a bound, since objects might lead back to themselves. Those that show a
value do not, as the value is finite, and its depth is enough. -/

/-- The entries of a map are read one by one. -/
theorem readEntries_eq {f : Held → Option Value} {m : OrderedMap Held} {d : Dict Value}
    (h : ∀ e ∈ d, ∃ held, m.get? e.1 = some held ∧ f held = some e.2) :
    readEntries f m d.keys = some d := by
  induction d with
  | nil => rfl
  | cons e d ih =>
    rw [List.forall_mem_cons] at h
    obtain ⟨⟨held, hheld, hvalue⟩, hrest⟩ := h
    rw [Dict.keys_cons, readEntries, hheld, Option.bind_eq_bind, Option.bind_some, hvalue, ih hrest]
    rfl

/-- Every entry of a dictionary is shown by what its map holds. -/
theorem exists_shows_of_mem {m : OrderedMap Held} {d : Dict Value} {R : Held → Value → Prop}
    (h : Mirrors R m d) {e : Text × Value} (he : e ∈ d) : ∃ held, m.get? e.1 = some held ∧ R held e.2 := by
  have hdistinct : d.keys.Nodup := h.keys ▸ h.inStep.nodup
  have hvalue : d.get? e.1 = some e.2 := Dict.get?_of_mem hdistinct he
  obtain ⟨held, hheld⟩ := h.exists_held hvalue
  exact ⟨held, hheld, h.values e.1 held e.2 hheld hvalue⟩

/-- What is shown can be read, if that goes deep enough. -/
theorem Shows.read (hshows : Shows mem h v) : ∀ {fuel : Nat}, v.nesting ≤ fuel →
    read mem fuel h = some v := by
  induction hshows with
  | plain v hv =>
    intro fuel _
    cases fuel <;> rfl
  | @list a items vs hobject hlength _ ih =>
    intro fuel hfuel
    match fuel with
    | fuel + 1 =>
      have hparts : ∀ p ∈ items.zip vs, Memory.read mem fuel p.1 = some p.2 := by
        intro p hp
        have hdepth : p.2.nesting ≤ Value.nestingItems vs := Value.nesting_le_items (List.of_mem_zip hp).2
        exact ih p hp (hdepth.trans (Nat.le_of_succ_le_succ hfuel))
      rw [Memory.read, hobject]
      dsimp only
      rw [mapM_eq_some hlength hparts, Option.map_some]
  | @map a m d hobject hstep hkeys hvalues ih =>
    intro fuel hfuel
    match fuel with
    | fuel + 1 =>
      -- The values of the map are read by the induction, whatever their keys are.
      have hmirrors : Mirrors (fun held v => v.nesting ≤ fuel → Memory.read mem fuel held = some v) m d :=
        ⟨hstep, hkeys, fun key held v hheld hv hdepth => ih key held v hheld hv hdepth⟩
      have hentries : readEntries (Memory.read mem fuel) m d.keys = some d := by
        refine readEntries_eq fun e he => ?_
        obtain ⟨held, hheld, hread⟩ := exists_shows_of_mem hmirrors he
        have hdepth : e.2.nesting ≤ Value.nestingEntries d := Value.nesting_le_entries he
        exact ⟨held, hheld, hread (hdepth.trans (Nat.le_of_succ_le_succ hfuel))⟩
      rw [Memory.read, hobject]
      dsimp only
      rw [hkeys, hentries, Option.map_some]

/-! ## Holding a value

New objects are put behind the others, the parts of an object before the object itself. So nothing leads
from a new object to itself, nor to anything that was there. -/

/-- What is held does not contain itself. -/
def Loopless (mem : Memory) (h : Held) : Prop :=
  ∀ a o x, h = .ref a → mem[a]? = some o → o.Holds x → ¬ Part mem x a

/-- To contain itself something would have to contain other parts. -/
theorem Loopless.frame (hloopless : Loopless mem h) (hsame : ∀ p, Part mem h p → mem'[p]? = mem[p]?) :
    Loopless mem' h := by
  rintro a o x rfl hobject hholds hpart
  rw [hsame a .root] at hobject
  refine hloopless a o x rfl hobject hholds (hpart.frame fun p hp => ?_)
  exact hsame p (.inside hobject hholds hp)

/-- A value is held by new objects, behind those that were there. -/
structure Fresh (mem mem' : Memory) (h : Held) (v : Value) : Prop where
  grown : mem <+: mem'
  shows : Shows mem' h v
  parts : ∀ b, Part mem' h b → mem.length ≤ b
  loopless : Loopless mem' h

/-- A value without parts is held without an object. -/
theorem fresh_plain (mem : Memory) (v : Value) (hv : v.isCollection = false) :
    Fresh mem mem (.plain v hv) v := by
  refine ⟨List.prefix_rfl, .plain v hv, ?_, nofun⟩
  intro b hpart
  exact nomatch hpart

/-- More objects do not matter. -/
theorem Fresh.grow (hfresh : Fresh mem mem' h v) (hgrown : mem' <+: mem'') : Fresh mem mem'' h v := by
  refine ⟨hfresh.grown.trans hgrown, hfresh.shows.grow hgrown, fun b hpart => ?_, ?_⟩
  · exact hfresh.parts b (hpart.shrink hfresh.shows hgrown)
  · exact hfresh.loopless.frame fun _ hp => hfresh.shows.same_of_grown hgrown hp

/-- What is new to a memory is also new to one with fewer objects. -/
theorem Fresh.of_grown (hgrown : mem <+: mem') (hfresh : Fresh mem' mem'' h v) : Fresh mem mem'' h v :=
  ⟨hgrown.trans hfresh.grown, hfresh.shows,
    fun b hpart => hgrown.length_le.trans (hfresh.parts b hpart), hfresh.loopless⟩

/-- An object that is put behind others and holds what is new is new as a whole. -/
theorem fresh_new (hgrown : mem <+: mem') (hshows : Shows (mem' ++ [o]) (.ref mem'.length) v)
    (hheld : ∀ x, o.Holds x → ∃ w, Fresh mem mem' x w) :
    Fresh mem (mem' ++ [o]) (.ref mem'.length) v := by
  have hlonger : mem' <+: mem' ++ [o] := List.prefix_append mem' [o]
  have hlast : (mem' ++ [o])[mem'.length]? = some o := by simp
  refine ⟨hgrown.trans hlonger, hshows, fun b hpart => ?_, ?_⟩
  · cases hpart with
    | root => exact hgrown.length_le
    | inside hobject hholds hpart =>
      obtain rfl := Option.some.inj (hlast.symm.trans hobject)
      obtain ⟨w, hw⟩ := hheld _ hholds
      exact hw.parts b (hpart.shrink hw.shows hlonger)
  · rintro a o' x hroot hobject hholds hpart
    obtain rfl := Held.ref.inj hroot
    obtain rfl := Option.some.inj (hlast.symm.trans hobject)
    -- Its parts were there before it, so it is none of them.
    obtain ⟨w, hw⟩ := hheld x hholds
    exact absurd (hw.shows.part_lt (hpart.shrink hw.shows hlonger)) (Nat.lt_irrefl _)

/-- Nothing is made for it. -/
theorem hold_plain (mem : Memory) (v : Value) (hv : v.isCollection = false) :
    hold v mem = (.plain v hv, mem) := by
  cases v with
  | array | assoc => exact nomatch hv
  | absent | bool | int | double | text | func => rfl

/-- The items of a list are held one after the other. Those that were held first do not change. -/
theorem holdItems_fresh {vs : List Value}
    (ih : ∀ v ∈ vs, ∀ mem, Fresh mem (hold v mem).2 (hold v mem).1 v) : ∀ mem : Memory,
    mem <+: (holdItems vs mem).2 ∧ (holdItems vs mem).1.length = vs.length ∧
      ∀ p ∈ (holdItems vs mem).1.zip vs, Fresh mem (holdItems vs mem).2 p.1 p.2 := by
  induction vs with
  | nil => exact fun mem => ⟨List.prefix_rfl, rfl, nofun⟩
  | cons v vs ihvs =>
    intro mem
    rw [List.forall_mem_cons] at ih
    -- The first item is held in the memory as it is, the others in one that has grown by it.
    have hfirst := ih.1 mem
    obtain ⟨hgrown, hlength, hrest⟩ := ihvs ih.2 (hold v mem).2
    refine ⟨hfirst.grown.trans hgrown, congrArg Nat.succ hlength, ?_⟩
    show ∀ p ∈ ((hold v mem).1 :: (holdItems vs (hold v mem).2).1).zip (v :: vs), _
    rw [List.zip_cons_cons, List.forall_mem_cons]
    exact ⟨hfirst.grow hgrown, fun p hp => (hrest p hp).of_grown hfirst.grown⟩

/-- Entries that are written to a map, after others that were new as well. -/
theorem holdEntries_fresh {es : List (Text × Value)}
    (ih : ∀ e ∈ es, ∀ mem, Fresh mem (hold e.2 mem).2 (hold e.2 mem).1 e.2) {start : Memory} :
    ∀ (mem : Memory) (m : OrderedMap Held) (d : Dict Value), start <+: mem →
      Mirrors (Fresh start mem) m d →
      start <+: (holdEntries es m mem).2 ∧
        Mirrors (Fresh start (holdEntries es m mem).2) (holdEntries es m mem).1
          (es.foldl (fun d e => d.set e.1 e.2) d) := by
  induction es with
  | nil => exact fun mem m d hgrown h => ⟨hgrown, h⟩
  | cons e es ihes =>
    intro mem m d hgrown h
    rw [List.forall_mem_cons] at ih
    have hfirst := ih.1 mem
    refine ihes ih.2 (hold e.2 mem).2 (m.set e.1 (hold e.2 mem).1) (d.set e.1 e.2)
      (hgrown.trans hfirst.grown) ?_
    -- What was held before is still shown, since the objects that are new now are put behind.
    have hkept : Mirrors (Fresh start (hold e.2 mem).2) m d :=
      h.imp fun held v hheld => hheld.grow hfirst.grown
    exact hkept.set e.1 (hfirst.of_grown hgrown)

/-- To hold a value makes new objects that show it, and leaves all others as they are. -/
theorem hold_fresh (hv : v.Tidy) : ∀ mem : Memory, Fresh mem (hold v mem).2 (hold v mem).1 v := by
  induction hv with
  | plain hv =>
    intro mem
    rw [hold_plain mem _ hv]
    exact fresh_plain mem _ hv
  | @array vs _ ih =>
    intro mem
    obtain ⟨hgrown, hlength, hitems⟩ := holdItems_fresh ih mem
    refine fresh_new (o := .list (holdItems vs mem).1) hgrown ?_ fun x hx => ?_
    · refine .list (by simp) hlength fun p hp => ?_
      exact (hitems p hp).shows.grow (List.prefix_append _ _)
    · obtain ⟨w, hw⟩ := exists_mem_zip hlength hx
      exact ⟨w, hitems _ hw⟩
  | @assoc es hkeys _ ih =>
    intro mem
    -- An empty map is filled with entries as they are held.
    obtain ⟨hgrown, hmirrors⟩ :=
      holdEntries_fresh ih mem {} [] List.prefix_rfl (OrderedMap.mirrors_empty _)
    -- Where no key stands twice, writing the entries one by one leads to all of them.
    have hall : es.foldl (fun d e => Dict.set d e.1 e.2) [] = es := Dict.ofWrites_of_nodup hkeys
    rw [hall] at hmirrors
    refine fresh_new (o := .map (holdEntries es {} mem).1) hgrown ?_ fun x hx => ?_
    · refine shows_of_mirrors (by simp) (hmirrors.imp fun held w hheld => ?_)
      exact hheld.shows.grow (List.prefix_append _ _)
    · obtain ⟨key, hkey⟩ := hx
      obtain ⟨w, hw⟩ := hmirrors.exists_value hkey
      exact ⟨w, hmirrors.values key x w hkey hw⟩

/-! ## Writing to a map

The one operation that changes an object. It is harmless to the entries that stay, since none of them leads
back to the map, and to the new value, since it was not there when the map was made. -/

/-- What stands behind an entry of a map, once the map was given a new value. -/
structure Behind (mem mem' : Memory) (a : Address) (h : Held) (v : Value) : Prop where
  shows : Shows mem' h v
  apart : ¬ Part mem' h a
  parts : ∀ p, Part mem' h p → mem.length ≤ p ∨ Part mem (.ref a) p

/-- An entry that was there has only old parts, and the object that it is in is none of these. -/
theorem Loopless.behind (hloopless : Loopless mem (.ref a)) (hobject : mem[a]? = some o) (hholds : o.Holds h)
    (hshows : Shows mem h v) (hgrown : mem <+: mem') : Behind mem mem' a h v := by
  refine ⟨hshows.grow hgrown, fun hpart => ?_, fun p hpart => .inr ?_⟩
  · exact hloopless a o h rfl hobject hholds (hpart.shrink hshows hgrown)
  · exact .inside hobject hholds (hpart.shrink hshows hgrown)

/-- A new value has only new parts, so that no object that was there is among them. -/
theorem Fresh.behind (hfresh : Fresh mem mem' h v) (ha : a < mem.length) : Behind mem mem' a h v := by
  refine ⟨hfresh.shows, fun hpart => ?_, fun p hpart => .inl (hfresh.parts p hpart)⟩
  exact absurd ha (Nat.not_lt_of_le (hfresh.parts a hpart))

/-- Where only the object itself is changed, what stands behind its entries is not. -/
theorem Behind.same (hbehind : Behind mem mem' a h v) (o : Object) {p : Address} (hpart : Part mem' h p) :
    (mem'.set a o)[p]? = mem'[p]? := by
  have hne : a ≠ p := by
    rintro rfl
    exact hbehind.apart hpart
  exact List.getElem?_set_ne hne

/-- A map may be replaced by any whose entries do not lead to its address. It shows what these show, and has
no parts but new ones and those that it had. -/
theorem shows_of_behind {m : OrderedMap Held} {d : Dict Value} (hall : Mirrors (Behind mem mem' a) m d)
    (ha : a < mem'.length) :
    Shows (mem'.set a (.map m)) (.ref a) (.assoc d) ∧ Loopless (mem'.set a (.map m)) (.ref a) ∧
      ∀ p, Part (mem'.set a (.map m)) (.ref a) p → mem.length ≤ p ∨ Part mem (.ref a) p := by
  have hwritten : (mem'.set a (.map m))[a]? = some (.map m) := List.getElem?_set_self ha
  have hbehind : ∀ {o x}, (mem'.set a (.map m))[a]? = some o → o.Holds x → ∃ w, Behind mem mem' a x w := by
    intro o x ho hx
    obtain rfl := Option.some.inj (hwritten.symm.trans ho)
    obtain ⟨key, hkey⟩ := hx
    obtain ⟨w, hw⟩ := hall.exists_value hkey
    exact ⟨w, hall.values key x w hkey hw⟩
  refine ⟨?_, ?_, fun p hpart => ?_⟩
  · exact shows_of_mirrors hwritten (hall.imp fun x w hx => hx.shows.frame fun _ => hx.same _)
  · rintro b o x hroot ho hx hpart
    obtain rfl := Held.ref.inj hroot
    obtain ⟨w, hw⟩ := hbehind ho hx
    exact hw.apart (hpart.frame fun _ => hw.same _)
  · cases hpart with
    | root => exact .inr .root
    | inside ho hx hpart =>
      obtain ⟨w, hw⟩ := hbehind ho hx
      exact hw.parts p (hpart.frame fun _ => hw.same _)

/-- A map can be changed where it is. No entry of it leads back to it, so all of them show what they showed
before, and the map shows the dictionary with the key written. It has no parts but its own and new ones. -/
theorem Shows.write {d : Dict Value} (hshows : Shows mem (.ref a) (.assoc d))
    (hloopless : Loopless mem (.ref a)) (hfresh : Fresh mem mem' h v) (key : Text) :
    let written := mem'.set a (.map ((mem'.mapAt a).set key h))
    Shows written (.ref a) (.assoc (d.set key v)) ∧ Loopless written (.ref a) ∧
      ∀ p, Part written (.ref a) p → mem.length ≤ p ∨ Part mem (.ref a) p := by
  obtain ⟨m, hobject⟩ := hshows.exists_map
  have hmap : mem'.mapAt a = m := by
    rw [mapAt, hshows.same_of_grown hfresh.grown .root, hobject]
  have hold : Mirrors (Behind mem mem' a) m d := by
    have hmirrors := hshows.map_mirrors hobject
    refine ⟨hmirrors.inStep, hmirrors.keys, fun key x w hx hw => ?_⟩
    exact hloopless.behind hobject ⟨key, hx⟩ (hmirrors.values key x w hx hw) hfresh.grown
  have hall : Mirrors (Behind mem mem' a) (m.set key h) (d.set key v) :=
    hold.set key (hfresh.behind (hshows.part_lt .root))
  intro written
  have hbound : a < mem'.length := (hshows.grow hfresh.grown).part_lt .root
  simp only [written, hmap]
  exact shows_of_behind hall hbound

/-! ## Copying what is held

A copy is made by following addresses and making an object for each, and holding a value by following the
value. By induction both make the same objects in the same order, so that all that is known of one holds of
the other. -/

/-- What is shown by objects has no key twice. -/
theorem Shows.tidy (hshows : Shows mem h v) : v.Tidy := by
  induction hshows with
  | plain v hv => exact .plain hv
  | list _ hlength _ ih =>
    refine .array fun v hv => ?_
    obtain ⟨i, hi, rfl⟩ := List.getElem_of_mem hv
    exact ih _ (getElem_mem_zip (hlength ▸ hi) hi)
  | @map a m d hobject hstep hkeys hvalues ih =>
    have hmirrors : Mirrors (fun _ v => Value.Tidy v) m d := ⟨hstep, hkeys, ih⟩
    -- The keys of the map are those of the entries, and no key is in its list twice.
    refine .assoc (hkeys ▸ hstep.nodup) fun e he => ?_
    obtain ⟨held, -, htidy⟩ := exists_shows_of_mem hmirrors he
    exact htidy

/-- The items of a list are copied one after the other, if each is copied by holding its value anew. -/
theorem copyItems_eq {f : Held → Memory → Option (Held × Memory)} {hs : List Held} {vs : List Value}
    (hlength : hs.length = vs.length)
    (h : ∀ p ∈ hs.zip vs, ∀ mem', mem <+: mem' →
      f p.1 mem' = some (hold p.2 mem') ∧ mem' <+: (hold p.2 mem').2) :
    ∀ mem', mem <+: mem' → copyItems f hs mem' = some (holdItems vs mem') := by
  induction hs generalizing vs with
  | nil =>
    obtain rfl := List.length_eq_zero_iff.mp hlength.symm
    exact fun mem' _ => rfl
  | cons held hs ih =>
    cases vs with
    | nil => exact nomatch hlength
    | cons v vs =>
      rw [List.zip_cons_cons, List.forall_mem_cons] at h
      intro mem' hgrown
      -- The next item is copied in a memory that has grown by the copy of this one.
      obtain ⟨hcopy, hmore⟩ := h.1 mem' hgrown
      rw [copyItems, hcopy, Option.bind_eq_bind, Option.bind_some]
      dsimp only
      rw [ih (Nat.succ.inj hlength) h.2 _ (hgrown.trans hmore)]
      rfl

/-- The entries of a map are copied one after the other. They are looked up by their keys. -/
theorem copyEntries_eq {f : Held → Memory → Option (Held × Memory)} {m : OrderedMap Held} {d : Dict Value}
    (h : ∀ e ∈ d, ∀ mem', mem <+: mem' →
      f (m.table.getD e.1 default) mem' = some (hold e.2 mem') ∧ mem' <+: (hold e.2 mem').2) :
    ∀ made mem', mem <+: mem' → copyEntries f m d.keys made mem' = some (holdEntries d made mem') := by
  induction d with
  | nil => exact fun made mem' _ => rfl
  | cons e d ih =>
    rw [List.forall_mem_cons] at h
    intro made mem' hgrown
    obtain ⟨hcopy, hmore⟩ := h.1 mem' hgrown
    rw [Dict.keys_cons, copyEntries, hcopy, Option.bind_eq_bind, Option.bind_some]
    exact ih h.2 _ _ (hgrown.trans hmore)

/-- To copy what shows a value makes the same objects as to hold the value, if the copy goes deep enough. -/
theorem Shows.copy (hshows : Shows mem h v) : ∀ {fuel : Nat}, v.nesting ≤ fuel →
    ∀ mem', mem <+: mem' → copy fuel h mem' = some (hold v mem') := by
  induction hshows with
  | plain v hv =>
    intro fuel _ mem' _
    rw [hold_plain mem' v hv]
    cases fuel <;> rfl
  | @list a items vs hobject hlength hitems ih =>
    intro fuel hfuel mem' hgrown
    match fuel with
    | fuel + 1 =>
      -- Objects that were made meanwhile stand behind the list.
      have hobject' : mem'[a]? = some (.list items) := by
        rw [(Shows.list hobject hlength hitems).same_of_grown hgrown .root, hobject]
      have hparts : ∀ p ∈ items.zip vs, ∀ mem₁, mem <+: mem₁ →
          Memory.copy fuel p.1 mem₁ = some (hold p.2 mem₁) ∧ mem₁ <+: (hold p.2 mem₁).2 := by
        intro p hp mem₁ hmem₁
        have hdepth : p.2.nesting ≤ Value.nestingItems vs := Value.nesting_le_items (List.of_mem_zip hp).2
        exact ⟨ih p hp (hdepth.trans (Nat.le_of_succ_le_succ hfuel)) mem₁ hmem₁,
          (hold_fresh (hitems p hp).tidy mem₁).grown⟩
      rw [Memory.copy, copyObject, hobject']
      dsimp only
      rw [copyItems_eq hlength hparts mem' hgrown]
      rfl
  | @map a m d hobject hstep hkeys hvalues ih =>
    intro fuel hfuel mem' hgrown
    match fuel with
    | fuel + 1 =>
      have hobject' : mem'[a]? = some (.map m) := by
        rw [(Shows.map hobject hstep hkeys hvalues).same_of_grown hgrown .root, hobject]
      have hparts : ∀ e ∈ d, ∀ mem₁, mem <+: mem₁ →
          Memory.copy fuel (m.table.getD e.1 default) mem₁ = some (hold e.2 mem₁) ∧
            mem₁ <+: (hold e.2 mem₁).2 := by
        intro e he mem₁ hmem₁
        have hdepth : e.2.nesting ≤ Value.nestingEntries d := Value.nesting_le_entries he
        have hmirrors : Mirrors (fun held v => Shows mem held v ∧ (v.nesting ≤ fuel →
            Memory.copy fuel held mem₁ = some (hold v mem₁))) m d :=
          ⟨hstep, hkeys, fun key held v hheld hv => ⟨hvalues key held v hheld hv,
            fun hv' => ih key held v hheld hv hv' mem₁ hmem₁⟩⟩
        obtain ⟨held, hheld, hshows, hcopy⟩ := exists_shows_of_mem hmirrors he
        rw [OrderedMap.getD_of_get? hheld]
        exact ⟨hcopy (hdepth.trans (Nat.le_of_succ_le_succ hfuel)), (hold_fresh hshows.tidy mem₁).grown⟩
      rw [Memory.copy, copyObject, hobject']
      dsimp only
      rw [hkeys, copyEntries_eq hparts {} mem' hgrown]
      rfl

end Memory

end Mundart
