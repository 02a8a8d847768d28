import Mundart.Fetch
import Mundart.Proofs.Number.Whole
import Mundart.Proofs.Value.Equality
import Mundart.Proofs.Value.JsonRoundTrip

/-!
# Integers of a fetched document

A fetched document is read with its numbers as doubles, and a whole double becomes an integer again. So an
integer on the way from a server is rounded to 53 bits, while the same document with its numbers read by
their text keeps every integer. The two readings give the same value exactly if all integers in it are
doubles.

* **`Integral`**, **`Writes`** — a document of integers, and the value that it writes;
* **`mapInts_eq_self_iff`** — changing the integers of a value leaves it as it is if each of them stays;
* **`Integral.reads`** — both readings of a document of integers;
* **`fetched_integers`** — what a fetch makes of a document of integers.
-/

namespace Mundart.Value

open Mundart.Double (rounded)
open Mundart.Number (Written)

/-! ## Documents of integers

`Writes` says what a document means without any reader: the integers are those of the literals. Both
readings are then compared with it, and not only with each other. -/

/-- A document all of whose numbers are integers of 64 bits, written without fraction and exponent. Those that
are rounded to `2 ^ 63` are left out: no integer of 64 bits is this double. -/
inductive Integral : Json → Prop where
  | null : Integral .null
  | bool (b : Bool) : Integral (.bool b)
  | number {literal : Text} {n : Int} (hwritten : Written literal n) (hlow : -2 ^ 63 ≤ n) (hhigh : n < 2 ^ 63)
      (hbelow : rounded n ≠ 2 ^ 63) : Integral (.number literal)
  | string (t : Text) : Integral (.string t)
  | array {items : List Json} (hitems : ∀ j ∈ items, Integral j) : Integral (.array items)
  | object {members : List (Text × Json)} (hmembers : ∀ m ∈ members, Integral m.2) :
      Integral (.object members)

/-- The value that a document of integers writes: every integer in it is exactly the one of its literal, the
members of an object stand in key order, and the last of two equal keys counts. -/
inductive Writes : Json → Value → Prop where
  | null : Writes .null .absent
  | bool (b : Bool) : Writes (.bool b) (.bool b)
  | number {literal : Text} {n : Int} (hwritten : Written literal n) :
      Writes (.number literal) (.int (Int64.ofInt n))
  | string (t : Text) : Writes (.string t) (.text t)
  | array {items : List Json} {vs : List Value} (hitems : List.Forall₂ Writes items vs) :
      Writes (.array items) (.array vs)
  | object {members : List (Text × Json)} {es : List (Text × Value)}
      (hkeys : Dict.keys members = Dict.keys es)
      (hvalues : List.Forall₂ Writes (Dict.values members) (Dict.values es)) :
      Writes (.object members) (.assoc (Dict.ofWrites es).byKey)

/-! ## Changing the integers of a value

What the second reading does to a value is done to its integers, one by one. So the question whether a value
has changed is one about each integer in it. -/

mutual

/-- The value with every integer in it changed. -/
def mapInts (f : Int64 → Int64) : Value → Value
  | .int n => .int (f n)
  | .array items => .array (mapItems f items)
  | .assoc entries => .assoc (mapEntries f entries)
  | .absent => .absent
  | .bool b => .bool b
  | .double x => .double x
  | .text t => .text t
  | .func name => .func name

/-- The items, each with its integers changed. -/
def mapItems (f : Int64 → Int64) : List Value → List Value
  | [] => []
  | v :: vs => mapInts f v :: mapItems f vs

/-- The entries likewise. Their keys stay. -/
def mapEntries (f : Int64 → Int64) : List (Text × Value) → List (Text × Value)
  | [] => []
  | (k, v) :: es => (k, mapInts f v) :: mapEntries f es

end

variable {f : Int64 → Int64}

/-- The functions above follow the shape of the value; on items -/
theorem mapItems_eq (items : List Value) : mapItems f items = items.map (mapInts f) := by
  induction items with
  | nil => rfl
  | cons v vs ih => rw [mapItems, ih, List.map_cons]

/-- Mapping the integers of entries is mapping those of their values. -/
theorem mapEntries_eq (entries : List (Text × Value)) :
    mapEntries f entries = Dict.mapValues (mapInts f) entries := by
  induction entries with
  | nil => rfl
  | cons e es ih =>
    rw [mapEntries, ih]
    rfl

mutual

/-- Changing the integers of a value leaves it as it is exactly if each of them stays. -/
theorem mapInts_eq_self_iff : ∀ v : Value, v.mapInts f = v ↔ ∀ n, Part (.int n) v → f n = n
  | .absent | .bool _ | .double _ | .text _ | .func _ => ⟨fun _ _ h => (nomatch h), fun _ => rfl⟩
  | .int n => by
    rw [mapInts, int.injEq]
    constructor
    -- An integer is its own only part.
    · intro h m hm
      cases hm
      exact h
    · exact fun h => h n .self
  | .array vs => by
    rw [mapInts, array.injEq, mapItems_eq_self_iff]
    constructor
    · intro h n hn
      cases hn with
      | item hv hn => exact h _ hv n hn
    · exact fun h v hv n hn => h n (.item hv hn)
  | .assoc es => by
    rw [mapInts, assoc.injEq, mapEntries_eq_self_iff]
    constructor
    · intro h n hn
      cases hn with
      | entry he hn => exact h _ he n hn
    · exact fun h e he n hn => h n (.entry he hn)

/-- Items stay if each integer in them does. -/
theorem mapItems_eq_self_iff : ∀ vs : List Value,
    mapItems f vs = vs ↔ ∀ v ∈ vs, ∀ n, Part (.int n) v → f n = n
  | [] => ⟨nofun, fun _ => rfl⟩
  | v :: vs => by
    rw [mapItems, List.cons.injEq, mapInts_eq_self_iff, mapItems_eq_self_iff, List.forall_mem_cons]

/-- Entries stay if each integer in their values does. -/
theorem mapEntries_eq_self_iff : ∀ es : List (Text × Value),
    mapEntries f es = es ↔ ∀ e ∈ es, ∀ n, Part (.int n) e.2 → f n = n
  | [] => ⟨nofun, fun _ => rfl⟩
  | (k, v) :: es => by
    rw [mapEntries, List.cons.injEq, Prod.mk.injEq, mapInts_eq_self_iff, mapEntries_eq_self_iff,
      List.forall_mem_cons]
    simp

end

/-! ## Rounding an integer

A document may hold every integer of 64 bits, and rounding leads out of these at one place: the integers
next to `2 ^ 63` are rounded to it. There is no integer of 64 bits for that double. -/

/-- An integer of 64 bits that has been a double. -/
def roundInt (n : Int64) : Int64 := Int64.ofInt (rounded n.toInt)

/-- An integer of 64 bits stays within its bounds when it is rounded, but for the upper one. -/
theorem rounded_bounds {n : Int} (hlow : -2 ^ 63 ≤ n) (hhigh : n < 2 ^ 63) :
    -2 ^ 63 ≤ rounded n ∧ rounded n ≤ 2 ^ 63 := by
  have hbottom : rounded (-2 ^ 63) = -2 ^ 63 := by decide +kernel
  have htop : rounded (2 ^ 63) = 2 ^ 63 := by decide +kernel
  exact ⟨hbottom ▸ Double.rounded_le_rounded hlow, htop ▸ Double.rounded_le_rounded hhigh.le⟩

/-- An integer stays the same as a double exactly if it is a double. At the upper bound it wraps around and
stays neither way. -/
theorem roundInt_eq_iff (n : Int64) : roundInt n = n ↔ rounded n.toInt = n.toInt := by
  have hlow := n.le_toInt
  have hhigh := n.toInt_lt
  obtain ⟨hbottom, htop⟩ := rounded_bounds hlow hhigh
  constructor
  · intro h
    have hint : (roundInt n).toInt = n.toInt := congrArg Int64.toInt h
    -- Below the upper bound nothing wraps around.
    rcases htop.lt_or_eq with hlt | heq
    · rwa [roundInt, Int64.toInt_ofInt_of_le hbottom hlt] at hint
    · have hwrapped : (roundInt n).toInt = -2 ^ 63 := by
        rw [roundInt, heq]
        rfl
      have hsame : rounded n.toInt = -2 ^ 63 := by
        rw [← hint, hwrapped]
        decide +kernel
      omega
  · intro h
    rw [roundInt, h, Int64.ofInt_toInt]

/-- To round an integer of 64 bits is to round its value. -/
theorem roundInt_ofInt {n : Int} (hlow : -2 ^ 63 ≤ n) (hhigh : n < 2 ^ 63) :
    roundInt (Int64.ofInt n) = Int64.ofInt (rounded n) := by
  rw [roundInt, Int64.toInt_ofInt_of_le hlow hhigh]

/-! ## Both readings

The two readers differ in how they take a number and agree in everything else, so that lists and objects are
treated once for both. -/

/-- By its text a number is read as what it writes. -/
theorem ofNumber?_exact {literal : Text} {n : Int} (h : Written literal n) (hlow : -2 ^ 63 ≤ n)
    (hhigh : n < 2 ^ 63) : ofNumber? .exact literal = some (.int (Int64.ofInt n)) := by
  rw [ofNumber?, Number.readInt64_written h hlow hhigh]

/-- As a double a number is rounded. -/
theorem ofNumber?_rounded {literal : Text} {n : Int} (h : Written literal n) (hlow : -2 ^ 63 ≤ n)
    (hhigh : n < 2 ^ 63) : ofNumber? .rounded literal = some (.int (Int64.ofInt (rounded n))) := by
  obtain ⟨x, hread, hwhole⟩ := Number.readDouble_written h (by omega)
  obtain ⟨hbottom, htop⟩ := rounded_bounds hlow hhigh
  -- An integer of 64 bits is rounded to one that is at most 2 ^ 63 away from zero.
  have hfits : (decide (-(Nat.pow 2 63 : Int) ≤ rounded n) && decide (rounded n ≤ Nat.pow 2 63)) = true :=
    Bool.and_eq_true_iff.mpr ⟨decide_eq_true hbottom, decide_eq_true htop⟩
  have hint : Double.toInt64? x = some (Int64.ofInt (rounded n)) := by
    unfold Double.toInt64?
    rw [hwhole]
    exact if_pos hfits
  rw [ofNumber?, hread]
  dsimp only
  rw [hint]

/-- A document with the value that it writes, and what the two readings make of it. -/
structure Reads (j : Json) (v : Value) : Prop where
  writes : Writes j v
  exact : ofJson? .exact j = some v
  rounded : ofJson? .rounded j = some (v.mapInts roundInt)

/-- Items are read one by one, whatever the reading does to numbers. -/
theorem itemsOfJson?_of_forall₂ {reading : NumberReading} {g : Value → Value} {js : List Json}
    {vs : List Value} (h : List.Forall₂ (fun j v => ofJson? reading j = some (g v)) js vs) :
    itemsOfJson? reading js = some (vs.map g) := by
  induction h with
  | nil => rfl
  | cons hj _ ih =>
    rw [itemsOfJson?, hj, ih]
    rfl

/-- Members are read one by one under their names. -/
theorem membersOfJson?_of_forall₂ {reading : NumberReading} {g : Value → Value}
    {ms : List (Text × Json)} {es : List (Text × Value)}
    (h : List.Forall₂ (fun m e => m.1 = e.1 ∧ ofJson? reading m.2 = some (g e.2)) ms es) :
    membersOfJson? reading ms = some (Dict.mapValues g es) := by
  induction h with
  | nil => rfl
  | cons hm _ ih =>
    rw [membersOfJson?, hm.2, ih, hm.1]
    rfl

/-- A list is read by both readings if its items are. -/
theorem reads_array {js : List Json} {vs : List Value} (h : List.Forall₂ Reads js vs) :
    Reads (.array js) (.array vs) where
  writes := .array (h.imp fun _ _ hj => hj.writes)
  exact := by
    rw [ofJson?, itemsOfJson?_of_forall₂ (g := id) (h.imp fun _ _ hj => hj.exact), List.map_id]
    rfl
  rounded := by
    rw [ofJson?, itemsOfJson?_of_forall₂ (h.imp fun _ _ hj => hj.rounded), ← mapItems_eq]
    rfl

/-- An object is read by both readings if its members are. Both put the keys in order. -/
theorem reads_object {ms : List (Text × Json)} {es : List (Text × Value)}
    (h : List.Forall₂ (fun m e => m.1 = e.1 ∧ Reads m.2 e.2) ms es) :
    Reads (.object ms) (.assoc (Dict.ofWrites es).byKey) where
  -- The names are the keys, in the same order.
  writes := by
    refine .object ?_ ?_
    · induction h with
      | nil => rfl
      | cons hm _ ih => rw [Dict.keys_cons, Dict.keys_cons, ih, hm.1]
    · exact List.forall₂_map_left_iff.mpr (List.forall₂_map_right_iff.mpr (h.imp fun _ _ hm => hm.2.writes))
  exact := by
    have hsame : Dict.mapValues id es = es := List.map_id es
    rw [ofJson?, membersOfJson?_of_forall₂ (g := id) (h.imp fun _ _ hm => ⟨hm.1, hm.2.exact⟩), hsame]
    rfl
  rounded := by
    rw [ofJson?, membersOfJson?_of_forall₂ (h.imp fun _ _ hm => ⟨hm.1, hm.2.rounded⟩), mapInts,
      mapEntries_eq, Dict.mapValues_byKey, Dict.mapValues_ofWrites]
    rfl

/-- A document of integers writes a value, and the reading through doubles rounds the integers in it. -/
theorem Integral.reads {j : Json} (h : Integral j) : ∃ v, Reads j v := by
  induction h with
  | null => exact ⟨.absent, .null, rfl, rfl⟩
  | bool b => exact ⟨.bool b, .bool b, rfl, rfl⟩
  | @number literal n hwritten hlow hhigh _ =>
    refine ⟨.int (Int64.ofInt n), .number hwritten, ofNumber?_exact hwritten hlow hhigh, ?_⟩
    rw [mapInts, roundInt_ofInt hlow hhigh]
    exact ofNumber?_rounded hwritten hlow hhigh
  | string t => exact ⟨.text t, .string t, rfl, rfl⟩
  | array _ ih =>
    obtain ⟨vs, hvs⟩ := exists_forall₂ _ ih
    exact ⟨.array vs, reads_array hvs⟩
  | @object members _ ih =>
    -- The name of each member is kept as the key of its value.
    have hmembers : ∀ m ∈ members, ∃ e : Text × Value, m.1 = e.1 ∧ Reads m.2 e.2 := by
      intro m hm
      obtain ⟨v, hv⟩ := ih m hm
      exact ⟨(m.1, v), rfl, hv⟩
    obtain ⟨es, hes⟩ := exists_forall₂ _ hmembers
    exact ⟨.assoc (Dict.ofWrites es).byKey, reads_object hes⟩

end Mundart.Value

namespace Mundart

/-! ## Fetching

A fetch may fail in many ways before it gets to the body of an answer. What is said of the answer excludes
these, and nothing about the document is asked but that it holds integers. -/

/-- An answer whose body a fetch takes. -/
structure Fetch.Reply.Good (r : Fetch.Reply) : Prop where
  status : r.status = 200
  size : r.body.length ≤ Fetch.maxBody
  whole : r.broken = none

variable {net : Fetch.Network} {timeout : Span} {raw : Text} {url : Url} {r : Fetch.Reply} {j : Json}

/-- A fetch with a good answer yields the value of its body. -/
theorem Fetch.result_of_good (hurl : Fetch.firstUrl raw = .ok url)
    (hrequest : Fetch.request net (Fetch.maxRequests - 1) url = .ok r) (hr : r.Good) :
    (Fetcher.http net timeout raw).result = .ok (Fetch.bodyValue r.contentType r.body) := by
  have hsize : ¬ Fetch.maxBody < r.body.length := Nat.not_lt.mpr hr.size
  have hstatus : (r.status == 200) = true := beq_iff_eq.mpr hr.status
  simp only [Fetcher.http, Fetch.get, hurl, hrequest, hr.whole, bind, Except.bind, if_neg hsize, hstatus,
    if_true]

/-- The value of a JSON body is read with its numbers as doubles. -/
theorem Fetch.bodyValue_json (htype : Text.hasPart "json" r.contentType = true)
    (hread : Json.read? r.body = some j) {v : Value} (hv : Value.ofJson? .rounded j = some v) :
    Fetch.bodyValue r.contentType r.body = v := by
  simp only [Fetch.bodyValue, htype, Bool.true_or, if_true, hread, Option.bind_some, hv, Option.getD_some]

/-- The good answer of a server that has one document. -/
def Fetch.Reply.json (document : Text) : Fetch.Reply :=
  { contentType := "application/json", body := document }

/-- The address of the examples is one that is fetched from. -/
theorem Fetch.firstUrl_short :
    Fetch.firstUrl "http://oida.at/" = .ok { scheme := "http", host := "oida.at", path := "/" } := by
  cbv

/-- Such a server answers every request with its document. -/
theorem Fetch.request_json (document : Text) (url : Url) :
    Fetch.request (fun _ => .answered (.json document)) (Fetch.maxRequests - 1) url =
      .ok (.json document) := rfl

/-- A fetched document of integers arrives with every integer in it rounded to a double. So it arrives as the
value that it writes, which is what is read from the text of its numbers, exactly if all of these integers
are doubles. -/
theorem Fetch.fetched_integers (hurl : Fetch.firstUrl raw = .ok url)
    (hrequest : Fetch.request net (Fetch.maxRequests - 1) url = .ok r) (hr : r.Good)
    (htype : Text.hasPart "json" r.contentType = true) (hread : Json.read? r.body = some j)
    (hj : Value.Integral j) :
    ∃ v, Value.Writes j v ∧ Value.ofJson? .exact j = some v ∧
      (Fetcher.http net timeout raw).result = .ok (v.mapInts Value.roundInt) ∧
      ((Fetcher.http net timeout raw).result = .ok v ↔
        ∀ n : Int64, Value.Part (.int n) v → Double.rounded n.toInt = n.toInt) := by
  obtain ⟨v, hv⟩ := hj.reads
  have hresult : (Fetcher.http net timeout raw).result = .ok (v.mapInts Value.roundInt) := by
    rw [Fetch.result_of_good hurl hrequest hr, Fetch.bodyValue_json htype hread hv.rounded]
  refine ⟨v, hv.writes, hv.exact, hresult, ?_⟩
  -- What arrives is the value exactly if rounding changes no integer in it.
  rw [hresult, Except.ok.injEq, Value.mapInts_eq_self_iff]
  simp only [Value.roundInt_eq_iff]

/-- Short integers, one of them negative, arrive as they are written. -/
theorem Fetch.fetched_integers_short :
    (Fetcher.http (fun _ => .answered (.json "[1,[-2]]")) 0 "http://oida.at/").result =
      .ok (.array [.int 1, .array [.int (-2)]]) := by
  have hone : Number.Written "1" 1 := .plain (by decide) (List.all_eq_true.mp rfl)
  have htwo : Number.Written "-2" (-2) := .minus (by decide) (List.all_eq_true.mp rfl)
  have hintegral : Value.Integral (.array [.number "1", .array [.number "-2"]]) := by
    refine .array (List.forall_mem_cons.mpr ⟨?_, List.forall_mem_singleton.mpr (.array ?_)⟩)
    · exact .number hone (by decide) (by decide) (by decide +kernel)
    · exact List.forall_mem_singleton.mpr (.number htwo (by decide) (by decide) (by decide +kernel))
  have hrequest := Fetch.request_json "[1,[-2]]"
  obtain ⟨v, -, hexact, hresult, -⟩ := Fetch.fetched_integers Fetch.firstUrl_short (hrequest _)
    ⟨rfl, by decide, rfl⟩ (by decide) rfl hintegral
  -- The value that the theorem speaks of is the one that is read here.
  have hv : Value.ofJson? .exact (.array [.number "1", .array [.number "-2"]]) =
    some (.array [.int 1, .array [.int (-2)]]) := rfl
  obtain rfl := Option.some.inj (hv.symm.trans hexact)
  exact hresult

/-- The first integer that is no double arrives as its neighbour, whereas the text of its literal is read as
what it is. -/
theorem Fetch.fetched_neighbour :
    Json.read? "9007199254740993" = some (.number "9007199254740993") ∧
      Value.Integral (.number "9007199254740993") ∧
      Value.ofJson? .exact (.number "9007199254740993") = some (.int 9007199254740993) ∧
      (Fetcher.http (fun _ => .answered (.json "9007199254740993")) 0 "http://oida.at/").result =
        .ok (.int 9007199254740992) ∧
      (Fetcher.http (fun _ => .answered (.json "9007199254740993")) 0 "http://oida.at/").result ≠
        .ok (.int 9007199254740993) := by
  have hread : Json.read? "9007199254740993" = some (.number "9007199254740993") := rfl
  have hwritten : Number.Written "9007199254740993" 9007199254740993 :=
    .plain (by decide) (List.all_eq_true.mp rfl)
  have hrequest := Fetch.request_json "9007199254740993"
  have hresult : (Fetcher.http (fun _ => .answered (.json "9007199254740993")) 0 "http://oida.at/").result =
      .ok (.int 9007199254740992) := by
    -- 2 ^ 53 + 1 is no double, and 2 ^ 53 is one.
    have hrounded : Int64.ofInt (Double.rounded 9007199254740993) = 9007199254740992 := by decide +kernel
    have hvalue : Value.ofJson? .rounded (.number "9007199254740993") = some (.int 9007199254740992) := by
      rw [Value.ofJson?, Value.ofNumber?_rounded hwritten (by decide) (by decide), hrounded]
    rw [Fetch.result_of_good Fetch.firstUrl_short (hrequest _) ⟨rfl, by decide, rfl⟩,
      Fetch.bodyValue_json (r := .json "9007199254740993") (by decide) hread hvalue]
  refine ⟨hread, .number hwritten (by decide) (by decide) (by decide +kernel),
    Value.ofNumber?_exact hwritten (by decide) (by decide), hresult, ?_⟩
  rw [hresult]
  exact fun h => absurd (Value.int.inj (Except.ok.inj h)) (by decide)

end Mundart
