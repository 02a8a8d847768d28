import Mundart.Proofs.Scope.Snapshot

/-!
# Linked frames and their scopes

Frames can be linked under each other at any time. As long as no frame is put under itself or under one of
its descendants, every frame has a finite line of ancestors without a repetition, so the bound on a chain is
never met: a scope is the frame itself followed by the scope of its parent.

* **`Lineage.nodup`**, **`scopeOf_eq`** — a scope is made of the frames of a lineage, and of all of them;
* **`Reachable.linked`** — every frame keeps its lineage while frames are made, linked and written to;
* **`reachable_lookups`** — snapshots, readings and the listed functions agree with lookups, in every scope.
-/

namespace Mundart.Scopes

variable {fs fs' : Scopes} {name other : Text} {names names' : List Text}

/-! ## Lineages

The names that one meets from a frame upwards. A lineage is a finite proof that the links end, so that all
that follows them can be told by induction on it and needs no bound. -/

/-- What a frame that exists is linked to. -/
def link? (fs : Scopes) (name : Text) : Option (Option Text) := (fs.get? name).map LinkedFrame.parent

/-- A frame is another one or one of its descendants. -/
inductive Descends (fs : Scopes) : Text → Text → Prop where
  | self (name : Text) : Descends fs name name
  | child {name parent ancestor : Text} (hlink : fs.link? name = some (some parent))
      (h : Descends fs parent ancestor) : Descends fs name ancestor

/-- The names of a frame and all its ancestors, from the inside out. -/
inductive Lineage (fs : Scopes) : Text → List Text → Prop where
  | root {name : Text} (hlink : fs.link? name = some none) : Lineage fs name [name]
  | child {name parent : Text} {names : List Text} (hlink : fs.link? name = some (some parent))
      (h : Lineage fs parent names) : Lineage fs name (name :: names)

namespace Lineage

/-- There is only one way up. -/
theorem unique (h : Lineage fs name names) (h' : Lineage fs name names') : names' = names := by
  induction h generalizing names' with
  | root hlink =>
    cases h' with
    | root => rfl
    | child hlink' => simp [hlink] at hlink'
  | child hlink _ ih =>
    cases h' with
    | root hlink' => simp [hlink] at hlink'
    | child hlink' hrest =>
      rw [hlink] at hlink'
      cases hlink'
      rw [ih hrest]

/-- The ancestors are those that the frame descends from. -/
theorem descends (h : Lineage fs name names) (hother : other ∈ names) : Descends fs name other := by
  induction h with
  | root hlink =>
    rw [List.mem_singleton.mp hother]
    exact .self _
  | child hlink _ ih =>
    rcases List.mem_cons.mp hother with rfl | hrest
    · exact .self _
    · exact .child hlink (ih hrest)

/-- The lineage of an ancestor is the rest of the lineage. -/
theorem of_mem (h : Lineage fs name names) (hother : other ∈ names) :
    ∃ rest, Lineage fs other rest ∧ rest <:+ names := by
  induction h with
  | root hlink =>
    rw [List.mem_singleton.mp hother]
    exact ⟨_, .root hlink, List.suffix_rfl⟩
  | child hlink hparent ih =>
    rcases List.mem_cons.mp hother with rfl | hrest
    · exact ⟨_, .child hlink hparent, List.suffix_rfl⟩
    · obtain ⟨rest, hlineage, hsuffix⟩ := ih hrest
      exact ⟨rest, hlineage, hsuffix.trans (List.suffix_cons _ _)⟩

/-- No frame is its own ancestor. -/
theorem nodup (h : Lineage fs name names) : names.Nodup := by
  induction h with
  | root => exact List.nodup_singleton _
  | @child name parent names hlink hparent ih =>
    apply List.nodup_cons.mpr
    constructor
    · intro hmem
      obtain ⟨rest, hlineage, hsuffix⟩ := hparent.of_mem hmem
      -- The frame would have a lineage shorter than its own.
      have hsame : name :: names = rest := hlineage.unique (.child hlink hparent)
      have hlen := hsuffix.length_le
      rw [← hsame, List.length_cons] at hlen
      omega
    · exact ih

/-- All names on a lineage are frames. -/
theorem subset_keys (h : Lineage fs name names) : names ⊆ fs.keys := by
  have hkey : ∀ {name : Text} {link : Option Text}, fs.link? name = some link → name ∈ fs.keys := by
    intro name link hlink
    obtain ⟨f, hf, -⟩ := Option.map_eq_some_iff.mp hlink
    exact Dict.mem_keys_iff_get?.mpr ⟨f, hf⟩
  induction h with
  | root hlink => simpa using hkey hlink
  | child hlink _ ih => exact List.cons_subset.mpr ⟨hkey hlink, ih⟩

/-- A lineage has no more names than there are frames. -/
theorem length_le (h : Lineage fs name names) : names.length ≤ fs.length := by
  have hlen := h.nodup.length_le_of_subset h.subset_keys
  simpa [Dict.keys] using hlen

/-- A bound that is large enough for the lineage does not matter to the chain. -/
theorem chain_eq (h : Lineage fs name names) : ∀ {bound : Nat}, names.length ≤ bound →
    fs.chain bound (some name) = names.filterMap fun name => (fs.get? name).map LinkedFrame.frame := by
  induction h with
  | root hlink =>
    intro bound hbound
    obtain ⟨f, hf, hparent⟩ := Option.map_eq_some_iff.mp hlink
    -- The bound is at least one, for the root itself.
    obtain ⟨bound, rfl⟩ : ∃ b, bound = b + 1 := ⟨bound - 1, by simp at hbound; omega⟩
    -- A root ends the chain, so that the rest of the bound is not used.
    cases bound with
    | zero => simp [chain, hf]
    | succ bound => simp [chain, hf, hparent]
  | child hlink _ ih =>
    intro bound hbound
    obtain ⟨f, hf, hparent⟩ := Option.map_eq_some_iff.mp hlink
    rw [List.length_cons] at hbound
    obtain ⟨bound, rfl⟩ : ∃ b, bound = b + 1 := ⟨bound - 1, by omega⟩
    have hfits : _ ≤ bound := Nat.le_of_succ_le_succ hbound
    simp [chain, hf, hparent, ih hfits]

/-- A lineage stays what it is while none of its frames is linked anew. -/
theorem congr (h : Lineage fs name names) (hlinks : ∀ name ∈ names, fs'.link? name = fs.link? name) :
    Lineage fs' name names := by
  induction h with
  | root hlink =>
    apply Lineage.root
    rw [hlinks _ List.mem_cons_self, hlink]
  | child hlink _ ih =>
    apply Lineage.child
    · rw [hlinks _ List.mem_cons_self, hlink]
    · exact ih fun name hname => hlinks name (List.mem_cons_of_mem _ hname)

end Lineage

/-- The scope of a frame is made of the frames on its lineage. -/
theorem scopeOf_of_lineage (h : Lineage fs name names) :
    fs.scopeOf name = names.filterMap fun name => (fs.get? name).map LinkedFrame.frame :=
  h.chain_eq h.length_le

/-- A scope is the frame followed by the scope of its parent. -/
theorem scopeOf_eq (h : Lineage fs name names) {f : LinkedFrame} (hf : fs.get? name = some f) :
    fs.scopeOf name = f.frame :: f.parent.elim [] fs.scopeOf := by
  rw [scopeOf_of_lineage h]
  cases h with
  | root hlink =>
    have hparent : f.parent = none := by simpa [link?, hf] using hlink
    simp [hf, hparent]
  | child hlink hrest =>
    rename_i parent names
    have hparent : f.parent = some parent := by simpa [link?, hf] using hlink
    simp [hf, hparent, scopeOf_of_lineage hrest]

/-! ## Changes

Frames are made, filled and linked anew. The invariant is that every frame has a lineage; only a new link
can break it, and that one is refused where it would lead back. -/

/-- Every frame has a lineage, and defines no name twice. -/
structure Linked (fs : Scopes) : Prop where
  lineage : ∀ name ∈ fs.keys, ∃ names, Lineage fs name names
  tidy : ∀ e ∈ fs, e.2.frame.Tidy

/-- The frames that come from making roots and children, linking them anew and defining names in them. Every
frame gets a name of its own, and none is put under itself or under one of its descendants. -/
inductive Reachable : Scopes → Prop where
  | empty : Reachable []
  | create {fs : Scopes} {name : Text} (h : Reachable fs) (hnew : name ∉ fs.keys) :
      Reachable (fs.create name)
  | createChild {fs : Scopes} {parent name : Text} (h : Reachable fs) (hparent : parent ∈ fs.keys)
      (hnew : name ∉ fs.keys) : Reachable (fs.createChild parent name)
  | setParent {fs : Scopes} {name : Text} {parent : Option Text} (h : Reachable fs)
      (hparent : ∀ p, parent = some p → p ∈ fs.keys ∧ ¬ Descends fs p name) :
      Reachable (fs.setParent name parent)
  | defineVar {fs : Scopes} (h : Reachable fs) (name var : Text) (v : Value) :
      Reachable (fs.defineVar name var v)
  | defineFunc {fs : Scopes} (h : Reachable fs) (name : Text) (fn : Function) :
      Reachable (fs.defineFunc name fn)

/-- A frame that is written has the link that it was given. -/
theorem link?_set (fs : Scopes) (name other : Text) (f : LinkedFrame) :
    Scopes.link? (fs.set name f) other = if name = other then some f.parent else fs.link? other := by
  unfold link?
  rw [Dict.get?_set]
  split
  · rfl
  · rfl

/-- What is defined in a frame changes no links. -/
theorem link?_onFrame (fs : Scopes) (name other : Text) (change : Frame → Frame) :
    (fs.onFrame name change).link? other = fs.link? other := by
  unfold onFrame
  cases hf : fs.get? name with
  | none => rfl
  | some f =>
    rw [link?_set]
    split
    · next hname => simp [← hname, link?, hf]
    · rfl

/-- What is defined in a frame makes no frames. -/
theorem keys_onFrame (fs : Scopes) (name : Text) (change : Frame → Frame) :
    (fs.onFrame name change).keys = fs.keys := by
  unfold onFrame
  cases hf : fs.get? name with
  | none => rfl
  | some f =>
    have hname : name ∈ fs.keys := Dict.mem_keys_iff_get?.mpr ⟨f, hf⟩
    show Dict.keys (Dict.set fs name _) = _
    rw [Dict.keys_set, if_pos hname]

namespace Linked

/-- A new frame is a root or a child of one that exists. -/
theorem add (h : fs.Linked) (hnew : name ∉ fs.keys) {parent : Option Text}
    (hparent : ∀ p, parent = some p → p ∈ fs.keys) : Scopes.Linked (fs.set name { parent := parent }) := by
  -- A new frame is not among the ancestors of an old one, so that these keep their lineage.
  have hkept : ∀ {other : Text} {names : List Text}, Lineage fs other names →
      Lineage (fs.set name { parent := parent }) other names := by
    intro other names hlineage
    apply hlineage.congr
    intro ancestor hancestor
    rw [link?_set, if_neg]
    rintro rfl
    exact hnew (hlineage.subset_keys hancestor)
  have hlink : Scopes.link? (fs.set name { parent := parent }) name = some parent := by
    rw [link?_set, if_pos rfl]
  constructor
  · intro other hother
    rcases Dict.mem_keys_set.mp hother with rfl | hold
    · cases hp : parent with
      | none => exact ⟨_, .root (hp ▸ hlink)⟩
      | some p =>
        obtain ⟨names, hnames⟩ := h.lineage p (hparent p hp)
        exact ⟨_, .child (hp ▸ hlink) (hp ▸ hkept hnames)⟩
    · obtain ⟨names, hnames⟩ := h.lineage other hold
      exact ⟨names, hkept hnames⟩
  -- A new frame is empty.
  · intro e he
    rcases Dict.mem_of_mem_set he with rfl | hold
    · exact ⟨List.nodup_nil, List.nodup_nil⟩
    · exact h.tidy e hold

/-- A frame that is linked anew takes its descendants along. -/
theorem relink (h : fs.Linked) {parent : Option Text}
    (hparent : ∀ p, parent = some p → p ∈ fs.keys ∧ ¬ Descends fs p name) :
    (fs.setParent name parent).Linked := by
  unfold setParent
  cases hf : fs.get? name with
  | none => exact h
  | some f =>
    have hlink : ∀ other, Scopes.link? (fs.set name { f with parent := parent }) other =
        if name = other then some parent else fs.link? other := fun other => link?_set fs name other _
    have hkey : name ∈ fs.keys := Dict.mem_keys_iff_get?.mpr ⟨f, hf⟩
    -- The new line of ancestors was there before: the frame is not on it.
    have hself : ∃ names, Lineage (fs.set name { f with parent := parent }) name names := by
      cases hp : parent with
      | none => exact ⟨_, .root (by rw [← hp, hlink, if_pos rfl, hp])⟩
      | some p =>
        obtain ⟨hexists, hapart⟩ := hparent p hp
        obtain ⟨names, hnames⟩ := h.lineage p hexists
        refine ⟨_, .child (by rw [← hp, hlink, if_pos rfl, hp]) (hnames.congr fun ancestor hancestor => ?_)⟩
        rw [← hp, hlink, if_neg]
        rintro rfl
        exact hapart (hnames.descends hancestor)
    have hall : ∀ {other : Text} {names : List Text}, Lineage fs other names →
        ∃ names', Lineage (fs.set name { f with parent := parent }) other names' := by
      intro other names hlineage
      induction hlineage with
      | @root other hroot =>
        by_cases hname : name = other
        · exact hname ▸ hself
        · exact ⟨_, .root (by rw [hlink, if_neg hname, hroot])⟩
      | @child other above names hchild _ ih =>
        by_cases hname : name = other
        · exact hname ▸ hself
        · obtain ⟨names', hnames'⟩ := ih
          exact ⟨_, .child (by rw [hlink, if_neg hname, hchild]) hnames'⟩
    constructor
    · intro other hother
      have hold : other ∈ fs.keys := by
        rcases Dict.mem_keys_set.mp hother with rfl | hold
        · exact hkey
        · exact hold
      obtain ⟨names, hnames⟩ := h.lineage other hold
      exact hall hnames
    · intro e he
      rcases Dict.mem_of_mem_set he with rfl | hold
      · exact h.tidy (name, f) (Dict.mem_of_get? hf)
      · exact h.tidy e hold

/-- Defining a name in a frame links nothing. -/
theorem change (h : fs.Linked) {change : Frame → Frame} (hchange : ∀ f : Frame, f.Tidy → (change f).Tidy) :
    (fs.onFrame name change).Linked := by
  constructor
  · intro other hother
    rw [keys_onFrame] at hother
    obtain ⟨names, hnames⟩ := h.lineage other hother
    exact ⟨names, hnames.congr fun ancestor _ => link?_onFrame fs name ancestor change⟩
  · intro e he
    unfold onFrame at he
    -- A frame that is not there is not written to.
    cases hf : fs.get? name with
    | none =>
      rw [hf] at he
      exact h.tidy e he
    | some f =>
      rw [hf] at he
      rcases Dict.mem_of_mem_set he with rfl | hold
      · exact hchange f.frame (h.tidy (name, f) (Dict.mem_of_get? hf))
      · exact h.tidy e hold

/-- All frames on a lineage have each name once. -/
theorem scope_tidy (h : fs.Linked) (hlineage : Lineage fs name names) : ∀ f ∈ fs.scopeOf name, f.Tidy := by
  intro f hf
  rw [scopeOf_of_lineage hlineage] at hf
  obtain ⟨ancestor, -, hframe⟩ := List.mem_filterMap.mp hf
  obtain ⟨linked, hget, rfl⟩ := Option.map_eq_some_iff.mp hframe
  exact h.tidy (ancestor, linked) (Dict.mem_of_get? hget)

end Linked

/-- So in everything that can be reached the links lead up. -/
theorem Reachable.linked (h : Reachable fs) : fs.Linked := by
  induction h with
  | empty => exact ⟨by simp, by simp⟩
  | create _ hnew ih => exact ih.add hnew (by simp)
  | createChild _ hparent hnew ih => exact ih.add hnew fun p hp => Option.some.inj hp ▸ hparent
  | setParent _ hparent ih => exact ih.relink hparent
  | defineVar _ name var v ih =>
    exact ih.change fun f hf => ⟨Dict.nodup_keys_set hf.vars var v, hf.funcs⟩
  | defineFunc _ name fn ih =>
    exact ih.change fun f hf => ⟨hf.vars, Dict.nodup_keys_set hf.funcs fn.name fn⟩

/-- However frames were made, linked and written to: a scope is the whole line of a frame's ancestors, its
snapshot shows exactly the variables that a lookup finds, with their values, reading fails for exactly the
other names, and the names of the functions that a lookup finds are listed in strictly ascending order. -/
theorem reachable_lookups (h : Reachable fs) {f : LinkedFrame} (hf : fs.get? name = some f) :
    let scope := fs.scopeOf name
    scope = f.frame :: f.parent.elim [] fs.scopeOf ∧
      (scope.snapshot.keys.Nodup ∧ ∀ x, scope.snapshot.get? x = scope.lookupVar? x) ∧
      (∀ x, x ∈ scope.snapshot.keys ↔ ∃ v, scope.lookupVar? x = some v) ∧
      (∀ x v, scope.getVar x = .ok v ↔ scope.snapshot.get? x = some v) ∧
      (∀ x, (∃ e, scope.getVar x = .error e ∧ e.kind? = some .unknownIdentifier) ↔
        x ∉ scope.snapshot.keys) ∧
      scope.functionNames.Pairwise (fun a b => Text.before a b = true) ∧
      ∀ x, x ∈ scope.functionNames ↔ ∃ fn, scope.lookupFunc? x = some fn := by
  intro scope
  obtain ⟨names, hlineage⟩ := h.linked.lineage name (Dict.mem_keys_iff_get?.mpr ⟨f, hf⟩)
  have htidy : ∀ f ∈ scope, f.Tidy := h.linked.scope_tidy hlineage
  -- Lookups and the snapshot agree on every line of tidy frames; the frames of a scope are tidy.
  have hsame := Scope.get?_snapshot htidy
  refine ⟨scopeOf_eq hlineage hf, ⟨Scope.nodup_keys_snapshot scope, hsame⟩, Scope.mem_keys_snapshot htidy,
    fun x v => ?_, Scope.getVar_fails_iff htidy, Scope.ascending_functionNames scope,
    Scope.mem_functionNames scope⟩
  rw [hsame, Scope.getVar]
  cases scope.lookupVar? x with
  | none => simp
  | some w => simp

/-- The frame `c` is made under `a` and put under `b` afterwards, which gets a function of its own only then:
it sees the variable of `b` and both functions of its new line of ancestors, and nothing of `a`. -/
theorem reachable_lookups_relinked :
    let roots : Scopes := (create [] "a").create "b"
    let before : Scopes := ((roots.createChild "a" "c").defineVar "a" "x" (.int 1)).defineVar "b" "x" (.int 2)
    let linked : Scopes := before.setParent "c" (some "b")
    let fs : Scopes := (linked.defineFunc "b" ⟨"g", [], []⟩).defineFunc "c" ⟨"f", [], []⟩
    Reachable fs ∧ (fs.scopeOf "c").length = 2 ∧ (fs.scopeOf "c").snapshot.get? "x" = some (.int 2) ∧
      (∃ e, (fs.scopeOf "c").getVar "y" = .error e ∧ e.kind? = some .unknownIdentifier) ∧
      (∀ listed ∈ (["f", "g"] : List Text), listed ∈ (fs.scopeOf "c").functionNames) := by
  intro roots before linked fs
  have hbefore : Reachable before := by
    apply Reachable.defineVar
    apply Reachable.defineVar
    apply Reachable.createChild
    · apply Reachable.create
      · exact .create .empty (by decide)
      · decide
    · decide
    · decide
  -- The frame that becomes the parent does not descend from the one that is linked to it.
  have hapart : ¬ Descends before "b" "c" := by
    intro h
    cases h with
    | child hlink => exact absurd (show some none = some (some _) from hlink) (by simp)
  have hfs : Reachable fs := by
    apply Reachable.defineFunc
    apply Reachable.defineFunc
    apply Reachable.setParent hbefore
    rintro _ ⟨⟩
    exact ⟨by decide, hapart⟩
  obtain ⟨-, ⟨-, hsnapshot⟩, hvars, -, hfails, -, hfuncs⟩ :=
    reachable_lookups hfs (show fs.get? "c" = some _ from rfl)
  -- The scope is evaluated once. All that is looked up is looked up in it.
  have hframes : fs.scopeOf "c" = [{ funcs := [("f", ⟨"f", [], []⟩)] },
      { vars := [("x", .int 2)], funcs := [("g", ⟨"g", [], []⟩)] }] := rfl
  have hx : (fs.scopeOf "c").lookupVar? "x" = some (.int 2) := by
    rw [hframes]
    rfl
  have hy : (fs.scopeOf "c").lookupVar? "y" = none := by
    rw [hframes]
    rfl
  have hlen : (fs.scopeOf "c").length = 2 := by
    rw [hframes]
    rfl
  refine ⟨hfs, hlen, (hsnapshot "x").trans hx, (hfails "y").mpr ?_, ?_⟩
  · intro hmem
    obtain ⟨v, hv⟩ := (hvars "y").mp hmem
    exact absurd (hy.symm.trans hv) (by simp)
  · intro listed hlisted
    rw [hfuncs, hframes]
    rcases List.mem_pair.mp hlisted with rfl | rfl
    · exact ⟨_, rfl⟩
    · exact ⟨_, rfl⟩

end Mundart.Scopes
