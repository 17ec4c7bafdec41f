import ScriptCore.Proofs.Calls.Runs
import ScriptCore.Proofs.Renaming.Collection

/-! # Collecting garbage keeps worlds lawful

A collection takes blocks from the heap, and with each block that is left it leaves all that the block refers to.
What is known of the blocks that are left is known of them still. A call on record is forgotten when the object is
gone in which it binds names; of the other calls only what is gone is forgotten.

* `Heap.Shrinks`, `World.shrink`: blocks are taken from a heap, and what is gone from the record.
* `Heap.Tidy.shrunk`, `World.Orderly.shrunk`, `World.Lawful.shrunk`: **collections keep worlds lawful.**
* `World.Stands.shrunk`: the frames that reported their handles can go on. -/

namespace ScriptCore

open Heap (Persists refers_iff object_eq_ok cell_eq_ok scope_eq_ok text_eq_ok block?_collect block?_collect_of_mem)

variable {h h' : Heap} {R : Realm} {S : Setting} {own : Handle → Prop} {w : World} {o : ObjectRef} {obj : Object}
  {key : PropertyKey} {c : CellRef} {d : Descriptor} {k k' : Call} {i : Nat} {name : String} {s : ScopeRef}
  {sc : Scope} {f : Frame} {fs : List Frame} {x : Handle}

/-- An object refers to the cells and the keys of its properties. -/
theorem Object.handles_of_find? (hfind : obj.properties.find? key = some c) :
    c.handle ∈ obj.handles ∧ ∀ x ∈ key.handles, x ∈ obj.handles := by
  have hentry : (key, c) ∈ obj.properties.recent := by
    rw [PropertyMap.find?, PropertyMap.index_eq, List.lookup_eq_some_iff] at hfind
    obtain ⟨l, l', hl, -⟩ := hfind
    simp [hl]
  have hmem : ∀ x ∈ key.handles ++ [c.handle], x ∈ obj.handles := fun x hx =>
    List.mem_append_left _ (List.mem_append_right _ (List.mem_flatMap.mpr ⟨(key, c), hentry, hx⟩))
  exact ⟨hmem _ (by simp), fun x hx => hmem x (List.mem_append_left _ hx)⟩

namespace Heap

/-! ### Blocks are taken -/

/-- The block is left, if there is one. -/
def Retains (h h' : Heap) (x : Handle) : Prop := ∀ b, h.block? x = some b → h'.block? x = some b

/-- **Blocks are taken from a heap**; those that are left are as they were, and what they refer to is left. -/
structure Shrinks (h h' : Heap) : Prop where
  kept : ∀ x b, h'.block? x = some b → h.block? x = some b
  closed : ∀ x b, h'.block? x = some b → ∀ y ∈ b.handles, h.Retains h' y

theorem shrinks_collect (hv : h.Valid) (reported : List Handle) : h.Shrinks (h.collect reported) :=
  ⟨fun x b hx => ((block?_collect hv reported x b).mp hx).1, fun _ _ hx _ hy _ hc => block?_collect_of_mem hv hx hy hc⟩

/-- A collection takes no block that is reported to it. -/
theorem retains_collect (hv : h.Valid) {reported : List Handle} (hx : x ∈ reported) :
    h.Retains (h.collect reported) x := fun b hb =>
  (block?_collect hv reported x b).mpr ⟨hb, .root (List.mem_append_right _ hx) (Option.isSome_of_eq_some hb)⟩

theorem numbered_collect (hn : h.Numbered) (reported : List Handle) : (h.collect reported).Numbered := by
  unfold Numbered
  rw [size_collect]
  exact hn

namespace Shrinks

theorem retains (hs : h.Shrinks h') (hlive : (h'.block? x).isSome = true) : h.Retains h' x := by
  obtain ⟨b, hb⟩ := Option.isSome_iff_exists.mp hlive
  intro b' hb'
  cases (hs.kept x b hb).symm.trans hb'
  exact hb

theorem object (hs : h.Shrinks h') (ho : h'.object o = .ok obj) : h.object o = .ok obj :=
  object_eq_ok.mpr (hs.kept _ _ (object_eq_ok.mp ho))

theorem scope (hs : h.Shrinks h') (hsc : h'.scope s = .ok sc) : h.scope s = .ok sc :=
  scope_eq_ok.mpr (hs.kept _ _ (scope_eq_ok.mp hsc))

theorem cell (hs : h.Shrinks h') (hc : h'.cell c = .ok d) : h.cell c = .ok d :=
  cell_eq_ok.mpr (hs.kept _ _ (cell_eq_ok.mp hc))

theorem refers (hs : h.Shrinks h') (hr : h'.Refers o key c) : h.Refers o key c := by
  obtain ⟨obj, ho, hfind⟩ := refers_iff.mp hr
  exact refers_iff.mpr ⟨obj, hs.object ho, hfind⟩

theorem refers_of (hr : h.Refers o key c) (ho : h.Retains h' o.handle) : h'.Refers o key c := by
  obtain ⟨obj, hobj, hfind⟩ := refers_iff.mp hr
  exact refers_iff.mpr ⟨obj, object_eq_ok.mpr (ho _ (object_eq_ok.mp hobj)), hfind⟩

/-- What holds a property keeps its cell and its key. -/
theorem retains_of_refers (hs : h.Shrinks h') (hr : h'.Refers o key c) :
    h.Retains h' c.handle ∧ ∀ x ∈ key.handles, h.Retains h' x := by
  obtain ⟨obj, ho, hfind⟩ := refers_iff.mp hr
  obtain ⟨hcell, hkey⟩ := Object.handles_of_find? hfind
  exact ⟨hs.closed _ _ (object_eq_ok.mp ho) _ hcell, fun x hx => hs.closed _ _ (object_eq_ok.mp ho) _ (hkey x hx)⟩

theorem privateObject (hs : h.Shrinks h') (hp : h'.Private R o) : h.Private R o := by
  obtain ⟨obj, ho, hrest⟩ := hp
  exact ⟨obj, hs.object ho, hrest⟩

theorem binds (hs : h.Shrinks h') (hb : h'.Binds s o) : h.Binds s o := by
  obtain ⟨sc, hsc, ho⟩ := hb
  exact ⟨sc, hs.scope hsc, ho⟩

/-- What is left is as it was. -/
theorem persists (_ : h.Shrinks h') : Persists (h.Retains h') h h' where
  texts _ _ hx ht := text_eq_ok.mpr (hx _ (text_eq_ok.mp ht))
  objects _ obj hx ho := ⟨obj, object_eq_ok.mpr (hx _ (object_eq_ok.mp ho)), rfl, rfl⟩
  scopes _ sc hx hsc := ⟨sc, scope_eq_ok.mpr (hx _ (scope_eq_ok.mp hsc)), rfl, rfl⟩
  cells _ d hx hc := ⟨d, cell_eq_ok.mpr (hx _ (cell_eq_ok.mp hc)), rfl, rfl⟩

end Shrinks

/-- **A tidy heap stays tidy** when blocks are taken from it. -/
theorem Tidy.shrunk (ht : h.Tidy R) (hs : h.Shrinks h') (hv : h'.Valid) (hn : h'.Numbered) : h'.Tidy R where
  valid := hv
  numbered := hn
  cells o key c hr := by
    obtain ⟨d, hc⟩ := ht.cells o key c (hs.refers hr)
    exact ⟨d, cell_eq_ok.mpr ((hs.retains_of_refers hr).1 _ (cell_eq_ok.mp hc))⟩
  keys o key c hr := hs.persists.keyed (ht.keys o key c (hs.refers hr)) (hs.retains_of_refers hr).2
  values c d hc := hs.persists.descriptor (ht.values c d (hs.cell hc)) (hs.closed _ _ (cell_eq_ok.mp hc))
  kinds o obj ho := by
    refine hs.persists.kind (ht.kinds o obj (hs.object ho)) fun cl hcl x hx =>
      hs.closed _ _ (object_eq_ok.mp ho) x (List.mem_append_right _ ?_)
    rw [hcl]
    exact hx
  scopes s sc hsc := hs.persists.properScope (ht.scopes s sc (hs.scope hsc)) (hs.closed _ _ (scope_eq_ok.mp hsc))
  ordinary o obj hp ho := ht.ordinary o obj (hs.privateObject hp) (hs.object ho)
  data o key c d hp hr hc := ht.data o key c d (hs.privateObject hp) (hs.refers hr) (hs.cell hc)

end Heap

/-! ### What is gone is forgotten -/

/-- The call without what is gone from the heap. -/
def Call.sweep (h : Heap) (k : Call) : Call :=
  { k with
    arguments := k.arguments.filter fun a => (h.block? a.handle).isSome
    cells := k.cells.map fun c => c.filter fun c => (h.block? c.handle).isSome }

/-- The world with a heap from which blocks were taken. The calls are left on record whose names are bound in an
object that is left. -/
def World.shrink (w : World) (h : Heap) : World :=
  ⟨h, (w.calls.filter fun k => (h.block? k.bindings.handle).isSome).map (Call.sweep h)⟩

namespace Call

theorem hasCell_sweep : (k.sweep h).HasCell i c ↔ k.HasCell i c ∧ (h.block? c.handle).isSome = true := by
  unfold HasCell sweep
  rw [List.getElem?_map]
  cases k.cells[i]? with
  | none => simp
  | some c' =>
    rw [Option.map_some, Option.some.injEq, Option.some.injEq, Option.filter_eq_some_iff]

theorem arguments_sweep {a : ObjectRef} :
    (k.sweep h).arguments = some a ↔ k.arguments = some a ∧ (h.block? a.handle).isSome = true :=
  Option.filter_eq_some_iff

/-- What a call binds is left with the object in which it binds names. -/
theorem HasBound.sweep (hs : h.Shrinks h') (hb : k.HasBound h i name) (hk : h.Retains h' k.bindings.handle)
    (hc : ∀ i c, k.HasCell i c → ∃ d, h.cell c = .ok d) : (k.sweep h').HasBound h' i name := by
  obtain ⟨c, key, hcell, hspells, hr⟩ := hb
  have hr' := Heap.Shrinks.refers_of hr hk
  obtain ⟨hkept, hkey⟩ := hs.retains_of_refers hr'
  obtain ⟨d, hd⟩ := hc i c hcell
  exact ⟨c, key, hasCell_sweep.mpr ⟨hcell, Option.isSome_of_eq_some (hkept _ (cell_eq_ok.mp hd))⟩,
    hs.persists.spells hspells hkey, hr'⟩

theorem Proper.live (hk : k.Proper R h) : ∀ i c, k.HasCell i c → ∃ d, h.cell c = .ok d :=
  fun i c hc => (hk.cell i c hc).imp fun _ hd => hd.1

/-- **A call that is left is what it is on record for.** -/
theorem Proper.shrunk (hk : k.Proper R h) (hs : h.Shrinks h') (hb : h.Retains h' k.bindings.handle) :
    (k.sweep h').Proper R h' where
  bindings := hs.persists.privateObject hk.bindings hb
  arguments a ha := by
    obtain ⟨ha, hlive⟩ := arguments_sweep.mp ha
    obtain ⟨hglobal, hshown, obj, ho, hkind⟩ := hk.arguments a ha
    have hkept := hs.retains hlive
    exact ⟨hglobal, hs.persists.publicObject hshown hkept, obj, object_eq_ok.mpr (hkept _ (object_eq_ok.mp ho)), hkind⟩
  length := by
    rw [show (k.sweep h').cells = k.cells.map _ from rfl, List.length_map]
    exact hk.length
  cell i c hc := by
    obtain ⟨hc, hlive⟩ := hasCell_sweep.mp hc
    obtain ⟨d, hd, hdata⟩ := hk.cell i c hc
    exact ⟨d, cell_eq_ok.mpr (hs.retains hlive _ (cell_eq_ok.mp hd)), hdata⟩
  held i c o key hc hr := by
    obtain ⟨hsloppy, hplace⟩ := hk.held i c o key (hasCell_sweep.mp hc).1 (hs.refers hr)
    refine ⟨hsloppy, hplace.imp (fun hplace => ⟨arguments_sweep.mpr ⟨hplace.1, ?_⟩, hplace.2⟩)
      fun hplace => ⟨hplace.1, ?_⟩⟩
    · obtain ⟨obj, ho, -⟩ := refers_iff.mp hr
      exact Option.isSome_of_eq_some (object_eq_ok.mp ho)
    · obtain ⟨name, default, hparam, hspells⟩ := hplace.2
      exact ⟨name, default, hparam, hs.persists.spells hspells (hs.retains_of_refers hr).2⟩
  slots hsloppy a i ha hi hlost := by
    obtain ⟨ha, hlive⟩ := arguments_sweep.mp ha
    rw [show (k.sweep h').cells = k.cells.map _ from rfl, List.length_map] at hi
    obtain ⟨c, hc, hr⟩ := hk.slots hsloppy a i ha hi hlost
    have hr' := Heap.Shrinks.refers_of hr (hs.retains hlive)
    obtain ⟨d, hd⟩ := hk.live i c hc
    exact ⟨c, hasCell_sweep.mpr ⟨hc, Option.isSome_of_eq_some ((hs.retains_of_refers hr').1 _ (cell_eq_ok.mp hd))⟩, hr'⟩
  bound hstarted hsloppy i name hbinds := (hk.bound hstarted hsloppy i name hbinds).sweep hs hb hk.live

end Call

/-! ### Worlds -/

theorem World.mem_shrink {k' : Call} (hk' : k' ∈ (w.shrink h).calls) :
    ∃ k ∈ w.calls, (h.block? k.bindings.handle).isSome = true ∧ k.sweep h = k' := by
  obtain ⟨k, hk, rfl⟩ := List.mem_map.mp hk'
  obtain ⟨hk, hlive⟩ := List.mem_filter.mp hk
  exact ⟨k, hk, hlive, rfl⟩

theorem World.sweep_mem (hk : k ∈ w.calls) (hlive : (h.block? k.bindings.handle).isSome = true) :
    k.sweep h ∈ (w.shrink h).calls := List.mem_map_of_mem (List.mem_filter.mpr ⟨hk, hlive⟩)

/-- **A world stays orderly** when blocks are taken from its heap. -/
theorem World.Orderly.shrunk (hw : w.Orderly S) (hs : w.heap.Shrinks h') (hv : h'.Valid) (hn : h'.Numbered) :
    (w.shrink h').Orderly S where
  heap := hw.heap.shrunk hs hv hn
  calls k' hk' := by
    obtain ⟨k, hk, hlive, rfl⟩ := mem_shrink hk'
    exact (hw.calls k hk).shrunk hs (hs.retains hlive)
  bindings k₁ hk₁ k₂ hk₂ hsame := by
    obtain ⟨k₁, h₁, -, rfl⟩ := mem_shrink hk₁
    obtain ⟨k₂, h₂, -, rfl⟩ := mem_shrink hk₂
    rw [hw.bindings k₁ h₁ k₂ h₂ hsame]
  arguments k₁ hk₁ k₂ hk₂ a ha₁ ha₂ := by
    obtain ⟨k₁, h₁, -, rfl⟩ := mem_shrink hk₁
    obtain ⟨k₂, h₂, -, rfl⟩ := mem_shrink hk₂
    rw [hw.arguments k₁ h₁ k₂ h₂ a (Call.arguments_sweep.mp ha₁).1 (Call.arguments_sweep.mp ha₂).1]
  cells k₁ hk₁ k₂ hk₂ i j c hc₁ hc₂ := by
    obtain ⟨k₁, h₁, -, rfl⟩ := mem_shrink hk₁
    obtain ⟨k₂, h₂, -, rfl⟩ := mem_shrink hk₂
    obtain ⟨hsame, hij⟩ :=
      hw.cells k₁ h₁ k₂ h₂ i j c (Call.hasCell_sweep.mp hc₁).1 (Call.hasCell_sweep.mp hc₂).1
    exact ⟨by rw [hsame], hij⟩
  shared o key o' key' c hr hr' := by
    refine or_iff_not_imp_left.mpr fun hne => ?_
    -- one of the two properties is a binding of the call, so the call is left
    obtain ⟨k, hk, i, hc, -, hplace⟩ := hw.pair (hs.refers hr) (hs.refers hr') hne
    have hlive : (h'.block? k.bindings.handle).isSome = true := by
      rcases hplace with ⟨rfl, -⟩ | ⟨rfl, -⟩
      · obtain ⟨obj, ho, -⟩ := refers_iff.mp hr
        exact Option.isSome_of_eq_some (object_eq_ok.mp ho)
      · obtain ⟨obj, ho, -⟩ := refers_iff.mp hr'
        exact Option.isSome_of_eq_some (object_eq_ok.mp ho)
    obtain ⟨d, hd⟩ := (hw.calls k hk).live i c hc
    exact ⟨k.sweep h', sweep_mem hk hlive, i, Call.hasCell_sweep.mpr
      ⟨hc, Option.isSome_of_eq_some ((hs.retains_of_refers hr).1 _ (cell_eq_ok.mp hd))⟩⟩

/-- **A world stays lawful**, if nothing is taken that the realm refers to. -/
theorem World.Lawful.shrunk (hw : w.Lawful S) (hs : w.heap.Shrinks h') (hv : h'.Valid) (hn : h'.Numbered)
    (hrealm : ∀ x ∈ S.realm.handles, w.heap.Retains h' x) : (w.shrink h').Lawful S :=
  ⟨hw.toOrderly.shrunk hs hv hn, hw.realm.persists hs.persists hrealm⟩

/-! ### Frames -/

namespace InvocationTask

variable {t : InvocationTask} {n r : Nat}

/-- A call whose scope and cells are left is on record still. -/
theorem OnRecord.shrunk (hr : t.OnRecord w s k) (hw : w.Lawful S) (hs : w.heap.Shrinks h')
    (hP : ∀ x ∈ t.handles, w.heap.Retains h' x) :
    w.heap.Retains h' k.bindings.handle ∧ t.OnRecord (w.shrink h') s (k.sweep h') := by
  have hscope : s.handle ∈ t.handles := by simp [InvocationTask.handles, hr.scope]
  obtain ⟨sc, hsc, hobject⟩ := hr.binds
  have hsc' := hP _ hscope _ (scope_eq_ok.mp hsc)
  have hkept : w.heap.Retains h' k.bindings.handle :=
    hs.closed _ _ hsc' _ (hobject ▸ List.mem_cons_self ..)
  obtain ⟨obj, ho, -⟩ := (hw.calls k hr.mem).bindings
  refine ⟨hkept, World.sweep_mem hr.mem (Option.isSome_of_eq_some (hkept _ (object_eq_ok.mp ho))), hr.function,
    hr.strict, ?_, hr.scope, sc, scope_eq_ok.mpr hsc', hobject⟩
  -- the call holds all its cells
  show k.cells.map _ = _
  rw [hr.cells, List.map_map]
  refine List.map_congr_left fun c hc => ?_
  obtain ⟨i, hi⟩ := List.mem_iff_getElem?.mp hc
  obtain ⟨d, hd⟩ := (hw.calls k hr.mem).live i c (hr.hasCell hi)
  have hlive := hP c.handle (List.mem_cons_of_mem _ (List.mem_append_right _ (List.mem_map_of_mem hc))) _
    (cell_eq_ok.mp hd)
  simp [hlive]

theorem Proper.shrunk (ht : t.Proper S w) (hw : w.Lawful S) (hs : w.heap.Shrinks h')
    (hP : ∀ x ∈ t.handles, w.heap.Retains h' x) : t.Proper S (w.shrink h') := by
  refine ⟨ht.shown.persists hs.persists hP, fun i hi => ?_, fun hbody => ?_⟩
  · obtain ⟨s, k, hb⟩ := ht.binding i hi
    obtain ⟨hkept, hr⟩ := hb.onRecord.shrunk hw hs hP
    refine ⟨s, k.sweep h', hr, hb.waiting, hb.reaches, fun hsloppy j name default hj hparam hlater => ?_⟩
    exact (hb.covers hsloppy j name default hj hparam hlater).sweep hs hkept (hw.calls k hb.onRecord.mem).live
  · obtain ⟨s, k, hr, hstarted⟩ := ht.body hbody
    exact ⟨s, k.sweep h', (hr.shrunk hw hs hP).2, hstarted⟩

end InvocationTask

theorem Task.Proper.shrunk {t : Task} (ht : t.Proper S w) (hw : w.Lawful S) (hs : w.heap.Shrinks h')
    (hP : ∀ x ∈ t.handles, w.heap.Retains h' x) : t.Proper S (w.shrink h') := by
  cases t with
  | statements t => exact StatementsTask.Proper.persists ht hs.persists hP
  | statement t => exact StatementTask.Proper.persists ht hs.persists hP
  | expression t => exact ExpressionTask.Proper.persists ht hs.persists hP
  | invocation t => exact InvocationTask.Proper.shrunk ht hw hs hP
  | settled o => exact ht

theorem Task.Owns.of_shrink {t : Task} (hs : w.heap.Shrinks h') (hx : t.Owns (w.shrink h') x) : t.Owns w x := by
  cases t with
  | invocation t =>
    obtain ⟨hwaits, s, o, hscope, hbinds, rfl⟩ := hx
    exact ⟨hwaits, s, o, hscope, hs.binds hbinds, rfl⟩
  | _ => exact hx.elim

theorem Input.Proper.shrunk {i : Input} (hi : i.Proper S w) (hs : w.heap.Shrinks h')
    (hP : ∀ x ∈ i.handles, w.heap.Retains h' x) : i.Proper S (w.shrink h') := by
  have herror : ∀ e : Error, e.Public S.realm w.heap → (∀ x ∈ e.handles, w.heap.Retains h' x) →
      e.Public S.realm h' := by
    rintro e he hx v rfl
    exact hs.persists.value (he v rfl) hx
  cases i with
  | start => trivial
  | waiting => trivial
  | fail e => exact herror e hi hP
  | deliver o =>
    cases o with
    | error e => exact herror e hi hP
    | ok c =>
      have hvalue : ∀ v, c.value? = some v → v.Public S.realm w.heap → v.Public S.realm h' := fun v hv hshown =>
        hs.persists.value hshown fun x hx => hP x (by
          show x ∈ c.handles
          unfold Completion.handles
          rw [hv]
          exact hx)
      cases c with
      | thrown v => exact hvalue v rfl hi
      | returned v => exact hvalue v rfl hi
      | normal v => exact fun x hx => hvalue x hx (hi x hx)
      | broken label v => exact fun x hx => hvalue x hx (hi x hx)
      | continued label v => exact fun x hx => hvalue x hx (hi x hx)

/-- **Frames whose handles are left can go on.** -/
theorem World.Stands.shrunk (hst : w.Stands S own fs) (hw : w.Lawful S) (hs : w.heap.Shrinks h')
    (hP : ∀ f ∈ fs, ∀ x ∈ f.handles, w.heap.Retains h' x) : (w.shrink h').Stands S own fs where
  proper f hf :=
    ⟨(hst.proper f hf).task.shrunk hw hs fun x hx =>
      hP f hf x (List.mem_append_left _ (List.mem_append_left _ hx)),
      (hst.proper f hf).input.shrunk hs fun x hx => hP f hf x (List.mem_append_right _ hx)⟩
  owned f hf x hx := hst.owned f hf x (hx.of_shrink hs)
  apart := hst.apart.imp fun hapart x hx hx' => hapart x (hx.of_shrink hs) (hx'.of_shrink hs)

end ScriptCore
