import ScriptCore.Proofs.Calls.Public
import ScriptCore.Task.Invocation

/-! # What running code does to objects, scopes and cells

Whatever code runs, it works on the heap by a few acts: it makes blocks, binds keys to cells that nothing else
is bound to, writes values, deletes properties, cuts arrays and changes the receiver of a scope. Beside the heap
the calls are recorded that have been set up: in which object they bind names, which object holds their
arguments, and the cells of these. One act alone binds a second key to a cell, and it needs such a record: the
binding of a simple parameter in a sloppy call whose body has not started.

* `Call`, `World`: a heap and the calls on record.
* `Act`: **one act**, with all that is known when it happens; a label lists the objects and cells that it takes for a binding or for a
  call.
* `Acts`: acts one after the other.
* `Act.stays`, `Act.call`, `Act.refers_private`: what every act leaves as it was. -/

namespace ScriptCore

variable {h h' : Heap} {R : Realm} {o b : ObjectRef} {obj : Object} {key : PropertyKey} {c : CellRef}
  {d : Descriptor} {v : Value} {s : ScopeRef} {sc : Scope} {name : String} {i : Nat}

/-! ### Parameters -/

/-- The parameters that a call binds: those up to the first rest parameter, which takes all arguments that are
left. -/
def boundParams : List Param → List Param
  | [] => []
  | .rest name :: _ => [.rest name]
  | p :: params => p :: boundParams params

/-- The names that a parameter binds. -/
def Param.names : Param → List String
  | .simple name _ => [name]
  | .pattern target _ => target.boundNames
  | .rest name => [name]

/-- The parameter at the position is simple and has the name, and no parameter that is bound after it binds the
name again. -/
def Function.Binds (f : Function) (i : Nat) (name : String) : Prop :=
  (∃ default, (boundParams f.params)[i]? = some (.simple name default)) ∧
    ∀ p ∈ (boundParams f.params).drop (i + 1), name ∉ p.names

/-! ### Calls on record -/

/-- A call that was set up. An object or a cell that was collected since is missing. -/
structure Call where
  function : Function
  strict : Bool
  /-- The object in which the call binds names. -/
  bindings : ObjectRef
  /-- The object that holds the arguments. -/
  arguments : Option ObjectRef
  /-- The cells of the arguments, padded to the number of parameters. -/
  cells : List (Option CellRef)
  /-- The keys that were deleted from the arguments. -/
  lost : List PropertyKey
  /-- The parameters are bound, and the body was asked for. -/
  started : Bool

namespace Call

/-- The cell of the argument at a position. -/
def HasCell (k : Call) (i : Nat) (c : CellRef) : Prop := k.cells[i]? = some (some c)

/-- The objects and the cells of a call. -/
def handles (k : Call) : List Handle :=
  k.bindings.handle :: (k.arguments.toList.map (·.handle) ++ k.cells.filterMap fun c => c.map (·.handle))

theorem mem_handles_bindings (k : Call) : k.bindings.handle ∈ k.handles := List.mem_cons_self ..

theorem mem_handles_arguments {k : Call} {a : ObjectRef} (ha : k.arguments = some a) : a.handle ∈ k.handles := by
  unfold handles
  rw [ha]
  exact List.mem_cons_of_mem _ (List.mem_append_left _ (List.mem_singleton_self _))

theorem mem_handles_cell {k : Call} (hc : k.HasCell i c) : c.handle ∈ k.handles :=
  List.mem_cons_of_mem _ (List.mem_append_right _
    (List.mem_filterMap.mpr ⟨some c, List.mem_of_getElem? hc, rfl⟩))

/-- A key was deleted from an object. -/
def lose (k : Call) (o : ObjectRef) (key : PropertyKey) : Call :=
  if k.arguments = some o then { k with lost := key :: k.lost } else k

/-- The call that binds names in `b` asks for its body. -/
def start (k : Call) (b : ObjectRef) : Call := if k.bindings = b then { k with started := true } else k

end Call

/-- The call that is put on record when a task was set up: it binds names in `o`, and its arguments are in `a`. -/
def InvocationTask.record (t : InvocationTask) (o a : ObjectRef) : Call :=
  { function := t.closure.function, strict := t.strict, bindings := o, arguments := some a,
    cells := t.argCells.map some, lost := [], started := false }

namespace Call

/-- **The call was set up, and the heap is as that left it**: the scope of the call binds names in the object of the
call, and there the name `arguments` is bound to its arguments. -/
inductive Opens (R : Realm) (h : Heap) : Call → Prop where
  | setUp {E : Engine} {t₀ t : InvocationTask} {m m' : Machine} {s : ScopeRef} {o a : ObjectRef} {c : CellRef}
      (hrun : t₀.setUp E m = .done t m') (hheap : m'.heap = h) (hscope : t.scope = some s) (hbinds : h.Binds s o)
      (hname : h.Refers o R.names.arguments c) (hvalue : h.cell c = .ok (.declared (.object a))) :
      Opens R h (t.record o a)

/-- The key is the name of the simple parameter at the position. -/
def Names (h : Heap) (k : Call) (i : Nat) (key : PropertyKey) : Prop :=
  ∃ name default, k.function.params[i]? = some (.simple name default) ∧ h.Spells key name

/-- The name is bound to the cell of the argument at the position. -/
def HasBound (h : Heap) (k : Call) (i : Nat) (name : String) : Prop :=
  ∃ c key, k.HasCell i c ∧ h.Spells key name ∧ h.Refers k.bindings key c

/-- **What holds of a call on record.** The cells of a strict call are bound nowhere. Those of a sloppy one are
bound nowhere but under their positions in the arguments and under the names of their parameters; the former
as long as they were not deleted, the latter from the start of the body on. -/
structure Proper (R : Realm) (h : Heap) (k : Call) : Prop where
  bindings : h.Private R k.bindings
  arguments : ∀ a, k.arguments = some a → a ≠ R.globalObject ∧ h.Public R a ∧
    ∃ obj, h.object a = .ok obj ∧ obj.kind = .ordinary
  length : k.cells.length < UInt32.size
  cell : ∀ i c, k.HasCell i c → ∃ d, h.cell c = .ok d ∧ d.isWritable = true
  held : ∀ i c o key, k.HasCell i c → h.Refers o key c → k.strict = false ∧
    (k.arguments = some o ∧ key = .index i.toUInt32 ∨ o = k.bindings ∧ k.Names h i key)
  slots : k.strict = false → ∀ a i, k.arguments = some a → i < k.cells.length →
    .index i.toUInt32 ∉ k.lost → ∃ c, k.HasCell i c ∧ h.Refers a (.index i.toUInt32) c
  bound : k.started = true → k.strict = false → ∀ i name, k.function.Binds i name → k.HasBound h i name

/-- What becomes of a call on record. Whether it has started changes only if it is `touched`. -/
structure Becomes (touched : Prop) (k k' : Call) : Prop where
  function : k'.function = k.function
  strict : k'.strict = k.strict
  bindings : k'.bindings = k.bindings
  arguments : k'.arguments = k.arguments
  cells : k'.cells = k.cells
  lost : ∀ key ∈ k.lost, key ∈ k'.lost
  started : k.started = true → k'.started = true
  waiting : ¬ touched → k'.started = k.started

variable {k k' k'' : Call} {p q : Prop}

theorem Becomes.refl (p : Prop) (k : Call) : k.Becomes p k :=
  ⟨rfl, rfl, rfl, rfl, rfl, fun _ => id, id, fun _ => rfl⟩

theorem Becomes.trans (hk : k.Becomes p k') (hk' : k'.Becomes p k'') : k.Becomes p k'' where
  function := hk'.function.trans hk.function
  strict := hk'.strict.trans hk.strict
  bindings := hk'.bindings.trans hk.bindings
  arguments := hk'.arguments.trans hk.arguments
  cells := hk'.cells.trans hk.cells
  lost key hkey := hk'.lost key (hk.lost key hkey)
  started hs := hk'.started (hk.started hs)
  waiting hp := (hk'.waiting hp).trans (hk.waiting hp)

theorem Becomes.mono (hk : k.Becomes p k') (hpq : p → q) : k.Becomes q k' :=
  { hk with waiting := fun hq => hk.waiting fun hp => hq (hpq hp) }

theorem becomes_lose (k : Call) (o : ObjectRef) (key : PropertyKey) : k.Becomes p (k.lose o key) := by
  unfold lose
  split
  · exact ⟨rfl, rfl, rfl, rfl, rfl, fun _ => List.mem_cons_of_mem _, id, fun _ => rfl⟩
  · exact .refl _ k

theorem becomes_start (k : Call) (b : ObjectRef) : k.Becomes (k.bindings.handle ∈ [b.handle]) (k.start b) := by
  unfold start
  split
  · next hb => exact ⟨rfl, rfl, rfl, rfl, rfl, fun _ => id, fun _ => rfl, fun hne => absurd (hb ▸ List.mem_singleton_self _) hne⟩
  · exact .refl _ k

theorem Becomes.hasCell (hk : k.Becomes p k') : k'.HasCell i c ↔ k.HasCell i c := by
  unfold HasCell
  rw [hk.cells]

end Call

theorem Call.Becomes.handles {k k' : Call} {p : Prop} (hk : k.Becomes p k') : k'.handles = k.handles := by
  unfold Call.handles
  rw [hk.bindings, hk.arguments, hk.cells]

/-! ### Worlds -/

/-- A heap and the calls on record. -/
structure World where
  heap : Heap
  calls : List Call

/-- What the acts depend on: the realm, and the names under which no function is declared globally. -/
structure Setting where
  realm : Realm
  forbids : String → Prop

variable {S : Setting} {w w' w₁ w₂ : World} {label : List Handle}

namespace World

/-- No key is bound to the cell, and it is no cell of a call. -/
def Free (w : World) (c : CellRef) : Prop :=
  (∀ o key, ¬ w.heap.Refers o key c) ∧ ∀ k ∈ w.calls, ∀ i, ¬ k.HasCell i c

/-- The object is no scope's, and holds the arguments of no call on record. -/
structure Unguarded (S : Setting) (w : World) (o : ObjectRef) : Prop where
  global : o ≠ S.realm.globalObject
  shown : w.heap.Public S.realm o
  arguments : ∀ k ∈ w.calls, k.arguments ≠ some o

/-- Puts an object in the place of one. -/
def putObject (w : World) (o : ObjectRef) (obj : Object) : World :=
  { w with heap := w.heap.put o.handle (.object obj) }

end World

/-- The object with a key bound to a cell. -/
def Object.bind (obj : Object) (key : PropertyKey) (c : CellRef) : Object :=
  { obj with properties := obj.properties.insert key c }

/-- **One act.** -/
inductive Act (S : Setting) (w : World) : List Handle → World → Prop where
  /-- A block is made. -/
  | filled {b : Block} {id : Handle} {h' : Heap} (hf : w.heap.Filled b id h') (hv : h'.Valid)
      (hn : h'.Numbered) (hb : w.heap.MadeBlock S.realm b) : Act S w [] { w with heap := h' }
  /-- A key is bound to a cell of its own: one that the object did not have, or in an object that no scope or
  call depends on. -/
  | installed {o : ObjectRef} {obj : Object} {key : PropertyKey} {c : CellRef} {d : Descriptor}
      (ho : w.heap.object o = .ok obj) (hc : w.heap.cell c = .ok d) (hd : d.isAccessor = false)
      (hfree : w.Free c) (hkey : w.heap.Keyed key)
      (hnew : obj.properties.find? key = none ∨ w.Unguarded S o)
      (hglobal : o = S.realm.globalObject → d.isWritable = true) :
      Act S w [c.handle] (w.putObject o (obj.bind key c))
  /-- A name is declared with a cell of its own by the call or the handler that binds names in the object. -/
  | declared {o : ObjectRef} {obj : Object} {key : PropertyKey} {c : CellRef} {d : Descriptor}
      (ho : w.heap.object o = .ok obj) (hprivate : w.heap.Private S.realm o)
      (hc : w.heap.cell c = .ok d) (hd : d.isAccessor = false) (hfree : w.Free c) (hkey : w.heap.Keyed key)
      (hopen : ∀ k ∈ w.calls, k.bindings = o → k.started = false) :
      Act S w [o.handle, c.handle] (w.putObject o (obj.bind key c))
  /-- A simple parameter is bound to the cell of its argument. -/
  | bound {k : Call} {i : Nat} {c : CellRef} {obj : Object} {key : PropertyKey} {name : String}
      {default : Option Expr} (hk : k ∈ w.calls) (hopen : k.started = false) (hsloppy : k.strict = false)
      (hc : k.HasCell i c) (hparam : k.function.params[i]? = some (.simple name default))
      (hkey : w.heap.Spells key name) (ho : w.heap.object k.bindings = .ok obj) :
      Act S w [k.bindings.handle] (w.putObject k.bindings (obj.bind key c))
  /-- A value is written: to a property that is writable, or to one that no forbidden name has. -/
  | written {c : CellRef} {d : Descriptor} {u v : Value} {writable : Bool} (hc : w.heap.cell c = .ok d)
      (hd : d.content = .data u writable) (hv : v.Public S.realm w.heap)
      (hallowed : writable = true ∨ ∀ key, w.heap.Refers S.realm.globalObject key c →
        ∃ name, w.heap.Spells key name ∧ ¬ S.forbids name) :
      Act S w [] { w with heap := w.heap.put c.handle (.cell { d with content := .data v writable }) }
  /-- A property that can be reconfigured is deleted. -/
  | deleted {o : ObjectRef} {obj : Object} {key : PropertyKey} {c : CellRef} {d : Descriptor}
      (ho : w.heap.object o = .ok obj) (hshown : w.heap.Public S.realm o)
      (hfind : obj.properties.find? key = some c) (hc : w.heap.cell c = .ok d)
      (hd : d.configurable = true) :
      Act S w []
        { w.putObject o { obj with properties := obj.properties.erase key } with
          calls := w.calls.map fun k => k.lose o key }
  /-- Elements of an array are removed. -/
  | cut {o : ObjectRef} {obj : Object} (p : PropertyKey → Bool) (ho : w.heap.object o = .ok obj)
      (hkind : obj.kind = .array) :
      Act S w [] (w.putObject o { obj with properties := obj.properties.filter p })
  /-- A scope gets a receiver and is made strict or not. -/
  | adjusted {s : ScopeRef} {sc : Scope} {v : Value} (strict : Bool) (hs : w.heap.scope s = .ok sc)
      (hv : v.Public S.realm w.heap) :
      Act S w [] { w with heap := w.heap.put s.handle (.scope { sc with receiver := v, strict }) }
  /-- A call that was set up just now is put on record. -/
  | entered {k : Call} (hk : k.Proper S.realm w.heap) (hopens : k.Opens S.realm w.heap)
      (hnew : ∀ k' ∈ w.calls, k'.bindings ≠ k.bindings ∧ (∀ a, k.arguments = some a → k'.arguments ≠ some a) ∧
        ∀ i j c, k.HasCell i c → ¬ k'.HasCell j c)
      (hcells : ∀ i j c, k.HasCell i c → k.HasCell j c → i = j) (hopen : k.started = false) :
      Act S w k.handles { w with calls := k :: w.calls }
  /-- A call whose parameters are bound asks for its body. -/
  | started {b : ObjectRef}
      (hbound : ∀ k ∈ w.calls, k.bindings = b → k.strict = false → ∀ i name, k.function.Binds i name →
        k.HasBound w.heap i name) :
      Act S w [b.handle] { w with calls := w.calls.map fun k => k.start b }

/-! ### What an act leaves -/

open Heap (Stays stays_put refers_iff object_eq_ok cell_eq_ok scope_eq_ok)

theorem World.stays_putObject {obj' : Object} (ho : w.heap.object o = .ok obj) (hkind : obj'.kind = obj.kind)
    (hprototype : obj'.prototype = obj.prototype) : Stays w.heap (w.putObject o obj').heap :=
  stays_put (object_eq_ok.mp ho) ⟨hkind, hprototype⟩

/-- A property that is given another value is of the same sort. -/
theorem Descriptor.alike_write {u : Value} {writable : Bool} (hd : d.content = .data u writable) (v : Value) :
    ({ d with content := .data v writable } : Descriptor).isAccessor = d.isAccessor ∧
      ({ d with content := .data v writable } : Descriptor).isWritable = d.isWritable := by
  unfold isAccessor isWritable
  rw [hd]
  exact ⟨rfl, rfl⟩

theorem Descriptor.isAccessor_of_isWritable (hd : d.isWritable = true) : d.isAccessor = false := by
  unfold isWritable at hd
  unfold isAccessor
  split at hd
  · rfl
  · cases hd

/-- A cell that is given another value. -/
theorem Heap.stays_write {u : Value} {writable : Bool} (hc : h.cell c = .ok d)
    (hd : d.content = .data u writable) (v : Value) :
    Stays h (h.put c.handle (.cell { d with content := .data v writable })) :=
  stays_put (cell_eq_ok.mp hc) (Descriptor.alike_write hd v)

/-- **An act loses nothing.** -/
theorem Act.stays (ha : Act S w label w') : Stays w.heap w'.heap := by
  cases ha with
  | filled hf => exact hf.stays
  | installed ho => exact World.stays_putObject ho rfl rfl
  | declared ho => exact World.stays_putObject ho rfl rfl
  | bound _ _ _ _ _ _ ho => exact World.stays_putObject ho rfl rfl
  | written hc hd => exact Heap.stays_write hc hd _
  | deleted ho => exact World.stays_putObject ho rfl rfl
  | cut p ho => exact World.stays_putObject ho rfl rfl
  | adjusted strict hs => exact stays_put (scope_eq_ok.mp hs) ⟨rfl, rfl⟩
  | entered => exact .refl _ _
  | started => exact .refl _ _

/-- **A call stays on record.** -/
theorem Act.call (ha : Act S w label w') {k : Call} (hk : k ∈ w.calls) :
    ∃ k' ∈ w'.calls, k.Becomes (k.bindings.handle ∈ label) k' := by
  cases ha with
  | deleted => exact ⟨_, List.mem_map_of_mem hk, k.becomes_lose _ _⟩
  | started => exact ⟨_, List.mem_map_of_mem hk, k.becomes_start _⟩
  | entered => exact ⟨k, List.mem_cons_of_mem _ hk, .refl _ k⟩
  | _ => exact ⟨k, hk, .refl _ k⟩

/-- A property after the properties of an object were changed. -/
theorem Heap.refers_putObject {obj' : Object} {o' : ObjectRef} (ho : h.object o = .ok obj) :
    (h.put o.handle (.object obj')).Refers o' key c ↔
      if o' = o then obj'.properties.find? key = some c else h.Refers o' key c := by
  rw [refers_iff, object_put_object ho]
  by_cases hoo : o' = o
  · rw [if_pos hoo, if_pos hoo]
    exact ⟨fun ⟨x, hx, hfind⟩ => by cases hx; exact hfind, fun hfind => ⟨obj', rfl, hfind⟩⟩
  · rw [if_neg hoo, if_neg hoo, refers_iff]

theorem Heap.refers_putCell {d' : Descriptor} {c' : CellRef} (hc : h.cell c' = .ok d) :
    (h.put c'.handle (.cell d')).Refers o key c ↔ h.Refers o key c := by
  rw [refers_iff, refers_iff]
  simp only [object_put_cell hc]

theorem Heap.refers_putScope {sc' : Scope} (hs : h.scope s = .ok sc) :
    (h.put s.handle (.scope sc')).Refers o key c ↔ h.Refers o key c := by
  have hobject : (h.put s.handle (.scope sc')).object o = h.object o := by
    have hid := scope_eq_ok.mp hs
    unfold Heap.object
    rw [block?_put (Option.isSome_of_eq_some hid)]
    by_cases hx : o.handle = s.handle
    · rw [if_pos hx, hx, hid]
    · rw [if_neg hx]
  rw [refers_iff, refers_iff, hobject]

/-- A property after a key was bound. -/
theorem Heap.refers_bind {o' : ObjectRef} {key' : PropertyKey} {c' : CellRef} (ho : h.object o' = .ok obj) :
    (h.put o'.handle (.object (obj.bind key' c'))).Refers o key c ↔
      if o = o' ∧ key = key' then c = c' else h.Refers o key c := by
  rw [refers_putObject ho, Object.bind, PropertyMap.find?_insert]
  by_cases hoo : o = o'
  · subst hoo
    by_cases hkey : key = key'
    · rw [if_pos rfl, if_pos hkey.symm, if_pos ⟨rfl, hkey⟩, Option.some.injEq]
      exact eq_comm
    · rw [if_pos rfl, if_neg (Ne.symm hkey), if_neg fun hboth => hkey hboth.2, refers_iff]
      exact ⟨fun hfind => ⟨obj, ho, hfind⟩, fun ⟨x, hx, hfind⟩ => by cases ho.symm.trans hx; exact hfind⟩
  · rw [if_neg hoo, if_neg fun hboth => hoo hboth.1]

theorem Heap.Refers.bind {o' : ObjectRef} {key' : PropertyKey} {c' : CellRef} (hr : h.Refers o key c)
    (ho : h.object o' = .ok obj) (hother : o = o' → key' ≠ key) :
    (h.put o'.handle (.object (obj.bind key' c'))).Refers o key c := by
  rw [refers_bind ho, if_neg fun hboth => hother hboth.1 hboth.2.symm]
  exact hr

/-- **What a private object holds under its keys stays there**, but for acts that the label shows. -/
theorem Act.refers_private (ha : Act S w label w') (hp : w.heap.Private S.realm b) (hb : b.handle ∉ label)
    (hr : w.heap.Refers b key c) (hordinary : ∀ obj, w.heap.object b = .ok obj → obj.kind = .ordinary) :
    w'.heap.Refers b key c := by
  cases ha with
  | filled hf => exact hf.refers hr
  | @installed o obj key' c' d ho hc hd hfree hkey hnew =>
    refine hr.bind ho ?_
    rintro rfl rfl
    rcases hnew with hnone | hunguarded
    · rw [hr.find? ho] at hnone
      cases hnone
    · exact hp.not_public hunguarded.shown
  | declared ho => exact hr.bind ho fun hbo => absurd (hbo ▸ List.mem_cons_self ..) hb
  | bound _ _ _ _ _ _ ho => exact hr.bind ho fun hbo => absurd (hbo ▸ List.mem_singleton_self _) hb
  | written hc => exact (Heap.refers_putCell hc).mpr hr
  | deleted ho hshown =>
    refine (Heap.refers_putObject ho).mpr ?_
    rw [if_neg]
    · exact hr
    · rintro rfl
      exact hp.not_public hshown
  | cut p ho hkind =>
    refine (Heap.refers_putObject ho).mpr ?_
    rw [if_neg]
    · exact hr
    · rintro rfl
      rw [hordinary _ ho] at hkind
      cases hkind
  | adjusted strict hs => exact (Heap.refers_putScope hs).mpr hr
  | entered => exact hr
  | started => exact hr

/-- **A cell that is free stays free**, but for acts that take it. -/
theorem Act.free (ha : Act S w label w') (hc : w.Free c) (hlabel : c.handle ∉ label) : w'.Free c := by
  have hput : ∀ {o : ObjectRef} {obj obj' : Object}, w.heap.object o = .ok obj →
      (∀ key, obj'.properties.find? key = some c → obj.properties.find? key = some c) →
      ∀ o' key, ¬ (w.putObject o obj').heap.Refers o' key c := by
    intro o obj obj' ho hfind o' key hr
    refine hc.1 o' key ?_
    have hr' := (Heap.refers_putObject ho).mp hr
    split at hr'
    · next hoo => exact refers_iff.mpr ⟨obj, hoo ▸ ho, hfind key hr'⟩
    · exact hr'
  have hbind : ∀ {o : ObjectRef} {obj : Object} {key : PropertyKey} {c' : CellRef}, w.heap.object o = .ok obj →
      c ≠ c' → ∀ o' key', ¬ (w.putObject o (obj.bind key c')).heap.Refers o' key' c := by
    intro o obj key c' ho hne o' key' hr
    have hr' := (Heap.refers_bind ho).mp hr
    split at hr'
    · exact hne hr'
    · exact hc.1 o' key' hr'
  have hmapped : ∀ {f : Call → Call} {p : Call → Prop}, (∀ k : Call, k.Becomes (p k) (f k)) →
      ∀ k ∈ w.calls.map f, ∀ i, ¬ k.HasCell i c := by
    intro f p hf k hk i hi
    obtain ⟨k₀, hk₀, rfl⟩ := List.mem_map.mp hk
    exact hc.2 k₀ hk₀ i ((hf k₀).hasCell.mp hi)
  cases ha with
  | filled hf hv hn hb => exact ⟨fun o key hr => hc.1 o key (hf.refers_of hb.properties hr), hc.2⟩
  | @installed o obj key c' d ho =>
    exact ⟨hbind ho fun hcc => hlabel (hcc ▸ List.mem_singleton_self _), hc.2⟩
  | @declared o obj key c' d ho =>
    exact ⟨hbind ho fun hcc => hlabel (hcc ▸ List.mem_cons_of_mem _ (List.mem_singleton_self _)), hc.2⟩
  | @bound k i c' obj key name default hk hopen hsloppy hi hparam hkey ho =>
    exact ⟨hbind ho fun hcc => hc.2 k hk i (hcc ▸ hi), hc.2⟩
  | written hd => exact ⟨fun o key hr => hc.1 o key ((Heap.refers_putCell hd).mp hr), hc.2⟩
  | @deleted o obj key c' d ho =>
    refine ⟨hput ho fun key' hfind => ?_, hmapped fun k => k.becomes_lose (p := False) _ _⟩
    rw [PropertyMap.find?_erase] at hfind
    split at hfind
    · cases hfind
    · exact hfind
  | @cut o obj p ho =>
    refine ⟨hput ho fun key' hfind => ?_, hc.2⟩
    rw [PropertyMap.find?_filter] at hfind
    split at hfind
    · exact hfind
    · cases hfind
  | adjusted strict hs => exact ⟨fun o key hr => hc.1 o key ((Heap.refers_putScope hs).mp hr), hc.2⟩
  | @entered k =>
    refine ⟨hc.1, fun k' hk' i hi => ?_⟩
    rcases List.mem_cons.mp hk' with rfl | hk'
    · exact hlabel (Call.mem_handles_cell hi)
    · exact hc.2 k' hk' i hi
  | started => exact ⟨hc.1, hmapped fun k => k.becomes_start _⟩

/-! ### Acts one after the other -/

/-- Nothing on the heap has the handle. -/
def World.Fresh (w : World) (x : Handle) : Prop := w.heap.block? x = none

/-- Acts one after the other; what they take for a binding or for a call satisfies `own`. -/
inductive Acts (S : Setting) (own : Handle → Prop) (w : World) : World → Prop where
  | refl : Acts S own w w
  | tail {w₁ w₂ : World} {label : List Handle} (hw : Acts S own w w₁) (ha : Act S w₁ label w₂)
      (howned : ∀ x ∈ label, own x) : Acts S own w w₂

namespace Acts

variable {own own' : Handle → Prop}

theorem stays (hw : Acts S own w w') : Stays w.heap w'.heap := by
  induction hw with
  | refl => exact .refl _ _
  | tail _ ha _ ih => exact ih.trans ha.stays

theorem one (ha : Act S w label w') (howned : ∀ x ∈ label, own x) : Acts S own w w' := Acts.refl.tail ha howned

theorem trans (hw : Acts S own w w₁) (hw' : Acts S own w₁ w') : Acts S own w w' := by
  induction hw' with
  | refl => exact hw
  | tail _ ha howned ih => exact ih.tail ha howned

theorem mono (hw : Acts S own w w') (hown : ∀ x, own x → own' x) : Acts S own' w w' := by
  induction hw with
  | refl => exact .refl
  | tail _ ha howned ih => exact ih.tail ha fun x hx => hown x (howned x hx)

theorem fresh {x : Handle} (hw : Acts S own w w') (hx : w'.Fresh x) : w.Fresh x := by
  by_contra hold
  obtain ⟨b, hb⟩ := Option.ne_none_iff_exists'.mp hold
  obtain ⟨b', hb'⟩ := hw.stays.block hb
  cases hx.symm.trans hb'

/-- **A call stays on record**, and those who take other objects do not touch it. -/
theorem call (hw : Acts S own w w') {k : Call} (hk : k ∈ w.calls) :
    ∃ k' ∈ w'.calls, k.Becomes (own k.bindings.handle) k' := by
  induction hw with
  | refl => exact ⟨k, hk, .refl _ k⟩
  | tail _ ha howned ih =>
    obtain ⟨k₁, hk₁, hb₁⟩ := ih
    obtain ⟨k₂, hk₂, hb₂⟩ := ha.call hk₁
    exact ⟨k₂, hk₂, hb₁.trans (hb₂.mono fun hlabel => hb₁.bindings ▸ howned _ hlabel)⟩

/-- A call on record was there before, or is made of what satisfies `own`. -/
theorem call_cases (hw : Acts S own w w') {k' : Call} (hk' : k' ∈ w'.calls) :
    (∃ k ∈ w.calls, k.Becomes True k') ∨ ∀ x ∈ k'.handles, own x := by
  induction hw generalizing k' with
  | refl => exact .inl ⟨k', hk', .refl _ k'⟩
  | @tail w₁ w₂ label _ ha howned ih =>
    have hmapped : ∀ k₁ ∈ w₁.calls, k₁.Becomes True k' →
        (∃ k ∈ w.calls, k.Becomes True k') ∨ ∀ x ∈ k'.handles, own x := by
      intro k₁ hk₁ hb
      rcases ih hk₁ with ⟨k, hk, hb'⟩ | hown
      · exact .inl ⟨k, hk, hb'.trans hb⟩
      · exact .inr (hb.handles ▸ hown)
    cases ha with
    | deleted =>
      obtain ⟨k₁, hk₁, rfl⟩ := List.mem_map.mp hk'
      exact hmapped k₁ hk₁ (k₁.becomes_lose _ _)
    | started =>
      obtain ⟨k₁, hk₁, rfl⟩ := List.mem_map.mp hk'
      exact hmapped k₁ hk₁ ((k₁.becomes_start _).mono fun _ => trivial)
    | entered =>
      rcases List.mem_cons.mp hk' with rfl | hk'
      · exact .inr howned
      · exact ih hk'
    | _ => exact ih hk'

/-- An object that no scope or call depends on stays so. -/
theorem unguarded (hw : Acts S own w w') (ho : w.Unguarded S o) (hown : ¬ own o.handle) : w'.Unguarded S o := by
  refine ⟨ho.global, hw.stays.publicObject ho.shown trivial, fun k' hk' ha => ?_⟩
  rcases hw.call_cases hk' with ⟨k, hk, hb⟩ | howned
  · exact ho.arguments k hk (hb.arguments ▸ ha)
  · exact hown (howned _ (Call.mem_handles_arguments ha))

/-- A cell that is free stays free, but for those who take it. -/
theorem free (hw : Acts S own w w') (hc : w.Free c) (hown : ¬ own c.handle) : w'.Free c := by
  induction hw with
  | refl => exact hc
  | tail _ ha howned ih => exact ha.free ih fun hx => hown (howned _ hx)

end Acts

end ScriptCore
