import ScriptCore.Proofs.Heap.Lengths
import ScriptCore.Proofs.Property.Spelling
import ScriptCore.Realm

/-! # Objects that values name, and objects that scopes bind names in

The objects that a program makes inherit from a prototype. The objects in which calls and handlers bind their
names inherit from nothing, and no value names one: the program reaches them by its scopes alone. A heap is
`Tidy` when it keeps the two apart and everything that is looked at has a live block.

* `Heap.Public`, `Heap.Private`: the two sorts of objects.
* `Heap.Tidy`: **what programs keep true of a heap.**
* `Heap.Persists`: what is never changed about the blocks of a heap.
* `Tidy.filled`, `Tidy.put`: a tidy heap stays tidy when a slot is filled and when a block is overwritten. -/

namespace ScriptCore

variable {h h' : Heap} {R : Realm} {P : Handle → Prop} {o : ObjectRef} {obj : Object} {key : PropertyKey}
  {c : CellRef} {d : Descriptor} {v : Value} {s : ScopeRef} {sc : Scope} {name : String}

namespace Heap

/-! ### What is bound where -/

/-- The property `key` of the object is held by the cell. -/
def Refers (h : Heap) (o : ObjectRef) (key : PropertyKey) (c : CellRef) : Prop :=
  h.ownCell o key = .ok (some c)

theorem refers_iff : h.Refers o key c ↔ ∃ obj, h.object o = .ok obj ∧ obj.properties.find? key = some c :=
  ownCell_eq_ok

theorem Refers.find? (hr : h.Refers o key c) (ho : h.object o = .ok obj) :
    obj.properties.find? key = some c := by
  obtain ⟨obj', ho', hfind⟩ := refers_iff.mp hr
  cases ho.symm.trans ho'
  exact hfind

/-- A key that is a string is a live one. -/
def Keyed (h : Heap) (key : PropertyKey) : Prop := ∀ s, key = .string s → ∃ t, h.text s = .ok t

theorem keyed_index (i : UInt32) : h.Keyed (.index i) := fun _ hs => by cases hs

theorem keyed_of_keyOfString {r : StringRef} (hkey : h.keyOfString r = .ok key) : h.Keyed key := by
  rintro r' rfl
  unfold keyOfString at hkey
  cases ht : h.text r with
  | error e => rw [ht] at hkey; cases hkey
  | ok t =>
    rw [ht] at hkey
    dsimp only [bind, Except.bind] at hkey
    split at hkey
    · cases hkey
    · cases hkey
      exact ⟨t, ht⟩

theorem Spells.keyed (hs : h.Spells key name) : h.Keyed key := by
  rintro s rfl
  unfold Spells at hs
  split at hs
  · cases hs
  · obtain ⟨s', hkey, ht⟩ := hs
    cases hkey
    exact ⟨_, ht⟩

/-! ### The two sorts of objects -/

/-- An object that values name: it inherits from another, or is the one from which all others do. -/
def Public (R : Realm) (h : Heap) (o : ObjectRef) : Prop :=
  ∃ obj, h.object o = .ok obj ∧ (obj.prototype ≠ none ∨ o = R.objectPrototype)

/-- An object in which a scope binds names: it inherits from nothing. -/
def Private (R : Realm) (h : Heap) (o : ObjectRef) : Prop :=
  ∃ obj, h.object o = .ok obj ∧ obj.prototype = none ∧ o ≠ R.objectPrototype

theorem Private.not_public (hp : h.Private R o) : ¬ h.Public R o := by
  rintro ⟨obj, ho, hpublic⟩
  obtain ⟨obj', ho', hnone, hne⟩ := hp
  cases ho.symm.trans ho'
  exact hpublic.elim (fun hsome => hsome hnone) hne

end Heap

/-- The value names no private object. -/
def Value.Public (R : Realm) (h : Heap) : Value → Prop
  | .object o => h.Public R o
  | _ => True

/-- The property shows no private object. -/
def Descriptor.Public (R : Realm) (h : Heap) (d : Descriptor) : Prop :=
  match d.content with
  | .data v _ => v.Public R h
  | .accessor g s => g.Public R h ∧ s.Public R h

/-- The kind of an object that programs make: a closure was made in a live scope and has no scope bound to
it. Native functions are not among them. The body of one is the host's, and may let two objects share a cell as no
program does; what holds beside such bodies is `Heap.Secure`. -/
def ObjectKind.Public (R : Realm) (h : Heap) : ObjectKind → Prop
  | .ordinary | .array => True
  | .native _ => False
  | .closure c => c.boundScope = none ∧ (∃ sc, h.scope c.scope = .ok sc) ∧
      ∀ v, c.receiver = some v → v.Public R h

/-- A scope that programs make: the outermost one binds names in the global object, any other in a private
one, and declarations go where names are bound. -/
structure Scope.Proper (R : Realm) (h : Heap) (sc : Scope) : Prop where
  writeTo : sc.writeTo = none
  receiver : sc.receiver.Public R h
  outermost : sc.parent = none → sc.object = R.globalObject
  inner : ∀ p, sc.parent = some p → (∃ outer, h.scope p = .ok outer) ∧ h.Private R sc.object

theorem Scope.Proper.target (hs : sc.Proper R h) : sc.target = sc.object := by
  unfold Scope.target
  rw [hs.writeTo]
  rfl

namespace Heap

/-- **What programs keep true of a heap.** -/
structure Tidy (R : Realm) (h : Heap) : Prop where
  valid : h.Valid
  numbered : h.Numbered
  cells : ∀ o key c, h.Refers o key c → ∃ d, h.cell c = .ok d
  keys : ∀ o key c, h.Refers o key c → h.Keyed key
  values : ∀ c d, h.cell c = .ok d → d.Public R h
  kinds : ∀ o obj, h.object o = .ok obj → obj.kind.Public R h
  scopes : ∀ s sc, h.scope s = .ok sc → sc.Proper R h
  ordinary : ∀ o obj, h.Private R o → h.object o = .ok obj → obj.kind = .ordinary
  data : ∀ o key c d, h.Private R o → h.Refers o key c → h.cell c = .ok d → d.isAccessor = false

/-! ### What is never changed -/

/-- The blocks that `P` holds of are still there: strings as they were, objects of the same kind that inherit
from the same object, scopes that bind names in the same object, and cells that hold the same sort of property. -/
structure Persists (P : Handle → Prop) (h h' : Heap) : Prop where
  texts : ∀ s t, P s.handle → h.text s = .ok t → h'.text s = .ok t
  objects : ∀ o obj, P o.handle → h.object o = .ok obj →
    ∃ obj', h'.object o = .ok obj' ∧ obj'.kind = obj.kind ∧ obj'.prototype = obj.prototype
  scopes : ∀ s sc, P s.handle → h.scope s = .ok sc →
    ∃ sc', h'.scope s = .ok sc' ∧ sc'.object = sc.object ∧ sc'.parent = sc.parent
  cells : ∀ c d, P c.handle → h.cell c = .ok d →
    ∃ d', h'.cell c = .ok d' ∧ d'.isAccessor = d.isAccessor ∧ d'.isWritable = d.isWritable

/-- All blocks are still there. -/
abbrev Stays (h h' : Heap) : Prop := Persists (fun _ => True) h h'

namespace Persists

theorem refl (P : Handle → Prop) (h : Heap) : Persists P h h where
  texts _ _ _ ht := ht
  objects _ obj _ ho := ⟨obj, ho, rfl, rfl⟩
  scopes _ sc _ hs := ⟨sc, hs, rfl, rfl⟩
  cells _ d _ hc := ⟨d, hc, rfl, rfl⟩

theorem trans {h₁ : Heap} (hp : Persists P h h₁) (hp' : Persists P h₁ h') : Persists P h h' where
  texts s t hs ht := hp'.texts s t hs (hp.texts s t hs ht)
  objects o obj hx ho := by
    obtain ⟨obj₁, ho₁, hkind₁, hproto₁⟩ := hp.objects o obj hx ho
    obtain ⟨obj₂, ho₂, hkind₂, hproto₂⟩ := hp'.objects o obj₁ hx ho₁
    exact ⟨obj₂, ho₂, hkind₂.trans hkind₁, hproto₂.trans hproto₁⟩
  scopes s sc hx hs := by
    obtain ⟨sc₁, hs₁, hobject₁, hparent₁⟩ := hp.scopes s sc hx hs
    obtain ⟨sc₂, hs₂, hobject₂, hparent₂⟩ := hp'.scopes s sc₁ hx hs₁
    exact ⟨sc₂, hs₂, hobject₂.trans hobject₁, hparent₂.trans hparent₁⟩
  cells c d hx hc := by
    obtain ⟨d₁, hc₁, haccessor₁, hwritable₁⟩ := hp.cells c d hx hc
    obtain ⟨d₂, hc₂, haccessor₂, hwritable₂⟩ := hp'.cells c d₁ hx hc₁
    exact ⟨d₂, hc₂, haccessor₂.trans haccessor₁, hwritable₂.trans hwritable₁⟩

theorem keyed (hp : Persists P h h') (hk : h.Keyed key) (hP : ∀ x ∈ key.handles, P x) : h'.Keyed key := by
  rintro s rfl
  obtain ⟨t, ht⟩ := hk s rfl
  exact ⟨t, hp.texts s t (hP _ (List.mem_singleton_self _)) ht⟩

theorem publicObject (hp : Persists P h h') (ho : h.Public R o) (hP : P o.handle) : h'.Public R o := by
  obtain ⟨obj, hobj, hpublic⟩ := ho
  obtain ⟨obj', hobj', -, hproto⟩ := hp.objects o obj hP hobj
  exact ⟨obj', hobj', hproto ▸ hpublic⟩

theorem privateObject (hp : Persists P h h') (ho : h.Private R o) (hP : P o.handle) : h'.Private R o := by
  obtain ⟨obj, hobj, hprivate⟩ := ho
  obtain ⟨obj', hobj', -, hproto⟩ := hp.objects o obj hP hobj
  exact ⟨obj', hobj', hproto ▸ hprivate⟩

theorem value (hp : Persists P h h') (hv : v.Public R h) (hP : ∀ x ∈ v.handles, P x) : v.Public R h' := by
  cases v with
  | object o => exact hp.publicObject hv (hP _ (List.mem_singleton_self _))
  | _ => trivial

theorem descriptor (hp : Persists P h h') (hd : d.Public R h) (hP : ∀ x ∈ d.handles, P x) : d.Public R h' := by
  unfold Descriptor.Public Descriptor.handles at *
  cases hcontent : d.content with
  | data v w => rw [hcontent] at hd hP; exact hp.value hd hP
  | accessor g s =>
    rw [hcontent] at hd hP
    exact ⟨hp.value hd.1 fun x hx => hP x (List.mem_append_left _ hx),
      hp.value hd.2 fun x hx => hP x (List.mem_append_right _ hx)⟩

theorem closure {cl : Closure} (hp : Persists P h h') (hk : (ObjectKind.closure cl).Public R h)
    (hP : ∀ x ∈ cl.handles, P x) : (ObjectKind.closure cl).Public R h' := by
  obtain ⟨hbound, ⟨sc, hs⟩, hreceiver⟩ := hk
  obtain ⟨sc', hs', -⟩ := hp.scopes _ sc (hP _ (List.mem_cons_self ..)) hs
  refine ⟨hbound, ⟨sc', hs'⟩, fun v hv => hp.value (hreceiver v hv) fun x hx => hP x ?_⟩
  unfold Closure.handles
  rw [hv]
  exact List.mem_cons_of_mem _ (List.mem_append_right _ hx)

theorem kind {k : ObjectKind} (hp : Persists P h h') (hk : k.Public R h)
    (hP : ∀ cl, k = .closure cl → ∀ x ∈ cl.handles, P x) : k.Public R h' := by
  cases k with
  | closure cl => exact hp.closure hk (hP cl rfl)
  | native n => exact hk
  | _ => trivial

theorem properScope (hp : Persists P h h') (hs : sc.Proper R h) (hP : ∀ x ∈ sc.handles, P x) :
    sc.Proper R h' where
  writeTo := hs.writeTo
  receiver := hp.value hs.receiver fun x hx => hP x (by
    unfold Scope.handles
    exact List.mem_cons_of_mem _ (List.mem_append_left _ (List.mem_append_right _ hx)))
  outermost := hs.outermost
  inner p hparent := by
    obtain ⟨⟨outer, houter⟩, hprivate⟩ := hs.inner p hparent
    have hparentP : P p.handle := hP _ (by
      unfold Scope.handles
      rw [hparent]
      exact List.mem_cons_of_mem _ (List.mem_append_left _ (List.mem_append_left _ (List.mem_singleton_self _))))
    obtain ⟨outer', houter', -⟩ := hp.scopes p outer hparentP houter
    exact ⟨⟨outer', houter'⟩, hp.privateObject hprivate (hP _ (List.mem_cons_self ..))⟩

end Persists

theorem Stays.block {x : Handle} {b : Block} (hp : Stays h h') (hb : h.block? x = some b) :
    ∃ b', h'.block? x = some b' := by
  cases b with
  | string t => exact ⟨_, text_eq_ok.mp (hp.texts ⟨x⟩ t trivial (text_eq_ok.mpr hb))⟩
  | object obj =>
    obtain ⟨obj', ho, -⟩ := hp.objects ⟨x⟩ obj trivial (object_eq_ok.mpr hb)
    exact ⟨_, object_eq_ok.mp ho⟩
  | scope sc =>
    obtain ⟨sc', hs, -⟩ := hp.scopes ⟨x⟩ sc trivial (scope_eq_ok.mpr hb)
    exact ⟨_, scope_eq_ok.mp hs⟩
  | cell d =>
    obtain ⟨d', hc, -⟩ := hp.cells ⟨x⟩ d trivial (cell_eq_ok.mpr hb)
    exact ⟨_, cell_eq_ok.mp hc⟩

theorem Persists.spells (hp : Persists P h h') (hs : h.Spells key name) (hP : ∀ x ∈ key.handles, P x) :
    h'.Spells key name :=
  hs.of_texts fun s t hkey ht => hp.texts s t (hP _ (by rw [hkey]; exact List.mem_singleton_self _)) ht

theorem Stays.spells (hp : Stays h h') (hs : h.Spells key name) : h'.Spells key name :=
  Persists.spells hp hs fun _ _ => trivial

/-! ### Where scopes bind names -/

/-- The scope is live, and binds names in the object. -/
def Binds (h : Heap) (s : ScopeRef) (o : ObjectRef) : Prop := ∃ sc, h.scope s = .ok sc ∧ sc.object = o

theorem Persists.binds (hp : Persists P h h') (hb : h.Binds s o) (hP : P s.handle) : h'.Binds s o := by
  obtain ⟨sc, hsc, ho⟩ := hb
  obtain ⟨sc', hsc', hobject, -⟩ := hp.scopes s sc hP hsc
  exact ⟨sc', hsc', hobject.trans ho⟩

theorem Stays.binds (hs : Stays h h') (hb : h.Binds s o) : h'.Binds s o := Persists.binds hs hb trivial

theorem Binds.unique {o' : ObjectRef} (hb : h.Binds s o) (hb' : h.Binds s o') : o = o' := by
  obtain ⟨sc, hsc, rfl⟩ := hb
  obtain ⟨sc', hsc', rfl⟩ := hb'
  cases hsc.symm.trans hsc'
  rfl

theorem Binds.object_eq (hb : h.Binds s o) (hs : h.scope s = .ok sc) : sc.object = o :=
  Binds.unique ⟨sc, hs, rfl⟩ hb

/-! ### Filling a slot -/

namespace Filled

variable {b : Block} {id : Handle}

theorem text (hf : h.Filled b id h') {s : StringRef} {t : Text} (ht : h.text s = .ok t) : h'.text s = .ok t :=
  text_eq_ok.mpr (hf.block?_of_some (text_eq_ok.mp ht))

theorem object (hf : h.Filled b id h') (ho : h.object o = .ok obj) : h'.object o = .ok obj :=
  object_eq_ok.mpr (hf.block?_of_some (object_eq_ok.mp ho))

theorem scope (hf : h.Filled b id h') (hs : h.scope s = .ok sc) : h'.scope s = .ok sc :=
  scope_eq_ok.mpr (hf.block?_of_some (scope_eq_ok.mp hs))

theorem cell (hf : h.Filled b id h') (hc : h.cell c = .ok d) : h'.cell c = .ok d :=
  cell_eq_ok.mpr (hf.block?_of_some (cell_eq_ok.mp hc))

theorem stays (hf : h.Filled b id h') : Stays h h' where
  texts _ _ _ ht := hf.text ht
  objects _ obj _ ho := ⟨obj, hf.object ho, rfl, rfl⟩
  scopes _ sc _ hs := ⟨sc, hf.scope hs, rfl, rfl⟩
  cells _ d _ hc := ⟨d, hf.cell hc, rfl, rfl⟩

/-- What resolves afterwards is new or was there. -/
theorem block_cases (hf : h.Filled b id h') {x : Handle} {b' : Block} (hx : h'.block? x = some b') :
    x = id ∧ b' = b ∨ h.block? x = some b' := by
  rw [hf.block?] at hx
  split at hx
  · next hid => exact .inl ⟨hid, (Option.some.inj hx).symm⟩
  · exact .inr hx

theorem refers (hf : h.Filled b id h') (hr : h.Refers o key c) : h'.Refers o key c := by
  obtain ⟨obj, ho, hfind⟩ := refers_iff.mp hr
  exact refers_iff.mpr ⟨obj, hf.object ho, hfind⟩

/-- A new block brings no property with it. -/
theorem refers_of (hf : h.Filled b id h') (hb : ∀ new, b = .object new → new.properties = .empty)
    (hr : h'.Refers o key c) : h.Refers o key c := by
  obtain ⟨obj, ho, hfind⟩ := refers_iff.mp hr
  exact refers_iff.mpr ⟨obj, hf.object_of_find? hb ho hfind, hfind⟩

end Filled

/-- A block that programs make. -/
def MadeBlock (R : Realm) (h : Heap) : Block → Prop
  | .string _ => True
  | .cell d => d.Public R h
  | .object obj => obj.properties = .empty ∧ obj.kind.Public R h ∧ (obj.prototype = none → obj.kind = .ordinary)
  | .scope sc => sc.Proper R h

theorem MadeBlock.properties {b : Block} (hb : h.MadeBlock R b) :
    ∀ new, b = .object new → new.properties = .empty := by
  rintro new rfl
  exact hb.1

/-- **Filling a slot** keeps a heap tidy. -/
theorem Tidy.filled {b : Block} {id : Handle} (ht : h.Tidy R) (hf : h.Filled b id h') (hv : h'.Valid)
    (hn : h'.Numbered) (hb : h.MadeBlock R b) : h'.Tidy R where
  valid := hv
  numbered := hn
  cells o key c hr := by
    obtain ⟨d, hc⟩ := ht.cells o key c (hf.refers_of hb.properties hr)
    exact ⟨d, hf.cell hc⟩
  keys o key c hr := hf.stays.keyed (ht.keys o key c (hf.refers_of hb.properties hr)) fun _ _ => trivial
  values c d hc := by
    rcases hf.block_cases (cell_eq_ok.mp hc) with ⟨-, rfl⟩ | hold
    · exact hf.stays.descriptor hb fun _ _ => trivial
    · exact hf.stays.descriptor (ht.values c d (cell_eq_ok.mpr hold)) fun _ _ => trivial
  kinds o obj ho := by
    rcases hf.block_cases (object_eq_ok.mp ho) with ⟨-, rfl⟩ | hold
    · exact hf.stays.kind hb.2.1 fun _ _ _ _ => trivial
    · exact hf.stays.kind (ht.kinds o obj (object_eq_ok.mpr hold)) fun _ _ _ _ => trivial
  scopes s sc hs := by
    rcases hf.block_cases (scope_eq_ok.mp hs) with ⟨-, rfl⟩ | hold
    · exact hf.stays.properScope hb fun _ _ => trivial
    · exact hf.stays.properScope (ht.scopes s sc (scope_eq_ok.mpr hold)) fun _ _ => trivial
  ordinary o obj hprivate ho := by
    obtain ⟨obj', ho', hnone, hne⟩ := hprivate
    cases ho.symm.trans ho'
    rcases hf.block_cases (object_eq_ok.mp ho) with ⟨-, rfl⟩ | hold
    · exact hb.2.2 hnone
    · exact ht.ordinary o obj ⟨obj, object_eq_ok.mpr hold, hnone, hne⟩ (object_eq_ok.mpr hold)
  data o key c d hprivate hr hc := by
    have hr₀ := hf.refers_of hb.properties hr
    obtain ⟨obj, ho, -⟩ := refers_iff.mp hr₀
    obtain ⟨d₀, hc₀⟩ := ht.cells o key c hr₀
    cases hc.symm.trans (hf.cell hc₀)
    obtain ⟨obj', ho', hnone, hne⟩ := hprivate
    cases ho'.symm.trans (hf.object ho)
    exact ht.data o key c d ⟨obj, ho, hnone, hne⟩ hr₀ hc₀

/-! ### Overwriting a block -/

/-- Blocks that agree in what is never changed. -/
def Resembles : Block → Block → Prop
  | .object obj, .object obj' => obj'.kind = obj.kind ∧ obj'.prototype = obj.prototype
  | .scope sc, .scope sc' => sc'.object = sc.object ∧ sc'.parent = sc.parent
  | .cell d, .cell d' => d'.isAccessor = d.isAccessor ∧ d'.isWritable = d.isWritable
  | _, _ => False

section Put

variable {id : Handle} {b b' : Block}

/-- What was there is there still, but for the block that is overwritten. -/
theorem block_put_of (b' : Block) (hid : h.block? id = some b) {x : Handle} {bx : Block} (hx : h.block? x = some bx) :
    x = id ∧ bx = b ∨ (h.put id b').block? x = some bx := by
  rw [block?_put (Option.isSome_of_eq_some hid)]
  by_cases hxid : x = id
  · subst hxid
    exact .inl ⟨rfl, Option.some.inj (hx.symm.trans hid)⟩
  · exact .inr (by rw [if_neg hxid, hx])

/-- What is there afterwards was there, or is what was put. -/
theorem block_put_cases (hid : h.block? id = some b) {x : Handle} {bx : Block}
    (hx : (h.put id b').block? x = some bx) : x = id ∧ bx = b' ∨ x ≠ id ∧ h.block? x = some bx := by
  rw [block?_put (Option.isSome_of_eq_some hid)] at hx
  by_cases hxid : x = id
  · rw [if_pos hxid] at hx
    exact .inl ⟨hxid, (Option.some.inj hx).symm⟩
  · rw [if_neg hxid] at hx
    exact .inr ⟨hxid, hx⟩

theorem block?_put_self (hid : h.block? id = some b) : (h.put id b').block? id = some b' := by
  rw [block?_put (Option.isSome_of_eq_some hid), if_pos rfl]

/-- **Overwriting a block** with one that resembles it loses nothing. -/
theorem stays_put (hid : h.block? id = some b) (hres : Resembles b b') : Stays h (h.put id b') where
  texts s t _ ht := by
    rcases block_put_of b' hid (text_eq_ok.mp ht) with ⟨-, rfl⟩ | hx
    · exact hres.elim
    · exact text_eq_ok.mpr hx
  objects o obj _ ho := by
    rcases block_put_of b' hid (object_eq_ok.mp ho) with ⟨hx, rfl⟩ | hx
    · cases b' with
      | object obj' => exact ⟨obj', object_eq_ok.mpr (by rw [hx]; exact block?_put_self hid), hres⟩
      | _ => exact hres.elim
    · exact ⟨obj, object_eq_ok.mpr hx, rfl, rfl⟩
  scopes s sc _ hs := by
    rcases block_put_of b' hid (scope_eq_ok.mp hs) with ⟨hx, rfl⟩ | hx
    · cases b' with
      | scope sc' => exact ⟨sc', scope_eq_ok.mpr (by rw [hx]; exact block?_put_self hid), hres⟩
      | _ => exact hres.elim
    · exact ⟨sc, scope_eq_ok.mpr hx, rfl, rfl⟩
  cells c d _ hc := by
    rcases block_put_of b' hid (cell_eq_ok.mp hc) with ⟨hx, rfl⟩ | hx
    · cases b' with
      | cell d' => exact ⟨d', cell_eq_ok.mpr (by rw [hx]; exact block?_put_self hid), hres⟩
      | _ => exact hres.elim
    · exact ⟨d, cell_eq_ok.mpr hx, rfl, rfl⟩

/-- What a program may put in the place of the block `b`: the properties of an object have live keys and cells,
in a private one they hold values, and nothing shows a private object. -/
def PutBlock (R : Realm) (h : Heap) (o : ObjectRef) : Block → Prop
  | .object obj => ∀ key c, obj.properties.find? key = some c →
      (∃ d, h.cell c = .ok d ∧ (h.Private R o → d.isAccessor = false)) ∧ h.Keyed key
  | .cell d => d.Public R h
  | .scope sc => sc.receiver.Public R h ∧ sc.writeTo = none
  | .string _ => False

/-- A property after a block was overwritten. -/
theorem refers_put_cases (hid : h.block? id = some b) (hres : Resembles b b') (hr : (h.put id b').Refers o key c) :
    o = ⟨id⟩ ∧ (∃ obj', b' = .object obj' ∧ obj'.properties.find? key = some c) ∨
      (o = ⟨id⟩ → ∀ obj', b' ≠ .object obj') ∧ h.Refers o key c := by
  obtain ⟨obj, ho, hfind⟩ := refers_iff.mp hr
  rcases block_put_cases hid (object_eq_ok.mp ho) with ⟨hx, rfl⟩ | ⟨hx, hold⟩
  · exact .inl ⟨by rw [← hx], obj, rfl, hfind⟩
  · exact .inr ⟨fun ho => absurd (by rw [ho]) hx, refers_iff.mpr ⟨obj, object_eq_ok.mpr hold, hfind⟩⟩

theorem Tidy.put (ht : h.Tidy R) (hid : h.block? id = some b) (hres : Resembles b b')
    (hb : h.PutBlock R ⟨id⟩ b') : (h.put id b').Tidy R := by
  have hstays := stays_put hid hres
  have hnot : ∀ t, b ≠ .string t ∧ b' ≠ .string t := by
    intro t
    constructor
    · rintro rfl
      exact hres
    · rintro rfl
      exact hb
  -- the privacy of objects is decided by what they inherit from
  have hprivate : ∀ o, (h.put id b').Private R o → h.Private R o := by
    rintro o ⟨obj, ho, hnone, hne⟩
    rcases block_put_cases hid (object_eq_ok.mp ho) with ⟨hx, rfl⟩ | ⟨-, hold⟩
    · cases b with
      | object obj₀ => exact ⟨obj₀, object_eq_ok.mpr (hx ▸ hid), hres.2 ▸ hnone, hne⟩
      | _ => exact hres.elim
    · exact ⟨obj, object_eq_ok.mpr hold, hnone, hne⟩
  have hentry : ∀ o key c, (h.put id b').Refers o key c →
      (∃ d, h.cell c = .ok d ∧ (h.Private R o → d.isAccessor = false)) ∧ h.Keyed key := by
    intro o key c hr
    rcases refers_put_cases hid hres hr with ⟨rfl, obj', rfl, hfind⟩ | ⟨-, hold⟩
    · exact hb key c hfind
    · obtain ⟨d, hc⟩ := ht.cells o key c hold
      exact ⟨⟨d, hc, fun hp => ht.data o key c d hp hold hc⟩, ht.keys o key c hold⟩
  refine ⟨ht.valid.put hid (fun t => (hnot t).1) fun t => (hnot t).2, ht.numbered.put _ _, ?_, ?_, ?_, ?_, ?_, ?_, ?_⟩
  · intro o key c hr
    obtain ⟨⟨d, hc, -⟩, -⟩ := hentry o key c hr
    obtain ⟨d', hc', -⟩ := hstays.cells c d trivial hc
    exact ⟨d', hc'⟩
  · exact fun o key c hr => hstays.keyed (hentry o key c hr).2 fun _ _ => trivial
  · intro c d hc
    rcases block_put_cases hid (cell_eq_ok.mp hc) with ⟨-, rfl⟩ | ⟨-, hold⟩
    · exact hstays.descriptor hb fun _ _ => trivial
    · exact hstays.descriptor (ht.values c d (cell_eq_ok.mpr hold)) fun _ _ => trivial
  · intro o obj ho
    rcases block_put_cases hid (object_eq_ok.mp ho) with ⟨hx, rfl⟩ | ⟨-, hold⟩
    · cases b with
      | object obj₀ =>
        rw [hres.1]
        exact hstays.kind (ht.kinds ⟨id⟩ obj₀ (object_eq_ok.mpr hid)) fun _ _ _ _ => trivial
      | _ => exact hres.elim
    · exact hstays.kind (ht.kinds o obj (object_eq_ok.mpr hold)) fun _ _ _ _ => trivial
  · intro s sc hs
    rcases block_put_cases hid (scope_eq_ok.mp hs) with ⟨-, rfl⟩ | ⟨-, hold⟩
    · cases b with
      | scope sc₀ =>
        have hold := ht.scopes ⟨id⟩ sc₀ (scope_eq_ok.mpr hid)
        refine hstays.properScope ⟨hb.2, hb.1, fun hp => ?_, fun p hp => ?_⟩ fun _ _ => trivial
        · rw [hres.1]
          exact hold.outermost (hres.2 ▸ hp)
        · rw [hres.1]
          exact hold.inner p (hres.2 ▸ hp)
      | _ => exact hres.elim
    · exact hstays.properScope (ht.scopes s sc (scope_eq_ok.mpr hold)) fun _ _ => trivial
  · intro o obj hp ho
    rcases block_put_cases hid (object_eq_ok.mp ho) with ⟨hx, rfl⟩ | ⟨-, hold⟩
    · cases b with
      | object obj₀ =>
        rw [hres.1]
        exact ht.ordinary o obj₀ (hprivate o hp) (object_eq_ok.mpr (hx ▸ hid))
      | _ => exact hres.elim
    · exact ht.ordinary o obj (hprivate o hp) (object_eq_ok.mpr hold)
  · intro o key c d hp hr hc
    obtain ⟨⟨d₀, hc₀, hdata⟩, -⟩ := hentry o key c hr
    obtain ⟨d', hc', hsame, -⟩ := hstays.cells c d₀ trivial hc₀
    cases hc.symm.trans hc'
    rw [hsame]
    exact hdata (hprivate o hp)

end Put

end Heap

end ScriptCore
