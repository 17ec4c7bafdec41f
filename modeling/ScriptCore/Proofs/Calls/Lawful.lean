import ScriptCore.Proofs.Calls.Acts

/-! # Which cells are shared

A world is `Lawful` when its heap is tidy, its calls are what they are on record for, and two properties share a
cell only if the cell is that of an argument of a call on record. Each act keeps worlds lawful: what binds a key
to a cell takes a cell to which nothing else is bound, but for the binding of a parameter, which needs the call
on record.

* `World.Orderly`, `World.Lawful`: **what holds of a heap and the calls on record.**
* `Act.orderly`, `Act.lawful`, `Acts.lawful`: every act keeps it.
* `Orderly.pair`: what is known of two properties that share a cell. -/

namespace ScriptCore

variable {h h' : Heap} {R : Realm} {S : Setting} {w w' : World} {label : List Handle} {own : Handle → Prop}
  {p : Prop} {o : ObjectRef}
  {obj : Object} {key : PropertyKey} {c : CellRef} {d : Descriptor} {k k' : Call} {i : Nat} {name : String}

open Heap (Stays refers_iff object_eq_ok cell_eq_ok scope_eq_ok)

/-! ### The realm -/

/-- The names that are looked up often. -/
def CommonNames.all (n : CommonNames) : List PropertyKey :=
  [n.length, n.prototype, n.name, n.message, n.callee, n.arguments, n.valueOf, n.toString]

/-- The realm is on the heap: its objects are live, the global one is a plain object, and its scope is the
outermost. -/
structure Realm.Lives (R : Realm) (h : Heap) : Prop where
  global : h.Public R R.globalObject
  ordinary : ∀ obj, h.object R.globalObject = .ok obj → obj.kind = .ordinary
  scope : ∃ sc, h.scope R.globalScope = .ok sc ∧ sc.parent = none
  names : ∀ key ∈ R.names.all, h.Keyed key
  strings : ∀ key ∈ R.names.all, ∀ i, key ≠ .index i
  prototypes : ∀ p ∈ [R.objectPrototype, R.functionPrototype, R.arrayPrototype, R.errorPrototype],
    ∃ obj, h.object p = .ok obj

theorem Realm.Lives.persists {P : Handle → Prop} (hr : R.Lives h) (hp : Heap.Persists P h h')
    (hP : ∀ x ∈ R.handles, P x) : R.Lives h' where
  global := hp.publicObject hr.global (hP _ (by simp [Realm.handles]))
  ordinary obj ho := by
    obtain ⟨obj₀, ho₀, -⟩ := hr.global
    obtain ⟨obj', ho', hkind, -⟩ := hp.objects _ obj₀ (hP _ (by simp [Realm.handles])) ho₀
    cases ho.symm.trans ho'
    exact hkind.trans (hr.ordinary obj₀ ho₀)
  scope := by
    obtain ⟨sc, hsc, hparent⟩ := hr.scope
    obtain ⟨sc', hsc', -, hparent'⟩ := hp.scopes _ sc (hP _ (by simp [Realm.handles])) hsc
    exact ⟨sc', hsc', hparent'.trans hparent⟩
  names key hkey := hp.keyed (hr.names key hkey) fun x hx => hP x (List.mem_cons_of_mem _
    (List.mem_append_right _ (List.mem_flatMap_of_mem hkey hx)))
  strings := hr.strings
  prototypes p hmem := by
    obtain ⟨obj, ho⟩ := hr.prototypes p hmem
    obtain ⟨obj', ho', -⟩ := hp.objects p obj (hP _ (by
      simp only [List.mem_cons, List.not_mem_nil, or_false] at hmem
      rcases hmem with rfl | rfl | rfl | rfl <;> simp [Realm.handles])) ho
    exact ⟨obj', ho'⟩

theorem Realm.Lives.stays (hr : R.Lives h) (hs : Stays h h') : R.Lives h' := hr.persists hs fun _ _ => trivial

/-! ### The law -/

/-- **What holds of a heap and the calls on record.** -/
structure World.Orderly (S : Setting) (w : World) : Prop where
  heap : w.heap.Tidy S.realm
  calls : ∀ k ∈ w.calls, k.Proper S.realm w.heap
  bindings : ∀ k ∈ w.calls, ∀ k' ∈ w.calls, k.bindings = k'.bindings → k = k'
  arguments : ∀ k ∈ w.calls, ∀ k' ∈ w.calls, ∀ a, k.arguments = some a → k'.arguments = some a → k = k'
  cells : ∀ k ∈ w.calls, ∀ k' ∈ w.calls, ∀ i j c, k.HasCell i c → k'.HasCell j c → k = k' ∧ i = j
  shared : ∀ o key o' key' c, w.heap.Refers o key c → w.heap.Refers o' key' c →
    (o = o' ∧ key = key') ∨ ∃ k ∈ w.calls, ∃ i, k.HasCell i c

/-- The same once the realm is on the heap. -/
structure World.Lawful (S : Setting) (w : World) : Prop extends World.Orderly S w where
  realm : S.realm.Lives w.heap

namespace World.Orderly

theorem ordinary (hw : w.Orderly S) (hp : w.heap.Private S.realm o) :
    ∀ obj, w.heap.object o = .ok obj → obj.kind = .ordinary :=
  fun obj ho => hw.heap.ordinary o obj hp ho

/-- **Two properties that share a cell** are the binding of a parameter and the argument at its position, in one
sloppy call. -/
theorem pair (hw : w.Orderly S) {o' : ObjectRef} {key' : PropertyKey} (hr : w.heap.Refers o key c)
    (hr' : w.heap.Refers o' key' c) (hne : ¬ (o = o' ∧ key = key')) :
    ∃ k ∈ w.calls, ∃ i, k.HasCell i c ∧ k.strict = false ∧
      (o = k.bindings ∧ k.Names w.heap i key ∧ k.arguments = some o' ∧ key' = .index i.toUInt32 ∨
        o' = k.bindings ∧ k.Names w.heap i key' ∧ k.arguments = some o ∧ key = .index i.toUInt32) := by
  obtain ⟨k, hk, i, hc⟩ := (hw.shared _ _ _ _ _ hr hr').resolve_left hne
  obtain ⟨hsloppy, hkey⟩ := (hw.calls k hk).held i c o key hc hr
  obtain ⟨-, hkey'⟩ := (hw.calls k hk).held i c o' key' hc hr'
  refine ⟨k, hk, i, hc, hsloppy, ?_⟩
  rcases hkey with ⟨ha, rfl⟩ | ⟨rfl, hnames⟩
  · rcases hkey' with ⟨ha', rfl⟩ | ⟨rfl, hnames'⟩
    · exact absurd ⟨Option.some.inj (ha.symm.trans ha'), rfl⟩ hne
    · exact .inr ⟨rfl, hnames', ha, rfl⟩
  · rcases hkey' with ⟨ha', rfl⟩ | ⟨rfl, hnames'⟩
    · exact .inl ⟨rfl, hnames, ha', rfl⟩
    · -- one parameter has one name, and the name is one key
      obtain ⟨name, default, hparam, hspells⟩ := hnames
      obtain ⟨name', default', hparam', hspells'⟩ := hnames'
      cases hparam.symm.trans hparam'
      exact absurd ⟨rfl, hspells.key_eq hw.heap.valid.canonical hspells'⟩ hne

end World.Orderly

/-- The cells of the global object are its own. -/
theorem World.Lawful.global_unshared (hw : w.Lawful S) {key' : PropertyKey}
    (hr : w.heap.Refers S.realm.globalObject key c) (hr' : w.heap.Refers o key' c) :
    o = S.realm.globalObject ∧ key' = key := by
  rcases hw.shared _ _ _ _ _ hr hr' with ⟨ho, hkey⟩ | ⟨k, hk, i, hc⟩
  · exact ⟨ho.symm, hkey.symm⟩
  · obtain ⟨-, ⟨ha, -⟩ | ⟨hb, -⟩⟩ := (hw.calls k hk).held i c _ _ hc hr
    · exact absurd rfl ((hw.calls k hk).arguments _ ha).1
    · exact absurd hw.realm.global (hb ▸ (hw.calls k hk).bindings).not_public

/-! ### Calls on record stay what they are -/

theorem Call.Names.stays (hn : k.Names h i key) (hs : Stays h h') (hb : k.Becomes p k') :
    k'.Names h' i key := by
  obtain ⟨name, default, hparam, hspells⟩ := hn
  exact ⟨name, default, hb.function ▸ hparam, hs.spells hspells⟩

theorem Call.HasBound.stays (hbound : k.HasBound h i name) (hs : Stays h h') (hb : k.Becomes p k')
    (hrefers : ∀ key c, h.Refers k.bindings key c → h'.Refers k.bindings key c) : k'.HasBound h' i name := by
  obtain ⟨c, key, hc, hspells, hr⟩ := hbound
  exact ⟨c, key, hb.hasCell.mpr hc, hs.spells hspells, hb.bindings ▸ hrefers key c hr⟩

/-- **What has to be shown of an act** for a call on record. -/
theorem Call.Proper.keep (hk : k.Proper R h) (hb : k.Becomes p k') (hs : Stays h h')
    (hheld : ∀ i c o key, k.HasCell i c → h'.Refers o key c →
      h.Refers o key c ∨ k.strict = false ∧ o = k.bindings ∧ k.Names h i key)
    (hslots : ∀ a i c, k.arguments = some a → .index i.toUInt32 ∉ k'.lost → i < k.cells.length →
      h.Refers a (.index i.toUInt32) c → h'.Refers a (.index i.toUInt32) c)
    (hrefers : k.started = true → ∀ key c, h.Refers k.bindings key c → h'.Refers k.bindings key c)
    (hstart : k'.started = true → k.started = false → k.strict = false → ∀ i name, k.function.Binds i name →
      k.HasBound h' i name) : k'.Proper R h' where
  bindings := hb.bindings ▸ hs.privateObject hk.bindings trivial
  arguments a ha := by
    obtain ⟨hglobal, hpublic, obj, ho, hkind⟩ := hk.arguments a (hb.arguments ▸ ha)
    obtain ⟨obj', ho', hkind', -⟩ := hs.objects a obj trivial ho
    exact ⟨hglobal, hs.publicObject hpublic trivial, obj', ho', hkind'.trans hkind⟩
  length := hb.cells ▸ hk.length
  cell i c hc := by
    obtain ⟨d, hd, hwritable⟩ := hk.cell i c (hb.hasCell.mp hc)
    obtain ⟨d', hd', -, hsame⟩ := hs.cells c d trivial hd
    exact ⟨d', hd', hsame.trans hwritable⟩
  held i c o key hc hr := by
    rw [hb.strict, hb.arguments, hb.bindings]
    rcases hheld i c o key (hb.hasCell.mp hc) hr with hold | ⟨hsloppy, ho, hnames⟩
    · obtain ⟨hsloppy, hplace⟩ := hk.held i c o key (hb.hasCell.mp hc) hold
      exact ⟨hsloppy, hplace.imp_right fun hplace => ⟨hplace.1, hplace.2.stays hs hb⟩⟩
    · exact ⟨hsloppy, .inr ⟨ho, hnames.stays hs hb⟩⟩
  slots hsloppy a i ha hi hlost := by
    have hlost₀ : PropertyKey.index i.toUInt32 ∉ k.lost := fun hmem => hlost (hb.lost _ hmem)
    obtain ⟨c, hc, hr⟩ := hk.slots (hb.strict ▸ hsloppy) a i (hb.arguments ▸ ha) (hb.cells ▸ hi) hlost₀
    exact ⟨c, hb.hasCell.mpr hc, hslots a i c (hb.arguments ▸ ha) hlost (hb.cells ▸ hi) hr⟩
  bound hstarted hsloppy i name hbinds := by
    rw [hb.strict] at hsloppy
    rw [hb.function] at hbinds
    cases hold : k.started with
    | true => exact (hk.bound hold hsloppy i name hbinds).stays hs hb (hrefers hold)
    | false =>
      have hnew := hstart hstarted hold hsloppy i name hbinds
      exact hnew.stays (.refl _ _) hb fun _ _ hr => hr

/-- An act that leaves all properties as they are. -/
theorem Call.Proper.unmoved (hk : k.Proper R h) (hs : Stays h h')
    (hrefers : ∀ o key c, h'.Refers o key c ↔ h.Refers o key c) : k.Proper R h' :=
  hk.keep (.refl False k) hs (fun _ _ _ _ _ hr => .inl ((hrefers _ _ _).mp hr))
    (fun _ _ _ _ _ _ hr => (hrefers _ _ _).mpr hr) (fun _ _ _ hr => (hrefers _ _ _).mpr hr)
    fun hnew hold => by rw [hold] at hnew; cases hnew

/-! ### Each act -/

namespace World.Orderly

/-- The calls that a function makes of those on record, when it changes neither their objects nor their
cells. -/
theorem mapCalls {f : Call → Call} (hw : w.Orderly S) (touched : Call → Prop)
    (hf : ∀ k : Call, k.Becomes (touched k) (f k)) (htidy : h'.Tidy S.realm)
    (hcalls : ∀ k ∈ w.calls, (f k).Proper S.realm h')
    (hshared : ∀ o key o' key' c, h'.Refers o key c → h'.Refers o' key' c →
      (o = o' ∧ key = key') ∨ ∃ k ∈ w.calls, ∃ i, k.HasCell i c) :
    Orderly S ⟨h', w.calls.map f⟩ where
  heap := htidy
  calls k hk := by
    obtain ⟨k₀, hk₀, rfl⟩ := List.mem_map.mp hk
    exact hcalls k₀ hk₀
  bindings k hk k' hk' heq := by
    obtain ⟨k₀, hk₀, rfl⟩ := List.mem_map.mp hk
    obtain ⟨k₁, hk₁, rfl⟩ := List.mem_map.mp hk'
    rw [(hf k₀).bindings, (hf k₁).bindings] at heq
    rw [hw.bindings k₀ hk₀ k₁ hk₁ heq]
  arguments k hk k' hk' a ha ha' := by
    obtain ⟨k₀, hk₀, rfl⟩ := List.mem_map.mp hk
    obtain ⟨k₁, hk₁, rfl⟩ := List.mem_map.mp hk'
    rw [(hf k₀).arguments] at ha
    rw [(hf k₁).arguments] at ha'
    rw [hw.arguments k₀ hk₀ k₁ hk₁ a ha ha']
  cells k hk k' hk' i j c hc hc' := by
    obtain ⟨k₀, hk₀, rfl⟩ := List.mem_map.mp hk
    obtain ⟨k₁, hk₁, rfl⟩ := List.mem_map.mp hk'
    obtain ⟨hsame, hij⟩ := hw.cells k₀ hk₀ k₁ hk₁ i j c ((hf k₀).hasCell.mp hc) ((hf k₁).hasCell.mp hc')
    exact ⟨by rw [hsame], hij⟩
  shared o key o' key' c hr hr' := by
    refine (hshared o key o' key' c hr hr').imp_right ?_
    rintro ⟨k, hk, i, hc⟩
    exact ⟨f k, List.mem_map_of_mem hk, i, (hf k).hasCell.mpr hc⟩

/-- The calls on record stay as they are. -/
theorem withHeap (hw : w.Orderly S) (htidy : h'.Tidy S.realm)
    (hcalls : ∀ k ∈ w.calls, k.Proper S.realm h')
    (hshared : ∀ o key o' key' c, h'.Refers o key c → h'.Refers o' key' c →
      (o = o' ∧ key = key') ∨ ∃ k ∈ w.calls, ∃ i, k.HasCell i c) : Orderly S { w with heap := h' } := by
  have hmap := hw.mapCalls (f := id) (fun _ => False) (fun k => .refl _ k) htidy hcalls hshared
  rwa [List.map_id] at hmap

/-- All properties stay as they are. -/
theorem unmoved (hw : w.Orderly S) (htidy : h'.Tidy S.realm) (hstays : Stays w.heap h')
    (hrefers : ∀ o key c, h'.Refers o key c ↔ w.heap.Refers o key c) : Orderly S { w with heap := h' } :=
  hw.withHeap htidy (fun k hk => (hw.calls k hk).unmoved hstays hrefers) fun o key o' key' c hr hr' =>
    hw.shared o key o' key' c ((hrefers _ _ _).mp hr) ((hrefers _ _ _).mp hr')

/-- **Binding a key to a cell of its own.** -/
theorem bind (hw : w.Orderly S) (ho : w.heap.object o = .ok obj) (hc : w.heap.cell c = .ok d)
    (hd : w.heap.Private S.realm o → d.isAccessor = false) (hfree : w.Free c) (hkey : w.heap.Keyed key)
    (hslots : ∀ k ∈ w.calls, k.arguments = some o → obj.properties.find? key = none)
    (hbound : ∀ k ∈ w.calls, k.bindings = o → k.started = true → obj.properties.find? key = none) :
    Orderly S (w.putObject o (obj.bind key c)) := by
  have hstays : Stays w.heap (w.putObject o (obj.bind key c)).heap := World.stays_putObject ho rfl rfl
  have hcases : ∀ {o' key' c'}, (w.putObject o (obj.bind key c)).heap.Refers o' key' c' →
      (o' = o ∧ key' = key ∧ c' = c) ∨ w.heap.Refers o' key' c' := by
    intro o' key' c' hr
    rw [show (w.putObject o (obj.bind key c)).heap = _ from rfl, World.putObject, Heap.refers_bind ho] at hr
    split at hr
    · next hboth => exact .inl ⟨hboth.1, hboth.2, hr⟩
    · exact .inr hr
  -- what was bound under the key before is not missed
  have hkept : ∀ {o' key' c'}, (o' = o → obj.properties.find? key = none) → w.heap.Refers o' key' c' →
      (w.putObject o (obj.bind key c)).heap.Refers o' key' c' := by
    intro o' key' c' hnone hr
    refine hr.bind ho ?_
    rintro rfl rfl
    rw [hr.find? ho] at hnone
    cases hnone rfl
  refine hw.withHeap ?_ (fun k hk => ?_) fun o₁ key₁ o₂ key₂ c' hr hr' => ?_
  · refine hw.heap.put (object_eq_ok.mp ho) ⟨rfl, rfl⟩ fun key' c' hfind => ?_
    rw [Object.bind, PropertyMap.find?_insert] at hfind
    split at hfind
    · next hkk => cases hfind; exact ⟨⟨d, hc, hd⟩, hkk ▸ hkey⟩
    · have hr : w.heap.Refers o key' c' := refers_iff.mpr ⟨obj, ho, hfind⟩
      obtain ⟨d', hc'⟩ := hw.heap.cells o key' c' hr
      exact ⟨⟨d', hc', fun hp => hw.heap.data o key' c' d' hp hr hc'⟩, hw.heap.keys o key' c' hr⟩
  · refine (hw.calls k hk).keep (.refl False k) hstays (fun i c' o' key' hc' hr => ?_)
      (fun a i c' ha _ _ hr => hkept (fun hao => hslots k hk (hao ▸ ha)) hr)
      (fun hstarted key' c' hr => hkept (fun hbo => hbound k hk hbo hstarted) hr)
      fun hnew hold => by rw [hold] at hnew; cases hnew
    rcases hcases hr with ⟨-, -, rfl⟩ | hold
    · exact absurd hc' (hfree.2 k hk i)
    · exact .inl hold
  · rcases hcases hr with ⟨rfl, rfl, rfl⟩ | hold
    · rcases hcases hr' with ⟨rfl, rfl, -⟩ | hold'
      · exact .inl ⟨rfl, rfl⟩
      · exact absurd hold' (hfree.1 _ _)
    · rcases hcases hr' with ⟨-, -, rfl⟩ | hold'
      · exact absurd hold (hfree.1 _ _)
      · exact hw.shared _ _ _ _ _ hold hold'

/-- **Binding a parameter to the cell of its argument.** -/
theorem bindParameter (hw : w.Orderly S) (hk : k ∈ w.calls) (hopen : k.started = false)
    (hsloppy : k.strict = false) (hc : k.HasCell i c) {default : Option Expr}
    (hparam : k.function.params[i]? = some (.simple name default)) (hkey : w.heap.Spells key name)
    (ho : w.heap.object k.bindings = .ok obj) : Orderly S (w.putObject k.bindings (obj.bind key c)) := by
  have hstays : Stays w.heap (w.putObject k.bindings (obj.bind key c)).heap := World.stays_putObject ho rfl rfl
  obtain ⟨d, hd, hwritable⟩ := (hw.calls k hk).cell i c hc
  have hcases : ∀ {o' key' c'}, (w.putObject k.bindings (obj.bind key c)).heap.Refers o' key' c' →
      (o' = k.bindings ∧ key' = key ∧ c' = c) ∨ w.heap.Refers o' key' c' := by
    intro o' key' c' hr
    rw [show (w.putObject k.bindings (obj.bind key c)).heap = _ from rfl, World.putObject,
      Heap.refers_bind ho] at hr
    split at hr
    · next hboth => exact .inl ⟨hboth.1, hboth.2, hr⟩
    · exact .inr hr
  refine hw.withHeap ?_ (fun k' hk' => ?_) fun o₁ key₁ o₂ key₂ c' hr hr' => ?_
  · refine hw.heap.put (object_eq_ok.mp ho) ⟨rfl, rfl⟩ fun key' c' hfind => ?_
    rw [Object.bind, PropertyMap.find?_insert] at hfind
    split at hfind
    · next hkk => cases hfind; exact ⟨⟨d, hd, fun _ => Descriptor.isAccessor_of_isWritable hwritable⟩, hkk ▸ hkey.keyed⟩
    · have hr : w.heap.Refers k.bindings key' c' := refers_iff.mpr ⟨obj, ho, hfind⟩
      obtain ⟨d', hc'⟩ := hw.heap.cells _ key' c' hr
      exact ⟨⟨d', hc', fun hp => hw.heap.data _ key' c' d' hp hr hc'⟩, hw.heap.keys _ key' c' hr⟩
  · refine (hw.calls k' hk').keep (.refl False k') hstays (fun j c' o' key' hc' hr => ?_)
      (fun a j c' ha _ _ hr => hr.bind ho ?_) (fun hstarted key' c' hr => hr.bind ho ?_)
      fun hnew hold => by rw [hold] at hnew; cases hnew
    · rcases hcases hr with ⟨rfl, rfl, rfl⟩ | hold
      · obtain ⟨rfl, rfl⟩ := hw.cells k hk k' hk' i j _ hc hc'
        exact .inr ⟨hsloppy, rfl, name, default, hparam, hkey⟩
      · exact .inl hold
    · -- the arguments of a call are a public object
      rintro rfl
      exact absurd ((hw.calls k' hk').arguments _ ha).2.1 (hw.calls k hk).bindings.not_public
    · intro heq
      rw [hw.bindings k' hk' k hk heq, hopen] at hstarted
      cases hstarted
  · rcases hcases hr with ⟨rfl, rfl, rfl⟩ | hold
    · exact .inr ⟨k, hk, i, hc⟩
    · rcases hcases hr' with ⟨-, -, rfl⟩ | hold'
      · exact .inr ⟨k, hk, i, hc⟩
      · exact hw.shared _ _ _ _ _ hold hold'

/-- **Taking properties from an object.** -/
theorem narrow (hw : w.Orderly S) (obj' : Object) {f : Call → Call} (hf : ∀ k : Call, k.Becomes False (f k))
    (ho : w.heap.object o = .ok obj) (hkind : obj'.kind = obj.kind) (hprototype : obj'.prototype = obj.prototype)
    (hfind : ∀ key c, obj'.properties.find? key = some c → obj.properties.find? key = some c)
    (hslots : ∀ k ∈ w.calls, k.arguments = some o → ∀ i c, i < k.cells.length →
      .index i.toUInt32 ∉ (f k).lost → obj.properties.find? (.index i.toUInt32) = some c →
      obj'.properties.find? (.index i.toUInt32) = some c)
    (hbindings : ∀ k ∈ w.calls, k.bindings ≠ o) :
    Orderly S { w.putObject o obj' with calls := w.calls.map f } := by
  have hstays : Stays w.heap (w.putObject o obj').heap := World.stays_putObject ho hkind hprototype
  have hback : ∀ {o' key' c'}, (w.putObject o obj').heap.Refers o' key' c' → w.heap.Refers o' key' c' := by
    intro o' key' c' hr
    rw [show (w.putObject o obj').heap = _ from rfl, World.putObject, Heap.refers_putObject ho] at hr
    split at hr
    · next hoo => exact refers_iff.mpr ⟨obj, hoo ▸ ho, hfind _ _ hr⟩
    · exact hr
  refine hw.mapCalls (fun _ => False) hf ?_ (fun k hk => ?_) fun o₁ key₁ o₂ key₂ c' hr hr' =>
    hw.shared _ _ _ _ _ (hback hr) (hback hr')
  · refine hw.heap.put (object_eq_ok.mp ho) ⟨hkind, hprototype⟩ fun key' c' hnew => ?_
    have hr : w.heap.Refers o key' c' := refers_iff.mpr ⟨obj, ho, hfind _ _ hnew⟩
    obtain ⟨d', hc'⟩ := hw.heap.cells o key' c' hr
    exact ⟨⟨d', hc', fun hp => hw.heap.data o key' c' d' hp hr hc'⟩, hw.heap.keys o key' c' hr⟩
  · refine (hw.calls k hk).keep (hf k) hstays (fun i c' o' key' hc' hr => .inl (hback hr))
      (fun a i c' ha hlost hi hr => (Heap.refers_putObject ho).mpr ?_)
      (fun _ key' c' hr => (Heap.refers_putObject ho).mpr ?_) fun hnew hold => ?_
    · split
      · next hao =>
        subst hao
        exact hslots k hk ha i c' hi hlost (hr.find? ho)
      · exact hr
    · rw [if_neg (hbindings k hk)]
      exact hr
    · rw [(hf k).waiting not_false, hold] at hnew
      cases hnew

end World.Orderly

/-- **Every act keeps a world orderly.** -/
theorem Act.orderly (ha : Act S w label w') (hw : w.Orderly S) : w'.Orderly S := by
  cases ha with
  | filled hf hv hn hb =>
    exact hw.unmoved (hw.heap.filled hf hv hn hb) hf.stays fun o key c =>
      ⟨hf.refers_of hb.properties, hf.refers⟩
  | installed ho hc hd hfree hkey hnew =>
    refine hw.bind ho hc (fun _ => hd) hfree hkey (fun k hk ha => ?_) fun k hk hb _ => ?_
    · exact hnew.resolve_right fun hunguarded => hunguarded.arguments k hk ha
    · exact hnew.resolve_right fun hunguarded =>
        absurd hunguarded.shown (hb ▸ (hw.calls k hk).bindings).not_public
  | declared ho hprivate hc hd hfree hkey hopen =>
    refine hw.bind ho hc (fun _ => hd) hfree hkey (fun k hk ha => ?_) fun k hk hb hstarted => ?_
    · exact absurd ((hw.calls k hk).arguments _ ha).2.1 hprivate.not_public
    · rw [hopen k hk hb] at hstarted
      cases hstarted
  | bound hk hopen hsloppy hc hparam hkey ho => exact hw.bindParameter hk hopen hsloppy hc hparam hkey ho
  | @written c d u v writable hc hd hv =>
    exact hw.unmoved
      (hw.heap.put (cell_eq_ok.mp hc) (Descriptor.alike_write hd v) hv)
      (Heap.stays_write hc hd _) fun _ _ _ => Heap.refers_putCell hc
  | @deleted o obj key c d ho hshown hfind hc hd =>
    refine hw.narrow { obj with properties := obj.properties.erase key } (fun k => k.becomes_lose _ _) ho rfl rfl (fun key' c' hnew => ?_)
      (fun k hk ha i c' _ hlost hold => ?_) fun k hk hb => (hb ▸ (hw.calls k hk).bindings).not_public hshown
    · rw [PropertyMap.find?_erase] at hnew
      split at hnew
      · cases hnew
      · exact hnew
    · rw [PropertyMap.find?_erase, if_neg]
      · exact hold
      · -- the key that was deleted is lost
        rintro rfl
        unfold Call.lose at hlost
        rw [if_pos ha] at hlost
        exact hlost (List.mem_cons_self ..)
  | @cut o obj p ho hkind =>
    have hnarrow := hw.narrow { obj with properties := obj.properties.filter p } (f := id) (fun k => .refl _ k) ho
      rfl rfl (fun key' c' hnew => ?_)
      (fun k hk ha => ?_) fun k hk hb => ?_
    · rwa [List.map_id] at hnarrow
    · rw [PropertyMap.find?_filter] at hnew
      split at hnew
      · exact hnew
      · cases hnew
    · obtain ⟨-, -, obj', ho', hordinary⟩ := (hw.calls k hk).arguments o ha
      cases ho.symm.trans ho'
      rw [hkind] at hordinary
      cases hordinary
    · subst hb
      rw [hw.ordinary (hw.calls k hk).bindings obj ho] at hkind
      cases hkind
  | adjusted strict hs hv =>
    exact hw.unmoved (hw.heap.put (scope_eq_ok.mp hs) ⟨rfl, rfl⟩ ⟨hv, (hw.heap.scopes _ _ hs).writeTo⟩)
      (Heap.stays_put (scope_eq_ok.mp hs) ⟨rfl, rfl⟩) fun _ _ _ => Heap.refers_putScope hs
  | @entered k hk hopens hnew hcells hopen =>
    refine ⟨hw.heap, fun k' hk' => ?_, fun k₁ h₁ k₂ h₂ heq => ?_, fun k₁ h₁ k₂ h₂ a ha ha' => ?_,
      fun k₁ h₁ k₂ h₂ i j c hc hc' => ?_, fun o key o' key' c hr hr' => ?_⟩
    · rcases List.mem_cons.mp hk' with rfl | hk'
      · exact hk
      · exact hw.calls k' hk'
    · rcases List.mem_cons.mp h₁ with rfl | hold₁ <;> rcases List.mem_cons.mp h₂ with rfl | hold₂
      · rfl
      · exact absurd heq.symm (hnew k₂ hold₂).1
      · exact absurd heq (hnew k₁ hold₁).1
      · exact hw.bindings k₁ hold₁ k₂ hold₂ heq
    · rcases List.mem_cons.mp h₁ with rfl | hold₁ <;> rcases List.mem_cons.mp h₂ with rfl | hold₂
      · rfl
      · exact absurd ha' ((hnew k₂ hold₂).2.1 a ha)
      · exact absurd ha ((hnew k₁ hold₁).2.1 a ha')
      · exact hw.arguments k₁ hold₁ k₂ hold₂ a ha ha'
    · rcases List.mem_cons.mp h₁ with rfl | hold₁ <;> rcases List.mem_cons.mp h₂ with rfl | hold₂
      · exact ⟨rfl, hcells i j c hc hc'⟩
      · exact absurd hc' ((hnew k₂ hold₂).2.2 i j c hc)
      · exact absurd hc ((hnew k₁ hold₁).2.2 j i c hc')
      · exact hw.cells k₁ hold₁ k₂ hold₂ i j c hc hc'
    · exact (hw.shared o key o' key' c hr hr').imp_right fun ⟨k', hk', i, hc⟩ =>
        ⟨k', List.mem_cons_of_mem _ hk', i, hc⟩
  | @started b hbound =>
    refine hw.mapCalls (fun k => k.bindings.handle ∈ [b.handle]) (fun k => k.becomes_start b) hw.heap
      (fun k hk => ?_) hw.shared
    refine (hw.calls k hk).keep (k.becomes_start b) (.refl _ _) (fun _ _ _ _ _ hr => .inl hr)
      (fun _ _ _ _ _ _ hr => hr) (fun _ _ _ hr => hr) fun hnew hold hsloppy i name hbinds => ?_
    unfold Call.start at hnew
    split at hnew
    · next hb => exact hbound k hk hb hsloppy i name hbinds
    · rw [hold] at hnew
      cases hnew

/-- **Every act keeps a world lawful.** -/
theorem Act.lawful (ha : Act S w label w') (hw : w.Lawful S) : w'.Lawful S :=
  ⟨ha.orderly hw.toOrderly, hw.realm.stays ha.stays⟩

theorem Acts.lawful (hacts : Acts S own w w') (hw : w.Lawful S) : w'.Lawful S := by
  induction hacts with
  | refl => exact hw
  | tail _ ha _ ih => exact ha.lawful ih

/-- **What a private object holds under its keys stays there**, but for those who bind names in it. -/
theorem Acts.refers_private (hacts : Acts S own w w') (hw : w.Lawful S) (hp : w.heap.Private S.realm o)
    (hown : ¬ own o.handle) (hr : w.heap.Refers o key c) : w'.heap.Refers o key c := by
  induction hacts with
  | refl => exact hr
  | tail hacts₁ ha howned ih =>
    have hp₁ := hacts₁.stays.privateObject hp trivial
    exact ha.refers_private hp₁ (fun hb => hown (howned _ hb)) ih ((hacts₁.lawful hw).ordinary hp₁)

end ScriptCore
