import ScriptCore.Proofs.Heap.Prototypes
import ScriptCore.Proofs.Object.DefinedLengths

/-! # Ordinary assignment

A write to a property looks for the nearest holder of the key on the chain from the object. If that is the object
itself, its cell is overwritten. Otherwise the object gets a property of its own, and if it is an array and the
property an element at or beyond its length, the length moves past it. Nothing else changes.

* `Heap.nearest`, `findProperty_lineage`: the nearest holder, and that the walk finds it.
* `defineNoted_done`: what making a property comes to.
* `set_assigns`: **what a write comes to when no accessor is met.** -/

namespace ScriptCore

variable {h h' h₁ : Heap} {o : ObjectRef} {key length : PropertyKey} {c : CellRef} {d d' : Descriptor}
  {obj : Object} {m m' : Machine} {v : Value} {strict : Bool} {l : List ObjectRef} {s : StringRef}

/-! ### The nearest holder of a key -/

/-- The first object of the list with the key, and the cell of the property. -/
def Heap.nearest (h : Heap) (key : PropertyKey) (l : List ObjectRef) : Option (ObjectRef × CellRef) :=
  l.findSome? fun q =>
    match h.ownCell q key with
    | .ok (some c) => some (q, c)
    | _ => none

theorem Heap.findWithin_lineage : ∀ (bound : Nat) (p : Option ObjectRef) (l : List ObjectRef), h.Lineage p l →
    l.length ≤ bound → h.findWithin key bound p = .ok (h.nearest key l)
  | bound, none, l, hc, _ => by
    cases hc
    cases bound <;> rfl
  | 0, some o, l, hc, hle => by
    cases hc
    simp at hle
  | bound + 1, some o, _, .cons (l := l) live rest, hle => by
    obtain ⟨obj, ho, rfl⟩ := Heap.prototype_eq_ok.mp live
    have hrest := findWithin_lineage bound _ l rest (Nat.le_of_succ_le_succ hle)
    have hown : h.ownCell o key = .ok (obj.properties.find? key) := by
      unfold Heap.ownCell
      rw [ho]
      rfl
    rw [Heap.findWithin, ho]
    unfold Heap.nearest
    rw [List.findSome?_cons, hown]
    dsimp only
    cases obj.properties.find? key with
    | some c => rfl
    | none => exact hrest

/-- **The walk finds the nearest holder** on a chain that is not too long. -/
theorem Heap.findProperty_lineage (hc : h.Lineage (some o) l) (hle : l.length ≤ maxPrototypeChain) :
    h.findProperty o key = .ok (h.nearest key l) :=
  findWithin_lineage maxPrototypeChain (some o) l hc hle

/-- Only a member of the list is a nearest holder, and it has the key. -/
theorem Heap.nearest_mem {q : ObjectRef} (hq : h.nearest key l = some (q, c)) :
    q ∈ l ∧ h.ownCell q key = .ok (some c) := by
  obtain ⟨q', hmem, hfound⟩ := List.exists_of_findSome?_eq_some hq
  split at hfound
  · next hown =>
    cases hfound
    exact ⟨hmem, hown⟩
  · cases hfound

/-- **The nearest holder is the object itself** exactly if it has the key. -/
theorem Heap.nearest_own (hc : h.Lineage (some o) l) (key : PropertyKey) :
    (∃ c, h.ownCell o key = .ok (some c) ∧ h.nearest key l = some (o, c)) ∨
      h.ownCell o key = .ok none ∧ ∀ c, h.nearest key l ≠ some (o, c) := by
  obtain ⟨obj, ho⟩ := hc.live_of_eq rfl
  cases hfind : obj.properties.find? key with
  | some c =>
    have hown := Heap.ownCell_eq_ok.mpr ⟨obj, ho, hfind⟩
    refine .inl ⟨c, hown, ?_⟩
    cases hc with
    | cons live rest =>
      unfold Heap.nearest
      rw [List.findSome?_cons, hown]
  | none =>
    have hnone := Heap.ownCell_eq_ok.mpr ⟨obj, ho, hfind⟩
    refine .inr ⟨hnone, fun c hnearest => ?_⟩
    have hown := (Heap.nearest_mem hnearest).2
    rw [hnone] at hown
    cases hown

/-! ### Moving the length of an array -/

/-- The length that a property holds. -/
def Descriptor.count (d : Descriptor) : UInt32 :=
  match d.value? with
  | some (.number x) => x.toUInt32
  | _ => 0

theorem Heap.lengthOf_eq {names : CommonNames} (hd : h.ownProperty o names.length = .ok (some d)) :
    h.lengthOf names o = .ok d.count := by
  unfold Heap.lengthOf Descriptor.count
  rw [hd]
  dsimp only [bind, Except.bind]
  cases d.value? with
  | none => rfl
  | some v => cases v <;> rfl

/-- An array that has the length as an own property. -/
theorem Heap.hasLength_of_ownCell (harray : h.isArray o = .ok true) (hown : h.ownCell o length = .ok (some c))
    (hc : h.cell c = .ok d) : ∃ obj, h.HasLength length o obj c d := by
  obtain ⟨obj, ho, hkind⟩ := Heap.isArray_eq_true harray
  obtain ⟨_, ho', hfind⟩ := Heap.ownCell_eq_ok.mp hown
  cases ho.symm.trans ho'
  exact ⟨obj, ho, hkind, hfind, hc⟩

theorem Heap.isArray_of_object (ho : h.object o = .ok obj) : ∃ b, h.isArray o = .ok b := by
  by_cases hkind : obj.kind = .array
  · exact ⟨true, Heap.isArray_eq_ok.mpr ⟨obj, ho, by simp [hkind]⟩⟩
  · exact ⟨false, Heap.isArray_eq_ok.mpr ⟨obj, ho, by simp [hkind]⟩⟩

/-- **Noting an element** moves a length that it is at or beyond. -/
theorem noteKey_done [Heap.Memory] {w : Value} {writable : Bool} (hl : m.heap.HasLength m.realm.names.length o obj c d)
    (hd : d.content = .data w writable) (i : UInt32) :
    noteKey o (.index i) m = .done () (if d.count ≤ i then { m with
        heap := m.heap.put c.handle (.cell { d with content := .data (.ofCount (i + 1).toNat) writable }) }
      else m) := by
  show ((Run.readHeap fun h => h.isArray o) >>= fun b => if b = true then noteIndex o i else pure ()) m = _
  rw [Run.readHeap_bind, hl.isArray]
  show (Run.names >>= _ >>= _) m = _
  rw [bind_assoc, Run.names_bind, Run.readHeap_bind, Heap.lengthOf_eq hl.ownProperty]
  dsimp only
  split
  · exact writeLength_done hl hd (i + 1)
  · rfl

/-! ### Making a property -/

/-- The key is that of an element `i` of an array, at or beyond its length. -/
def Machine.Outgrows (m : Machine) (o : ObjectRef) (key : PropertyKey) (i : UInt32) : Prop :=
  key = .index i ∧ m.heap.isArray o = .ok true ∧ ∃ n, m.heap.lengthOf m.realm.names o = .ok n ∧ n ≤ i

/-- On the way from `m` to `m'` the object `o` got the property `d` under `key`, in the new cell `c`, after all that
it had, and nothing else changed. -/
structure Machine.Adds (m : Machine) (o : ObjectRef) (key : PropertyKey) (d : Descriptor) (c : CellRef)
    (m' : Machine) : Prop where
  machine : m' = { m with heap := m'.heap }
  object : ∃ obj, m.heap.object o = .ok obj ∧ obj.extensible = true ∧ obj.properties.find? key = none ∧
    m'.heap.object o = .ok { obj with properties := obj.properties.insert key c }
  keys : ∃ keys, m.heap.ownKeys o = .ok keys ∧ m'.heap.ownKeys o = .ok (keys ++ [key])
  fresh : m.heap.block? c.handle = none
  cell : m'.heap.cell c = .ok d
  objects : ∀ x ≠ o, m'.heap.object x = m.heap.object x
  cells : ∀ x ≠ c, m'.heap.cell x = m.heap.cell x

/-- **On the way from `m` to `m'` the object `o` got the property `d` under `key`**, and then the length that the
property outgrows, if any, moved past it. -/
structure Machine.Creates (m : Machine) (o : ObjectRef) (key : PropertyKey) (d : Descriptor) (c : CellRef)
    (m' : Machine) : Prop where
  machine : m' = { m with heap := m'.heap }
  object : ∃ obj, m.heap.object o = .ok obj ∧ obj.extensible = true ∧ obj.properties.find? key = none ∧
    m'.heap.object o = .ok { obj with properties := obj.properties.insert key c }
  keys : ∃ keys, m.heap.ownKeys o = .ok keys ∧ m'.heap.ownKeys o = .ok (keys ++ [key])
  fresh : m.heap.block? c.handle = none
  cell : m'.heap.cell c = .ok d
  objects : ∀ x ≠ o, m'.heap.object x = m.heap.object x
  cells : ∀ x ≠ c, (∀ i, m.Outgrows o key i → m.heap.ownCell o m.realm.names.length ≠ .ok (some x)) →
    m'.heap.cell x = m.heap.cell x
  length : ∀ i x d w writable, m.Outgrows o key i → m.heap.ownCell o m.realm.names.length = .ok (some x) →
    m.heap.cell x = .ok d → d.content = .data w writable →
    m'.heap.cell x = .ok { d with content := .data (.ofCount (i.toNat + 1)) writable }

/-- A key that is a new element of an array has an index with a successor, and the length of the array holds a
value. -/
def Machine.Notes (m : Machine) (o : ObjectRef) (key : PropertyKey) : Prop :=
  ∀ i, key = .index i → m.heap.isArray o = .ok true → m.heap.ownCell o key = .ok none → i.toNat < indexBound ∧
    ∃ d w writable, m.heap.ownProperty o m.realm.names.length = .ok (some d) ∧ d.content = .data w writable

/-- A new cell is no object. -/
theorem Heap.Filled.object_cell (hf : h.Filled (.cell d) c.handle h₁) (x : ObjectRef) : h₁.object x = h.object x := by
  unfold Heap.object
  rw [hf.block?]
  split_ifs with hx
  · rw [hf.fresh (by rw [hx])]
  · rfl

theorem Heap.Filled.cell_cell (hf : h.Filled (.cell d) c.handle h₁) (x : CellRef) :
    h₁.cell x = if x = c then .ok d else h.cell x := by
  unfold Heap.cell
  rw [hf.block?]
  by_cases hx : x = c
  · rw [if_pos hx, if_pos (by rw [hx])]
  · rw [if_neg hx, if_neg fun hh => hx (by cases x; cases c; exact congrArg _ hh)]

/-- The new cell is bound to the key. -/
theorem adds_defined (ho : m.heap.object o = .ok obj) (hextensible : obj.extensible = true)
    (hnew : obj.properties.find? key = none) (hf : m.heap.Filled (.cell d) c.handle h₁) :
    m.Adds o key d c { m with
      heap := h₁.put o.handle (.object { obj with properties := obj.properties.insert key c }) } := by
  have ho₁ : h₁.object o = .ok obj := (hf.object_cell o).trans ho
  have hobject := Heap.object_put_object ho₁ { obj with properties := obj.properties.insert key c }
  refine
    { machine := rfl
      object := ⟨obj, ho, hextensible, hnew, by rw [hobject, if_pos rfl]⟩
      keys := ⟨obj.properties.keys, ?_, ?_⟩
      fresh := hf.fresh rfl
      cell := by rw [Heap.cell_put_object ho₁, hf.cell_cell, if_pos rfl]
      objects := fun x hx => by rw [hobject, if_neg hx, hf.object_cell]
      cells := fun x hx => by rw [Heap.cell_put_object ho₁, hf.cell_cell, if_neg hx] }
  · unfold Heap.ownKeys
    rw [ho]
    rfl
  · unfold Heap.ownKeys
    rw [hobject, if_pos rfl]
    show Except.ok (obj.properties.insert key c).keys = _
    rw [PropertyMap.keys_insert, hnew]
    rfl

namespace Machine.Adds

variable (ha : m.Adds o key d c m')
include ha

/-- The object keeps its other properties. -/
theorem ownCell_of_ne {k : PropertyKey} (hne : k ≠ key) : m'.heap.ownCell o k = m.heap.ownCell o k := by
  obtain ⟨obj, ho, -, -, ho'⟩ := ha.object
  unfold Heap.ownCell
  rw [ho, ho']
  show Except.ok ((obj.properties.insert key c).find? k) = .ok (obj.properties.find? k)
  rw [PropertyMap.find?_insert, if_neg hne.symm]

theorem isArray : m'.heap.isArray o = m.heap.isArray o := by
  obtain ⟨obj, ho, -, -, ho'⟩ := ha.object
  unfold Heap.isArray
  rw [ho, ho']
  rfl

/-- What was there before is not the new cell. -/
theorem cell_of_eq {x : CellRef} (hx : m.heap.cell x = .ok d') : x ≠ c ∧ m'.heap.cell x = .ok d' := by
  have hne : x ≠ c := by
    rintro rfl
    rw [Heap.cell_eq_ok, ha.fresh] at hx
    cases hx
  exact ⟨hne, (ha.cells x hne).trans hx⟩

/-- A key that outgrows nothing was made as it is. -/
theorem creates (hwithin : ∀ i, ¬ m.Outgrows o key i) : m.Creates o key d c m' :=
  { machine := ha.machine
    object := ha.object
    keys := ha.keys
    fresh := ha.fresh
    cell := ha.cell
    objects := ha.objects
    cells := fun x hx _ => ha.cells x hx
    length := fun i _ _ _ _ hout => absurd hout (hwithin i) }

/-- The length that the key outgrows was moved past it. -/
theorem creates_moved {i : UInt32} {x : CellRef} {w : Value} {writable : Bool} (hout : m.Outgrows o key i)
    (hown : m.heap.ownCell o m.realm.names.length = .ok (some x)) (hx : m.heap.cell x = .ok d')
    (hd' : d'.content = .data w writable) :
    m.Creates o key d c { m' with
      heap := m'.heap.put x.handle (.cell { d' with content := .data (.ofCount (i.toNat + 1)) writable }) } := by
  obtain ⟨hne, hx'⟩ := ha.cell_of_eq hx
  have hobject := Heap.object_put_cell hx' { d' with content := .data (.ofCount (i.toNat + 1)) writable }
  have hcell := Heap.cell_put_cell hx' { d' with content := .data (.ofCount (i.toNat + 1)) writable }
  obtain ⟨obj, ho, hextensible, hnew, ho'⟩ := ha.object
  obtain ⟨keys, hkeys, hkeys'⟩ := ha.keys
  exact
    { machine := by rw [ha.machine]
      object := ⟨obj, ho, hextensible, hnew, (hobject o).trans ho'⟩
      keys := ⟨keys, hkeys, by unfold Heap.ownKeys at hkeys' ⊢; rw [hobject]; exact hkeys'⟩
      fresh := ha.fresh
      cell := by rw [hcell, if_neg hne.symm, ha.cell]
      objects := fun y hy => (hobject y).trans (ha.objects y hy)
      cells := fun y hy hother => by
        rw [hcell, if_neg, ha.cells y hy]
        rintro rfl
        exact hother i hout hown
      length := fun j y e u b hout' hy hyd he => by
        obtain rfl : i = j := PropertyKey.index.inj (hout.1.symm.trans hout'.1)
        obtain rfl : x = y := Option.some.inj (Except.ok.inj (hown.symm.trans hy))
        obtain rfl : d' = e := Except.ok.inj (hx.symm.trans hyd)
        obtain ⟨-, rfl⟩ : w = u ∧ writable = b := by
          rw [hd'] at he
          exact Slotted.data.inj he
        rw [hcell, if_pos rfl] }

/-- **Noting the new property** succeeds, and moves the length that it outgrows. -/
theorem noteKey (hname : m.realm.names.length = .string s) (hnotes : m.Notes o key) :
    ∃ m'', ScriptCore.noteKey o key m' = .done () m'' ∧ m.Creates o key d c m'' := by
  obtain ⟨obj, ho, -, hnew, -⟩ := ha.object
  cases key with
  | string t => exact ⟨m', rfl, ha.creates fun i hout => by cases hout.1⟩
  | index i =>
    obtain ⟨isArray, harray⟩ := Heap.isArray_of_object ho
    cases isArray with
    | false =>
      refine ⟨m', ?_, ha.creates fun j hout => by have htrue := harray.symm.trans hout.2.1; cases htrue⟩
      show ((Run.readHeap fun h => h.isArray o) >>= fun b => if b = true then noteIndex o i else pure ()) m' = _
      rw [Run.readHeap_bind, ha.isArray, harray]
      rfl
    | true =>
      obtain ⟨hbound, d', w, writable, hd', hcontent⟩ :=
        hnotes i rfl harray (Heap.ownCell_eq_ok.mpr ⟨obj, ho, hnew⟩)
      obtain ⟨x, hown, hx⟩ := Heap.ownProperty_eq_some.mp hd'
      obtain ⟨obj', hl⟩ : ∃ obj', m'.heap.HasLength m'.realm.names.length o obj' x d' := by
        refine Heap.hasLength_of_ownCell (ha.isArray.trans harray) ?_ (ha.cell_of_eq hx).2
        rw [ha.machine]
        exact (ha.ownCell_of_ne (by rw [hname]; exact nofun)).trans hown
      rw [noteKey_done hl hcontent]
      split
      · next hle =>
        refine ⟨_, rfl, ?_⟩
        rw [toNat_succ_of_lt hbound]
        exact ha.creates_moved ⟨rfl, harray, d'.count, Heap.lengthOf_eq hd', hle⟩ hown hx hcontent
      · next hle =>
        refine ⟨_, rfl, ha.creates fun j hout => ?_⟩
        obtain ⟨hj, -, n, hn, hnj⟩ := hout
        cases hj
        rw [Heap.lengthOf_eq hd'] at hn
        cases hn
        exact hle hnj

end Machine.Adds

theorem Heap.isExtensible_eq_true (hextensible : h.isExtensible o = .ok true) :
    ∃ obj, h.object o = .ok obj ∧ obj.extensible = true := by
  unfold Heap.isExtensible at hextensible
  cases ho : h.object o with
  | error e =>
    rw [ho] at hextensible
    cases hextensible
  | ok obj =>
    rw [ho] at hextensible
    exact ⟨obj, rfl, Except.ok.inj hextensible⟩

/-- **Making a property and noting it** succeeds unless the heap is full. -/
theorem defineNoted_done (hv : m.heap.Valid) (hname : m.realm.names.length = .string s)
    (hextensible : m.heap.isExtensible o = .ok true) (hnone : m.heap.ownCell o key = .ok none)
    (hnotes : m.Notes o key) (d : Descriptor) :
    m.heap.IsFull ∧ ((do
        discard (Run.onHeap (Heap.define o key d))
        noteKey o key
        return true : Run Bool) m) = .failed .outOfMemory m ∨
      ∃ c m', ((do
        discard (Run.onHeap (Heap.define o key d))
        noteKey o key
        return true : Run Bool) m) = .done true m' ∧ m.Creates o key d c m' := by
  obtain ⟨obj, ho, hobj⟩ := Heap.isExtensible_eq_true hextensible
  obtain ⟨_, ho', hnew⟩ := Heap.ownCell_eq_ok.mp hnone
  cases ho.symm.trans ho'
  rw [Proc.discard_bind]
  rcases Heap.define_of_object hv ho key d with ⟨hfull, hfailed⟩ | ⟨c, h₁, hf, -, hdone⟩
  · exact .inl ⟨hfull, Proc.bind_failed (Run.onHeap_failed hfailed) _⟩
  · obtain ⟨m', hnoted, hcreates⟩ := (adds_defined ho hobj hnew hf).noteKey hname hnotes
    exact .inr ⟨c, m', (Proc.bind_done (Run.onHeap_done hdone) _).trans (Proc.bind_done hnoted _), hcreates⟩

/-! ### Writing in place -/

/-- **On the way from `m` to `m'` the cell `c` took the value `v`** and kept its attributes, and nothing else
changed. -/
structure Machine.Overwrites (m : Machine) (c : CellRef) (d : Descriptor) (v : Value) (m' : Machine) : Prop where
  machine : m' = { m with heap := m'.heap }
  cell : m.heap.cell c = .ok d ∧ m'.heap.cell c = .ok { d with content := .data v true }
  objects : ∀ x, m'.heap.object x = m.heap.object x
  cells : ∀ x ≠ c, m'.heap.cell x = m.heap.cell x

theorem overwrites_put (hc : m.heap.cell c = .ok d) (v : Value) :
    m.Overwrites c d v { m with heap := m.heap.put c.handle (.cell { d with content := .data v true }) } :=
  { machine := rfl
    cell := ⟨hc, by rw [Heap.cell_put_cell hc, if_pos rfl]⟩
    objects := Heap.object_put_cell hc _
    cells := fun x hx => by rw [Heap.cell_put_cell hc, if_neg hx] }

/-! ### Assigning -/

/-- The write was refused and changed nothing: it is an error in strict code, and otherwise the answer is `false`. -/
def Outcome.Refuses (m : Machine) (strict : Bool) (r : Outcome Machine Bool) : Prop :=
  if strict = true then ∃ e, r = .failed e m else r = .done false m

theorem Outcome.Refuses.leaves {I : Machine → Prop} {r : Outcome Machine Bool} (hr : r.Refuses m strict) (hm : I m) :
    r.Leaves I := by
  unfold Outcome.Refuses at hr
  split at hr
  · obtain ⟨e, rfl⟩ := hr
    exact hm
  · rw [hr]
    exact hm

theorem refuseWrite_refuses (key : PropertyKey) (strict : Bool) (m : Machine) :
    (refuseWrite key strict m).Refuses m strict := by
  unfold Outcome.Refuses refuseWrite
  cases strict with
  | false => rfl
  | true =>
    rw [if_pos rfl, if_pos rfl, Run.readHeap_bind]
    cases m.heap.keyText key with
    | error e => exact ⟨e, rfl⟩
    | ok name => exact ⟨_, rfl⟩

/-- **A write takes effect** where the nearest property is writable and the object has it itself or takes new ones. -/
def Machine.Takes (m : Machine) (o : ObjectRef) (key : PropertyKey) (l : List ObjectRef) : Prop :=
  match m.heap.nearest key l with
  | none => m.heap.isExtensible o = .ok true
  | some (holder, c) => (∃ d w, m.heap.cell c = .ok d ∧ d.content = .data w true) ∧
      (holder = o ∨ m.heap.isExtensible o = .ok true)

/-- The value of an own property is what is read. -/
theorem getProperty_own {w : Bool} (hown : m.heap.ownCell o key = .ok (some c)) (hc : m.heap.cell c = .ok d)
    (hd : d.content = .data v w) (E : Engine) : getProperty E (.object o) key m = .done v m := by
  obtain ⟨obj, ho, hfind⟩ := Heap.ownCell_eq_ok.mp hown
  have hproperty : m.heap.property o key = .ok (some d) := by
    unfold Heap.property Heap.findProperty maxPrototypeChain
    rw [Heap.findWithin, ho]
    dsimp only
    rw [hfind]
    dsimp only [bind, Except.bind]
    rw [hc]
    rfl
  show (Run.readHeap (fun h => h.property o key) >>= _) m = _
  rw [Run.readHeap_bind, hproperty]
  unfold readDescriptor
  dsimp only
  rw [hd]
  rfl

/-- On the way from `m` to `m'` the object's own property under `key` took the value `v` in place, or the object got
one. -/
def Machine.Assigned (m : Machine) (o : ObjectRef) (key : PropertyKey) (v : Value) (m' : Machine) : Prop :=
  (∃ c d, m.heap.ownCell o key = .ok (some c) ∧ m.Overwrites c d v m') ∨
    m.heap.ownCell o key = .ok none ∧ ∃ c, m.Creates o key (.data v) c m'

/-- The write took effect, and reading the key gives the value; or a new property found the heap full. -/
def Outcome.Assigns (m : Machine) (o : ObjectRef) (key : PropertyKey) (v : Value) (r : Outcome Machine Bool) : Prop :=
  (m.heap.IsFull ∧ m.heap.ownCell o key = .ok none ∧ r = .failed .outOfMemory m) ∨
    ∃ m', r = .done true m' ∧ (∀ E, getProperty E (.object o) key m' = .done v m') ∧ m.Assigned o key v m'

/-- **Making a property where the object has none** takes effect if the object takes new ones. -/
theorem createOwn_assigns (hv : m.heap.Valid) (hname : m.realm.names.length = .string s)
    (hnone : m.heap.ownCell o key = .ok none) (hnotes : m.Notes o key) (v : Value) (strict : Bool) :
    (m.heap.isExtensible o = .ok true → (createOwn o key v strict m).Assigns m o key v) ∧
    (m.heap.isExtensible o ≠ .ok true → (createOwn o key v strict m).Refuses m strict) := by
  refine ⟨fun hextensible => ?_, fun hnot => ?_⟩
  · have hdefined : createOwn o key v strict m = ((do
        discard (Run.onHeap (Heap.define o key (.data v)))
        noteKey o key
        return true : Run Bool) m) := by
      unfold createOwn
      rw [Run.readHeap_bind, hextensible]
      rfl
    rw [hdefined]
    rcases defineNoted_done hv hname hextensible hnone hnotes (.data v) with ⟨hfull, hfailed⟩ | ⟨c, m', hdone, hc⟩
    · exact .inl ⟨hfull, hnone, hfailed⟩
    · obtain ⟨obj, -, -, -, ho'⟩ := hc.object
      have hown : m'.heap.ownCell o key = .ok (some c) :=
        Heap.ownCell_eq_ok.mpr ⟨_, ho', by rw [PropertyMap.find?_insert, if_pos rfl]⟩
      exact .inr ⟨m', hdone, getProperty_own hown hc.cell rfl, .inr ⟨hnone, c, hc⟩⟩
  · obtain ⟨obj, ho, -⟩ := Heap.ownCell_eq_ok.mp hnone
    have hextensible : m.heap.isExtensible o = .ok obj.extensible := by
      unfold Heap.isExtensible
      rw [ho]
      rfl
    unfold createOwn
    rw [Run.readHeap_bind, hextensible]
    cases hb : obj.extensible with
    | false => exact refuseWrite_refuses key strict m
    | true => exact absurd (hextensible.trans (congrArg _ hb)) hnot

/-- The value of a writable own property is overwritten. -/
theorem writeCell_assigns (hown : m.heap.ownCell o key = .ok (some c)) (hc : m.heap.cell c = .ok d)
    {w : Value} (hd : d.content = .data w true) (v : Value) :
    ((Run.onHeap (Heap.writeCell c v) >>= fun _ => pure true) m).Assigns m o key v := by
  have hoverwrites := overwrites_put hc v
  obtain ⟨obj, ho, hfind⟩ := Heap.ownCell_eq_ok.mp hown
  have hown' := Heap.ownCell_eq_ok.mpr ⟨obj, (hoverwrites.objects o).trans ho, hfind⟩
  exact .inr ⟨_, Proc.bind_done (Run.onHeap_done (Heap.writeCell_done hc hd v)) _, getProperty_own hown' hoverwrites.cell.2 rfl,
    .inl ⟨c, d, hown, hoverwrites⟩⟩

/-- A key that is no length of an array is written like any other. -/
theorem setProperty_ordinary (ho : m.heap.object o = .ok obj)
    (hlength : m.heap.isArray o = .ok true → key ≠ m.realm.names.length) (E : Engine) (v : Value) (strict : Bool) :
    setProperty E o key v strict m = setOrdinary E o key v strict m := by
  obtain ⟨isArray, harray⟩ := Heap.isArray_of_object ho
  unfold setProperty
  rw [Run.names_bind, Run.readHeap_bind, harray]
  dsimp only
  rw [if_neg]
  intro hboth
  rw [Bool.and_eq_true, decide_eq_true_eq] at hboth
  exact hlength (hboth.1 ▸ harray) hboth.2

/-- **What a write comes to** where the chain from the object ends within the bound and the nearest property with the
key, if any, holds a value. Let the key be no length of an array, and let a new element have an index with a successor
and the array a length that holds a value. Then the write takes effect exactly if the nearest property is writable and
the object has it itself or takes new ones, unless a new property finds the heap full. If it does,

* reading the key gives the value;
* an own property keeps its cell and its attributes, and nothing but its value changes;
* otherwise the object gets a plain property, after all others, and nothing else changes but the length of an array
  that the new element outgrows. -/
theorem set_assigns (hv : m.heap.Valid) (hname : m.realm.names.length = .string s)
    (hlength : m.heap.isArray o = .ok true → key ≠ m.realm.names.length)
    (hchain : m.heap.Lineage (some o) l) (hshort : l.length ≤ maxPrototypeChain)
    (hdata : ∀ holder c, m.heap.nearest key l = some (holder, c) →
      ∃ d w writable, m.heap.cell c = .ok d ∧ d.content = .data w writable)
    (hnotes : m.Notes o key) (E : Engine) (v : Value) (strict : Bool) :
    (m.Takes o key l → (setProperty E o key v strict m).Assigns m o key v) ∧
    (¬ m.Takes o key l → (setProperty E o key v strict m).Refuses m strict) := by
  have hfound : m.heap.findProperty o key = .ok (m.heap.nearest key l) := Heap.findProperty_lineage hchain hshort
  obtain ⟨obj, ho⟩ := hchain.live_of_eq rfl
  rw [setProperty_ordinary ho hlength]
  unfold setOrdinary Machine.Takes
  rw [Run.readHeap_bind, hfound]
  rcases Heap.nearest_own hchain key with ⟨c, hown, hnearest⟩ | ⟨hnone, hother⟩
  · -- The object has the key itself.
    obtain ⟨d, w, writable, hc, hd⟩ := hdata o c hnearest
    rw [hnearest]
    dsimp only
    rw [Run.readHeap_bind, hc]
    dsimp only
    rw [hd]
    cases writable with
    | false =>
      refine ⟨?_, fun _ => refuseWrite_refuses key strict m⟩
      rintro ⟨⟨d', w', hc', hd'⟩, -⟩
      cases hc'
      rw [hd] at hd'
      cases hd'
    | true =>
      refine ⟨fun _ => ?_, fun hnot => absurd ⟨⟨d, w, rfl, hd⟩, .inl rfl⟩ hnot⟩
      dsimp only
      rw [if_pos rfl]
      exact writeCell_assigns hown hc hd v
  · -- The object gets the key, unless what it inherits is read-only.
    obtain ⟨htakes, hrefuses⟩ := createOwn_assigns hv hname hnone hnotes v strict
    cases hnearest : m.heap.nearest key l with
    | none => exact ⟨htakes, hrefuses⟩
    | some found =>
      obtain ⟨holder, c⟩ := found
      obtain ⟨d, w, writable, hc, hd⟩ := hdata holder c hnearest
      have hne : holder ≠ o := fun heq => hother c (heq ▸ hnearest)
      dsimp only
      rw [Run.readHeap_bind, hc]
      dsimp only
      rw [hd]
      cases writable with
      | false =>
        refine ⟨?_, fun _ => refuseWrite_refuses key strict m⟩
        rintro ⟨⟨d', w', hc', hd'⟩, -⟩
        cases hc'
        rw [hd] at hd'
        cases hd'
      | true =>
        dsimp only
        rw [if_neg hne]
        exact ⟨fun ⟨_, hor⟩ => htakes (hor.resolve_left hne),
          fun hnot => hrefuses fun hextensible => hnot ⟨⟨d, w, rfl, hd⟩, .inr hextensible⟩⟩

/-- The chain from an array of the realm's. -/
def Machine.arrayChain (m : Machine) (a : ObjectRef) : List ObjectRef :=
  [a, m.realm.arrayPrototype, m.realm.objectPrototype]

/-- The chain from the array is that of the realm's arrays, no member has the element `i`, and the array takes new
ones. -/
def Machine.takesElement (m : Machine) (a : ObjectRef) (i : UInt32) : Bool :=
  (m.heap.prototype a).toOption == some (some m.realm.arrayPrototype) &&
    (m.heap.prototype m.realm.arrayPrototype).toOption == some (some m.realm.objectPrototype) &&
    (m.heap.prototype m.realm.objectPrototype).toOption == some none &&
    (m.heap.nearest (.index i) (m.arrayChain a)).isNone && (m.heap.isExtensible a).toOption == some true

/-- What makes a write to element `i` of the array a write that takes effect: the chain ends within the bound, no
member has the element, and the array takes new ones. -/
structure Machine.Due (m : Machine) (a : ObjectRef) (i : UInt32) : Prop where
  chain : m.heap.Lineage (some a) (m.arrayChain a)
  absent : m.heap.nearest (.index i) (m.arrayChain a) = none
  takes : m.Takes a (.index i) (m.arrayChain a)

theorem Machine.due_of_takesElement {a : ObjectRef} {i : UInt32} (ht : m.takesElement a i = true) : m.Due a i := by
  unfold Machine.takesElement at ht
  simp only [Bool.and_eq_true, beq_iff_eq, Option.isNone_iff_eq_none] at ht
  obtain ⟨⟨⟨⟨harray, hobject⟩, hend⟩, hnone⟩, hextensible⟩ := ht
  refine ⟨.cons (Except.eq_ok_of_toOption harray)
    (.cons (Except.eq_ok_of_toOption hobject) (.cons (Except.eq_ok_of_toOption hend) .nil)), hnone, ?_⟩
  unfold Machine.Takes
  rw [hnone]
  exact Except.eq_ok_of_toOption hextensible

/-- An array of two values can be made on the machine, and it takes element `5`. -/
def takesFifth (m : Machine) : Bool :=
  match allocArray [.null, .null] m with
  | .done a m₁ => m.realm.names.length == .string ⟨⟨0, 0⟩⟩ && m₁.takesElement a 5
  | _ => false

/-- A new array of two values takes element `5`. -/
theorem set_assigns_element : ∃ (m m₁ : Machine) (a : ObjectRef), Machine.create .standard {} 0 true = .ok m ∧
    allocArray [.null, .null] m = .done a m₁ ∧
    (setProperty Edit.refusing a (.index 5) (.bool true) false m₁).Assigns m₁ a (.index 5) (.bool true) := by
  have hfit : (Machine.create .standard {} 0 true).toOption.any takesFifth = true := by decide +kernel
  cases hm : Machine.create .standard {} 0 true with
  | error e => rw [hm] at hfit; cases hfit
  | ok m =>
    rw [hm] at hfit
    change takesFifth m = true at hfit
    unfold takesFifth at hfit
    cases halloc : allocArray [.null, .null] m with
    | failed e m₁ => rw [halloc] at hfit; cases hfit
    | stalled => rw [halloc] at hfit; cases hfit
    | done a m₁ =>
      rw [halloc] at hfit
      obtain ⟨hname, htakes⟩ := Bool.and_eq_true_iff.mp hfit
      obtain ⟨c, n, -, hmeasured⟩ := Machine.allocArray_sized (Machine.built_create hm) (beq_iff_eq.mp hname) halloc
      obtain ⟨obj, hl⟩ := hmeasured.hasLength
      have hdue := Machine.due_of_takesElement htakes
      refine ⟨m, m₁, a, rfl, halloc, (set_assigns hmeasured.heap.valid hmeasured.name (fun _ => ?_) hdue.chain
        (show 3 ≤ maxPrototypeChain by decide) (fun holder c hnearest => ?_) (fun i hi _ _ => ?_) Edit.refusing
        (.bool true) false).1 hdue.takes⟩
      · rw [hmeasured.name]
        exact nofun
      · rw [hdue.absent] at hnearest
        cases hnearest
      · cases hi
        exact ⟨by decide, _, _, _, hl.ownProperty, rfl⟩

/-- The write to element `0` of the array fails once its length is an accessor. -/
def accessorLengthFails (a : ObjectRef) (m : Machine) : Bool :=
  match Run.onHeap (Heap.define a m.realm.names.length ⟨false, true, false, .accessor .undefined .undefined⟩) m with
  | .done _ m₁ => m₁.takesElement a 0 &&
      match setProperty Edit.refusing a (.index 0) .null false m₁ with
      | .failed .invalidHandle _ => true
      | _ => false
  | _ => false

/-- The write to element `0` of the array makes a length after the element once it has none. -/
def missingLengthComesLast (a : ObjectRef) (m : Machine) : Bool :=
  match Run.onHeap (Heap.remove a m.realm.names.length) m with
  | .done true m₁ => m₁.takesElement a 0 &&
      match setProperty Edit.refusing a (.index 0) .null false m₁ with
      | .done true m₂ => (m₂.heap.ownKeys a).toOption == some [.index 0, m.realm.names.length]
      | _ => false
  | _ => false

/-- The write to the element under the greatest word leaves the length zero. -/
def lengthWraps (a : ObjectRef) (m : Machine) : Bool :=
  m.takesElement a 4294967295 &&
    match setProperty Edit.refusing a (.index 4294967295) .null false m with
    | .done true m₁ => (m₁.heap.lengthOf m₁.realm.names a).toOption == some 0
    | _ => false

theorem of_accessorLengthFails {a : ObjectRef} (hfails : accessorLengthFails a m = true) :
    ∃ c m₁ m₂, Run.onHeap (Heap.define a m.realm.names.length
        ⟨false, true, false, .accessor .undefined .undefined⟩) m = .done c m₁ ∧ m₁.Due a 0 ∧
      setProperty Edit.refusing a (.index 0) .null false m₁ = .failed .invalidHandle m₂ := by
  unfold accessorLengthFails at hfails
  split at hfails
  · next c m₁ hdefined =>
    obtain ⟨hdue, hset⟩ := Bool.and_eq_true_iff.mp hfails
    split at hset
    · next m₂ hfailed => exact ⟨c, m₁, m₂, hdefined, Machine.due_of_takesElement hdue, hfailed⟩
    · cases hset
  · cases hfails

theorem of_missingLengthComesLast {a : ObjectRef} (hlast : missingLengthComesLast a m = true) :
    ∃ m₁ m₂, Run.onHeap (Heap.remove a m.realm.names.length) m = .done true m₁ ∧ m₁.Due a 0 ∧
      setProperty Edit.refusing a (.index 0) .null false m₁ = .done true m₂ ∧
      m₂.heap.ownKeys a = .ok [.index 0, m.realm.names.length] := by
  unfold missingLengthComesLast at hlast
  split at hlast
  · next m₁ hremoved =>
    obtain ⟨hdue, hset⟩ := Bool.and_eq_true_iff.mp hlast
    split at hset
    · next m₂ hdone =>
      exact ⟨m₁, m₂, hremoved, Machine.due_of_takesElement hdue, hdone, Except.eq_ok_of_toOption (beq_iff_eq.mp hset)⟩
    · cases hset
  · cases hlast

theorem of_lengthWraps {a : ObjectRef} (hwraps : lengthWraps a m = true) :
    m.Due a 4294967295 ∧ ∃ m₁, setProperty Edit.refusing a (.index 4294967295) .null false m = .done true m₁ ∧
      m₁.heap.lengthOf m₁.realm.names a = .ok 0 := by
  obtain ⟨hdue, hset⟩ := Bool.and_eq_true_iff.mp hwraps
  refine ⟨Machine.due_of_takesElement hdue, ?_⟩
  split at hset
  · next m₁ hdone => exact ⟨m₁, hdone, Except.eq_ok_of_toOption (beq_iff_eq.mp hset)⟩
  · cases hset

/-- An empty array can be made on the machine, and writes to its elements come to something else than
`set_assigns` says. -/
def oddWrites (m : Machine) : Bool :=
  match allocArray [] m with
  | .done a m₁ => accessorLengthFails a m₁ && missingLengthComesLast a m₁ && lengthWraps a m₁
  | _ => false

/-- **Without a length that holds a value, and for the greatest word,** a write to a new element of an array comes to
something else. It fails if the length is an accessor. A length that is missing comes after the element. The
successor of the greatest word is zero. -/
theorem odd_lengths_written : ∃ (m m₁ : Machine) (a : ObjectRef), Machine.create .standard {} 0 true = .ok m ∧
    allocArray [] m = .done a m₁ ∧
    (∃ c m₂ m₃, Run.onHeap (Heap.define a m₁.realm.names.length
        ⟨false, true, false, .accessor .undefined .undefined⟩) m₁ = .done c m₂ ∧ m₂.Due a 0 ∧
      setProperty Edit.refusing a (.index 0) .null false m₂ = .failed .invalidHandle m₃) ∧
    (∃ m₂ m₃, Run.onHeap (Heap.remove a m₁.realm.names.length) m₁ = .done true m₂ ∧ m₂.Due a 0 ∧
      setProperty Edit.refusing a (.index 0) .null false m₂ = .done true m₃ ∧
      m₃.heap.ownKeys a = .ok [.index 0, m₁.realm.names.length]) ∧
    (m₁.Due a 4294967295 ∧ ∃ m₂, setProperty Edit.refusing a (.index 4294967295) .null false m₁ = .done true m₂ ∧
      m₂.heap.lengthOf m₂.realm.names a = .ok 0) := by
  have hodd : (Machine.create .standard {} 0 true).toOption.any oddWrites = true := by decide +kernel
  cases hm : Machine.create .standard {} 0 true with
  | error e => rw [hm] at hodd; cases hodd
  | ok m =>
    rw [hm] at hodd
    change oddWrites m = true at hodd
    unfold oddWrites at hodd
    cases halloc : allocArray [] m with
    | failed e m₁ => rw [halloc] at hodd; cases hodd
    | stalled => rw [halloc] at hodd; cases hodd
    | done a m₁ =>
      rw [halloc] at hodd
      dsimp only at hodd
      rw [Bool.and_eq_true, Bool.and_eq_true] at hodd
      obtain ⟨⟨haccessor, hmissing⟩, hwraps⟩ := hodd
      exact ⟨m, m₁, a, rfl, halloc, of_accessorLengthFails haccessor, of_missingLengthComesLast hmissing,
        of_lengthWraps hwraps⟩

end ScriptCore
