import ScriptCore.Proofs.Object.Frozen

/-! # Assigning and defining the length of an array

A write to the length of an array converts the value to a number, refuses it if it is no count, and removes the
elements that it cuts off. A definition of the length stores the value as it is given and removes nothing. So the
two come to the same only for a value that is a count already and that cuts nothing off.

* `setLength_done`, `setLength_refused`: what a write to the length comes to.
* `defineProperty_done`: what the definition of an own property comes to.
* `define_length_agrees`: **when defining the length agrees with assigning it.** -/

namespace ScriptCore

variable {h h' : Heap} {a : ObjectRef} {c : CellRef} {d : Descriptor} {length : PropertyKey} {obj : Object}
  {m : Machine} {v w : Value} {writable : Bool} {x : Float} {n : Nat} {p : Patch}

/-! ### The length of an array -/

/-- The array `a` is the object `obj`, and the cell `c` of its length holds `d`. -/
structure Heap.HasLength (h : Heap) (length : PropertyKey) (a : ObjectRef) (obj : Object) (c : CellRef)
    (d : Descriptor) : Prop where
  object : h.object a = .ok obj
  kind : obj.kind = .array
  bound : obj.properties.find? length = some c
  cell : h.cell c = .ok d

namespace Heap.HasLength

variable (hl : h.HasLength length a obj c d)
include hl

theorem isArray : h.isArray a = .ok true := Heap.isArray_eq_ok.mpr ⟨obj, hl.object, by simp [hl.kind]⟩

theorem ownCell : h.ownCell a length = .ok (some c) := Heap.ownCell_eq_ok.mpr ⟨obj, hl.object, hl.bound⟩

theorem ownProperty : h.ownProperty a length = .ok (some d) :=
  Heap.ownProperty_eq_some.mpr ⟨c, hl.ownCell, hl.cell⟩

theorem ownWritable : h.ownWritable a length = .ok d.isWritable := by
  unfold Heap.ownWritable
  rw [hl.ownProperty]
  rfl

end Heap.HasLength

/-- A measured array has a length. -/
theorem Machine.Measures.hasLength {s : StringRef} {late : Option UInt32} (hm : m.Measures a s c n late) :
    ∃ obj, m.heap.HasLength m.realm.names.length a obj c (lengthDescriptor n) := by
  obtain ⟨obj, ho, hkind, hfind⟩ := hm.heap.own
  exact ⟨obj, ho, hkind, by rw [hm.name, hfind], hm.heap.cell⟩

/-- The object without its elements from `n` on. -/
def Object.cutAt (obj : Object) (n : UInt32) : Object :=
  { obj with properties := obj.properties.filter fun key => !key.isBeyond n }

theorem Object.find?_cutAt (obj : Object) (n : UInt32) (key : PropertyKey) :
    (obj.cutAt n).properties.find? key = if key.isBeyond n then none else obj.properties.find? key := by
  show (obj.properties.filter fun key => !key.isBeyond n).find? key = _
  rw [PropertyMap.find?_filter]
  cases key.isBeyond n <;> rfl

/-- Cutting nothing off leaves the properties as they are. -/
theorem Object.find?_cutAt_of_below {n : UInt32}
    (hbelow : ∀ i c', obj.properties.find? (.index i) = some c' → i < n) (key : PropertyKey) :
    (obj.cutAt n).properties.find? key = obj.properties.find? key := by
  rw [Object.find?_cutAt]
  split
  · next hbeyond =>
    cases key with
    | string t => cases hbeyond
    | index i =>
      cases hi : obj.properties.find? (.index i) with
      | none => rfl
      | some c' => exact absurd (hbelow i c' hi) (UInt32.not_lt.mpr (of_decide_eq_true hbeyond))
  · rfl

/-- Cutting nothing off leaves the keys as they are. -/
theorem Object.keys_cutAt {n : UInt32} (hbelow : ∀ i c', obj.properties.find? (.index i) = some c' → i < n) :
    (obj.cutAt n).properties.keys = obj.properties.keys := by
  show (obj.properties.filter fun key => !key.isBeyond n).keys = _
  rw [PropertyMap.keys_filter, List.filter_eq_self]
  intro key hkey
  cases key with
  | string s => rfl
  | index i =>
    have hbound : ∃ c', obj.properties.find? (.index i) = some c' := by
      refine Option.ne_none_iff_exists'.mp fun hnone => ?_
      have hlookup : obj.properties.recent.lookup (.index i) = none := (obj.properties.index_eq _).symm.trans hnone
      refine PropertyMap.not_mem_keys_of_lookup hlookup ?_
      simpa [PropertyMap.keys, PropertyMap.toList, List.map_reverse] using hkey
    obtain ⟨c', hc'⟩ := hbound
    simpa [PropertyKey.isBeyond] using hbelow i c' hc'

/-! ### Assigning -/

/-- The cell of the length is overwritten, whatever its attributes say. -/
theorem writeLength_done [Heap.Memory] (hl : m.heap.HasLength m.realm.names.length a obj c d)
    (hd : d.content = .data w writable) (k : UInt32) :
    writeLength a k m = .done () { m with
      heap := m.heap.put c.handle (.cell { d with content := .data (.ofCount k.toNat) writable }) } := by
  unfold writeLength
  rw [Run.names_bind, Run.readHeap_bind, hl.ownCell]
  exact Run.onHeap_done (Heap.writeCell_done hl.cell hd (.ofCount k.toNat))

theorem wholeBelow?_lt {bound : Nat} (hx : Number.wholeBelow? bound x = some n) : n < bound := by
  unfold Number.wholeBelow? at hx
  obtain ⟨z, -, hz⟩ := Option.bind_eq_some_iff.mp hx
  split at hz
  · cases hz
    omega
  · cases hz

theorem wholeBelow?_ofCount {bound : Nat} (hn : n < bound) (hbound : bound ≤ 2 ^ 53) :
    Number.wholeBelow? bound (Number.ofCount n) = some n := by
  unfold Number.wholeBelow?
  rw [Number.whole?_ofCount (by omega), Option.bind_some, if_pos ⟨by omega, by omega⟩, Int.toNat_natCast]

theorem toNumber_primitive_eq (hv : v.isObject = false) (E : Engine) :
    toNumber E v = Run.readHeap fun h => h.numberOf v := by
  cases v with
  | object o => cases hv
  | _ => rfl

/-- **Assigning a count to the length** removes the elements that it cuts off and stores the count. -/
theorem setLength_done [Heap.Memory] (hl : m.heap.HasLength m.realm.names.length a obj c d)
    (hlength : ∀ k, m.realm.names.length.isBeyond k = false) (hd : d.content = .data w writable)
    (hv : v.isObject = false) (hx : m.heap.numberOf v = .ok x)
    (hn : Number.wholeBelow? UInt32.size x = some n) (E : Engine) :
    setLength E a v m = .done () { m with
      heap := (m.heap.put a.handle (.object (obj.cutAt n.toUInt32))).put c.handle
        (.cell { d with content := .data (.ofCount n) writable }) } := by
  have hlt := wholeBelow?_lt hn
  have hcut : Heap.retainKeys a (fun key => !key.isBeyond n.toUInt32) m.heap =
      .done () (m.heap.put a.handle (.object (obj.cutAt n.toUInt32))) := Heap.retainKeys_done hl.object _
  have hl' : Heap.HasLength (m.heap.put a.handle (.object (obj.cutAt n.toUInt32))) m.realm.names.length a
      (obj.cutAt n.toUInt32) c d :=
    ⟨by rw [Heap.object_put_object hl.object, if_pos rfl], hl.kind,
      by rw [Object.find?_cutAt, hlength]; exact hl.bound, by rw [Heap.cell_put_object hl.object, hl.cell]⟩
  unfold setLength
  rw [toNumber_primitive_eq hv, Run.readHeap_bind, hx]
  dsimp only
  rw [hn]
  show (Run.onHeap (Heap.retainKeys a fun key => !key.isBeyond n.toUInt32) >>= fun _ =>
    writeLength a n.toUInt32) m = _
  have hwritten := writeLength_done (m := { m with heap := m.heap.put a.handle (.object (obj.cutAt n.toUInt32)) })
    hl' hd n.toUInt32
  rw [show n.toUInt32.toNat = n from Nat.mod_eq_of_lt hlt] at hwritten
  rw [Proc.bind_done (Run.onHeap_done hcut)]
  exact hwritten

/-- A value that is no count is refused, and nothing changes. -/
theorem setLength_refused [Heap.Memory] (hv : v.isObject = false)
    (hno : ∀ x, m.heap.numberOf v = .ok x → Number.wholeBelow? UInt32.size x = none) (E : Engine) :
    ∃ e, setLength E a v m = .failed e m := by
  unfold setLength
  rw [toNumber_primitive_eq hv, Run.readHeap_bind]
  cases hx : m.heap.numberOf v with
  | error e => exact ⟨e, rfl⟩
  | ok x =>
    dsimp only
    rw [hno x hx]
    dsimp only
    rw [Run.readHeap_bind]
    cases m.heap.describe v with
    | error e => exact ⟨e, rfl⟩
    | ok text => exact ⟨_, rfl⟩

/-- Writing to a writable length is setting it. -/
theorem setProperty_length (hl : m.heap.HasLength m.realm.names.length a obj c d)
    (hd : d.content = .data w true) (E : Engine) (v : Value) (strict : Bool) :
    setProperty E a m.realm.names.length v strict m = (setLength E a v >>= fun _ => pure true) m := by
  have hwritable := hl.ownWritable
  unfold Descriptor.isWritable at hwritable
  rw [hd] at hwritable
  unfold setProperty
  rw [Run.names_bind, Run.readHeap_bind, hl.isArray]
  dsimp only
  rw [if_pos (by simp), Run.readHeap_bind, hwritable]
  rfl

/-! ### Defining -/

/-- **Defining an own property that accepts the patch** merges the patch into its cell. -/
theorem defineProperty_done {key : PropertyKey} {s : StringRef} (hkey : key = .string s)
    (hown : m.heap.ownCell a key = .ok (some c)) (hc : m.heap.cell c = .ok d) (hvalid : p.validate = .ok ())
    (haccepted : (!d.configurable && p.conflicts d) = false) :
    defineProperty a key p m = .done true { m with heap := m.heap.put c.handle (.cell (p.applyTo d)) } := by
  subst hkey
  unfold defineProperty
  rw [hvalid]
  show ((Run.readHeap fun h => h.ownCell a (.string s)) >>= _) m = _
  rw [Run.readHeap_bind, hown]
  dsimp only
  rw [Run.readHeap_bind, hc]
  dsimp only
  rw [haccepted]
  exact Proc.bind_done (Run.onHeap_done (Heap.putCell_done hc (p.applyTo d))) _

/-- A patch with a value is about a value. -/
theorem Patch.isAccessor_of_value (hvalid : p.validate = .ok ()) (hvalue : p.value = some v) :
    p.isAccessor = false := by
  unfold Patch.validate at hvalid
  cases haccessor : p.isAccessor with
  | false => rfl
  | true =>
    rw [haccessor] at hvalid
    simp [Patch.isData, hvalue] at hvalid

/-- The patch without its value: what it says about the attributes. -/
def Patch.attributes (p : Patch) : Patch := { p with value := none }

/-- What a writable value becomes by a patch with a value. -/
theorem Patch.applyTo_value (hvalid : p.validate = .ok ()) (hvalue : p.value = some v)
    (hd : d.content = .data w true) :
    p.applyTo d = { p.attributes.applyTo d with content := .data v (p.writable.getD true) } := by
  unfold Patch.applyTo Patch.attributes
  rw [hd]
  dsimp only
  rw [Patch.isAccessor_of_value hvalid hvalue, hvalue]
  rfl

/-- A writable value takes the attributes of a patch whose value it takes. -/
theorem Patch.attributes_accepted (hvalid : p.validate = .ok ()) (hvalue : p.value = some v)
    (hd : d.content = .data w true) (haccepted : (!d.configurable && p.conflicts d) = false) (u : Value) :
    p.attributes.validate = .ok () ∧ p.attributes.isAccessor = false ∧
    (!d.configurable && p.attributes.conflicts { d with content := .data u true }) = false := by
  have haccessor := Patch.isAccessor_of_value hvalid hvalue
  have hattributes : p.attributes.isAccessor = false := haccessor
  refine ⟨by simp [Patch.validate, hattributes], hattributes, ?_⟩
  unfold Patch.conflicts at haccepted ⊢
  rw [hd] at haccepted
  rw [hattributes]
  rw [haccessor] at haccepted
  exact haccepted

/-! ### Defining and assigning -/

/-- The two heaps have the same objects with the same keys in the same order, bound to the same cells, and the
cells hold the same. -/
structure Heap.SameProperties (h h' : Heap) : Prop where
  ownKeys : ∀ o, h.ownKeys o = h'.ownKeys o
  ownCell : ∀ o key, h.ownCell o key = h'.ownCell o key
  cell : ∀ c, h.cell c = h'.cell c

/-- The two outcomes answer the same and leave machines that have the same properties. -/
inductive Outcome.Agrees {α : Type} : Outcome Machine α → Outcome Machine α → Prop where
  | done (x : α) {m m' : Machine} (same : m.heap.SameProperties m'.heap) : Agrees (.done x m) (.done x m')
  | failed (e : Error) {m m' : Machine} (same : m.heap.SameProperties m'.heap) : Agrees (.failed e m) (.failed e m')
  | stalled : Agrees .stalled .stalled

/-- The value is assigned to the length, and then the attributes of the patch are defined. -/
def assignLength (engine : Engine) (a : ObjectRef) (v : Value) (p : Patch) (strict : Bool) : Run Bool := do
  let names ← Run.names
  if ← setProperty engine a names.length v strict then defineProperty a names.length p.attributes else return false

/-- **Where a length was written with and without cutting** the heaps have the same properties exactly when the
lengths are the same and nothing was cut off. -/
theorem Heap.HasLength.sameProperties_cut_iff (hl : h.HasLength length a obj c d) {d₁ d₂ : Descriptor}
    (hn : n < UInt32.size) :
    (h.put c.handle (.cell d₁)).SameProperties
      ((h.put a.handle (.object (obj.cutAt n.toUInt32))).put c.handle (.cell d₂)) ↔
    d₁ = d₂ ∧ ∀ i c', obj.properties.find? (.index i) = some c' → i.toNat < n := by
  have hcount : n.toUInt32.toNat = n := Nat.mod_eq_of_lt hn
  -- What the two heaps say about the array, about other objects and about cells.
  have hcut : Heap.cell (h.put a.handle (.object (obj.cutAt n.toUInt32))) c = .ok d :=
    (Heap.cell_put_object hl.object _ c).trans hl.cell
  have hobject : ∀ o, Heap.object ((h.put a.handle (.object (obj.cutAt n.toUInt32))).put c.handle (.cell d₂)) o =
      if o = a then .ok (obj.cutAt n.toUInt32) else h.object o := fun o => by
    rw [Heap.object_put_cell hcut, Heap.object_put_object hl.object]
  constructor
  · intro hsame
    refine ⟨?_, fun i c' hfind => ?_⟩
    · have hcell := hsame.cell c
      rw [Heap.cell_put_cell hl.cell, Heap.cell_put_cell hcut, if_pos rfl, if_pos rfl] at hcell
      exact Except.ok.inj hcell
    · have hown := hsame.ownCell a (.index i)
      unfold Heap.ownCell at hown
      rw [Heap.object_put_cell hl.cell, hl.object, hobject, if_pos rfl] at hown
      replace hown := Except.ok.inj hown
      rw [hfind, Object.find?_cutAt] at hown
      split at hown
      · cases hown
      · next hbeyond => simpa [PropertyKey.isBeyond, UInt32.le_iff_toNat_le, hcount] using hbeyond
  · rintro ⟨rfl, hbelow⟩
    have hlt : ∀ i c', obj.properties.find? (.index i) = some c' → i < n.toUInt32 := fun i c' hi => by
      rw [UInt32.lt_iff_toNat_lt, hcount]
      exact hbelow i c' hi
    refine ⟨fun o => ?_, fun o key => ?_, fun c' => ?_⟩
    · unfold Heap.ownKeys
      rw [Heap.object_put_cell hl.cell, hobject]
      split
      · next hoa =>
        rw [hoa, hl.object]
        exact congrArg Except.ok (Object.keys_cutAt hlt).symm
      · rfl
    · unfold Heap.ownCell
      rw [Heap.object_put_cell hl.cell, hobject]
      split
      · next hoa =>
        rw [hoa, hl.object]
        exact congrArg Except.ok (Object.find?_cutAt_of_below hlt key).symm
      · rfl
    · rw [Heap.cell_put_cell hl.cell, Heap.cell_put_cell hcut, Heap.cell_put_object hl.object]

/-- Of two blocks that are put in one place the later stays. -/
theorem Heap.put_put (h : Heap) (id : Handle) (b b' : Block) : (h.put id b).put id b' = h.put id b' := by
  unfold Heap.put
  simp only [Array.setIfInBounds_setIfInBounds]

/-- **Assigning a count and defining the attributes** leaves the count with the attributes of the patch. -/
theorem assignLength_done (hl : m.heap.HasLength m.realm.names.length a obj c d) {s : StringRef}
    (hname : m.realm.names.length = .string s) (hd : d.content = .data w true) (hvalid : p.validate = .ok ())
    (hvalue : p.value = some v) (haccepted : (!d.configurable && p.conflicts d) = false)
    (hv : v.isObject = false) (hx : m.heap.numberOf v = .ok x) (hn : Number.wholeBelow? UInt32.size x = some n)
    (E : Engine) (strict : Bool) :
    assignLength E a v p strict m = .done true { m with
      heap := (m.heap.put a.handle (.object (obj.cutAt n.toUInt32))).put c.handle
        (.cell { p.attributes.applyTo d with content := .data (.ofCount n) (p.writable.getD true) }) } := by
  have hlength : ∀ k, m.realm.names.length.isBeyond k = false := fun k => by rw [hname]; rfl
  obtain ⟨hvalid', haccessor', haccepted'⟩ :=
    Patch.attributes_accepted hvalid hvalue hd haccepted (.ofCount n)
  have hc₁ : Heap.cell (m.heap.put a.handle (.object (obj.cutAt n.toUInt32))) c = .ok d := by
    rw [Heap.cell_put_object hl.object, hl.cell]
  have happly : p.attributes.applyTo { d with content := .data (.ofCount n) true } =
      { p.attributes.applyTo d with content := .data (.ofCount n) (p.writable.getD true) } := by
    unfold Patch.applyTo
    rw [haccessor']
    rfl
  unfold assignLength
  rw [Run.names_bind, Proc.bind_eq, setProperty_length hl hd, Proc.bind_eq,
    setLength_done hl hlength hd hv hx hn]
  show defineProperty a m.realm.names.length p.attributes _ = _
  rw [defineProperty_done (c := c) (d := { d with content := .data (.ofCount n) true }) hname ?_ ?_ hvalid' haccepted',
    happly, Heap.put_put]
  · exact Heap.ownCell_eq_ok.mpr ⟨obj.cutAt n.toUInt32,
      by rw [Heap.object_put_cell hc₁, Heap.object_put_object hl.object, if_pos rfl],
      by rw [Object.find?_cutAt, hlength]; exact hl.bound⟩
  · rw [Heap.cell_put_cell hc₁, if_pos rfl]

/-- **When defining the length of an array agrees with assigning it.** Let the length be writable, let the patch have
a primitive for a value, and let the definition of the length by the patch be accepted.

* The definition stores the value as it is given, with the attributes of the patch, and removes no element.
* Assigning the value first and then defining the attributes is refused, and leaves the array as it was, if the value
  converts to no whole number below `2 ^ 32`.
* If it converts to one, the length holds that number afterwards, with the attributes of the patch, and all elements
  from there on are gone.
* So the two agree exactly when the value is such a number itself and no element is cut off. -/
theorem define_length_agrees {s : StringRef} (hl : m.heap.HasLength m.realm.names.length a obj c d)
    (hname : m.realm.names.length = .string s) (hd : d.content = .data w true) (hvalid : p.validate = .ok ())
    (hvalue : p.value = some v) (hv : v.isObject = false)
    (haccepted : (!d.configurable && p.conflicts d) = false) (E : Engine) (strict : Bool) :
    defineProperty a m.realm.names.length p m = .done true { m with
      heap := m.heap.put c.handle
        (.cell { p.attributes.applyTo d with content := .data v (p.writable.getD true) }) } ∧
    ((∀ x, m.heap.numberOf v = .ok x → Number.wholeBelow? UInt32.size x = none) →
      ∃ e, assignLength E a v p strict m = .failed e m) ∧
    (∀ x n, m.heap.numberOf v = .ok x → Number.wholeBelow? UInt32.size x = some n →
      assignLength E a v p strict m = .done true { m with
        heap := (m.heap.put a.handle (.object (obj.cutAt n.toUInt32))).put c.handle
          (.cell { p.attributes.applyTo d with content := .data (.ofCount n) (p.writable.getD true) }) }) ∧
    ((defineProperty a m.realm.names.length p m).Agrees (assignLength E a v p strict m) ↔
      ∃ n < UInt32.size, v = .ofCount n ∧
        ∀ i c', obj.properties.find? (.index i) = some c' → i.toNat < n) := by
  have hdefined := defineProperty_done hname hl.ownCell hl.cell hvalid haccepted
  rw [Patch.applyTo_value hvalid hvalue hd] at hdefined
  have hassigned := fun x n hx hn =>
    assignLength_done (x := x) (n := n) hl hname hd hvalid hvalue haccepted hv hx hn E strict
  have hrefused : (∀ x, m.heap.numberOf v = .ok x → Number.wholeBelow? UInt32.size x = none) →
      ∃ e, assignLength E a v p strict m = .failed e m := by
    intro hno
    obtain ⟨e, he⟩ := setLength_refused (m := m) (a := a) hv hno E
    refine ⟨e, ?_⟩
    unfold assignLength
    rw [Run.names_bind, Proc.bind_eq, setProperty_length hl hd, Proc.bind_eq, he]
    rfl
  refine ⟨hdefined, hrefused, hassigned, ?_⟩
  rw [hdefined]
  constructor
  · intro hagrees
    by_cases hno : ∀ x, m.heap.numberOf v = .ok x → Number.wholeBelow? UInt32.size x = none
    · obtain ⟨e, he⟩ := hrefused hno
      rw [he] at hagrees
      cases hagrees
    · simp only [not_forall] at hno
      obtain ⟨x, hx, hsome⟩ := hno
      obtain ⟨n, hn⟩ := Option.ne_none_iff_exists'.mp hsome
      rw [hassigned x n hx hn] at hagrees
      cases hagrees with
      | done _ same =>
        obtain ⟨hcell, hbelow⟩ := (hl.sameProperties_cut_iff (wholeBelow?_lt hn)).mp same
        injection hcell with _ _ _ hcontent
        injection hcontent with hvalue
        exact ⟨n, wholeBelow?_lt hn, hvalue, hbelow⟩
  · rintro ⟨n, hlt, rfl, hbelow⟩
    rw [hassigned _ n rfl (wholeBelow?_ofCount hlt (by decide))]
    exact .done true ((hl.sameProperties_cut_iff hlt).mpr ⟨rfl, hbelow⟩)

/-- The length of a new array, and a patch that makes it `true` and read-only. -/
theorem define_length_agrees_bool : ∃ (m : Machine) (a : ObjectRef) (obj : Object) (c : CellRef) (d : Descriptor)
    (s : StringRef) (w : Value) (p : Patch), m.heap.HasLength m.realm.names.length a obj c d ∧
    m.realm.names.length = .string s ∧ d.content = .data w true ∧ p.validate = .ok () ∧
    p.value = some (.bool true) ∧ (!d.configurable && p.conflicts d) = false ∧
    ¬ (defineProperty a m.realm.names.length p m).Agrees
      (assignLength Edit.refusing a (.bool true) p false m) := by
  have hfit : (Machine.create .standard {} 0 true).toOption.any arrayEditsFit = true := by decide +kernel
  cases hm : Machine.create .standard {} 0 true with
  | error e => rw [hm] at hfit; cases hfit
  | ok m =>
    rw [hm] at hfit
    change arrayEditsFit m = true at hfit
    unfold arrayEditsFit at hfit
    cases halloc : allocArray [.null, .null] m with
    | failed e m₀ => rw [halloc] at hfit; cases hfit
    | stalled => rw [halloc] at hfit; cases hfit
    | done a m₀ =>
      rw [halloc] at hfit
      obtain ⟨hname, -⟩ := Bool.and_eq_true_iff.mp hfit
      obtain ⟨c, n, -, hmeasured⟩ := Machine.allocArray_sized (Machine.built_create hm) (beq_iff_eq.mp hname) halloc
      obtain ⟨obj, hl⟩ := hmeasured.hasLength
      refine ⟨m₀, a, obj, c, _, _, _, { value := some (.bool true), writable := some false }, hl, hmeasured.name,
        rfl, rfl, rfl, rfl, fun hagrees => ?_⟩
      obtain ⟨k, -, hk, -⟩ := (define_length_agrees hl hmeasured.name rfl rfl rfl rfl rfl
        Edit.refusing false).2.2.2.mp hagrees
      cases hk

/-- On the machine an array of two values can be made, and the definition of its length as zero leaves the second
value there. -/
def definedLengthKeeps (m : Machine) : Bool :=
  match allocArray [.null, .null] m with
  | .done a m₁ =>
    match defineProperty a m₁.realm.names.length { value := some (.ofCount 0) } m₁ with
    | .done true m₂ =>
      (m₂.heap.lengthOf m₂.realm.names a).toOption == some 0 &&
        (m₂.heap.ownProperty a (.index 1)).toOption == some (some (.data .null))
    | _ => false
  | _ => false

theorem Except.eq_ok_of_toOption {ε α : Type} {r : Except ε α} {x : α} (h : r.toOption = some x) : r = .ok x := by
  cases r with
  | error e => cases h
  | ok y => cases h; rfl

/-- What a check finds is there. -/
theorem Except.exists_of_any {ε α : Type} {r : Except ε α} {p : α → Bool} (h : r.toOption.any p = true) :
    ∃ x, r = .ok x ∧ p x = true := by
  cases r with
  | error e => cases h
  | ok x => exact ⟨x, rfl, h⟩

/-- **A length that is defined cuts nothing off.** -/
theorem defined_length_keeps_elements : ∃ (m m₁ m₂ : Machine) (a : ObjectRef),
    Machine.create .standard {} 0 true = .ok m ∧ allocArray [.null, .null] m = .done a m₁ ∧
    defineProperty a m₁.realm.names.length { value := some (.ofCount 0) } m₁ = .done true m₂ ∧
    m₂.heap.lengthOf m₂.realm.names a = .ok 0 ∧
    m₂.heap.ownProperty a (.index 1) = .ok (some (.data .null)) := by
  have hfit : (Machine.create .standard {} 0 true).toOption.any definedLengthKeeps = true := by decide +kernel
  cases hm : Machine.create .standard {} 0 true with
  | error e => rw [hm] at hfit; cases hfit
  | ok m =>
    rw [hm] at hfit
    change definedLengthKeeps m = true at hfit
    unfold definedLengthKeeps at hfit
    cases halloc : allocArray [.null, .null] m with
    | failed e m₁ => rw [halloc] at hfit; cases hfit
    | stalled => rw [halloc] at hfit; cases hfit
    | done a m₁ =>
      rw [halloc] at hfit
      dsimp only at hfit
      split at hfit
      · next m₂ hdefined =>
        rw [Bool.and_eq_true, beq_iff_eq, beq_iff_eq] at hfit
        exact ⟨m, m₁, m₂, a, rfl, halloc, hdefined, Except.eq_ok_of_toOption hfit.1,
          Except.eq_ok_of_toOption hfit.2⟩
      · cases hfit

end ScriptCore
