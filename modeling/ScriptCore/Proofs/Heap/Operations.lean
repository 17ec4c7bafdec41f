import ScriptCore.Proofs.Heap.Routine

/-! # The heaps that operations lead to

`Heap.Op` lists what can be done to a heap: the allocations and the writes, the roots of the host,
and collections with whatever handles are reported. Operations may fail; the heap they leave counts
too. A heap is *reached* when a list of operations leads to it from an empty heap.

* `modifyObject_done`, `writeCell_done` and so on: the blocks that writing operations overwrite.
* `Op.keeps`, `Built.induct`: how to prove something of every heap that is reached.
* `Built.valid`: every heap that is reached is valid.
* `collect_exact`: what a collection keeps, on every heap that is reached. -/

namespace ScriptCore.Heap

variable {h : Heap}

/-! ### The primitives keep the invariant -/

theorem keeps_alloc {b : Block} (hb : ∀ t, b ≠ .string t) : Proc.Keeps Valid (alloc b) := by
  intro h hv
  rcases alloc_cases hv.toConsistent b with hf | ⟨id, h', hd, ha⟩
  · rw [hf]; exact hv
  · rw [hd]; exact ha.valid hv hb

theorem keeps_intern (t : Text) : Proc.Keeps Valid (intern t) := by
  intro h hv
  rcases intern_cases hv t with ⟨s, hd, -⟩ | ⟨-, ⟨hf, -⟩ | ⟨s, h', h'', -, hd, -, -, -, -, hi⟩⟩
  · rw [hd]; exact hv
  · rw [hf]; exact hv
  · rw [hd]; exact hi.valid

theorem object_eq_ok {o : ObjectRef} {obj : Object} :
    h.object o = .ok obj ↔ h.block? o.handle = some (.object obj) := by
  unfold object
  split <;> simp_all

theorem scope_eq_ok {s : ScopeRef} {sc : Scope} :
    h.scope s = .ok sc ↔ h.block? s.handle = some (.scope sc) := by
  unfold scope
  split <;> simp_all

theorem cell_eq_ok {c : CellRef} {d : Descriptor} :
    h.cell c = .ok d ↔ h.block? c.handle = some (.cell d) := by
  unfold cell
  split <;> simp_all

theorem text_eq_ok {s : StringRef} {t : Text} :
    h.text s = .ok t ↔ h.block? s.handle = some (.string t) := by
  unfold text
  split <;> simp_all

theorem ownCell_eq_ok {o : ObjectRef} {key : PropertyKey} {found : Option CellRef} :
    h.ownCell o key = .ok found ↔ ∃ obj, h.object o = .ok obj ∧ obj.properties.find? key = found := by
  unfold ownCell
  cases h.object o with
  | error e => exact ⟨nofun, fun ⟨_, hobj, _⟩ => by cases hobj⟩
  | ok obj =>
    refine ⟨fun hfind => ⟨obj, rfl, Except.ok.inj hfind⟩, ?_⟩
    rintro ⟨_, ⟨⟩, hfind⟩
    exact congrArg _ hfind

theorem isArray_eq_ok {o : ObjectRef} {b : Bool} :
    h.isArray o = .ok b ↔ ∃ obj, h.object o = .ok obj ∧ (b = true ↔ obj.kind = .array) := by
  unfold isArray
  cases ho : h.object o with
  | error e => exact ⟨nofun, fun ⟨_, hobj, _⟩ => by cases hobj⟩
  | ok obj => cases hkind : obj.kind <;> simp [bind, Except.bind, hkind, pure, Except.pure, eq_comm]

/-! ### Overwriting -/

section Overwriting

variable {I : Heap → Prop} {o : ObjectRef} {obj : Object} {s : ScopeRef} {sc : Scope} {c : CellRef} {d : Descriptor}
  {u : Value} {w : Bool}

theorem Valid.putObject (hv : h.Valid) (ho : h.object o = .ok obj) (obj' : Object) :
    (h.put o.handle (.object obj')).Valid :=
  hv.put (object_eq_ok.mp ho) (by simp) (by simp)

theorem Valid.putScope (hv : h.Valid) (hs : h.scope s = .ok sc) (sc' : Scope) : (h.put s.handle (.scope sc')).Valid :=
  hv.put (scope_eq_ok.mp hs) (by simp) (by simp)

theorem Valid.putCell (hv : h.Valid) (hc : h.cell c = .ok d) (d' : Descriptor) : (h.put c.handle (.cell d')).Valid :=
  hv.put (cell_eq_ok.mp hc) (by simp) (by simp)

theorem modifyObject_failed {e : Error} (ho : h.object o = .error e) (f : Object → Object) :
    modifyObject o f h = .failed e h := by
  unfold modifyObject
  rw [ho]

theorem modifyScope_failed {e : Error} (hs : h.scope s = .error e) (f : Scope → Scope) :
    modifyScope s f h = .failed e h := by
  unfold modifyScope
  rw [hs]

theorem modifyCell_failed {e : Error} (hc : h.cell c = .error e) (f : Descriptor → Except Error Descriptor) :
    modifyCell c f h = .failed e h := by
  unfold modifyCell
  rw [hc]

theorem modifyObject_done (ho : h.object o = .ok obj) (f : Object → Object) :
    modifyObject o f h = .done () (h.put o.handle (.object (f obj))) := by
  unfold modifyObject
  rw [ho]

theorem modifyScope_done (hs : h.scope s = .ok sc) (f : Scope → Scope) :
    modifyScope s f h = .done () (h.put s.handle (.scope (f sc))) := by
  unfold modifyScope
  rw [hs]

theorem putCell_done (hc : h.cell c = .ok d) (d' : Descriptor) :
    putCell c d' h = .done () (h.put c.handle (.cell d')) := by
  unfold putCell modifyCell
  rw [hc]

theorem writeCell_done (hc : h.cell c = .ok d) (hd : d.content = .data u w) (v : Value) :
    writeCell c v h = .done () (h.put c.handle (.cell { d with content := .data v w })) := by
  unfold writeCell modifyCell
  rw [hc]
  dsimp only
  rw [hd]

/-- A cell with accessors is not written. -/
theorem writeCell_accessor {g t : Value} (hc : h.cell c = .ok d) (hd : d.content = .accessor g t) (v : Value) :
    writeCell c v h = .failed .invalidHandle h := by
  unfold writeCell modifyCell
  rw [hc]
  dsimp only
  rw [hd]

theorem installCell_done (ho : h.object o = .ok obj) (hc : h.cell c = .ok d) (key : PropertyKey) :
    installCell o key c h =
      .done () (h.put o.handle (.object { obj with properties := obj.properties.insert key c })) := by
  rw [installCell_ample, Proc.discard_bind, Proc.reads_bind, hc]
  exact modifyObject_done ho _

theorem remove_done {key : PropertyKey} (ho : h.object o = .ok obj) (hown : h.ownCell o key = .ok (some c)) :
    remove o key h = .done true (h.put o.handle (.object { obj with properties := obj.properties.erase key })) := by
  unfold remove
  rw [Proc.reads_bind, hown]
  exact Proc.bind_done (modifyObject_done ho _) _

theorem retainKeys_done (ho : h.object o = .ok obj) (p : PropertyKey → Bool) :
    retainKeys o p h = .done () (h.put o.handle (.object { obj with properties := obj.properties.filter p })) :=
  modifyObject_done ho _

/-- Changing an object fails, or overwrites it. -/
theorem leaves_modifyObject {f : Object → Object} (hi : I h)
    (hput : ∀ obj, h.object o = .ok obj → I (h.put o.handle (.object (f obj)))) : (modifyObject o f h).Leaves I := by
  cases ho : h.object o with
  | error e =>
    rw [modifyObject_failed ho]
    exact hi
  | ok obj =>
    rw [modifyObject_done ho]
    exact hput obj ho

/-- Changing a scope fails, or overwrites it. -/
theorem leaves_modifyScope {f : Scope → Scope} (hi : I h)
    (hput : ∀ sc, h.scope s = .ok sc → I (h.put s.handle (.scope (f sc)))) : (modifyScope s f h).Leaves I := by
  cases hs : h.scope s with
  | error e =>
    rw [modifyScope_failed hs]
    exact hi
  | ok sc =>
    rw [modifyScope_done hs]
    exact hput sc hs

/-- Changing a cell fails, or overwrites it. -/
theorem leaves_modifyCell {f : Descriptor → Except Error Descriptor} (hi : I h)
    (hput : ∀ d d', h.cell c = .ok d → f d = .ok d' → I (h.put c.handle (.cell d'))) : (modifyCell c f h).Leaves I := by
  unfold modifyCell
  cases hc : h.cell c with
  | error e => exact hi
  | ok d =>
    dsimp only
    cases hf : f d with
    | error e => exact hi
    | ok d' => exact hput d d' hc hf

/-- Writing to a cell fails, or overwrites its value. -/
theorem leaves_writeCell {v : Value} (hi : I h) (hput : ∀ d u w, h.cell c = .ok d → d.content = .data u w →
      I (h.put c.handle (.cell { d with content := .data v w }))) : (writeCell c v h).Leaves I := by
  refine leaves_modifyCell hi fun d d' hc hf => ?_
  cases hd : d.content with
  | accessor get set => rw [hd] at hf; cases hf
  | data u w =>
    rw [hd] at hf
    cases hf
    exact hput d u w hc hd

end Overwriting

theorem keeps_modifyObject (o : ObjectRef) (f : Object → Object) : Proc.Keeps Valid (modifyObject o f) := fun _ hv =>
  leaves_modifyObject hv fun _ ho => hv.putObject ho _

theorem keeps_modifyScope (s : ScopeRef) (f : Scope → Scope) : Proc.Keeps Valid (modifyScope s f) := fun _ hv =>
  leaves_modifyScope hv fun _ hs => hv.putScope hs _

theorem keeps_modifyCell (c : CellRef) (f : Descriptor → Except Error Descriptor) :
    Proc.Keeps Valid (modifyCell c f) := fun _ hv =>
  leaves_modifyCell hv fun _ d' hc _ => hv.putCell hc d'

theorem Routine.keeps_valid {α : Type} {K : ObjectKind → Prop} {p : Proc Heap α} (hp : Routine K p) :
    Proc.Keeps Valid p :=
  hp.keeps (fun _ hb _ => keeps_alloc hb) keeps_intern (fun o f _ => keeps_modifyObject o f)
    keeps_modifyScope keeps_modifyCell

/-! ### Operations and the heaps they lead to -/

/-- What can be done to a heap. -/
inductive Op where
  | intern (t : Text)
  | allocCell (d : Descriptor)
  | putCell (c : CellRef) (d : Descriptor)
  | writeCell (c : CellRef) (v : Value)
  | allocObject (prototype : Option ObjectRef) (tag : ClassTag) (kind : ObjectKind)
  | setPrototype (o : ObjectRef) (p : Option ObjectRef)
  | preventExtensions (o : ObjectRef)
  | installCell (o : ObjectRef) (key : PropertyKey) (c : CellRef)
  | define (o : ObjectRef) (key : PropertyKey) (d : Descriptor)
  | remove (o : ObjectRef) (key : PropertyKey)
  | retainKeys (o : ObjectRef) (p : PropertyKey → Bool)
  | allocScope (s : Scope)
  | setReceiver (s : ScopeRef) (v : Value)
  | setStrict (s : ScopeRef) (strict : Bool)
  | setWriteTo (s : ScopeRef) (target : Option ObjectRef)
  | addRoot (v : Value)
  | removeRoot (i : Nat)
  | collect (reported : List Handle)

/-- The heap that a procedure leaves, however it ends. -/
def after {α : Type} (p : Proc Heap α) (h : Heap) : Heap :=
  match p h with
  | .done _ h => h
  | .failed _ h => h
  | .stalled => h

/-- The heap that an operation leaves, whether it succeeds or fails. -/
def Op.run : Op → Heap → Heap
  | .intern t => after (Heap.intern t)
  | .allocCell d => after (Heap.allocCell d)
  | .putCell c d => after (Heap.putCell c d)
  | .writeCell c v => after (Heap.writeCell c v)
  | .allocObject prototype tag kind => after (Heap.allocObject prototype tag kind)
  | .setPrototype o p => after (Heap.setPrototype o p)
  | .preventExtensions o => after (Heap.preventExtensions o)
  | .installCell o key c => after (Heap.installCell o key c)
  | .define o key d => after (Heap.define o key d)
  | .remove o key => after (Heap.remove o key)
  | .retainKeys o p => after (Heap.retainKeys o p)
  | .allocScope s => after (Heap.allocScope s)
  | .setReceiver s v => after (setScopeReceiver s v)
  | .setStrict s strict => after (setScopeStrict s strict)
  | .setWriteTo s target => after (setScopeWriteTo s target)
  | .addRoot v => fun h => (h.addRoot v).2
  | .removeRoot i => fun h => h.removeRoot i
  | .collect reported => fun h => h.collect reported

/-- The heap is what some operations make of an empty one. -/
def Built (h : Heap) : Prop :=
  ∃ (limits : HeapLimits) (ops : List Op), h = ops.foldl (fun h op => op.run h) (empty limits)

theorem after_of_keeps {α : Type} {I : Heap → Prop} {p : Proc Heap α} (hp : Proc.Keeps I p) (hi : I h) :
    I (after p h) := by
  have hl := hp h hi
  unfold after
  cases hph : p h with
  | done a h' => rw [hph] at hl; exact hl
  | failed e h' => rw [hph] at hl; exact hl
  | stalled => exact hi

/-- The operation is none of those on the roots. -/
def Op.SparesRoots : Op → Prop
  | .addRoot _ => False
  | .removeRoot _ => False
  | _ => True

/-- What the routines and the collections keep true, every operation that spares the roots keeps true. -/
theorem Op.SparesRoots.keeps {I : Heap → Prop} {op : Op} (hop : op.SparesRoots)
    (hroutine : ∀ {α : Type} (p : Proc Heap α), Routine (fun _ => True) p → Proc.Keeps I p)
    (hcollect : ∀ h reported, I h → I (h.collect reported)) (hi : I h) : I (op.run h) := by
  have hafter : ∀ {α : Type} (p : Proc Heap α), Routine (fun _ => True) p → I (after p h) :=
    fun p hp => after_of_keeps (hroutine p hp) hi
  cases op with
  | intern t => exact hafter _ (.intern t)
  | allocCell d => exact hafter _ (routine_allocCell d)
  | putCell c d => exact hafter _ (.modifyCell c _)
  | writeCell c v => exact hafter _ (.modifyCell c _)
  | allocObject prototype tag kind => exact hafter _ (routine_allocObject prototype tag trivial)
  | setPrototype o p => exact hafter _ (routine_setPrototype o p)
  | preventExtensions o => exact hafter _ (routine_preventExtensions o)
  | installCell o key c => exact hafter _ (routine_installCell o key c)
  | define o key d => exact hafter _ (routine_define o key d)
  | remove o key => exact hafter _ (routine_remove o key)
  | retainKeys o p => exact hafter _ (routine_retainKeys o p)
  | allocScope s => exact hafter _ (routine_allocScope s)
  | setReceiver s v => exact hafter _ (.modifyScope s _)
  | setStrict s strict => exact hafter _ (.modifyScope s _)
  | setWriteTo s target => exact hafter _ (routine_setScopeWriteTo s target)
  | addRoot v => exact hop.elim
  | removeRoot i => exact hop.elim
  | collect reported => exact hcollect h reported hi

/-- **What the routines, the roots and the collections keep true, every operation keeps true.** -/
theorem Op.keeps {I : Heap → Prop}
    (hroutine : ∀ {α : Type} (p : Proc Heap α), Routine (fun _ => True) p → Proc.Keeps I p)
    (hadd : ∀ h v, I h → I (h.addRoot v).2) (hremove : ∀ h i, I h → I (h.removeRoot i))
    (hcollect : ∀ h reported, I h → I (h.collect reported)) (op : Op) (hi : I h) : I (op.run h) := by
  cases op with
  | addRoot v => exact hadd h v hi
  | removeRoot i => exact hremove h i hi
  | _ => exact Op.SparesRoots.keeps trivial hroutine hcollect hi

/-- What holds of empty heaps and is kept by every operation holds of every heap that is reached. -/
theorem Built.induct {I : Heap → Prop} (hempty : ∀ limits, I (empty limits))
    (hrun : ∀ (op : Op) (h : Heap), I h → I (op.run h)) (hb : h.Built) : I h := by
  obtain ⟨limits, ops, rfl⟩ := hb
  have hfold : ∀ (ops : List Op) (h : Heap), I h → I (ops.foldl (fun h op => op.run h) h) := by
    intro ops
    induction ops with
    | nil => exact fun h hi => hi
    | cons op ops ih => exact fun h hi => ih _ (hrun op h hi)
  exact hfold ops _ (hempty limits)

theorem Built.run (hb : h.Built) (op : Op) : (op.run h).Built := by
  obtain ⟨limits, ops, rfl⟩ := hb
  exact ⟨limits, ops ++ [op], by rw [List.foldl_append]; rfl⟩

/-- What an operation does leads from heaps that operations lead to, to such heaps. -/
theorem keeps_built {α : Type} {p : Proc Heap α} (op : Op) (hop : ∀ h, op.run h = after p h) :
    Proc.Keeps Built p := by
  intro h hb
  have hrun := hb.run op
  rw [hop] at hrun
  unfold after at hrun
  cases hp : p h with
  | done x h' => rw [hp] at hrun; exact hrun
  | failed e h' => rw [hp] at hrun; exact hrun
  | stalled => trivial

theorem block?_addRoot (h : Heap) (v : Value) (x : Handle) : (h.addRoot v).2.block? x = h.block? x := by
  unfold Heap.addRoot
  split <;> rfl

theorem Valid.addRoot (hv : h.Valid) (v : Value) : (h.addRoot v).2.Valid := by
  unfold Heap.addRoot
  split <;> exact ⟨⟨hv.1.1, hv.1.2, hv.1.3⟩, hv.2, hv.3⟩

theorem Valid.removeRoot (hv : h.Valid) (i : Nat) : (h.removeRoot i).Valid := by
  unfold Heap.removeRoot
  split
  · exact ⟨⟨hv.1.1, hv.1.2, hv.1.3⟩, hv.2, hv.3⟩
  · exact hv

/-- **Every operation keeps the invariant.** -/
theorem Valid.run (hv : h.Valid) (op : Op) : (op.run h).Valid :=
  op.keeps (fun _ hp => hp.keeps_valid) (fun _ v hv => hv.addRoot v) (fun _ i hv => hv.removeRoot i)
    (fun _ reported hv => hv.collect reported) hv

theorem Built.valid (hb : h.Built) : h.Valid :=
  hb.induct valid_empty fun op _ hv => hv.run op

/-! ### Collections -/

/-- **A collection is exact.** On every heap that operations lead to, and for every list of reported
handles, stale or foreign ones included: a slot is occupied afterwards exactly when it was before and
is reached from the host's roots or the reported handles, by what blocks refer to in each of their
parts (`Block.RefersTo`), and it then keeps its block and its generation; and taking handles off the worklist one at a time comes to an end. -/
theorem collect_exact (hb : h.Built) (reported : List Handle) :
    (h.collect reported).slots.size = h.slots.size ∧
    (∀ i g b, (h.collect reported).slots[i]? = some ⟨g, some b⟩ ↔
      h.slots[i]? = some ⟨g, some b⟩ ∧ Reach h.slots (h.rootHandles ++ reported) ⟨i, g⟩) ∧
    ∃ steps, (popStep h.slots)^[steps] (popStart h.slots (h.rootHandles ++ reported) h.marks) =
      ([], mark h.slots h.slots.size (h.rootHandles ++ reported) h.marks) :=
  have hv := hb.valid
  ⟨size_collect h reported, slots_collect hv.marks_size hv.marks_clear reported,
    popStep_terminates hv.marks_size hv.marks_clear _⟩

/-- Two objects, of which a collection freed the second; its slot was then filled again by an array
that inherits from the first. -/
def refilled : Heap :=
  [Op.allocObject none .object .ordinary, .allocObject none .object .ordinary, .collect [⟨0, 0⟩],
    .allocObject (some ⟨⟨0, 0⟩⟩) .array .array].foldl (fun h op => op.run h) (empty (.ofMax 8))

/-- A stale handle to the slot that was filled again, a foreign one, and the array's own. -/
theorem collect_exact_refilled :
    refilled.Built ∧
    (refilled.collect [⟨1, 0⟩, ⟨5, 3⟩, ⟨1, 1⟩]).slots.size = refilled.slots.size ∧
    (∀ i g b, (refilled.collect [⟨1, 0⟩, ⟨5, 3⟩, ⟨1, 1⟩]).slots[i]? = some ⟨g, some b⟩ ↔
      refilled.slots[i]? = some ⟨g, some b⟩ ∧
        Reach refilled.slots (refilled.rootHandles ++ [⟨1, 0⟩, ⟨5, 3⟩, ⟨1, 1⟩]) ⟨i, g⟩) ∧
    ∃ steps, (popStep refilled.slots)^[steps]
        (popStart refilled.slots (refilled.rootHandles ++ [⟨1, 0⟩, ⟨5, 3⟩, ⟨1, 1⟩]) refilled.marks) =
      ([], mark refilled.slots refilled.slots.size
        (refilled.rootHandles ++ [⟨1, 0⟩, ⟨5, 3⟩, ⟨1, 1⟩]) refilled.marks) :=
  ⟨⟨_, _, rfl⟩, collect_exact ⟨_, _, rfl⟩ _⟩

end ScriptCore.Heap
