import ScriptCore.Proofs.Object.DefinedLengths

/-! # What an operation on properties may do to the heap

Operations on properties that run no code change the heap in a few ways, each of which is guarded: a cell is written
if it is writable, merged with a patch if it does not refuse it, a property is removed if it can be reconfigured. Two
changes are guarded less. The length of an array is moved past an element whatever the attributes of the length are,
and elements are cut off whatever their own attributes are. `Edit.Touch` lists the changes of an operation with their
guards, so that what an operation keeps true is a case analysis of it.

* `Edit.Touch`: one change that an operation may make.
* `Machine.Touched`: the machine came about by such changes.
* `Edit.touched_run`: **every operation that runs nothing changes the heap by them.** -/

namespace ScriptCore

variable {α : Type} {h h' : Heap} {a o : ObjectRef} {c : CellRef} {d : Descriptor} {key : PropertyKey}
  {obj : Object} {m m₁ : Machine} {e : Edit} {v : Value}

namespace Edit

/-! ### What an operation is about -/

/-- The element that the operation sets or defines. -/
def element? : Edit → Option (ObjectRef × UInt32)
  | set o (.index i) _ _ | setMember (.object o) (.index i) _ _ | define o (.index i) _ => some (o, i)
  | _ => none

/-- The operation writes the number `n` to the length of `o`, which may be written. -/
def Cuts (e : Edit) (m : Machine) (o : ObjectRef) (n : UInt32) : Prop :=
  ∃ v strict x m₁ k, (e = .set o m.realm.names.length v strict ∨
      e = .setMember (.object o) m.realm.names.length v strict) ∧
    m.heap.ownWritable o m.realm.names.length = .ok true ∧ toNumber refusing v m = .done x m₁ ∧
    Number.wholeBelow? UInt32.size x = some k ∧ n = k.toUInt32

/-! ### Changes -/

/-- **A change that the operation may make**, when it is performed on the machine `m`. -/
inductive Touch (e : Edit) (m : Machine) (h : Heap) : Heap → Prop where
  /-- A string or an object without properties is made. -/
  | filled {b : Block} {id : Handle} {h' : Heap} (hb : ∀ obj, b = .object obj → obj.properties = .empty)
      (hf : h.Filled b id h') : Touch e m h h'
  /-- An object gets a property. If it was there before, it had none with the key, and an element is the one that
  the operation sets or defines. -/
  | defined {o : ObjectRef} {obj : Object} {key : PropertyKey} {c : CellRef} {d : Descriptor} {h₁ : Heap}
      (ho : h.object o = .ok obj) (hf : h.Filled (.cell d) c.handle h₁)
      (hnew : ∀ obj₀, m.heap.object o = .ok obj₀ → obj.properties.find? key = none ∧
        ∀ i, key = .index i → key = m.realm.names.length ∨ e.element? = some (o, i)) :
      Touch e m h (h₁.put o.handle (.object { obj with properties := obj.properties.insert key c }))
  /-- A writable value is written. -/
  | written {c : CellRef} {d : Descriptor} {v w : Value} (hc : h.cell c = .ok d) (hd : d.content = .data w true) :
      Touch e m h (h.put c.handle (.cell { d with content := .data v true }))
  /-- A property takes a patch that it does not refuse. -/
  | merged {c : CellRef} {d : Descriptor} {p : Patch} (hc : h.cell c = .ok d)
      (hallowed : d.configurable = false → p.conflicts d = false) :
      Touch e m h (h.put c.handle (.cell (p.applyTo d)))
  /-- The length of an array is moved past the element that the operation sets or defines. -/
  | noted {o : ObjectRef} {obj : Object} {c : CellRef} {d : Descriptor} {w : Value} {writable : Bool} {n i : UInt32}
      (hl : h.HasLength m.realm.names.length o obj c d) (hd : d.content = .data w writable)
      (hlength : h.lengthOf m.realm.names o = .ok n) (hle : n ≤ i) (helement : e.element? = some (o, i))
      (hold : ∃ obj₀, m.heap.object o = .ok obj₀ ∧ obj₀.kind = .array ∧
        obj₀.properties.find? m.realm.names.length = some c) :
      Touch e m h (h.put c.handle (.cell { d with content := .data (.ofCount (i + 1).toNat) writable }))
  /-- Elements are cut off by a write to the length. -/
  | cut {o : ObjectRef} {obj : Object} {n : UInt32} (ho : h.object o = .ok obj) (hcuts : e.Cuts m o n) :
      Touch e m h (h.put o.handle (.object (obj.cutAt n)))
  /-- A property that can be reconfigured is removed. -/
  | removed {o : ObjectRef} {obj : Object} {key : PropertyKey} {c : CellRef} {d : Descriptor}
      (ho : h.object o = .ok obj) (hfind : obj.properties.find? key = some c) (hc : h.cell c = .ok d)
      (hd : d.configurable = true) :
      Touch e m h (h.put o.handle (.object { obj with properties := obj.properties.erase key }))
  /-- An object gets another prototype, or takes no more properties. -/
  | reshaped {o : ObjectRef} {obj obj' : Object} (ho : h.object o = .ok obj) (hkind : obj'.kind = obj.kind)
      (hproperties : obj'.properties = obj.properties) : Touch e m h (h.put o.handle (.object obj'))

end Edit

/-- The heap came about by changes that the operation may make on the machine `m`. -/
structure Heap.Touched (e : Edit) (m : Machine) (h : Heap) : Prop where
  valid : h.Valid
  touches : Relation.ReflTransGen (e.Touch m) m.heap h

/-- The machine came about by changes that the operation may make on `m`. -/
structure Machine.Touched (e : Edit) (m m₁ : Machine) : Prop where
  realm : m₁.realm = m.realm
  heap : m₁.heap.Touched e m

namespace Heap.Touched

variable (ht : h.Touched e m)
include ht

theorem step (htouch : e.Touch m h h') (hv : h'.Valid) : h'.Touched e m := ⟨hv, ht.touches.tail htouch⟩

theorem putCell {d' : Descriptor} (hc : h.cell c = .ok d) (htouch : e.Touch m h (h.put c.handle (.cell d'))) :
    (h.put c.handle (.cell d')).Touched e m :=
  ht.step htouch (ht.valid.putCell hc d')

theorem putObject {obj' : Object} (ho : h.object o = .ok obj)
    (htouch : e.Touch m h (h.put o.handle (.object obj'))) : (h.put o.handle (.object obj')).Touched e m :=
  ht.step htouch (ht.valid.putObject ho obj')

/-- A property is defined where there was none. -/
theorem define (hnew : ∀ obj obj₀, h.object o = .ok obj → m.heap.object o = .ok obj₀ →
      obj.properties.find? key = none ∧
        ∀ i, key = .index i → key = m.realm.names.length ∨ e.element? = some (o, i)) (d : Descriptor) :
    (Heap.define o key d h).Leaves (Heap.Touched e m) := by
  rcases define_filled ht.valid o key d with ⟨err, hfailed⟩ | ⟨obj, c, h₁, ho, hf, hv₁, hdone⟩
  · rw [hfailed]
    exact ht
  · have ho₁ : h₁.object o = .ok obj := object_eq_ok.mpr (hf.block?_of_some (object_eq_ok.mp ho))
    rw [hdone]
    exact ht.step (.defined ho hf fun obj₀ ho₀ => hnew obj obj₀ ho ho₀) (hv₁.putObject ho₁ _)

/-- What each change preserves holds of the heap if it held before. -/
theorem keeps {I : Heap → Prop} (hm : I m.heap) (hstep : ∀ h₁ h₂, I h₁ → e.Touch m h₁ h₂ → I h₂) : I h := by
  obtain ⟨-, htouches⟩ := ht
  induction htouches with
  | refl => exact hm
  | tail _ htouch ih => exact hstep _ _ ih htouch

end Heap.Touched

theorem Heap.keeps_touched_intern (t : Text) : Proc.Keeps (Heap.Touched e m) (Heap.intern t) := by
  intro h ht
  have hkept := keeps_intern t h ht.valid
  rcases intern_filled ht.valid t with ⟨r, hdone, -⟩ | ⟨-, ⟨-, hfailed⟩ | ⟨r, h', hdone, hf⟩⟩
  · rw [hdone]
    exact ht
  · rw [hfailed]
    exact ht
  · rw [hdone] at hkept ⊢
    exact ht.step (.filled (by simp) hf) hkept

theorem Heap.keeps_touched_allocObject (prototype : Option ObjectRef) (tag : ClassTag) (kind : ObjectKind) :
    Proc.Keeps (Heap.Touched e m) (Heap.allocObject prototype tag kind) := by
  intro h ht
  rcases allocObject_filled ht.valid prototype tag kind with ⟨err, hfailed⟩ | ⟨o, h', hdone, -⟩
  · rw [hfailed]
    exact ht
  · obtain ⟨hf, hv⟩ := allocObject_done ht.valid hdone
    rw [hdone]
    exact ht.step (.filled (fun obj hobj => by rw [← Block.object.inj hobj]) hf) hv

/-- An object is changed, but not its properties. -/
theorem Heap.keeps_touched_modifyObject (o : ObjectRef) {f : Object → Object} (hkind : ∀ x, (f x).kind = x.kind)
    (hproperties : ∀ x, (f x).properties = x.properties) :
    Proc.Keeps (Heap.Touched e m) (Heap.modifyObject o f) := fun _ ht =>
  leaves_modifyObject ht fun obj ho => ht.putObject ho (.reshaped ho (hkind obj) (hproperties obj))

/-- An own property that may be written holds a writable value. -/
theorem Heap.data_of_ownWritable (hwritable : h.ownWritable o key = .ok true) (ho : h.object o = .ok obj)
    (hfind : obj.properties.find? key = some c) : ∃ d w, h.cell c = .ok d ∧ d.content = .data w true := by
  have hown := Heap.ownCell_eq_ok.mpr ⟨obj, ho, hfind⟩
  cases hc : h.cell c with
  | error err =>
    unfold Heap.ownWritable Heap.ownProperty at hwritable
    rw [hown] at hwritable
    simp only [bind, Except.bind, hc] at hwritable
    cases hwritable
  | ok d =>
    unfold Heap.ownWritable at hwritable
    rw [Heap.ownProperty_eq_some.mpr ⟨c, hown, hc⟩] at hwritable
    replace hwritable : d.isWritable = true := Except.ok.inj hwritable
    unfold Descriptor.isWritable at hwritable
    cases hcontent : d.content with
    | accessor get set => rw [hcontent] at hwritable; cases hwritable
    | data w writable =>
      rw [hcontent] at hwritable
      obtain rfl : writable = true := hwritable
      exact ⟨d, w, rfl, hcontent⟩

theorem Proc.leaves_discard {σ : Type} {I : σ → Prop} {p : Proc σ α} {s : σ} (hp : (p s).Leaves I) :
    ((discard p : Proc σ Unit) s).Leaves I := by
  show ((Functor.map _ p : Proc σ Unit) s).Leaves I
  rw [map_eq_pure_bind, Proc.bind_eq]
  exact hp.bind fun _ => .pure _

namespace Machine

theorem Touched.refl (hv : m.heap.Valid) : Touched e m m := ⟨rfl, hv, .refl⟩

theorem Touched.onHeap {p : Proc Heap α} (ht : Touched e m m₁) (hp : (p m₁.heap).Leaves (Heap.Touched e m)) :
    (Run.onHeap p m₁).Leaves (Touched e m) := by
  unfold Run.onHeap
  dsimp only
  cases hpm : p m₁.heap with
  | done x heap => rw [hpm] at hp; exact ⟨ht.realm, hp⟩
  | failed err heap => rw [hpm] at hp; exact ⟨ht.realm, hp⟩
  | stalled => trivial

theorem keeps_touched_onHeap {p : Proc Heap α} (hp : Proc.Keeps (Heap.Touched e m) p) :
    Proc.Keeps (Touched e m) (Run.onHeap p) := fun m₁ ht => ht.onHeap (hp m₁.heap ht.heap)

theorem keeps_touched_intern (t : Text) : Proc.Keeps (Touched e m) (Run.onHeap (Heap.intern t)) :=
  keeps_touched_onHeap (Heap.keeps_touched_intern t)

theorem keeps_touched_refuseWrite (key : PropertyKey) (strict : Bool) :
    Proc.Keeps (Touched e m) (refuseWrite key strict) := by
  unfold refuseWrite
  split
  · exact .bind (.reads _) fun name => .fail _
  · exact .pure _

/-! ### The length of an array -/

/-- The length of an array is moved past the element that the operation is about. -/
theorem Touched.noteKey (ht : Touched e m m₁) (helement : ∀ i, key = .index i → e.element? = some (o, i))
    (hold : ∀ obj, m₁.heap.object o = .ok obj → ∃ obj₀, m.heap.object o = .ok obj₀ ∧ obj₀.kind = obj.kind ∧
      obj₀.properties.find? m.realm.names.length = obj.properties.find? m.realm.names.length) :
    (noteKey o key m₁).Leaves (Touched e m) := by
  cases key with
  | string s => exact ht
  | index i =>
    show (((Run.readHeap fun h => h.isArray o) >>= fun b => if b = true then noteIndex o i else pure ()) m₁).Leaves _
    rw [Run.readHeap_bind]
    cases harray : m₁.heap.isArray o with
    | error err => exact ht
    | ok b =>
      cases b with
      | false => exact ht
      | true =>
        obtain ⟨obj, ho, hkind⟩ := Heap.isArray_eq_true harray
        obtain ⟨obj₀, ho₀, hkind₀, hsame⟩ := hold obj ho
        show (noteIndex o i m₁).Leaves _
        unfold noteIndex arrayLength
        rw [bind_assoc, Run.names_bind, Run.readHeap_bind, ht.realm]
        cases hlength : m₁.heap.lengthOf m.realm.names o with
        | error err => exact ht
        | ok n =>
          dsimp only
          split
          · next hle =>
            unfold writeLength
            rw [Run.names_bind, Run.readHeap_bind, ht.realm]
            cases hown : m₁.heap.ownCell o m.realm.names.length with
            | error err => exact ht
            | ok found =>
              cases found with
              | none =>
                obtain ⟨_, ho', hnone⟩ := Heap.ownCell_eq_ok.mp hown
                cases ho.symm.trans ho'
                have hdefined : (Heap.define o m.realm.names.length (lengthDescriptor (i + 1).toNat) m₁.heap).Leaves
                    (Heap.Touched e m) := ht.heap.define (fun obj' obj₀' ho' _ => by
                  cases ho.symm.trans ho'
                  exact ⟨hnone, fun _ _ => .inl rfl⟩) _
                exact Proc.leaves_discard (ht.onHeap hdefined)
              | some c =>
                obtain ⟨obj', ho', hfind⟩ := Heap.ownCell_eq_ok.mp hown
                cases ho.symm.trans ho'
                refine ht.onHeap (Heap.leaves_writeCell ht.heap fun d w writable hc hd => ht.heap.putCell hc ?_)
                exact .noted ⟨ho, hkind, hfind, hc⟩ hd hlength hle (helement i rfl)
                  ⟨obj₀, ho₀, hkind₀.trans hkind, hsame.trans hfind⟩
          · exact ht

/-! ### Making and defining properties -/

section

variable {s : StringRef} (hv : m.heap.Valid) (hname : m.realm.names.length = .string s)
  (helement : ∀ i, key = .index i → e.element? = some (o, i))
include hv hname helement

/-- A property is made where there was none, on the machine on which the operation is performed, and noted. -/
theorem touched_defineNoted (hnew : ∀ obj, m.heap.object o = .ok obj → obj.properties.find? key = none)
    (d : Descriptor) : ((do
      discard (Run.onHeap (Heap.define o key d))
      noteKey o key
      return true : Run Bool) m).Leaves (Touched e m) := by
  have ht : Touched e m m := .refl hv
  have hdefined : (Heap.define o key d m.heap).Leaves (Heap.Touched e m) := ht.heap.define (fun obj₁ obj₀ ho₁ _ =>
    ⟨hnew obj₁ ho₁, fun i hi => .inr (helement i hi)⟩) d
  rw [Proc.discard_bind, Proc.bind_eq]
  rcases Heap.define_filled hv o key d with ⟨err, hfailed⟩ | ⟨obj, c, h₁, ho, hf, -, hdone⟩
  · rw [Run.onHeap_failed hfailed]
    exact ht
  rw [hdone] at hdefined
  rw [Run.onHeap_done hdone]
  show ((noteKey o key >>= fun _ => pure true) _).Leaves _
  rw [Proc.bind_eq]
  cases key with
  | string t => exact ⟨ht.realm, hdefined⟩
  | index i =>
    -- The new property is an element, so the array has the length that it had.
    refine Outcome.Leaves.bind (Touched.noteKey ⟨ht.realm, hdefined⟩ helement fun obj' ho' => ?_) fun _ => .pure _
    have ho₁ : h₁.object o = .ok obj := Heap.object_eq_ok.mpr (hf.block?_of_some (Heap.object_eq_ok.mp ho))
    dsimp only at ho'
    rw [Heap.object_put_object ho₁, if_pos rfl] at ho'
    cases ho'
    exact ⟨obj, ho, rfl, by rw [PropertyMap.find?_insert, if_neg (by rw [hname]; simp)]⟩

theorem touched_createOwn (hnew : ∀ obj, m.heap.object o = .ok obj → obj.properties.find? key = none) (v : Value)
    (strict : Bool) : (createOwn o key v strict m).Leaves (Touched e m) := by
  unfold createOwn
  rw [Run.readHeap_bind]
  cases m.heap.isExtensible o with
  | error err => exact .refl hv
  | ok extensible =>
    cases extensible with
    | false => exact keeps_touched_refuseWrite key strict m (.refl hv)
    | true => exact touched_defineNoted hv hname helement hnew _

/-- **Writing a property** that is no length. -/
theorem touched_setOrdinary (v : Value) (strict : Bool) :
    (setOrdinary Edit.refusing o key v strict m).Leaves (Touched e m) := by
  have ht : Touched e m m := .refl hv
  unfold setOrdinary
  rw [Run.readHeap_bind]
  cases hfound : m.heap.findProperty o key with
  | error err => exact ht
  | ok found =>
    have hfree : (∀ holder c, found = some (holder, c) → holder ≠ o) →
        ∀ obj, m.heap.object o = .ok obj → obj.properties.find? key = none :=
      fun hother obj ho => Heap.find?_of_findProperty hfound hother ho
    cases found with
    | none => exact touched_createOwn hv hname helement (hfree nofun) v strict
    | some found =>
      obtain ⟨holder, c⟩ := found
      dsimp only
      rw [Run.readHeap_bind]
      cases hc : m.heap.cell c with
      | error err => exact ht
      | ok d =>
        dsimp only
        cases hcontent : d.content with
        | accessor getter setter =>
          dsimp only
          rw [Run.readHeap_bind]
          cases m.heap.isCallable setter with
          | error err => exact ht
          | ok callable =>
            cases callable with
            | true => exact ht
            | false => exact keeps_touched_refuseWrite key strict m ht
        | data w writable =>
          cases writable with
          | false => exact keeps_touched_refuseWrite key strict m ht
          | true =>
            dsimp only
            split
            · have hwritten : (Heap.writeCell c v m.heap).Leaves (Heap.Touched e m) := by
                rw [Heap.writeCell_done hc hcontent]
                exact ht.heap.putCell hc (.written hc hcontent)
              rw [Proc.bind_eq]
              exact (ht.onHeap hwritten).bind fun _ => .pure _
            · next hother =>
              exact touched_createOwn hv hname helement
                (hfree fun holder' c' hsome => by cases hsome; exact hother) v strict

/-- **Defining a property.** -/
theorem touched_defineProperty (p : Patch) : (defineProperty o key p m).Leaves (Touched e m) := by
  have ht : Touched e m m := .refl hv
  unfold defineProperty
  show ((Proc.ofExcept p.validate >>= _) m).Leaves _
  rw [Proc.bind_eq]
  unfold Proc.ofExcept
  cases p.validate with
  | error err => exact ht
  | ok u =>
    show ((Run.readHeap fun h => h.ownCell o key) >>= _ : Run Bool) m |>.Leaves _
    rw [Run.readHeap_bind]
    cases hfound : m.heap.ownCell o key with
    | error err => exact ht
    | ok found =>
      cases found with
      | none =>
        dsimp only
        rw [Run.readHeap_bind]
        cases m.heap.isExtensible o with
        | error err => exact ht
        | ok extensible =>
          cases extensible with
          | false => exact ht
          | true =>
            obtain ⟨obj, ho, hnone⟩ := Heap.ownCell_eq_ok.mp hfound
            refine touched_defineNoted hv hname helement (fun obj' ho' => ?_) _
            cases ho.symm.trans ho'
            exact hnone
      | some c =>
        dsimp only
        rw [Run.readHeap_bind]
        cases hc : m.heap.cell c with
        | error err => exact ht
        | ok d =>
          dsimp only
          split
          · exact ht
          · next hallowed =>
            have hmerged : Heap.Touched e m (m.heap.put c.handle (.cell (p.applyTo d))) :=
              ht.heap.putCell hc (.merged hc fun hd => by simpa [hd] using hallowed)
            show ((Run.onHeap (Heap.putCell c (p.applyTo d)) >>= fun _ => noteKey o key >>= fun _ => pure true)
              m).Leaves _
            rw [Proc.bind_done (Run.onHeap_done (Heap.putCell_done hc _)), Proc.bind_eq]
            refine Outcome.Leaves.bind (Touched.noteKey ⟨ht.realm, hmerged⟩ helement fun obj ho => ?_) fun _ => .pure _
            dsimp only at ho
            rw [Heap.object_put_cell hc] at ho
            exact ⟨obj, ho, rfl, rfl⟩

end

/-- **Deleting a property.** -/
theorem touched_deleteProperty (hv : m.heap.Valid) (o : ObjectRef) (key : PropertyKey) (strict : Bool) :
    (deleteProperty o key strict m).Leaves (Touched e m) := by
  have ht : Touched e m m := .refl hv
  unfold deleteProperty
  rw [Run.readHeap_bind]
  cases hfound : m.heap.ownProperty o key with
  | error err => exact ht
  | ok found =>
    cases found with
    | none => exact ht
    | some d =>
      dsimp only
      split
      · exact keeps_touched_refuseWrite key strict m ht
      · next hdelete =>
        have hconfigurable : d.configurable = true := by
          cases hd : d.configurable with
          | true => rfl
          | false => simp [hd] at hdelete
        obtain ⟨c, hown, hc⟩ := Heap.ownProperty_eq_some.mp hfound
        obtain ⟨obj, ho, hfind⟩ := Heap.ownCell_eq_ok.mp hown
        have hremoved : (Heap.remove o key m.heap).Leaves (Heap.Touched e m) := by
          rw [Heap.remove_done ho hown]
          exact ht.heap.putObject ho (.removed ho hfind hc hconfigurable)
        rw [Proc.discard_bind, Proc.bind_eq]
        exact (ht.onHeap hremoved).bind fun _ => .pure _

/-! ### Writing lengths -/

/-- A length that is there and may be written is written; one that is not there is made. -/
theorem Touched.writeLength (ht : Touched e m m₁) (ho : m₁.heap.object o = .ok obj)
    (hwritable : ∀ c, obj.properties.find? m.realm.names.length = some c →
      ∃ d w, m₁.heap.cell c = .ok d ∧ d.content = .data w true) (n : UInt32) :
    (writeLength o n m₁).Leaves (Touched e m) := by
  unfold ScriptCore.writeLength
  rw [Run.names_bind, Run.readHeap_bind, ht.realm]
  cases hown : m₁.heap.ownCell o m.realm.names.length with
  | error err => exact ht
  | ok found =>
    cases found with
    | none =>
      obtain ⟨_, ho', hnone⟩ := Heap.ownCell_eq_ok.mp hown
      cases ho.symm.trans ho'
      have hdefined : (Heap.define o m.realm.names.length (lengthDescriptor n.toNat) m₁.heap).Leaves
          (Heap.Touched e m) := ht.heap.define (fun obj' obj₀ ho' _ => by
        cases ho.symm.trans ho'
        exact ⟨hnone, fun _ _ => .inl rfl⟩) _
      exact Proc.leaves_discard (ht.onHeap hdefined)
    | some c =>
      obtain ⟨obj', ho', hfind⟩ := Heap.ownCell_eq_ok.mp hown
      cases ho.symm.trans ho'
      obtain ⟨d, w, hc, hcontent⟩ := hwritable c hfind
      have hwritten : (Heap.writeCell c (.ofCount n.toNat) m₁.heap).Leaves (Heap.Touched e m) := by
        rw [Heap.writeCell_done hc hcontent]
        exact ht.heap.putCell hc (.written hc hcontent)
      exact ht.onHeap hwritten

/-- **A write to the length** of an array cuts elements off and writes the length. -/
theorem touched_setLength (hv : m.heap.Valid) (ho : m.heap.object o = .ok obj)
    (hwritable : m.heap.ownWritable o m.realm.names.length = .ok true)
    (hcuts : ∀ x m₁ k, toNumber Edit.refusing v m = .done x m₁ → Number.wholeBelow? UInt32.size x = some k →
      e.Cuts m o k.toUInt32) : (setLength Edit.refusing o v m).Leaves (Touched e m) := by
  -- While the value is converted the object and its cells stay as they are.
  have hintern : ∀ t, Proc.Keeps (fun m₁ => Touched e m m₁ ∧ m₁.heap.object o = .ok obj ∧
      ∀ c d, m.heap.cell c = .ok d → m₁.heap.cell c = .ok d) (Run.onHeap (Heap.intern t)) := by
    rintro t m₁ ⟨ht, ho, hcells⟩
    rcases Heap.intern_filled ht.heap.valid t with ⟨r, hdone, -⟩ | ⟨-, ⟨-, hfailed⟩ | ⟨r, h', hdone, hf⟩⟩
    · rw [Run.onHeap_done hdone]
      exact ⟨ht, ho, hcells⟩
    · rw [Run.onHeap_failed hfailed]
      exact ⟨ht, ho, hcells⟩
    · have hkept := keeps_touched_intern t m₁ ht
      rw [Run.onHeap_done hdone] at hkept ⊢
      exact ⟨hkept, Heap.object_eq_ok.mpr (hf.block?_of_some (Heap.object_eq_ok.mp ho)), fun c d hc =>
        Heap.cell_eq_ok.mpr (hf.block?_of_some (Heap.cell_eq_ok.mp (hcells c d hc)))⟩
  have hnumber := Edit.keeps_toNumber hintern v m ⟨.refl hv, ho, fun c d hc => hc⟩
  unfold setLength
  rw [Proc.bind_eq]
  cases hdone : toNumber Edit.refusing v m with
  | stalled => trivial
  | failed err m₁ => rw [hdone] at hnumber; exact hnumber.1
  | done x m₁ =>
    rw [hdone] at hnumber
    obtain ⟨ht₁, ho₁, hcells⟩ := hnumber
    dsimp only [Outcome.bind]
    cases hwhole : Number.wholeBelow? UInt32.size x with
    | none =>
      dsimp only
      rw [Run.readHeap_bind]
      cases m₁.heap.describe v <;> exact ht₁
    | some k =>
      dsimp only
      have hcut : Heap.retainKeys o (fun key => !key.isBeyond k.toUInt32) m₁.heap =
          .done () (m₁.heap.put o.handle (.object (obj.cutAt k.toUInt32))) := Heap.retainKeys_done ho₁ _
      have ht₂ : Heap.Touched e m (m₁.heap.put o.handle (.object (obj.cutAt k.toUInt32))) :=
        ht₁.heap.putObject ho₁ (.cut ho₁ (hcuts x m₁ k hdone hwhole))
      have ho₂ : Heap.object (m₁.heap.put o.handle (.object (obj.cutAt k.toUInt32))) o =
          .ok (obj.cutAt k.toUInt32) := by rw [Heap.object_put_object ho₁, if_pos rfl]
      show ((Run.onHeap (Heap.retainKeys o fun key => !key.isBeyond k.toUInt32) >>= fun _ =>
        ScriptCore.writeLength o k.toUInt32) m₁).Leaves _
      rw [Proc.bind_done (Run.onHeap_done hcut)]
      have ht₃ : Touched e m { m₁ with heap := m₁.heap.put o.handle (.object (obj.cutAt k.toUInt32)) } :=
        ⟨ht₁.realm, ht₂⟩
      refine ht₃.writeLength ho₂ (fun c hfind => ?_) _
      -- The length was not cut off, and it may be written still.
      rw [Object.find?_cutAt] at hfind
      split at hfind
      · cases hfind
      · obtain ⟨d, w, hc, hcontent⟩ := Heap.data_of_ownWritable hwritable ho hfind
        exact ⟨d, w, (Heap.cell_put_object ho₁ _ c).trans (hcells c d hc), hcontent⟩

/-- **Setting a property.** -/
theorem touched_setProperty {s : StringRef} (hv : m.heap.Valid) (hname : m.realm.names.length = .string s)
    (helement : ∀ i, key = .index i → e.element? = some (o, i)) {strict : Bool}
    (hset : e = .set o key v strict ∨ e = .setMember (.object o) key v strict) :
    (setProperty Edit.refusing o key v strict m).Leaves (Touched e m) := by
  have ht : Touched e m m := .refl hv
  unfold setProperty
  rw [Run.names_bind, Run.readHeap_bind]
  cases harray : m.heap.isArray o with
  | error err => exact ht
  | ok isArray =>
    dsimp only
    split
    · next hlength =>
      rw [Bool.and_eq_true, decide_eq_true_eq] at hlength
      obtain ⟨rfl, rfl⟩ := hlength
      rw [Run.readHeap_bind]
      cases hwritable : m.heap.ownWritable o m.realm.names.length with
      | error err => exact ht
      | ok writable =>
        cases writable with
        | false => exact keeps_touched_refuseWrite _ strict m ht
        | true =>
          obtain ⟨obj, ho, -⟩ := Heap.isArray_eq_true harray
          show ((setLength Edit.refusing o v >>= fun _ => pure true) m).Leaves _
          rw [Proc.bind_eq]
          exact (touched_setLength hv ho hwritable fun x m₁ k hx hk =>
            ⟨v, strict, x, m₁, k, hset, hwritable, hx, hk, rfl⟩).bind fun _ => .pure _
    · exact touched_setOrdinary hv hname helement v strict

/-! ### New arrays -/

/-- An array is made. -/
theorem touched_allocArray (hv : m.heap.Valid) (values : List Value) :
    (allocArray values m).Leaves (Touched e m) := by
  refine leaves_allocArray hv ?_ (fun o hnew key d => ?_) values
  · exact keeps_touched_onHeap (Heap.keeps_touched_allocObject _ _ _) m (.refl hv)
  · -- The array was not there before, so it may get any properties.
    exact keeps_touched_onHeap fun h ht => ht.define (fun obj obj₀ _ ho₀ => (hnew o obj₀ ho₀ rfl).elim) d

end Machine

/-! ### Operations -/

namespace Edit

/-- **What an operation changes when it runs no code.** -/
theorem touched_perform {s : StringRef} (hv : m.heap.Valid) (hname : m.realm.names.length = .string s) (e : Edit) :
    (e.perform refusing m).Leaves (Machine.Touched e m) := by
  have ht : Machine.Touched e m m := .refl hv
  cases e with
  | set o key v strict =>
    exact Proc.leaves_discard (Machine.touched_setProperty hv hname (fun i hi => by rw [hi]; rfl) (.inl rfl))
  | setMember base key v strict =>
    refine Proc.leaves_discard ?_
    have hrefuse : Proc.Keeps (Machine.Touched (.setMember base key v strict) m)
        (refuseBase "set" base key : Run Bool) := .bind (.reads _) fun err => .fail err
    cases base with
    | object o => exact Machine.touched_setProperty hv hname (fun i hi => by rw [hi]; rfl) (.inr rfl)
    | undefined => exact hrefuse m ht
    | null => exact hrefuse m ht
    | bool b => exact Machine.keeps_touched_refuseWrite key strict m ht
    | number x => exact Machine.keeps_touched_refuseWrite key strict m ht
    | string r => exact Machine.keeps_touched_refuseWrite key strict m ht
  | delete o key strict => exact Proc.leaves_discard (Machine.touched_deleteProperty hv o key strict)
  | define o key p =>
    exact Proc.leaves_discard (Machine.touched_defineProperty hv hname (fun i hi => by rw [hi]; rfl) p)
  | preventExtensions o =>
    have hshaped : Proc.Keeps (Heap.Touched (.preventExtensions o) m) (Heap.preventExtensions o) :=
      Heap.keeps_touched_modifyObject o (fun _ => rfl) fun _ => rfl
    exact Machine.keeps_touched_onHeap hshaped m ht
  | setPrototype o p =>
    have hshaped : Proc.Keeps (Heap.Touched (.setPrototype o p) m) (Heap.setPrototype o p) :=
      .bind (.discard (.reads _)) fun _ => .bind (.reads _) fun _ =>
        Heap.keeps_touched_modifyObject o (fun _ => rfl) fun _ => rfl
    exact Machine.keeps_touched_onHeap hshaped m ht
  | nameKey name =>
    exact Proc.leaves_discard
      (Machine.keeps_touched_onHeap (.bind (Heap.keeps_touched_intern _) fun _ => .reads _) m ht)
  | valueKey v => exact Proc.leaves_discard (keeps_toPropertyKey Machine.keeps_touched_intern v m ht)
  | allocPlain =>
    exact Proc.leaves_discard (Machine.keeps_touched_onHeap
      (Heap.keeps_touched_allocObject (some m.realm.objectPrototype) .object .ordinary) m ht)
  | allocArray values => exact Proc.leaves_discard (Machine.touched_allocArray hv values)

/-- **Every operation that runs nothing changes the heap by such changes.** -/
theorem touched_run {s : StringRef} {engine : Engine} (hv : m.heap.Valid)
    (hname : m.realm.names.length = .string s) (hnothing : e.RunsNothing m) :
    Machine.Touched e m (e.run engine m) :=
  run_leaves hnothing (.refl hv) (touched_perform hv hname e)

end Edit

end ScriptCore
