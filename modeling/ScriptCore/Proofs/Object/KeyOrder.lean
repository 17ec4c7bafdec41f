import ScriptCore.Proofs.Object.Enumeration
import ScriptCore.Proofs.Object.Touches

/-! # What operations do to the order of keys

The keys of an object are in the order in which they came. To set, define or delete a property leaves the other keys in
their order: new keys come behind them, and where a key is removed the ones behind it move up. An array loses all its
elements from some index on when its length is written.

* `Heap.Arranged`: the keys of an object are some of those that it had, and new ones behind them.
* `Machine.arranged_setProperty`, `Machine.arranged_defineProperty`, `Machine.arranged_deleteProperty`: so they are after
  each operation.
* `Edit.arranged_run`: **an operation on an object keeps its keys in order**, if it runs no code. -/

namespace ScriptCore

variable {α : Type} {h h' : Heap} {o : ObjectRef} {key : PropertyKey} {ks : List PropertyKey}
  {keep : PropertyKey → Bool} {m : Machine} {s : StringRef}

/-! ### Keys in order -/

/-- The object is live, and its keys are those of `ks` that satisfy `keep`, in their order, and behind them others that
satisfy it. -/
structure Heap.Arranged (o : ObjectRef) (ks : List PropertyKey) (keep : PropertyKey → Bool) (h : Heap) : Prop where
  valid : h.Valid
  live : ∃ obj, h.object o = .ok obj
  keys : ∃ new, h.keysOf o = ks.filter keep ++ new ∧ ∀ key ∈ new, keep key = true

namespace Heap.Arranged

theorem refl (hv : h.Valid) {obj : Object} (ho : h.object o = .ok obj) : h.Arranged o (h.keysOf o) fun _ => true :=
  ⟨hv, ⟨obj, ho⟩, [], by simp, by simp⟩

/-- Nothing has become of the object. -/
theorem of_object (ha : h.Arranged o ks keep) (hv : h'.Valid) (hsame : ∀ obj, h.object o = .ok obj → h'.object o = .ok obj) :
    h'.Arranged o ks keep := by
  obtain ⟨obj, ho⟩ := ha.live
  obtain ⟨new, hkeys, hnew⟩ := ha.keys
  exact ⟨hv, ⟨obj, hsame obj ho⟩, new, by rw [keysOf_eq (hsame obj ho), ← keysOf_eq ho, hkeys], hnew⟩

theorem filled {b : Block} {id : Handle} (ha : h.Arranged o ks keep) (hf : h.Filled b id h') (hv : h'.Valid) :
    h'.Arranged o ks keep :=
  ha.of_object hv fun _ ho => object_eq_ok.mpr (hf.block?_of_some (object_eq_ok.mp ho))

theorem intern (t : Text) : Proc.Keeps (Heap.Arranged o ks keep) (Heap.intern t) := by
  intro h ha
  have hkept := keeps_intern t h ha.valid
  rcases intern_filled ha.valid t with ⟨r, hdone, -⟩ | ⟨-, ⟨-, hfailed⟩ | ⟨r, h', hdone, hf⟩⟩
  · rw [hdone]
    exact ha
  · rw [hfailed]
    exact ha
  · rw [hdone] at hkept ⊢
    exact ha.filled hf hkept

theorem modifyCell (c : CellRef) (f : Descriptor → Except Error Descriptor) :
    Proc.Keeps (Heap.Arranged o ks keep) (Heap.modifyCell c f) := fun _ ha =>
  leaves_modifyCell ha fun _ d' hc _ =>
    ha.of_object (ha.valid.putCell hc d') fun _ ho => (object_put_cell hc _ o).trans ho

/-- A key that is bound again keeps its place, and a new one comes last. -/
theorem define (hkeep : keep key = true) (d : Descriptor) : Proc.Keeps (Heap.Arranged o ks keep) (Heap.define o key d) := by
  intro h ha
  rcases define_filled ha.valid o key d with ⟨e, hfailed⟩ | ⟨obj, c, h', ho, hf, hv', hdone⟩
  · rw [hfailed]
    exact ha
  · have ho' : h'.object o = .ok obj := object_eq_ok.mpr (hf.block?_of_some (object_eq_ok.mp ho))
    have hput := object_put_object ho' { obj with properties := obj.properties.insert key c } o
    rw [if_pos rfl] at hput
    obtain ⟨new, hkeys, hnew⟩ := ha.keys
    rw [keysOf_eq ho] at hkeys
    rw [hdone]
    refine ⟨hv'.putObject ho' _, ⟨_, hput⟩, ?_⟩
    rw [keysOf_eq hput]
    dsimp only
    rw [PropertyMap.keys_insert, hkeys]
    split
    · exact ⟨new, rfl, hnew⟩
    · refine ⟨new ++ [key], List.append_assoc .., fun k hk => ?_⟩
      rcases List.mem_append.mp hk with hk | hk
      · exact hnew k hk
      · rw [List.mem_singleton.mp hk]
        exact hkeep

/-- Some of the keys are removed. -/
theorem filtered (ha : h.Arranged o ks fun _ => true) (keep : PropertyKey → Bool) {obj : Object} (ho : h.object o = .ok obj)
    {properties : PropertyMap} (hkeys : properties.keys = obj.properties.keys.filter keep) :
    (h.put o.handle (.object { obj with properties := properties })).Arranged o ks keep := by
  have hput := object_put_object ho { obj with properties := properties } o
  rw [if_pos rfl] at hput
  obtain ⟨new, hold, -⟩ := ha.keys
  rw [keysOf_eq ho, List.filter_true] at hold
  refine ⟨ha.valid.putObject ho _, ⟨_, hput⟩, new.filter keep, ?_, by simp⟩
  rw [keysOf_eq hput, hkeys, hold, List.filter_append]

end Heap.Arranged

/-! ### Operations -/

/-- The length of an array has a name, and the keys of the object are arranged. -/
structure Machine.Arranged (o : ObjectRef) (ks : List PropertyKey) (keep : PropertyKey → Bool) (m : Machine) : Prop where
  length : ∃ s, m.realm.names.length = .string s
  heap : m.heap.Arranged o ks keep

namespace Machine

theorem Arranged.onHeap {p : Proc Heap α} (hp : Proc.Keeps (Heap.Arranged o ks keep) p) :
    Proc.Keeps (Arranged o ks keep) (Run.onHeap p) := by
  intro m ha
  have hkept := hp m.heap ha.heap
  unfold Run.onHeap
  dsimp only
  cases hpm : p m.heap with
  | done x heap => rw [hpm] at hkept; exact ⟨ha.length, hkept⟩
  | failed e heap => rw [hpm] at hkept; exact ⟨ha.length, hkept⟩
  | stalled => trivial

theorem arranged_refuseWrite (key : PropertyKey) (strict : Bool) :
    Proc.Keeps (Arranged o ks keep) (refuseWrite key strict) := by
  unfold refuseWrite
  split
  · exact .bind (.reads _) fun name => .fail _
  · exact .pure _

/-- The length is no element, so it stays with those that are no elements beyond some index. -/
theorem arranged_writeLength (hkeep : ∀ s, keep (.string s) = true) (n : UInt32) :
    Proc.Keeps (Arranged o ks keep) (writeLength o n) := by
  intro m ha
  obtain ⟨s, hs⟩ := ha.length
  unfold writeLength
  rw [Run.names_bind, Run.readHeap_bind]
  cases m.heap.ownCell o m.realm.names.length with
  | error e => exact ha
  | ok found =>
    cases found with
    | some c => exact Arranged.onHeap (Heap.Arranged.modifyCell c _) m ha
    | none =>
      have hdefine : Proc.Keeps (Heap.Arranged o ks keep) (Heap.define o m.realm.names.length (lengthDescriptor n.toNat)) :=
        Heap.Arranged.define (by rw [hs]; exact hkeep s) _
      exact (Proc.Keeps.discard (Arranged.onHeap hdefine)) m ha

theorem arranged_noteKey (key : PropertyKey) : Proc.Keeps (Arranged o ks fun _ => true) (noteKey o key) := by
  cases key with
  | string s => exact .pure _
  | index i =>
    refine .bind (.reads _) fun array => ?_
    split
    · refine .bind (.bind (fun _ ha => ha) fun names => .reads _) fun n => ?_
      split
      · exact arranged_writeLength (fun _ => rfl) _
      · exact .pure _
    · exact .pure _

theorem arranged_createOwn (key : PropertyKey) (v : Value) (strict : Bool) :
    Proc.Keeps (Arranged o ks fun _ => true) (createOwn o key v strict) := by
  refine .bind (.reads _) fun extensible => ?_
  split
  · exact .bind (.discard (Arranged.onHeap (Heap.Arranged.define rfl _))) fun _ => .bind (arranged_noteKey key) fun _ => .pure _
  · exact arranged_refuseWrite key strict

theorem arranged_setOrdinary (key : PropertyKey) (v : Value) (strict : Bool) :
    Proc.Keeps (Arranged o ks fun _ => true) (setOrdinary Edit.refusing o key v strict) := by
  refine .bind (.reads _) fun found => ?_
  cases found with
  | none => exact arranged_createOwn key v strict
  | some found =>
    obtain ⟨holder, c⟩ := found
    refine .bind (.reads _) fun d => ?_
    cases d.content with
    | data w writable =>
      cases writable with
      | false => exact arranged_refuseWrite key strict
      | true =>
        dsimp only
        split
        · exact .bind (Arranged.onHeap (Heap.Arranged.modifyCell c _)) fun _ => .pure _
        · exact arranged_createOwn key v strict
    | accessor getter setter =>
      refine .bind (.reads _) fun callable => ?_
      split
      · exact .bind (.discard (.fail _)) fun _ => .pure _
      · exact arranged_refuseWrite key strict

/-- **Defining a property** leaves all keys in their order. -/
theorem arranged_defineProperty (key : PropertyKey) (p : Patch) :
    Proc.Keeps (Arranged o ks fun _ => true) (defineProperty o key p) := by
  refine .bind (.ofExcept p.validate) fun _ => .bind (.reads _) fun found => ?_
  cases found with
  | some c =>
    refine .bind (.reads _) fun d => ?_
    split
    · exact .pure _
    · exact .bind (Arranged.onHeap (Heap.Arranged.modifyCell c fun _ => .ok (p.applyTo d))) fun _ =>
        .bind (arranged_noteKey key) fun _ => .pure _
  | none =>
    refine .bind (.reads _) fun extensible => ?_
    split
    · exact .bind (.discard (Arranged.onHeap (Heap.Arranged.define rfl _))) fun _ => .bind (arranged_noteKey key) fun _ => .pure _
    · exact .pure _

/-- The keys are arranged, whichever of them are left. -/
def Rearranged (o : ObjectRef) (ks : List PropertyKey) (m : Machine) : Prop := ∃ keep, Arranged o ks keep m

theorem Arranged.leaves {p : Run α} (hp : Proc.Keeps (Arranged o ks keep) p) (ha : Arranged o ks keep m) :
    (p m).Leaves (Rearranged o ks) := by
  have hkept := hp m ha
  cases hpm : p m with
  | done x m' => rw [hpm] at hkept; exact ⟨keep, hkept⟩
  | failed e m' => rw [hpm] at hkept; exact ⟨keep, hkept⟩
  | stalled => trivial

/-- A property that may be deleted is removed. -/
theorem deleteProperty_done {d : Descriptor} {obj : Object} (hd : m.heap.ownProperty o key = .ok (some d))
    (hdelete : (!d.configurable || d.isVariable) = false) (ho : m.heap.object o = .ok obj) (strict : Bool) :
    deleteProperty o key strict m = .done true
      { m with heap := m.heap.put o.handle (.object { obj with properties := obj.properties.erase key }) } := by
  obtain ⟨c, hown, -⟩ := Heap.ownProperty_eq_some.mp hd
  unfold deleteProperty
  rw [Run.readHeap_bind, hd]
  dsimp only
  rw [hdelete, if_neg Bool.false_ne_true, Proc.discard_bind]
  show (Run.onHeap (Heap.remove o key) >>= fun _ => pure true) m = _
  rw [Proc.bind_done (Run.onHeap_done (Heap.remove_done ho hown))]
  rfl

/-- **Deleting a property** removes its key, and leaves the others in their order. -/
theorem arranged_deleteProperty (ha : Arranged o ks (fun _ => true) m) (key : PropertyKey) (strict : Bool) :
    (deleteProperty o key strict m).Leaves (Rearranged o ks) := by
  cases hd : m.heap.ownProperty o key with
  | error e =>
    unfold deleteProperty
    rw [Run.readHeap_bind, hd]
    exact ⟨_, ha⟩
  | ok found =>
    cases found with
    | none =>
      unfold deleteProperty
      rw [Run.readHeap_bind, hd]
      exact ⟨_, ha⟩
    | some d =>
      cases hdelete : !d.configurable || d.isVariable with
      | true =>
        unfold deleteProperty
        rw [Run.readHeap_bind, hd]
        dsimp only
        rw [hdelete, if_pos rfl]
        exact ha.leaves (arranged_refuseWrite key strict)
      | false =>
        obtain ⟨obj, ho⟩ := ha.heap.live
        rw [deleteProperty_done hd hdelete ho strict]
        exact ⟨_, ha.length, ha.heap.filtered (· ≠ key) ho (obj.properties.keys_erase key)⟩

/-- **Setting a property** leaves all keys in their order, but the length of an array cuts its elements off. -/
theorem arranged_setProperty (ha : Arranged o ks (fun _ => true) m) (key : PropertyKey) (v : Value) (strict : Bool) :
    (setProperty Edit.refusing o key v strict m).Leaves (Rearranged o ks) := by
  have hlength : (setLength Edit.refusing o v m).Leaves (Rearranged o ks) := by
    have hnumber := Edit.keeps_toNumber (fun t => Arranged.onHeap (Heap.Arranged.intern t)) v m ha
    unfold setLength
    rw [Proc.bind_eq]
    cases hdone : toNumber Edit.refusing v m with
    | stalled => trivial
    | failed e m' => rw [hdone] at hnumber; exact ⟨_, hnumber⟩
    | done x m' =>
      rw [hdone] at hnumber
      dsimp only [Outcome.bind]
      cases Number.wholeBelow? UInt32.size x with
      | none =>
        dsimp only
        rw [Run.readHeap_bind]
        cases m'.heap.describe v <;> exact ⟨_, hnumber⟩
      | some n =>
        obtain ⟨obj, ho⟩ := hnumber.heap.live
        have harranged := hnumber.heap.filtered (fun key => !key.isBeyond n.toUInt32) ho (obj.properties.keys_filter _)
        show ((Run.onHeap (Heap.retainKeys o fun key => !key.isBeyond n.toUInt32) >>= fun _ =>
          writeLength o n.toUInt32) m').Leaves _
        rw [Proc.bind_done (Run.onHeap_done (Heap.retainKeys_done ho _))]
        exact Arranged.leaves (arranged_writeLength (fun _ => rfl) _) ⟨hnumber.length, harranged⟩
  unfold setProperty
  rw [Run.names_bind, Run.readHeap_bind]
  cases m.heap.isArray o with
  | error e => exact ⟨_, ha⟩
  | ok array =>
    dsimp only
    split
    · rw [Run.readHeap_bind]
      cases m.heap.ownWritable o key with
      | error e => exact ⟨_, ha⟩
      | ok writable =>
        cases writable with
        | false => exact ha.leaves (arranged_refuseWrite key strict)
        | true =>
          show ((setLength Edit.refusing o v >>= fun _ => pure true) m).Leaves _
          rw [Proc.bind_eq]
          exact hlength.bind fun _ => .pure _
    · exact ha.leaves (arranged_setOrdinary key v strict)

end Machine

namespace Edit

/-- The operation sets, defines or deletes a property of `o`. -/
def Alters (o : ObjectRef) : Edit → Prop
  | set q _ _ _ | define q _ _ | delete q _ _ => q = o
  | _ => False

/-- **An operation on an object keeps its keys in order**, if it runs no code: those that are left stay in their order,
and new ones come behind them. -/
theorem arranged_run {e : Edit} {engine : Engine} {obj : Object} (he : e.Alters o) (hnothing : e.RunsNothing m)
    (hv : m.heap.Valid) (hname : m.realm.names.length = .string s) (ho : m.heap.object o = .ok obj) :
    (e.run engine m).Rearranged o (m.heap.keysOf o) := by
  have ha : m.Arranged o (m.heap.keysOf o) fun _ => true := ⟨⟨s, hname⟩, .refl hv ho⟩
  refine run_leaves hnothing ⟨_, ha⟩ ?_
  cases e with
  | set q key v strict =>
    obtain rfl : q = o := he
    exact Proc.leaves_discard (Machine.arranged_setProperty ha key v strict)
  | define q key p =>
    obtain rfl : q = o := he
    exact Proc.leaves_discard (ha.leaves (Machine.arranged_defineProperty key p))
  | delete q key strict =>
    obtain rfl : q = o := he
    exact Proc.leaves_discard (Machine.arranged_deleteProperty ha key strict)
  | _ => exact he.elim

end Edit

end ScriptCore
