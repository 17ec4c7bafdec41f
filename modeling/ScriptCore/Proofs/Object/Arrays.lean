import ScriptCore.Object.Write
import ScriptCore.Proofs.Drive.Routine
import ScriptCore.Proofs.Heap.Lengths
import ScriptCore.Proofs.Number.Counts

/-! # Arrays and their lengths

The length of an array is a whole number below `2 ^ 32` that stays above all its elements. Elements come in
three ways, by a write to an own property, by a write that makes one and by a definition; each notes the
element, and a write to the length removes the elements that it cuts off before it writes the length. No
allocation stands between an element and the note of it, so a full heap cannot part the two.

* `writeLength_measures`, `noteKey_measures`: writing the length, and noting an element, never fail.
* `keeps_setProperty`, `keeps_defineProperty` and so on: **every operation keeps the array sized.**
* `allocArray_sized`: a new array is sized, its length being less than the heap has slots. -/

namespace ScriptCore

variable {α : Type}

/-- Indices stay below the greatest word, so the next word is no smaller. -/
theorem toNat_succ_of_lt {i : UInt32} (hi : i.toNat < indexBound) : (i + 1).toNat = i.toNat + 1 := by
  rw [UInt32.toNat_add]
  exact Nat.mod_eq_of_lt (Nat.add_lt_of_lt_sub hi)

namespace Machine

variable {a o : ObjectRef} {s : StringRef} {c : CellRef} {n : Nat} {late : Option UInt32} {m : Machine}
  {key : PropertyKey}

/-- The machine looks for lengths under `s`, and the array `a` is measured in its heap. -/
structure Measures (a : ObjectRef) (s : StringRef) (c : CellRef) (n : Nat) (late : Option UInt32)
    (m : Machine) : Prop where
  name : m.realm.names.length = .string s
  heap : m.heap.Measured a s c n late

/-- The array has a length, which is a 32-bit word, and no element is ahead of it. -/
def Sized (a : ObjectRef) (s : StringRef) (c : CellRef) (m : Machine) : Prop :=
  ∃ n < UInt32.size, m.Measures a s c n none

theorem keeps_onHeap {p : Proc Heap α} (hp : ∀ n, Proc.Keeps (Heap.Measured a s c n none) p) :
    Proc.Keeps (Sized a s c) (Run.onHeap p) := by
  rintro m ⟨n, hn, hm⟩
  have hkept := hp n m.heap hm.heap
  cases hpm : p m.heap with
  | done v heap =>
    rw [hpm] at hkept
    rw [Run.onHeap_done hpm]
    exact ⟨n, hn, hm.name, hkept⟩
  | failed e heap =>
    rw [hpm] at hkept
    rw [Run.onHeap_failed hpm]
    exact ⟨n, hn, hm.name, hkept⟩
  | stalled =>
    unfold Run.onHeap
    dsimp only
    rw [hpm]
    trivial

theorem Sized.name (hm : m.Sized a s c) : m.realm.names.length = .string s := by
  obtain ⟨n, -, hm⟩ := hm
  exact hm.name

theorem Sized.ne_cell {c' : CellRef} {obj : Object} (hm : m.Sized a s c) (hkey : o = a → key ≠ .string s)
    (ho : m.heap.object o = .ok obj) (hfind : obj.properties.find? key = some c') : c' ≠ c := by
  obtain ⟨n, -, hm⟩ := hm
  exact hm.heap.ne_cell hkey ho hfind

/-! ### Writing the length -/

/-- **Writing the length never fails.** -/
theorem writeLength_measures {k : UInt32} (hm : m.Measures a s c n late)
    (hbelow : ∀ obj i c', m.heap.object a = .ok obj → obj.properties.find? (.index i) = some c' →
      i.toNat < k.toNat) : ∃ m', writeLength a k m = .done () m' ∧ m'.Measures a s c k.toNat none := by
  obtain ⟨hwrite, hm'⟩ := hm.heap.resize hbelow
  refine ⟨{ m with heap := m.heap.put c.handle (.cell (lengthDescriptor k.toNat)) }, ?_, hm.name, hm'⟩
  unfold writeLength
  rw [Run.names_bind, Run.readHeap_bind, hm.name, hm.heap.ownCell]
  exact Run.onHeap_done (p := Heap.writeCell c (.ofCount k.toNat)) hwrite

/-- **Noting the late element never fails**, and then it is late no more. -/
theorem noteKey_measures (hm : m.Measures a s c n late) (hn : n < UInt32.size)
    (hlate : ∀ i, late = some i → key = .index i) (hkey : ∀ i, key = .index i → i.toNat < indexBound) :
    ∃ m', noteKey a key m = .done () m' ∧ m'.Sized a s c := by
  cases key with
  | string t => exact ⟨m, rfl, n, hn, hm.name, hm.heap.settle fun i hi => by cases hlate i hi⟩
  | index i =>
    have hlength : m.heap.lengthOf m.realm.names a = .ok (Number.ofCount n).toUInt32 := by
      unfold Heap.lengthOf
      rw [hm.name, hm.heap.ownProperty]
      rfl
    have hnote : noteKey a (.index i) m =
        (if (Number.ofCount n).toUInt32 ≤ i then writeLength a (i + 1) else pure ()) m := by
      show ((Run.readHeap fun h => h.isArray a) >>= fun b => if b = true then noteIndex a i else pure ()) m = _
      rw [Run.readHeap_bind, hm.heap.isArray]
      show (Run.names >>= _ >>= _) m = _
      rw [bind_assoc, Run.names_bind, Run.readHeap_bind, hlength]
    have hcount : (Number.ofCount n).toUInt32.toNat = n := Number.toUInt32_ofCount hn
    have hsucc : (i + 1).toNat = i.toNat + 1 := toNat_succ_of_lt (hkey i rfl)
    rw [hnote]
    by_cases hle : (Number.ofCount n).toUInt32 ≤ i
    · rw [if_pos hle]
      rw [UInt32.le_iff_toNat_le, hcount] at hle
      obtain ⟨m', hdone, hm'⟩ := writeLength_measures (k := i + 1) hm fun obj j c' ho hfind => by
        rw [hsucc]
        rcases hm.heap.below obj j c' ho hfind with hlt | hj
        · omega
        · cases hlate j hj
          omega
      exact ⟨m', hdone, _, (i + 1).toNat_lt, hm'⟩
    · rw [if_neg hle]
      rw [UInt32.le_iff_toNat_le, hcount] at hle
      refine ⟨m, rfl, n, hn, hm.name, hm.heap.settle fun j hj => ?_⟩
      cases hlate j hj
      omega

theorem keeps_writeLength_other (hoa : o ≠ a) (k : UInt32) :
    Proc.Keeps (Sized a s c) (writeLength o k) := by
  intro m hm
  unfold writeLength
  rw [Run.names_bind, Run.readHeap_bind]
  cases hfound : m.heap.ownCell o m.realm.names.length with
  | error e => exact hm
  | ok found =>
    cases found with
    | none => exact (keeps_onHeap fun n => Heap.Measured.define_other hoa _ _).discard m hm
    | some c' =>
      obtain ⟨obj, ho, hfind⟩ := Heap.ownCell_eq_ok.mp hfound
      have hne : c' ≠ c := hm.ne_cell (fun hbad => absurd hbad hoa) ho hfind
      exact keeps_onHeap (fun n => Heap.Measured.modifyCell hne _) m hm

theorem keeps_noteKey_other (hoa : o ≠ a) (key : PropertyKey) : Proc.Keeps (Sized a s c) (noteKey o key) := by
  cases key with
  | string t => exact .pure _
  | index i =>
    refine .bind (.reads _) fun isArray => ?_
    split
    · refine .bind (.bind (fun _ hm => hm) fun names => .reads _) fun k => ?_
      split
      · exact keeps_writeLength_other hoa _
      · exact .pure _
    · exact .pure _

theorem keeps_noteKey (hindex : ∀ i, key = .index i → i.toNat < indexBound) :
    Proc.Keeps (Sized a s c) (noteKey o key) := by
  intro m hm
  by_cases hoa : o = a
  · subst hoa
    obtain ⟨n, hn, hm⟩ := hm
    obtain ⟨m', hnoted, hsized⟩ := noteKey_measures hm hn nofun hindex
    rw [hnoted]
    exact hsized
  · exact keeps_noteKey_other hoa key m hm

/-! ### Making and writing properties -/

theorem keeps_refuseWrite (key : PropertyKey) (strict : Bool) :
    Proc.Keeps (Sized a s c) (refuseWrite key strict) := by
  unfold refuseWrite
  split
  · exact .bind (.reads _) fun name => .fail _
  · exact .pure _

section

variable (hkey : o = a → key ≠ .string s) (hindex : ∀ i, key = .index i → i.toNat < indexBound)
include hkey hindex

/-- **A new property other than the length is noted at once.** -/
theorem keeps_define_noted (d : Descriptor) : Proc.Keeps (Sized a s c) (do
    discard (Run.onHeap (Heap.define o key d))
    noteKey o key
    return true) := by
  rintro m ⟨n, hn, hm⟩
  rw [Proc.discard_bind, Proc.bind_eq]
  rcases hm.heap.define hkey d with ⟨e, hfailed⟩ | ⟨c', h', hdone, -, hm'⟩
  · rw [Run.onHeap_failed hfailed]
    exact ⟨n, hn, hm.name, hm.heap⟩
  rw [Run.onHeap_done hdone]
  show ((noteKey o key >>= fun _ => pure true) { m with heap := h' }).Leaves _
  by_cases hoa : o = a
  · subst hoa
    rw [if_pos rfl] at hm'
    have hlate : ∀ i, key.asIndex? = some i → key = .index i := fun i hi => by
      cases key <;> simp_all [PropertyKey.asIndex?]
    obtain ⟨m', hnoted, hsized⟩ := noteKey_measures (m := { m with heap := h' }) ⟨hm.name, hm'⟩ hn hlate hindex
    rw [Proc.bind_eq, hnoted]
    exact hsized
  · rw [if_neg hoa] at hm'
    exact (keeps_noteKey_other hoa key).bind (fun _ => .pure _) _ ⟨n, hn, hm.name, hm'⟩

theorem keeps_createOwn (v : Value) (strict : Bool) :
    Proc.Keeps (Sized a s c) (createOwn o key v strict) := by
  refine .bind (.reads _) fun extensible => ?_
  split
  · exact keeps_define_noted hkey hindex _
  · exact keeps_refuseWrite key strict

theorem keeps_defineProperty (p : Patch) : Proc.Keeps (Sized a s c) (defineProperty o key p) := by
  refine .bind (.ofExcept p.validate) fun _ => Proc.Keeps.reads_bind fun m found hm hfound => ?_
  cases found with
  | none =>
    refine Proc.Keeps.bind (.reads _) (fun extensible => ?_) m hm
    split
    · exact keeps_define_noted hkey hindex _
    · exact .pure _
  | some c' =>
    obtain ⟨obj, ho, hfind⟩ := Heap.ownCell_eq_ok.mp hfound
    have hne : c' ≠ c := hm.ne_cell hkey ho hfind
    refine Proc.Keeps.bind (.reads _) (fun d => ?_) m hm
    split
    · exact .pure _
    · have hput : Proc.Keeps (Sized a s c) (Run.onHeap (Heap.putCell c' (p.applyTo d))) :=
        keeps_onHeap fun n => Heap.Measured.modifyCell hne _
      exact .bind hput fun _ => .bind (keeps_noteKey hindex) fun _ => .pure _

end

/-- Only a property with a cell of its own can be deleted, and the length cannot. -/
theorem keeps_deleteProperty (o : ObjectRef) (key : PropertyKey) (strict : Bool) :
    Proc.Keeps (Sized a s c) (deleteProperty o key strict) := by
  refine Proc.Keeps.reads_bind fun m found hm hfound => ?_
  cases found with
  | none => exact hm
  | some d =>
    have hlength : o = a → key = .string s → d.configurable = false := by
      rintro rfl rfl
      obtain ⟨n, -, hn⟩ := hm
      cases hn.heap.ownProperty.symm.trans hfound
      rfl
    dsimp only
    split
    · exact keeps_refuseWrite key strict m hm
    · next hdelete =>
      have hkey : o = a → key ≠ .string s := by
        intro hoa hks
        rw [hlength hoa hks] at hdelete
        exact hdelete rfl
      exact Proc.Keeps.bind (.discard (keeps_onHeap fun n => Heap.Measured.remove hkey)) (fun _ => .pure _) m hm

theorem keeps_preventExtensions (o : ObjectRef) :
    Proc.Keeps (Sized a s c) (Run.onHeap (Heap.preventExtensions o)) :=
  keeps_onHeap fun _ => Heap.Measured.modifyObject o (fun _ => rfl) (fun _ _ => rfl) fun _ _ _ hfind => hfind

theorem keeps_setPrototype (o : ObjectRef) (p : Option ObjectRef) :
    Proc.Keeps (Sized a s c) (Run.onHeap (Heap.setPrototype o p)) :=
  keeps_onHeap fun _ => .bind (.discard (.reads _)) fun _ => .bind (.reads _) fun _ =>
    Heap.Measured.modifyObject o (fun _ => rfl) (fun _ _ => rfl) fun _ _ _ hfind => hfind

/-- Converting a primitive to a number changes nothing. -/
theorem keeps_toNumber {E : Engine} {v : Value} (hv : v.isObject = false) :
    Proc.Keeps (Sized a s c) (toNumber E v) := by
  have hread : Proc.Keeps (Sized a s c) (Run.readHeap fun h => h.numberOf v) := .reads _
  cases v with
  | object o => cases hv
  | _ => exact hread

/-- Converting a primitive to a key interns at most a string. -/
theorem keeps_toPropertyKey {E : Engine} {v : Value} (hv : v.isObject = false) :
    Proc.Keeps (Sized a s c) (toPropertyKey E v) := by
  have hintern : ∀ t : String, Proc.Keeps (Sized a s c) (do
      let r ← Run.onHeap (Heap.internString t)
      Run.readHeap fun h => h.keyOfString r) := fun t =>
    .bind (keeps_onHeap fun n => Heap.Measured.intern _) fun r => .reads _
  cases v with
  | object o => cases hv
  | string r => exact .reads _
  | number x =>
    unfold toPropertyKey
    dsimp only
    cases arrayIndexOfNumber? x with
    | some i => exact .pure _
    | none => exact hintern _
  | undefined => exact hintern "undefined"
  | null => exact hintern "null"
  | bool b =>
    cases b with
    | true => exact hintern "true"
    | false => exact hintern "false"

/-! ### Writing properties -/

/-- **A write to a length** removes the elements that it cuts off, then writes the length. -/
theorem keeps_setLength {E : Engine} {v : Value} (hv : v.isObject = false) (o : ObjectRef) :
    Proc.Keeps (Sized a s c) (setLength E o v) := by
  refine .bind (keeps_toNumber hv) fun x => ?_
  cases Number.wholeBelow? UInt32.size x with
  | none => exact .bind (.reads _) fun text => .fail _
  | some k =>
    dsimp only
    by_cases hoa : o = a
    · subst hoa
      rintro m ⟨n, hn, hm⟩
      obtain ⟨h', hdone, hm', hbelow⟩ := hm.heap.truncate k.toUInt32
      obtain ⟨m', hwritten, hm''⟩ := writeLength_measures (m := { m with heap := h' }) ⟨hm.name, hm'⟩ hbelow
      rw [Proc.bind_eq]
      show ((Run.onHeap (Heap.retainKeys o fun key => !key.isBeyond k.toUInt32) m).bind _).Leaves _
      rw [Run.onHeap_done hdone, Outcome.bind, hwritten]
      exact ⟨_, k.toUInt32.toNat_lt, hm''⟩
    · refine .bind (keeps_onHeap fun n => ?_) fun _ => keeps_writeLength_other hoa _
      refine Heap.Measured.modifyObject o (fun _ => rfl) (fun hbad => absurd hbad hoa) fun x key c' hfind => ?_
      rw [PropertyMap.find?_filter] at hfind
      split at hfind
      · exact hfind
      · cases hfind

theorem keeps_setOrdinary {E : Engine} (hE : ∀ f receiver args, Proc.Keeps (Sized a s c) (E.call f receiver args))
    (hkey : o = a → key ≠ .string s) (hindex : ∀ i, key = .index i → i.toNat < indexBound) (v : Value)
    (strict : Bool) : Proc.Keeps (Sized a s c) (setOrdinary E o key v strict) := by
  refine Proc.Keeps.reads_bind fun m found hm hfound => ?_
  cases found with
  | none => exact keeps_createOwn hkey hindex v strict m hm
  | some found =>
    obtain ⟨holder, c'⟩ := found
    obtain ⟨obj, ho, hfind⟩ := Heap.findWithin_holds _ _ hfound
    refine Proc.Keeps.bind (.reads _) (fun d => ?_) m hm
    cases d.content with
    | accessor getter setter =>
      refine .bind (.reads _) fun callable => ?_
      split
      · exact .bind (.discard (hE _ _ _)) fun _ => .pure _
      · exact keeps_refuseWrite key strict
    | data w writable =>
      cases writable with
      | false => exact keeps_refuseWrite key strict
      | true =>
        dsimp only
        split
        · next hholder =>
          subst hholder
          have hwrite : Proc.Keeps (Sized a s c) (Run.onHeap (Heap.writeCell c' v)) :=
            keeps_onHeap fun n => Heap.Measured.modifyCell (hm.ne_cell hkey ho hfind) _
          exact .bind hwrite fun _ => .pure _
        · exact keeps_createOwn hkey hindex v strict

theorem keeps_setProperty {E : Engine} (hE : ∀ f receiver args, Proc.Keeps (Sized a s c) (E.call f receiver args))
    (hindex : ∀ i, key = .index i → i.toNat < indexBound) {v : Value}
    (hv : key = .string s → v.isObject = false) (strict : Bool) :
    Proc.Keeps (Sized a s c) (setProperty E o key v strict) := by
  intro m hm
  unfold setProperty
  rw [Run.names_bind, Run.readHeap_bind, hm.name]
  cases harray : m.heap.isArray o with
  | error e => exact hm
  | ok b =>
    dsimp only
    split
    · next hlength =>
      have hks : key = .string s := by simp_all
      refine Proc.Keeps.bind (.reads _) (fun writable => ?_) m hm
      split
      · exact .bind (keeps_setLength (hv hks) o) fun _ => .pure _
      · exact keeps_refuseWrite key strict
    · next hother =>
      have hkey : o = a → key ≠ .string s := by
        rintro rfl hks
        obtain ⟨n, -, hn⟩ := hm
        rw [hn.heap.isArray] at harray
        cases harray
        simp [hks] at hother
      exact keeps_setOrdinary hE hkey hindex v strict m hm

theorem keeps_setMember {E : Engine} (hE : ∀ f receiver args, Proc.Keeps (Sized a s c) (E.call f receiver args))
    (hindex : ∀ i, key = .index i → i.toNat < indexBound) {v : Value}
    (hv : key = .string s → v.isObject = false) (base : Value) (strict : Bool) :
    Proc.Keeps (Sized a s c) (setMember E base key v strict) := by
  have hrefuse : Proc.Keeps (Sized a s c) (refuseBase "set" base key : Run Bool) :=
    .bind (.reads _) fun e => .fail e
  cases base with
  | object o => exact keeps_setProperty hE hindex hv strict
  | undefined => exact hrefuse
  | null => exact hrefuse
  | bool b => exact keeps_refuseWrite key strict
  | number x => exact keeps_refuseWrite key strict
  | string r => exact keeps_refuseWrite key strict

/-! ### New arrays -/

/-- **What defining properties of a new object keeps, making an array keeps.** -/
theorem leaves_allocArray {I : Machine → Prop} (hv : m.heap.Valid)
    (hobject : (Run.onHeap (Heap.allocObject (some m.realm.arrayPrototype) .array .array) m).Leaves I)
    (hdefine : ∀ o : ObjectRef, (∀ x obj, m.heap.object x = .ok obj → o ≠ x) → ∀ key d,
      Proc.Keeps I (Run.onHeap (Heap.define o key d))) (values : List Value) : (allocArray values m).Leaves I := by
  change (((Run.onHeap (Heap.allocObject (some m.realm.arrayPrototype) .array .array)) >>= _) m).Leaves _
  rw [Proc.bind_eq]
  rcases Heap.allocObject_filled hv (some m.realm.arrayPrototype) .array .array with
    ⟨e, hfailed⟩ | ⟨o, h', hdone, hf⟩
  · rw [Run.onHeap_failed hfailed] at hobject ⊢
    exact hobject
  rw [Run.onHeap_done hdone] at hobject ⊢
  have hnew : ∀ x obj, m.heap.object x = .ok obj → o ≠ x := by
    rintro x obj hx rfl
    have hfresh := hf.fresh (x := o.handle) rfl
    rw [Heap.object_eq_ok.mp hx] at hfresh
    cases hfresh
  have hdiscard : ∀ key d, Proc.Keeps I (Run.onHeap (discard (Heap.define o key d))) := by
    intro key d
    show Proc.Keeps I (Run.onHeap ((fun _ => ()) <$> Heap.define o key d))
    rw [Run.onHeap_map]
    exact (hdefine o hnew key d).map _
  have helements : ∀ (values : List Value) (i : Nat), Proc.Keeps I (Run.onHeap (defineElements o i values)) := by
    intro values
    induction values with
    | nil => exact fun i => .pure _
    | cons v values ih =>
      intro i
      rw [defineElements, Run.onHeap_bind]
      exact .bind (hdiscard _ _) fun _ => ih (i + 1)
  exact Proc.Keeps.bind (.discard (hdefine o hnew _ _)) (fun _ => .bind (helements values 0) fun _ => .pure _) _ hobject

/-- **A new array is sized**: the heap holds a block for each of its elements, and blocks are counted by
32-bit words. -/
theorem allocArray_sized {m' : Machine} {values : List Value} (hb : m.heap.Built)
    (hname : m.realm.names.length = .string s) (halloc : allocArray values m = .done a m') :
    ∃ c, m'.Sized a s c := by
  obtain ⟨o, h₁, hobject, halloc⟩ := Run.onHeap_bind_done (m := m) halloc
  rw [Proc.discard_bind] at halloc
  obtain ⟨c, h₂, hdefine, halloc⟩ := Run.onHeap_bind_done halloc
  obtain ⟨u, h₃, helements, halloc⟩ := Run.onHeap_bind_done halloc
  cases halloc
  dsimp only at hdefine helements
  rw [hname] at hdefine
  have hm₂ : h₂.Measured a s c values.length none := Heap.measured_new hb.valid hb.linked hobject hdefine
  obtain ⟨hm₃, hlive⟩ := hm₂.defineElements values 0 (by omega) helements
  have hroutines : ∀ {I : Heap → Prop}, (∀ {γ : Type} {p : Proc Heap γ}, Heap.Routine (fun _ => True) p →
      Proc.Keeps I p) → I m.heap → I h₃ := fun hI hm =>
    (hI (routine_defineElements a 0 values)).of_done helements ((hI (Heap.routine_define a _ _)).of_done hdefine
      ((hI (Heap.routine_allocObject _ _ trivial)).of_done hobject hm))
  have hle := Heap.live_le_slotBound (hroutines (fun hp => hp.keeps_accounted) hb.accounted)
    (hroutines (fun hp => hp.keeps_numbered) hb.numbered)
  have hlt : values.length < UInt32.size :=
    Nat.lt_of_le_of_lt (by omega : values.length ≤ Heap.slotBound) (by decide)
  exact ⟨c, values.length, hlt, hname, hm₃⟩

/-- Another array is made beside the array. -/
theorem keeps_allocArray (values : List Value) : Proc.Keeps (Sized a s c) (allocArray values) := by
  rintro m ⟨n, hn, hm⟩
  obtain ⟨obj, ho, -⟩ := hm.heap.own
  refine leaves_allocArray hm.heap.valid ?_ (fun o hnew key d => ?_) values
  · exact keeps_onHeap (fun n => Heap.Measured.allocObject _ _ _) m ⟨n, hn, hm⟩
  · exact keeps_onHeap fun n => Heap.Measured.define_other (hnew a obj ho) _ _

end Machine

end ScriptCore
