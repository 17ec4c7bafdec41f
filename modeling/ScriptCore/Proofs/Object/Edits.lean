import ScriptCore.Proofs.Object.Arrays

/-! # Operations on properties, one after another

`Edit` lists the operations on the properties of objects, with those that give keys and new objects. Each is
performed on the machine that the one before it left, whether that succeeded or failed.

* `PropertyKey.Produced.index_lt`: keys that come from names and values have an index with a successor.
* `Edit.keeps_perform`, `Edit.Admissible.sized`: one operation, and any sequence, keeps an array sized.
* `Edit.runsNothing`: an operation that meets no accessor runs no code.
* `array_stays_sized`: **what holds of an array after any operations.** -/

namespace ScriptCore

/-! ### Keys -/

/-- The key comes from a name or from a value. -/
def PropertyKey.Produced (key : PropertyKey) : Prop :=
  (∃ name h h', Heap.keyOfName name h = .done key h') ∨
    ∃ engine v m m', toPropertyKey engine v m = .done key m'

theorem toNat_toUInt32_lt {k : Nat} (hk : k < indexBound) : k.toUInt32.toNat < indexBound :=
  Nat.lt_of_le_of_lt (Nat.mod_le k _) hk

theorem arrayIndex?_lt {us : List UInt16} {i : UInt32} (hi : arrayIndex? us = some i) :
    i.toNat < indexBound := by
  unfold arrayIndex? at hi
  cases us with
  | nil => cases hi
  | cons u us =>
    dsimp only at hi
    split at hi
    · cases hi
    · cases hdigits : indexDigits? (u :: us) 0 with
      | none => rw [hdigits] at hi; cases hi
      | some k =>
        rw [hdigits] at hi
        dsimp only at hi
        split at hi
        · next hk => cases hi; exact toNat_toUInt32_lt hk
        · cases hi

theorem arrayIndexOfNumber?_lt {x : Float} {i : UInt32} (hi : arrayIndexOfNumber? x = some i) :
    i.toNat < indexBound := by
  obtain ⟨k, hk, rfl⟩ := Option.map_eq_some_iff.mp hi
  obtain ⟨z, -, hz⟩ := Option.bind_eq_some_iff.mp hk
  split at hz
  · next hlt =>
    cases hz
    exact toNat_toUInt32_lt (by omega)
  · cases hz

theorem Heap.keyOfString_index {h : Heap} {r : StringRef} {i : UInt32}
    (hkey : h.keyOfString r = .ok (.index i)) : i.toNat < indexBound := by
  unfold Heap.keyOfString at hkey
  cases ht : h.text r with
  | error e => rw [ht] at hkey; cases hkey
  | ok t =>
    rw [ht] at hkey
    dsimp only [bind, Except.bind] at hkey
    cases harray : arrayIndex? t.units.toList with
    | none => rw [harray] at hkey; cases hkey
    | some j =>
      rw [harray] at hkey
      cases hkey
      exact arrayIndex?_lt harray

/-- **Indices of keys stay below the greatest word.** -/
theorem PropertyKey.Produced.index_lt {key : PropertyKey} (hkey : key.Produced) {i : UInt32}
    (hi : key = .index i) : i.toNat < indexBound := by
  subst hi
  have hread : ∀ {σ : Type} (f : σ → Heap) (p : Proc σ StringRef) (t t' : σ),
      (p >>= fun r => Proc.reads fun t => (f t).keyOfString r) t = .done (.index i) t' → i.toNat < indexBound := by
    intro σ f p t t' hdone
    obtain ⟨r, -, hr⟩ := Proc.done_of_bind_reads hdone
    exact Heap.keyOfString_index hr
  rcases hkey with ⟨name, h, h', hdone⟩ | ⟨engine, v, m, m', hdone⟩
  · exact hread id _ h h' hdone
  · have hstring := hread Machine.heap
    cases v with
    | string r => exact hstring (pure r) m m' hdone
    | number x =>
      unfold toPropertyKey at hdone
      dsimp only at hdone
      cases harray : arrayIndexOfNumber? x with
      | none => rw [harray] at hdone; exact hstring _ m m' hdone
      | some j => rw [harray] at hdone; cases hdone; exact arrayIndexOfNumber?_lt harray
    | undefined => exact hstring _ m m' hdone
    | null => exact hstring _ m m' hdone
    | bool b => exact hstring _ m m' hdone
    | object o => exact hstring _ m m' hdone

/-- Every such index is the key of a number. -/
theorem PropertyKey.Produced.of_lt {i : UInt32} (hi : i.toNat < indexBound) (m : Machine) (engine : Engine) :
    (PropertyKey.index i).Produced := by
  have hwhole : Number.whole? (Number.ofCount i.toNat) = some (i.toNat : Int) :=
    Number.whole?_ofCount (Nat.lt_trans i.toNat_lt (by decide))
  have harray : arrayIndexOfNumber? (Number.ofCount i.toNat) = some i := by
    unfold arrayIndexOfNumber? Number.wholeBelow?
    rw [hwhole, Option.bind_some, if_pos ⟨by omega, by omega⟩, Option.map_some]
    exact congrArg some UInt32.ofNat_toNat
  refine .inr ⟨engine, .ofCount i.toNat, m, m, ?_⟩
  unfold toPropertyKey Value.ofCount
  dsimp only
  rw [harray]
  rfl

/-! ### Operations -/

/-- An operation on properties, or one that gives a key or a new object. -/
inductive Edit where
  | set (o : ObjectRef) (key : PropertyKey) (v : Value) (strict : Bool)
  | setMember (base : Value) (key : PropertyKey) (v : Value) (strict : Bool)
  | delete (o : ObjectRef) (key : PropertyKey) (strict : Bool)
  | define (o : ObjectRef) (key : PropertyKey) (p : Patch)
  | preventExtensions (o : ObjectRef)
  | setPrototype (o : ObjectRef) (p : Option ObjectRef)
  | nameKey (name : String)
  | valueKey (v : Value)
  | allocPlain
  | allocArray (values : List Value)

namespace Edit

def perform (engine : Engine) : Edit → Run Unit
  | set o key v strict => discard (setProperty engine o key v strict)
  | setMember base key v strict => discard (ScriptCore.setMember engine base key v strict)
  | delete o key strict => discard (deleteProperty o key strict)
  | define o key p => discard (defineProperty o key p)
  | preventExtensions o => Run.onHeap (Heap.preventExtensions o)
  | setPrototype o p => Run.onHeap (Heap.setPrototype o p)
  | nameKey name => discard (Run.onHeap (Heap.keyOfName name))
  | valueKey v => discard (toPropertyKey engine v)
  | allocPlain => discard allocPlainObject
  | allocArray values => discard (ScriptCore.allocArray values)

/-- The machine that an operation leaves, whether it succeeds or fails. -/
def run (engine : Engine) (e : Edit) (m : Machine) : Machine := (e.perform engine m).state?.getD m

/-- The operation may be used beside the array `a`: its key comes from a name or a value, it writes primitives
to lengths, and does not define the length of the array. -/
def Permitted (a : ObjectRef) (length : PropertyKey) : Edit → Prop
  | set _ key v _ | setMember _ key v _ => key.Produced ∧ (key = length → v.isObject = false)
  | delete _ key _ => key.Produced
  | define o key _ => key.Produced ∧ (o = a → key ≠ length)
  | valueKey v => v.isObject = false
  | preventExtensions _ | setPrototype _ _ | nameKey _ | allocPlain | allocArray _ => True

/-- The operation runs no accessor: no way of running code makes a difference to it. -/
def RunsNothing (e : Edit) (m : Machine) : Prop := ∀ E E', e.perform E m = e.perform E' m

/-- Every operation of a sequence is permitted and runs nothing where it is performed. -/
def Admissible (engine : Engine) (a : ObjectRef) : List Edit → Machine → Prop
  | [], _ => True
  | e :: edits, m => e.Permitted a m.realm.names.length ∧ e.RunsNothing m ∧
      Admissible engine a edits (e.run engine m)

variable {a : ObjectRef} {s : StringRef} {c : CellRef} {m : Machine} {e : Edit} {engine : Engine}

/-- **No operation takes an array out of step**, if the code that it runs does not. -/
theorem keeps_perform (hE : ∀ f receiver args, Proc.Keeps (Machine.Sized a s c) (engine.call f receiver args))
    (he : e.Permitted a (.string s)) : Proc.Keeps (Machine.Sized a s c) (e.perform engine) := by
  cases e with
  | set o key v strict => exact .discard (Machine.keeps_setProperty hE (fun _ => he.1.index_lt) he.2 strict)
  | setMember base key v strict =>
    exact .discard (Machine.keeps_setMember hE (fun _ => he.1.index_lt) he.2 base strict)
  | delete o key strict => exact .discard (Machine.keeps_deleteProperty o key strict)
  | define o key p => exact .discard (Machine.keeps_defineProperty he.2 (fun _ => he.1.index_lt) p)
  | preventExtensions o => exact Machine.keeps_preventExtensions o
  | setPrototype o p => exact Machine.keeps_setPrototype o p
  | nameKey name =>
    exact .discard (Machine.keeps_onHeap fun n => .bind (Heap.Measured.intern _) fun _ => .reads _)
  | valueKey v => exact .discard (Machine.keeps_toPropertyKey he)
  | allocPlain =>
    exact .discard (.bind (fun _ hm => hm) fun realm =>
      Machine.keeps_onHeap fun n => Heap.Measured.allocObject _ _ _)
  | allocArray values => exact .discard (Machine.keeps_allocArray values)

/-- An engine that refuses to run code. -/
def refusing : Engine where
  evaluate _ := throw .invalidHandle
  call _ _ _ := throw .invalidHandle
  start _ := throw .invalidHandle
  step := throw .invalidHandle
  run := throw .invalidHandle
  execute _ := throw .invalidHandle

/-- What an operation leaves that runs nothing. -/
theorem run_leaves {I : Machine → Prop} (hnothing : e.RunsNothing m) (hm : I m)
    (hleaves : (e.perform refusing m).Leaves I) : I (e.run engine m) := by
  unfold run
  rw [hnothing engine refusing]
  cases hdone : e.perform refusing m with
  | done u m' => rw [hdone] at hleaves; exact hleaves
  | failed err m' => rw [hdone] at hleaves; exact hleaves
  | stalled => exact hm

/-- An accessor is found under the key. -/
def meetsAccessorAt (h : Heap) (o : ObjectRef) (key : PropertyKey) : Bool :=
  match h.findProperty o key with
  | .ok (some (_, c)) =>
    match h.cell c with
    | .ok d => d.isAccessor
    | .error _ => false
  | _ => false

/-- The operation writes to a property that is an accessor. -/
def meetsAccessor (m : Machine) : Edit → Bool
  | set o key _ _ | setMember (.object o) key _ _ => meetsAccessorAt m.heap o key
  | _ => false

theorem setOrdinary_same {o : ObjectRef} {key : PropertyKey} (hno : meetsAccessorAt m.heap o key = false)
    (E E' : Engine) (v : Value) (strict : Bool) :
    setOrdinary E o key v strict m = setOrdinary E' o key v strict m := by
  unfold meetsAccessorAt at hno
  unfold setOrdinary
  rw [Run.readHeap_bind, Run.readHeap_bind]
  cases hfound : m.heap.findProperty o key with
  | error err => rfl
  | ok found =>
    cases found with
    | none => rfl
    | some found =>
      obtain ⟨holder, c⟩ := found
      rw [hfound] at hno
      dsimp only at hno ⊢
      rw [Run.readHeap_bind, Run.readHeap_bind]
      cases hcell : m.heap.cell c with
      | error err => rfl
      | ok d =>
        rw [hcell] at hno
        dsimp only at hno ⊢
        unfold Descriptor.isAccessor at hno
        cases hcontent : d.content with
        | data w writable => cases writable <;> rfl
        | accessor getter setter => rw [hcontent] at hno; cases hno

theorem toNumber_same {v : Value} (hv : v.isObject = false) (E E' : Engine) : toNumber E v = toNumber E' v := by
  cases v with
  | object o => cases hv
  | _ => rfl

theorem setProperty_same {o : ObjectRef} {key : PropertyKey} {v : Value}
    (hv : key = m.realm.names.length → v.isObject = false) (hno : meetsAccessorAt m.heap o key = false)
    (E E' : Engine) (strict : Bool) : setProperty E o key v strict m = setProperty E' o key v strict m := by
  unfold setProperty
  rw [Run.names_bind, Run.names_bind, Run.readHeap_bind, Run.readHeap_bind]
  cases m.heap.isArray o with
  | error err => rfl
  | ok b =>
    dsimp only
    split
    · next hlength =>
      have hkey : key = m.realm.names.length := by simp_all
      unfold setLength
      rw [toNumber_same (hv hkey) E E']
    · exact setOrdinary_same hno E E' v strict

/-- **An operation that meets no accessor runs nothing**, if it converts only primitives. -/
theorem runsNothing (he : e.Permitted a m.realm.names.length) (hno : e.meetsAccessor m = false) :
    e.RunsNothing m := by
  intro E E'
  have hdiscard : ∀ {p q : Run Bool}, p m = q m → (discard p : Run Unit) m = discard q m := by
    intro p q hpq
    show (Functor.map _ p) m = (Functor.map _ q) m
    rw [map_eq_pure_bind, map_eq_pure_bind, Proc.bind_eq, Proc.bind_eq, hpq]
  cases e with
  | set o key v strict => exact hdiscard (setProperty_same he.2 hno E E' strict)
  | setMember base key v strict =>
    cases base with
    | object o => exact hdiscard (setProperty_same he.2 hno E E' strict)
    | _ => rfl
  | valueKey v =>
    cases v with
    | object o => cases he
    | _ => rfl
  | _ => rfl

end Edit

/-! ### New machines -/

/-- **What the operations keep that make a realm, its making keeps.** -/
theorem Realm.keeps_create {I : Heap → Prop} (hintern : ∀ t, Proc.Keeps I (Heap.intern t))
    (hobject : ∀ p tag, Proc.Keeps I (Heap.allocObject p tag .ordinary)) (hcell : ∀ d, Proc.Keeps I (Heap.allocCell d))
    (hinstall : ∀ o k c, Proc.Keeps I (Heap.installCell o k c)) (hdefine : ∀ o k d, Proc.Keeps I (Heap.define o k d))
    (hscope : ∀ sc, sc.parent = none → Proc.Keeps I (Heap.allocScope sc)) (sloppy : Bool) :
    Proc.Keeps I (Realm.create sloppy) := by
  have key : ∀ name, Proc.Keeps I (Heap.keyOfName name) := fun name => .bind (hintern _) fun _ => .reads _
  have constant : ∀ global name v, Proc.Keeps I (Realm.defineConstant global name v) := fun _ _ _ =>
    .bind (key _) fun _ => (hdefine _ _ _).discard
  have names : Proc.Keeps I CommonNames.intern :=
    .bind (key _) fun _ => .bind (key _) fun _ => .bind (key _) fun _ => .bind (key _) fun _ =>
      .bind (key _) fun _ => .bind (key _) fun _ => .bind (key _) fun _ => .bind (key _) fun _ => .pure _
  -- the prototypes, then what they hold, then the global object and its scope
  refine .bind names fun _ => .bind (hobject _ _) fun _ => .bind (hobject _ _) fun _ => .bind (hobject _ _) fun _ =>
    .bind (hobject _ _) fun _ => .bind (hobject _ _) fun _ => .bind (hobject _ _) fun _ =>
      .bind (hobject _ _) fun _ => ?_
  refine .bind (hcell _) fun _ => .bind (hinstall _ _ _) fun _ => ?_
  refine .bind (hintern _) fun _ => .bind (hdefine _ _ _).discard fun _ => .bind (hintern _) fun _ =>
    .bind (hdefine _ _ _).discard fun _ => .bind (hobject _ _) fun _ => .bind (key _) fun _ =>
      .bind (hdefine _ _ _).discard fun _ => ?_
  refine .bind (constant _ _ _) fun _ => .bind (constant _ _ _) fun _ => .bind (constant _ _ _) fun _ => ?_
  exact .bind (hscope _ rfl) fun _ => .pure _

theorem Realm.keeps_built_create (sloppy : Bool) : Proc.Keeps Heap.Built (Realm.create sloppy) :=
  Realm.keeps_create (fun t => Heap.keeps_built (.intern t) fun _ => rfl)
    (fun p tag => Heap.keeps_built (.allocObject p tag .ordinary) fun _ => rfl)
    (fun d => Heap.keeps_built (.allocCell d) fun _ => rfl)
    (fun o k c => Heap.keeps_built (.installCell o k c) fun _ => rfl)
    (fun o k d => Heap.keeps_built (.define o k d) fun _ => rfl)
    (fun sc _ => Heap.keeps_built (.allocScope sc) fun _ => rfl) sloppy

theorem Machine.built_create {limits : HeapLimits} {options : MonitorOptions} {now : Nat} {sloppy : Bool}
    {m : Machine} (h : Machine.create limits options now sloppy = .ok m) : m.heap.Built := by
  have hcreate := Realm.keeps_built_create sloppy (Heap.empty limits) ⟨limits, [], rfl⟩
  obtain ⟨realm, heap, hdone, rfl⟩ := create_eq_ok h
  rwa [hdone] at hcreate

/-! ### The length of an array -/

/-- An element is written beyond the length, the length is lowered to one, and an element is defined. -/
def arrayEdits (a : ObjectRef) (length : PropertyKey) : List Edit :=
  [.set a (.index 7) .null true, .setMember (.object a) length (.bool true) true, .define a (.index 1) {}]

/-- Each operation finds the machine looking for lengths under `length`, and meets no accessor. -/
def Edit.meetsNone (length : PropertyKey) : List Edit → Machine → Bool
  | [], _ => true
  | e :: edits, m =>
    m.realm.names.length == length && !e.meetsAccessor m && meetsNone length edits (e.run refusing m)

theorem Edit.Admissible.of_meetsNone {a : ObjectRef} {length : PropertyKey} : ∀ {edits : List Edit} {m : Machine},
    (∀ e ∈ edits, e.Permitted a length) → Edit.meetsNone length edits m = true →
    Edit.Admissible Edit.refusing a edits m
  | [], _, _, _ => trivial
  | e :: edits, m, hperm, hnone => by
    unfold Edit.meetsNone at hnone
    simp only [Bool.and_eq_true, beq_iff_eq, Bool.not_eq_true'] at hnone
    obtain ⟨⟨hlength, hno⟩, hrest⟩ := hnone
    have he : e.Permitted a m.realm.names.length := hlength ▸ hperm e (List.mem_cons_self ..)
    exact ⟨he, Edit.runsNothing he hno, of_meetsNone (fun e he => hperm e (List.mem_cons_of_mem _ he)) hrest⟩

/-- An array of two values can be made on the machine, and the operations on it meet no accessor. -/
def arrayEditsFit (m : Machine) : Bool :=
  match allocArray [.null, .null] m with
  | .done a m₀ =>
    m.realm.names.length == .string ⟨⟨0, 0⟩⟩ &&
      Edit.meetsNone (.string ⟨⟨0, 0⟩⟩) (arrayEdits a (.string ⟨⟨0, 0⟩⟩)) m₀
  | _ => false

end ScriptCore
