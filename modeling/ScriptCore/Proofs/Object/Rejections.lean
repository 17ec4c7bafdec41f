import ScriptCore.Proofs.Object.Assignment

/-! # Rejected operations on properties

A write, a deletion or a definition may be rejected, by the answer `false` or by an error. Let no code be run, and let
the length of an array hold a value and not be configurable. Then a rejected operation changes nothing, with two
exceptions. An object that is to be the length of an array is converted first, and the text that describes it may be
interned by that. A new property gets its cell first, and if there is no memory for its key then, the cell is left.
Strict code differs from sloppy code by its report only.

* `Outcome.Spares`: the operation changed nothing unless it took effect.
* `Machine.Strands`: the cell of a new property is left.
* `noteKey_succeeds`, `defineNoted_spares`: the length of an array can always be moved, so that a property that was
  made is also noted.
* `Write.perform_strict`: **strictness turns a refusal into an error**, and makes no other difference.
* `Write.rejected_unchanged`: **what a rejected operation leaves.** -/

namespace ScriptCore

/-! ### The operations -/

/-- An operation on a property that answers whether it took effect. -/
inductive Write where
  | set (o : ObjectRef) (key : PropertyKey) (v : Value)
  | setMember (base : Value) (key : PropertyKey) (v : Value)
  | delete (o : ObjectRef) (key : PropertyKey)
  | define (o : ObjectRef) (key : PropertyKey) (p : Patch)

namespace Write

/-- Defining is the same in strict and in sloppy code. -/
def perform [Heap.Memory] (engine : Engine) (strict : Bool) : Write → Run Bool
  | set o key v => setProperty engine o key v strict
  | setMember base key v => ScriptCore.setMember engine base key v strict
  | delete o key => deleteProperty o key strict
  | define o key p => defineProperty o key p

def key : Write → PropertyKey
  | set _ key _ | setMember _ key _ | delete _ key | define _ key _ => key

/-- The object whose property it is. -/
def target? : Write → Option ObjectRef
  | set o _ _ | delete o _ | define o _ _ => some o
  | setMember base _ _ =>
    match base with
    | .object o => some o
    | _ => none

/-- The property that it makes if there is none. -/
def makes? : Write → Option Descriptor
  | set _ _ v | setMember _ _ v => some (.data v)
  | define _ _ p => some p.toDescriptor
  | delete _ _ => none

def isDefinition : Write → Bool
  | define _ _ _ => true
  | _ => false

/-- The value is written to the length of an array. -/
def Resizes (m : Machine) (v : Value) : Write → Prop
  | set o key w | setMember (.object o) key w =>
    m.heap.isArray o = .ok true ∧ key = m.realm.names.length ∧ w = v
  | _ => False

/-- No code is run: no way of running code makes a difference. -/
def RunsNothing [Heap.Memory] (w : Write) (strict : Bool) (m : Machine) : Prop :=
  ∀ E E', w.perform E strict m = w.perform E' strict m

end Write

/-- If the object is an array, it has a length that holds a value and cannot be reconfigured. -/
def Machine.LengthHeld (m : Machine) (o : ObjectRef) : Prop :=
  m.heap.isArray o = .ok true → ∃ d w writable, m.heap.ownProperty o m.realm.names.length = .ok (some d) ∧
    d.configurable = false ∧ d.content = .data w writable

variable {α : Type} {h h' : Heap} {m m' : Machine} {o : ObjectRef} {key : PropertyKey} {c : CellRef} {d : Descriptor}
  {obj : Object} {v : Value} {p : Patch} {s : StringRef} {name : String} {strict : Bool}

/-- **A new property was left without its key**: there was no memory for the key, when the cell of the property had been
made. That cell is all that is new, and the objects have the properties that they had. -/
structure Machine.Strands [Heap.Memory] (m : Machine) (o : ObjectRef) (key : PropertyKey) (d : Descriptor) (e : Error)
    (m' : Machine) : Prop where
  error : e = .outOfMemory
  absent : m.heap.ownCell o key = .ok none
  extensible : m.heap.isExtensible o = .ok true
  short : Heap.Memory.grants m'.heap o = false
  machine : m' = { m with heap := m'.heap }
  cell : ∃ c : CellRef, m.heap.Filled (.cell d) c.handle m'.heap
  kept : ∀ x k, m'.heap.ownCell x k = m.heap.ownCell x k

/-! ### Outcomes -/

/-- An operation that did not take effect left the machine as it was, unless it failed with one of the errors and
states that are set apart. -/
def Outcome.Spares (m : Machine) (apart : Error → Machine → Prop) : Outcome Machine Bool → Prop
  | .done true _ => True
  | .done false m' => m' = m
  | .failed e m' => m' = m ∨ apart e m'
  | .stalled => True

/-- A refusal as strict code sees it: an error that names the key. -/
def Outcome.strictly (name : String) : Outcome Machine Bool → Outcome Machine Bool
  | .done false m => .failed (.propertyAccess name) m
  | r => r

namespace Outcome.Spares

variable {apart : Error → Machine → Prop}

/-- What only reads spares the machine. -/
theorem read {f : Heap → Except Error α} {k : α → Run Bool}
    (hk : ∀ a, f m.heap = .ok a → (k a m).Spares m apart) : ((Run.readHeap f >>= k) m).Spares m apart := by
  rw [Run.readHeap_bind]
  cases hf : f m.heap with
  | error e => exact .inl rfl
  | ok a => exact hk a hf

theorem of_refuses {r : Outcome Machine Bool} (hr : r.Refuses m strict) : r.Spares m apart := by
  unfold Outcome.Refuses at hr
  split at hr
  · obtain ⟨e, rfl⟩ := hr
    exact .inl rfl
  · rw [hr]
    rfl

theorem refused (key : PropertyKey) (strict : Bool) (m : Machine) : (refuseWrite key strict m).Spares m apart :=
  of_refuses (refuseWrite_refuses key strict m)

theorem effected {m₁ : Machine} {a : α} {q : Run α} (hq : q m₁ = .done a m') :
    ((q >>= fun _ => pure true) m₁).Spares m apart := by
  rw [Proc.bind_done hq]
  trivial

end Outcome.Spares

/-! ### Moving the length of an array -/

/-- If the object is an array, it has a length that holds a value. -/
def Machine.HoldsLength (m : Machine) (o : ObjectRef) : Prop :=
  m.heap.isArray o = .ok true → ∃ d w writable, m.heap.ownProperty o m.realm.names.length = .ok (some d) ∧
    d.content = .data w writable

theorem Machine.LengthHeld.holds (hheld : m.LengthHeld o) : m.HoldsLength o := fun harray =>
  let ⟨d, w, writable, hd, _, hcontent⟩ := hheld harray
  ⟨d, w, writable, hd, hcontent⟩

/-- Only the elements of arrays are noted. -/
theorem noteKey_plain [Heap.Memory] (hplain : m.heap.isArray o = .ok false) (key : PropertyKey) : noteKey o key m = .done () m := by
  cases key with
  | string t => rfl
  | index i =>
    show ((Run.readHeap fun h => h.isArray o) >>= fun b => if b = true then noteIndex o i else pure ()) m = _
    rw [Run.readHeap_bind, hplain]
    rfl

/-- **Noting a key succeeds** where the length holds a value. -/
theorem noteKey_succeeds [Heap.Memory] (ho : m.heap.object o = .ok obj) (hholds : m.HoldsLength o) (key : PropertyKey) :
    ∃ m', noteKey o key m = .done () m' := by
  cases key with
  | string t => exact ⟨m, rfl⟩
  | index i =>
    obtain ⟨isArray, harray⟩ := Heap.isArray_of_object ho
    cases isArray with
    | false => exact ⟨m, noteKey_plain harray _⟩
    | true =>
      obtain ⟨d, w, writable, hd, hcontent⟩ := hholds harray
      obtain ⟨c, hown, hc⟩ := Heap.ownProperty_eq_some.mp hd
      obtain ⟨obj', hl⟩ := Heap.hasLength_of_ownCell harray hown hc
      exact ⟨_, noteKey_done hl hcontent i⟩

/-- **A property that was made is also noted**, so that making one takes effect, or changes nothing but for the cell. -/
theorem defineNoted_spares [Heap.Memory] {apart : Error → Machine → Prop} (hv : m.heap.Valid)
    (hname : m.realm.names.length = .string s) (hholds : m.HoldsLength o) (d : Descriptor)
    (hextensible : m.heap.isExtensible o = .ok true) (hnone : m.heap.ownCell o key = .ok none)
    (hapart : ∀ e m', m.Strands o key d e m' → apart e m') :
    ((do
        discard (Run.onHeap (Heap.define o key d))
        noteKey o key
        return true : Run Bool) m).Spares m apart := by
  obtain ⟨obj, ho, hobj⟩ := Heap.isExtensible_eq_true hextensible
  obtain ⟨_, ho', hnew⟩ := Heap.ownCell_eq_ok.mp hnone
  cases ho.symm.trans ho'
  rw [Proc.discard_bind]
  rcases Heap.define_ends hv ho key d with ⟨-, hfailed⟩ | ⟨c, h₁, hf, -, hdefined⟩
  · rw [Proc.bind_failed (Run.onHeap_failed hfailed)]
    exact .inl rfl
  rw [hnew, Option.isNone_none, Bool.true_and] at hdefined
  cases hgrants : Heap.Memory.grants h₁ o with
  | false =>
    rw [hgrants] at hdefined
    rw [Proc.bind_failed (Run.onHeap_failed hdefined)]
    refine .inr (hapart _ _ ⟨rfl, hnone, hextensible, hgrants, rfl, ⟨c, hf⟩, fun x k => ?_⟩)
    unfold Heap.ownCell
    rw [hf.object_cell]
  | true =>
    rw [hgrants] at hdefined
    have ha := adds_defined ho hobj hnew hf
    obtain ⟨_, -, -, -, ho'⟩ := ha.object
    rw [Proc.bind_done (Run.onHeap_done hdefined)]
    suffices hnoted : ∃ m', noteKey o key _ = .done () m' from .effected hnoted.choose_spec
    cases key with
    | string t => exact ⟨_, rfl⟩
    | index i =>
      -- The length is another property, in another cell.
      refine noteKey_succeeds ho' (fun harray => ?_) _
      obtain ⟨e, w, writable, he, hcontent⟩ := hholds (ha.isArray.symm.trans harray)
      obtain ⟨x, hown, hx⟩ := Heap.ownProperty_eq_some.mp he
      refine ⟨e, w, writable, Heap.ownProperty_eq_some.mpr ⟨x, ?_, (ha.cell_of_eq hx).2⟩, hcontent⟩
      exact (ha.ownCell_of_ne (by rw [hname]; exact nofun)).trans hown

/-! ### Strictness -/

theorem Outcome.strictly_read {f : Heap → Except Error α} {k k' : α → Run Bool}
    (hk : ∀ a, f m.heap = .ok a → k a m = (k' a m).strictly name) :
    (Run.readHeap f >>= k) m = ((Run.readHeap f >>= k') m).strictly name := by
  rw [Run.readHeap_bind, Run.readHeap_bind]
  cases hf : f m.heap with
  | error e => rfl
  | ok a => exact hk a hf

/-- Nothing is refused where the answer is that the operation took effect. -/
theorem Outcome.strictly_effected (q : Run α) (name : String) (m : Machine) :
    (q >>= fun _ => pure true) m = ((q >>= fun _ => pure true) m).strictly name := by
  rw [Proc.bind_eq]
  cases q m <;> rfl

theorem refuseWrite_strict (hkey : m.heap.keyText key = .ok name) :
    refuseWrite key true m = (refuseWrite key false m).strictly name := by
  unfold refuseWrite
  rw [if_pos rfl, Run.readHeap_bind, hkey]
  rfl

section Strict

variable (hkey : m.heap.keyText key = .ok name)
include hkey

theorem createOwn_strict [Heap.Memory] (o : ObjectRef) (v : Value) :
    createOwn o key v true m = (createOwn o key v false m).strictly name := by
  refine Outcome.strictly_read fun extensible _ => ?_
  cases extensible with
  | false => exact refuseWrite_strict hkey
  | true =>
    have heffected := Outcome.strictly_effected
      ((discard (Run.onHeap (Heap.define o key (.data v))) : Run Unit) >>= fun _ => noteKey o key) name m
    rwa [bind_assoc] at heffected

theorem setOrdinary_strict [Heap.Memory] (E : Engine) (o : ObjectRef) (v : Value) :
    setOrdinary E o key v true m = (setOrdinary E o key v false m).strictly name := by
  refine Outcome.strictly_read fun found _ => ?_
  cases found with
  | none => exact createOwn_strict hkey o v
  | some found =>
    obtain ⟨holder, c⟩ := found
    refine Outcome.strictly_read fun d _ => ?_
    cases d.content with
    | data w writable =>
      cases writable with
      | false => exact refuseWrite_strict hkey
      | true =>
        dsimp only
        split
        · exact Outcome.strictly_effected _ name m
        · exact createOwn_strict hkey o v
    | accessor getter setter =>
      refine Outcome.strictly_read fun callable _ => ?_
      cases callable with
      | false => exact refuseWrite_strict hkey
      | true => exact Outcome.strictly_effected _ name m

theorem setProperty_strict [Heap.Memory] (E : Engine) (o : ObjectRef) (v : Value) :
    setProperty E o key v true m = (setProperty E o key v false m).strictly name := by
  unfold setProperty
  rw [Run.names_bind, Run.names_bind]
  refine Outcome.strictly_read fun isArray _ => ?_
  by_cases hlength : (isArray && decide (key = m.realm.names.length)) = true
  · rw [if_pos hlength, if_pos hlength]
    refine Outcome.strictly_read fun writable _ => ?_
    cases writable with
    | false => exact refuseWrite_strict hkey
    | true => exact Outcome.strictly_effected _ name m
  · rw [if_neg hlength, if_neg hlength]
    exact setOrdinary_strict hkey E o v

theorem setMember_strict [Heap.Memory] (E : Engine) (base v : Value) :
    setMember E base key v true m = (setMember E base key v false m).strictly name := by
  have hbase : refuseBase "set" base key m = (refuseBase "set" base key m).strictly name :=
    Outcome.strictly_read fun _ _ => rfl
  cases base with
  | object o => exact setProperty_strict hkey E o v
  | undefined | null => exact hbase
  | bool | number | string => exact refuseWrite_strict hkey

theorem deleteProperty_strict (o : ObjectRef) :
    deleteProperty o key true m = (deleteProperty o key false m).strictly name := by
  refine Outcome.strictly_read fun found _ => ?_
  cases found with
  | none => rfl
  | some d =>
    dsimp only
    split
    · exact refuseWrite_strict hkey
    · exact Outcome.strictly_effected _ name m

end Strict

/-- **Strictness turns a refusal into an error that names the key**, and makes no other difference. -/
theorem Write.perform_strict [Heap.Memory] {w : Write} (hkey : m.heap.keyText w.key = .ok name) (hw : w.isDefinition = false)
    (E : Engine) : w.perform E true m = (w.perform E false m).strictly name := by
  cases w with
  | set o key v => exact setProperty_strict hkey E o v
  | setMember base key v => exact setMember_strict hkey E base v
  | delete o key => exact deleteProperty_strict hkey o
  | define o key p => cases hw

/-! ### Converting an object -/

/-- On the way from `m` to `m'` the text that describes the value was interned. -/
def Machine.Describes (m : Machine) (v : Value) (text : String) (m' : Machine) : Prop :=
  m.heap.describe v = .ok text ∧
    ∃ s h', Heap.internString text m.heap = .done s h' ∧ m' = { m with heap := h' }

/-- Interning finds the heap full and changes nothing, or gives a string with the contents and keeps what there is. -/
theorem Heap.internString_ends (hv : h.Valid) (text : String) :
    Heap.internString text h = .failed .outOfMemory h ∨
      ∃ s h', Heap.internString text h = .done s h' ∧ h'.text s = .ok (Text.ofString text) ∧
        ∀ x b, h.block? x = some b → h'.block? x = some b := by
  rcases Heap.intern_filled hv (Text.ofString text) with ⟨s, hfound, ht⟩ | ⟨-, ⟨-, hfailed⟩ | ⟨s, h', hmade, hf⟩⟩
  · exact .inr ⟨s, h, hfound, ht, fun _ _ hx => hx⟩
  · exact .inl hfailed
  · exact .inr ⟨s, h', hmade, text_eq_ok.mpr hf.block?_self, fun _ _ hx => hf.block?_of_some hx⟩

/-- Reading a property runs a getter, or leaves the machine as it is. -/
theorem getProperty_refusing (o : ObjectRef) (key : PropertyKey) (m : Machine) :
    (∃ w, getProperty Edit.refusing (.object o) key m = .done w m) ∨
      ∃ e, getProperty Edit.refusing (.object o) key m = .failed e m := by
  obtain ⟨read, hproperty, hnone, hsome⟩ : ∃ read : Option Descriptor → Run Value,
      getProperty Edit.refusing (.object o) key m = ((Run.readHeap fun h => h.property o key) >>= read) m ∧
        read none = pure Value.undefined ∧ ∀ d, read (some d) = readDescriptor Edit.refusing d (.object o) :=
    ⟨_, rfl, rfl, fun _ => rfl⟩
  rw [hproperty, Run.readHeap_bind]
  cases m.heap.property o key with
  | error e => exact .inr ⟨e, rfl⟩
  | ok found =>
    cases found with
    | none => exact .inl ⟨_, congrFun hnone m⟩
    | some d =>
      dsimp only
      rw [hsome]
      unfold readDescriptor
      cases d.content with
      | data w writable => exact .inl ⟨w, rfl⟩
      | accessor getter setter =>
        dsimp only
        rw [Run.readHeap_bind]
        cases m.heap.isCallable getter with
        | error e => exact .inr ⟨e, rfl⟩
        | ok callable =>
          cases callable with
          | false => exact .inl ⟨_, rfl⟩
          | true => exact .inr ⟨_, rfl⟩

/-- **An object without methods that could be called is converted to its description.** -/
theorem convertBy_refusing (hv : m.heap.Valid) (o : ObjectRef) : ∀ keys : List PropertyKey,
    (∃ e, convertBy Edit.refusing (.object o) keys false m = .failed e m) ∨
      ∃ text s m', convertBy Edit.refusing (.object o) keys false m = .done (.string s) m' ∧
        m.Describes (.object o) text m' ∧ m'.heap.text s = .ok (Text.ofString text)
  | [] => by
    unfold convertBy
    rw [Run.readHeap_bind]
    cases hdescribe : m.heap.describe (.object o) with
    | error e => exact .inl ⟨e, rfl⟩
    | ok text =>
      dsimp only
      show (∃ e, (Run.onHeap (Heap.internString text) >>= _) m = _) ∨
        ∃ t s m', (Run.onHeap (Heap.internString text) >>= _) m = _ ∧ _
      rcases Heap.internString_ends hv text with hfailed | ⟨s, h', hdone, ht, -⟩
      · rw [Proc.bind_failed (Run.onHeap_failed hfailed)]
        exact .inl ⟨_, rfl⟩
      · rw [Proc.bind_done (Run.onHeap_done hdone)]
        exact .inr ⟨text, s, _, rfl, ⟨hdescribe, s, h', hdone, rfl⟩, ht⟩
  | key :: keys => by
    have hrest := convertBy_refusing hv o keys
    unfold convertBy
    rcases getProperty_refusing o key m with ⟨method, hdone⟩ | ⟨e, hfailed⟩
    · rw [Proc.bind_done hdone, Run.readHeap_bind]
      cases m.heap.isCallable method with
      | error e => exact .inl ⟨e, rfl⟩
      | ok callable =>
        cases callable with
        | false => exact hrest
        | true => exact .inl ⟨_, rfl⟩
    · rw [Proc.bind_failed hfailed]
      exact .inl ⟨e, rfl⟩

/-- **The number of an object without methods that could be called** is that of its description. -/
theorem toNumber_refusing (hv : m.heap.Valid) (o : ObjectRef) :
    (∃ e, toNumber Edit.refusing (.object o) m = .failed e m) ∨
      ∃ text m' x, toNumber Edit.refusing (.object o) m = .done x m' ∧ m.Describes (.object o) text m' := by
  have hconverted : toNumber Edit.refusing (.object o) m =
      (convertBy Edit.refusing (.object o) [m.realm.names.valueOf, m.realm.names.toString] false >>= fun p =>
        Run.readHeap fun h => h.numberOf p) m := rfl
  rw [hconverted]
  rcases convertBy_refusing hv o [m.realm.names.valueOf, m.realm.names.toString] with
    ⟨e, hfailed⟩ | ⟨text, s, m', hdone, hdescribes, ht⟩
  · rw [Proc.bind_failed hfailed]
    exact .inl ⟨e, rfl⟩
  · have hnumber : m'.heap.numberOf (.string s) = .ok (Number.ofString (Text.ofString text).lossy) := by
      show (m'.heap.text s >>= fun t => pure (Number.ofString t.lossy)) = _
      rw [ht]
      rfl
    rw [Proc.bind_done hdone]
    refine .inr ⟨text, m', Number.ofString (Text.ofString text).lossy, ?_, hdescribes⟩
    show Proc.reads (fun m => m.heap.numberOf (.string s)) m' = _
    unfold Proc.reads
    dsimp only
    rw [hnumber]

/-- The length of an array is where it was after a description was interned, and so is the description. -/
theorem Machine.Describes.kept {text : String} (hv : m.heap.Valid) (hd : m.Describes v text m') :
    ∀ x b, m.heap.block? x = some b → m'.heap.block? x = some b := by
  obtain ⟨-, s, h', hdone, rfl⟩ := hd
  rcases Heap.internString_ends hv text with hfailed | ⟨s', h₁, hmade, -, hkept⟩
  · cases hfailed.symm.trans hdone
  · cases hmade.symm.trans hdone
    exact hkept

theorem Heap.HasLength.of_kept {length : PropertyKey} (hl : h.HasLength length o obj c d)
    (hkept : ∀ x b, h.block? x = some b → h'.block? x = some b) : h'.HasLength length o obj c d :=
  ⟨object_eq_ok.mpr (hkept _ _ (object_eq_ok.mp hl.object)), hl.kind, hl.bound,
    cell_eq_ok.mpr (hkept _ _ (cell_eq_ok.mp hl.cell))⟩

theorem Heap.describe_of_kept (hkept : ∀ x b, h.block? x = some b → h'.block? x = some b) {text : String}
    (hdescribe : h.describe (.object o) = .ok text) : h'.describe (.object o) = .ok text := by
  unfold Heap.describe Heap.tag at hdescribe ⊢
  dsimp only at hdescribe ⊢
  cases ho : h.object o with
  | error e => rw [ho] at hdescribe; cases hdescribe
  | ok obj =>
    rw [ho] at hdescribe
    rw [object_eq_ok.mpr (hkept _ _ (object_eq_ok.mp ho))]
    exact hdescribe

/-- The failure to make an object the length of an array, after the text that describes it was interned. -/
def Machine.Converted (m : Machine) (v : Value) (e : Error) (m' : Machine) : Prop :=
  v.isObject = true ∧ ∃ text, m.Describes v text m' ∧ e = .typeError s!"invalid array length {text}"

/-- **Setting a length succeeds, or changes nothing but for the description of an object.** -/
theorem setLength_refusing [Heap.Memory] (hv : m.heap.Valid) (hname : m.realm.names.length = .string s)
    (hl : m.heap.HasLength m.realm.names.length o obj c d) {w : Value} {writable : Bool}
    (hd : d.content = .data w writable) (v : Value) :
    (∃ m', setLength Edit.refusing o v m = .done () m') ∨
      ∃ e m', setLength Edit.refusing o v m = .failed e m' ∧ (m' = m ∨ m.Converted v e m') := by
  have hlength : ∀ k, m.realm.names.length.isBeyond k = false := fun k => by rw [hname]; rfl
  cases hobject : v.isObject with
  | false =>
    by_cases hcount : ∃ x n, m.heap.numberOf v = .ok x ∧ Number.wholeBelow? UInt32.size x = some n
    · obtain ⟨x, n, hx, hn⟩ := hcount
      exact .inl ⟨_, setLength_done hl hlength hd hobject hx hn _⟩
    · obtain ⟨e, hfailed⟩ := setLength_refused (a := o) hobject
        (fun x hx => Option.eq_none_iff_forall_ne_some.mpr fun n hn => hcount ⟨x, n, hx, hn⟩) Edit.refusing
      exact .inr ⟨e, m, hfailed, .inl rfl⟩
  | true =>
    obtain ⟨x, rfl⟩ : ∃ x, v = .object x := by
      cases v with
      | object x => exact ⟨x, rfl⟩
      | _ => cases hobject
    unfold setLength
    rcases toNumber_refusing hv x with ⟨e, hfailed⟩ | ⟨text, m', number, hdone, hdescribes⟩
    · exact .inr ⟨e, m, Proc.bind_failed hfailed _, .inl rfl⟩
    · have hkept := hdescribes.kept hv
      rw [Proc.bind_done hdone]
      cases hn : Number.wholeBelow? UInt32.size number with
      | some n =>
        -- From here on it is as if the number had been assigned.
        obtain ⟨-, _, h', -, rfl⟩ := hdescribes
        have hassigned := setLength_done (m := { m with heap := h' }) (hl.of_kept hkept) hlength hd rfl
          (v := .number number) rfl hn Edit.refusing
        unfold setLength toNumber at hassigned
        dsimp only at hassigned
        rw [Run.readHeap_bind] at hassigned
        dsimp only [Heap.numberOf, pure, Except.pure] at hassigned
        rw [hn] at hassigned
        exact .inl ⟨_, hassigned⟩
      | none =>
        refine .inr ⟨_, m', ?_, .inr ⟨rfl, text, hdescribes, rfl⟩⟩
        dsimp only
        rw [Run.readHeap_bind, Heap.describe_of_kept hkept hdescribes.1]
        rfl

/-! ### Writing -/

section Spares

variable {apart : Error → Machine → Prop}

theorem createOwn_spares [Heap.Memory] (hv : m.heap.Valid) (hname : m.realm.names.length = .string s)
    (hholds : m.HoldsLength o) (hnone : m.heap.ownCell o key = .ok none) (v : Value) (strict : Bool)
    (hapart : ∀ e m', m.Strands o key (.data v) e m' → apart e m') : (createOwn o key v strict m).Spares m apart := by
  refine .read fun extensible hextensible => ?_
  cases extensible with
  | false => exact .refused key strict m
  | true => exact defineNoted_spares hv hname hholds (.data v) hextensible hnone hapart

/-- An object that has the key is where the walk for it ends. -/
theorem Heap.findProperty_own (hown : h.ownCell o key = .ok (some c)) : h.findProperty o key = .ok (some (o, c)) := by
  obtain ⟨obj, ho, hfind⟩ := Heap.ownCell_eq_ok.mp hown
  unfold Heap.findProperty maxPrototypeChain
  rw [Heap.findWithin, ho]
  dsimp only
  rw [hfind]

/-- An object does not have a key that the walk finds elsewhere or not at all. -/
theorem Heap.ownCell_of_found {found : Option (ObjectRef × CellRef)} (hfound : h.findProperty o key = .ok found)
    (hother : ∀ c, found ≠ some (o, c)) : h.ownCell o key = .ok none := by
  cases ho : h.object o with
  | error e =>
    unfold Heap.findProperty maxPrototypeChain at hfound
    rw [Heap.findWithin, ho] at hfound
    cases hfound
  | ok obj =>
    refine Heap.ownCell_eq_ok.mpr ⟨obj, ho, Option.eq_none_iff_forall_ne_some.mpr fun c hfind => ?_⟩
    have hown := Heap.findProperty_own (Heap.ownCell_eq_ok.mpr ⟨obj, ho, hfind⟩)
    exact hother c (Except.ok.inj (hfound.symm.trans hown))

theorem setOrdinary_spares [Heap.Memory] (hv : m.heap.Valid) (hname : m.realm.names.length = .string s)
    (hholds : m.HoldsLength o) (v : Value) (strict : Bool)
    (hapart : ∀ e m', m.Strands o key (.data v) e m' → apart e m') :
    (setOrdinary Edit.refusing o key v strict m).Spares m apart := by
  refine .read fun found hfound => ?_
  cases found with
  | none => exact createOwn_spares hv hname hholds (Heap.ownCell_of_found hfound nofun) v strict hapart
  | some found =>
    obtain ⟨holder, c⟩ := found
    refine .read fun d hd => ?_
    cases hcontent : d.content with
    | data w writable =>
      cases writable with
      | false => exact .refused key strict m
      | true =>
        dsimp only
        split
        · exact .effected (Run.onHeap_done (Heap.writeCell_done hd hcontent v))
        · next hne =>
          refine createOwn_spares hv hname hholds (Heap.ownCell_of_found hfound fun c' heq => hne ?_) v strict hapart
          exact congrArg Prod.fst (Option.some.inj heq)
    | accessor getter setter =>
      refine .read fun callable _ => ?_
      cases callable with
      | false => exact .refused key strict m
      | true => exact .inl rfl

theorem deleteProperty_spares (o : ObjectRef) (key : PropertyKey) (strict : Bool) (m : Machine) :
    (deleteProperty o key strict m).Spares m apart := by
  refine .read fun found hfound => ?_
  cases found with
  | none => trivial
  | some d =>
    obtain ⟨c, hown, -⟩ := Heap.ownProperty_eq_some.mp hfound
    obtain ⟨obj, ho, -⟩ := Heap.ownCell_eq_ok.mp hown
    dsimp only
    split
    · exact .refused key strict m
    · rw [Proc.discard_bind]
      exact .effected (Run.onHeap_done (Heap.remove_done ho hown))

/-- A length that cannot be reconfigured holds a value after a patch that does not conflict was merged, even into
another property that shares its cell. -/
theorem Machine.LengthHeld.merged (hheld : m.LengthHeld o) (hc : m.heap.cell c = .ok d)
    (hallowed : (!d.configurable && p.conflicts d) = false) :
    Machine.HoldsLength { m with heap := m.heap.put c.handle (.cell (p.applyTo d)) } o := by
  intro harray
  obtain ⟨e, w, writable, he, hconfigurable, hcontent⟩ := hheld (by
    unfold Heap.isArray at harray ⊢
    rwa [Heap.object_put_cell hc] at harray)
  obtain ⟨x, hown, hx⟩ := Heap.ownProperty_eq_some.mp he
  have hown' : (m.heap.put c.handle (.cell (p.applyTo d))).ownCell o m.realm.names.length = .ok (some x) := by
    unfold Heap.ownCell at hown ⊢
    rwa [Heap.object_put_cell hc]
  by_cases hxc : x = c
  · subst hxc
    obtain rfl := Except.ok.inj (hx.symm.trans hc)
    rw [hconfigurable, Bool.not_false, Bool.true_and] at hallowed
    have hsettles := (Descriptor.Endures.apply hconfigurable hallowed).content
    rw [hcontent] at hsettles
    obtain ⟨w', writable', hcontent'⟩ : ∃ w' writable', (p.applyTo e).content = .data w' writable' := by
      cases hmerged : (p.applyTo e).content with
      | data w' writable' => exact ⟨w', writable', rfl⟩
      | accessor g s => rw [hmerged] at hsettles; cases hsettles
    exact ⟨p.applyTo e, w', writable',
      Heap.ownProperty_eq_some.mpr ⟨x, hown', by rw [Heap.cell_put_cell hc, if_pos rfl]⟩, hcontent'⟩
  · exact ⟨e, w, writable,
      Heap.ownProperty_eq_some.mpr ⟨x, hown', by rw [Heap.cell_put_cell hc, if_neg hxc, hx]⟩, hcontent⟩

/-- **Defining a property takes effect, or changes nothing** but for the cell of a new one. -/
theorem defineProperty_spares [Heap.Memory] (hv : m.heap.Valid) (hname : m.realm.names.length = .string s)
    (hheld : m.LengthHeld o) (key : PropertyKey) (p : Patch)
    (hapart : ∀ e m', m.Strands o key p.toDescriptor e m' → apart e m') : (defineProperty o key p m).Spares m apart := by
  unfold defineProperty
  cases hvalid : p.validate with
  | error e => exact .inl rfl
  | ok _ =>
    show ((Run.readHeap fun h => h.ownCell o key) >>= _) m |>.Spares m apart
    refine .read fun found hfound => ?_
    cases found with
    | none =>
      refine .read fun extensible hextensible => ?_
      cases extensible with
      | false => rfl
      | true => exact defineNoted_spares hv hname hheld.holds p.toDescriptor hextensible hfound hapart
    | some c =>
      obtain ⟨obj, ho, -⟩ := Heap.ownCell_eq_ok.mp hfound
      refine .read fun d hc => ?_
      by_cases hallowed : (!d.configurable && p.conflicts d) = true
      · rw [if_pos hallowed]
        rfl
      · rw [if_neg hallowed]
        obtain ⟨m', hnoted⟩ := noteKey_succeeds
          (m := { m with heap := m.heap.put c.handle (.cell (p.applyTo d)) })
          ((Heap.object_put_cell hc _ o).trans ho) (hheld.merged hc (Bool.eq_false_iff.mpr hallowed)) key
        show ((Run.onHeap (Heap.putCell c (p.applyTo d)) >>= fun _ => noteKey o key >>= fun _ => pure true)
          m).Spares m apart
        rw [Proc.bind_done (Run.onHeap_done (Heap.putCell_done hc _))]
        exact .effected hnoted

/-- A base that has no properties is refused. -/
theorem refuseBase_spares (what : String) (base : Value) (key : PropertyKey) (m : Machine) :
    (refuseBase what base key m : Outcome Machine Bool).Spares m apart :=
  .read fun _ _ => .inl rfl

end Spares

theorem setProperty_spares [Heap.Memory] {apart : Error → Machine → Prop} (hv : m.heap.Valid)
    (hname : m.realm.names.length = .string s) (hholds : m.HoldsLength o) (key : PropertyKey) (v : Value) (strict : Bool)
    (hconverted : ∀ e m', (Write.set o key v).Resizes m v → m.Converted v e m' → apart e m')
    (hapart : ∀ e m', m.Strands o key (.data v) e m' → apart e m') :
    (setProperty Edit.refusing o key v strict m).Spares m apart := by
  unfold setProperty
  rw [Run.names_bind]
  refine .read fun isArray harray => ?_
  by_cases hlength : (isArray && decide (key = m.realm.names.length)) = true
  · rw [if_pos hlength]
    obtain ⟨rfl, hkey⟩ := Bool.and_eq_true_iff.mp hlength
    obtain rfl := of_decide_eq_true hkey
    refine .read fun writable hwritable => ?_
    cases writable with
    | false => exact .refused _ strict m
    | true =>
      obtain ⟨d, w, writable, hd, hcontent⟩ := hholds harray
      obtain ⟨c, hown, hc⟩ := Heap.ownProperty_eq_some.mp hd
      obtain ⟨obj, hl⟩ := Heap.hasLength_of_ownCell harray hown hc
      rcases setLength_refusing hv hname hl hcontent v with ⟨m', hdone⟩ | ⟨e, m', hfailed, hm'⟩
      · exact .effected hdone
      · show ((setLength Edit.refusing o v >>= fun _ => pure true) m).Spares m _
        rw [Proc.bind_failed hfailed]
        exact hm'.imp_right fun hm' => hconverted _ _ ⟨harray, rfl, rfl⟩ hm'
  · rw [if_neg hlength]
    exact setOrdinary_spares hv hname hholds v strict hapart

namespace Write

/-- An operation that ends on an engine that never comes back runs nothing. -/
theorem RunsNothing.of_ends [Heap.Memory] {w : Write} (hends : w.perform .stalling strict m ≠ .stalled) :
    w.RunsNothing strict m := by
  have hsame : ∀ E, w.perform E strict m = w.perform .stalling strict m := by
    cases w with
    | set o key v => exact (routine_setProperty o key v strict).runs_nothing m hends
    | setMember base key v => exact (routine_setMember base key v strict).runs_nothing m hends
    | delete o key | define o key p => exact fun _ => rfl
  exact fun E E' => (hsame E).trans (hsame E').symm

/-- **What a rejected operation leaves** where no code is run and the length of an array holds a value and cannot be
reconfigured, whatever memory there is: the machine as it was, but for the description of an object that was refused as
a length, or for the cell of a new property for whose key there was no memory. And strictness changes only the report. -/
theorem rejected_unchanged [Heap.Memory] (w : Write) (hv : m.heap.Valid) (hname : m.realm.names.length = .string s)
    (hheld : ∀ o, w.target? = some o → m.LengthHeld o) (hkey : m.heap.keyText w.key = .ok name) (E : Engine) :
    (∀ strict, w.RunsNothing strict m → (w.perform E strict m).Spares m fun e m' =>
      (∃ v, w.Resizes m v ∧ m.Converted v e m') ∨
        ∃ o d, w.target? = some o ∧ w.makes? = some d ∧ m.Strands o w.key d e m') ∧
    (w.isDefinition = false → w.perform E true m = (w.perform E false m).strictly name) := by
  refine ⟨fun strict hnothing => ?_, fun hw => perform_strict hkey hw E⟩
  rw [hnothing E Edit.refusing]
  cases w with
  | set o key v =>
    exact setProperty_spares hv hname (hheld o rfl).holds key v strict (fun _ _ hr hm => .inl ⟨v, hr, hm⟩)
      fun _ _ hm => .inr ⟨o, _, rfl, rfl, hm⟩
  | setMember base key v =>
    cases base with
    | object o =>
      exact setProperty_spares hv hname (hheld o rfl).holds key v strict (fun _ _ hr hm => .inl ⟨v, hr, hm⟩)
        fun _ _ hm => .inr ⟨o, _, rfl, rfl, hm⟩
    | undefined | null => exact refuseBase_spares "set" _ key m
    | bool | number | string => exact .refused key strict m
  | delete o key => exact deleteProperty_spares o key strict m
  | define o key p =>
    exact defineProperty_spares hv hname (hheld o rfl) key p fun _ _ hm => .inr ⟨o, _, rfl, rfl, hm⟩

end Write

/-- On a heap that the empty array has filled, its first element cannot be made, in neither kind of code. -/
def emptyArrayFillsHeap (m : Machine) : Bool :=
  match allocArray [] m with
  | .done a m₁ => m.realm.names.length == .string ⟨⟨0, 0⟩⟩ && [true, false].all fun strict =>
      match (Write.set a (.index 0) .null).perform .stalling strict m₁ with
      | .failed .outOfMemory _ => true
      | _ => false
  | _ => false

/-- The first element of an array that is the last thing for which there is room. -/
theorem Write.rejected_unchanged_full : ∃ (m m₁ : Machine) (a : ObjectRef),
    Machine.create ⟨32, 16⟩ {} 0 true = .ok m ∧ allocArray [] m = .done a m₁ ∧
    ∀ strict, (Write.set a (.index 0) .null).perform Edit.refusing strict m₁ = .failed .outOfMemory m₁ := by
  have hfull : (Machine.create ⟨32, 16⟩ {} 0 true).toOption.any emptyArrayFillsHeap = true := by decide +kernel
  cases hm : Machine.create ⟨32, 16⟩ {} 0 true with
  | error e => rw [hm] at hfull; cases hfull
  | ok m =>
    rw [hm] at hfull
    change emptyArrayFillsHeap m = true at hfull
    unfold emptyArrayFillsHeap at hfull
    cases halloc : allocArray [] m with
    | failed e m₁ => rw [halloc] at hfull; cases hfull
    | stalled => rw [halloc] at hfull; cases hfull
    | done a m₁ =>
      rw [halloc] at hfull
      obtain ⟨hname, hfailed⟩ := Bool.and_eq_true_iff.mp hfull
      obtain ⟨c, n, -, hmeasured⟩ := Machine.allocArray_sized (Machine.built_create hm) (beq_iff_eq.mp hname) halloc
      obtain ⟨obj, hl⟩ := hmeasured.hasLength
      have hheld : m₁.LengthHeld a := fun _ => ⟨_, _, _, hl.ownProperty, rfl, rfl⟩
      refine ⟨m, m₁, a, rfl, halloc, fun strict => ?_⟩
      have hstalls := List.all_eq_true.mp hfailed strict (by cases strict <;> simp)
      change (match (Write.set a (.index 0) .null).perform .stalling strict m₁ with
        | .failed .outOfMemory _ => true
        | _ => false) = true at hstalls
      split at hstalls
      · next m₂ hset =>
        have hnothing : (Write.set a (.index 0) .null).RunsNothing strict m₁ := .of_ends (by rw [hset]; exact nofun)
        have hspares := (Write.rejected_unchanged (Write.set a (.index 0) .null) hmeasured.heap.valid hmeasured.name
          (fun o ho => by cases ho; exact hheld) rfl .stalling).1 strict hnothing
        rw [hnothing Edit.refusing .stalling, hset]
        rw [hset] at hspares
        rcases hspares with rfl | ⟨v, ⟨-, hlength, -⟩, -⟩ | ⟨_, _, -, -, hstrands⟩
        · rfl
        · rw [hmeasured.name] at hlength
          cases hlength
        · have hshort : true = false := hstrands.short
          cases hshort
      · cases hstalls

/-- No object but `a` is an array. -/
def Heap.onlyArray (h : Heap) (a : ObjectRef) : Bool :=
  (List.range h.slots.size).all fun i => i == a.handle.index ||
    match h.slots[i]? with
    | some ⟨_, some (.object obj)⟩ => !(obj.kind matches .array)
    | _ => true

theorem Heap.eq_of_onlyArray {a : ObjectRef} (honly : h.onlyArray a = true) (ha : h.isArray a = .ok true)
    (ho : h.isArray o = .ok true) : o = a := by
  have hslot : ∀ {x : ObjectRef}, h.isArray x = .ok true → ∃ obj, obj.kind = .array ∧
      h.slots[x.handle.index]? = some ⟨x.handle.generation, some (.object obj)⟩ := fun hx =>
    let ⟨obj, hobj, hkind⟩ := Heap.isArray_eq_true hx
    ⟨obj, hkind, block?_eq_some.mp (object_eq_ok.mp hobj)⟩
  obtain ⟨obj, hkind, hobj⟩ := hslot ho
  obtain ⟨_, -, harray⟩ := hslot ha
  obtain ⟨hlt, -⟩ := Array.getElem?_eq_some_iff.mp hobj
  have hindex := List.all_eq_true.mp honly _ (List.mem_range.mpr hlt)
  rw [hobj] at hindex
  dsimp only at hindex
  rw [hkind, Bool.or_eq_true, beq_iff_eq] at hindex
  have heq := hindex.resolve_right nofun
  rw [heq, harray] at hobj
  have hgeneration := congrArg Slot.generation (Option.some.inj hobj)
  obtain ⟨⟨i, g⟩⟩ := o
  obtain ⟨⟨j, k⟩⟩ := a
  cases heq
  cases hgeneration
  rfl

/-- An empty array and a plain object can be made on the machine, and to make the object the length of the array fails
on a heap that has grown. -/
def objectLengthLeavesText (m : Machine) : Bool :=
  match allocArray [] m with
  | .done a m₁ =>
    match allocPlainObject m₁ with
    | .done o m₂ =>
      m.realm.names.length == .string ⟨⟨0, 0⟩⟩ && m₂.heap.onlyArray a &&
        (m₂.heap.keyText m₂.realm.names.length).toOption == some "length" &&
        match (Write.set a m₂.realm.names.length (.object o)).perform .stalling false m₂ with
        | .failed _ m₃ => m₃.heap.live == m₂.heap.live + 1
        | _ => false
    | _ => false
  | _ => false

/-- **An object that is refused as a length leaves its description behind**, though no code is run and the only array
has a length as it should. -/
theorem object_length_leaves_text : ∃ (m m₁ m₂ m₃ : Machine) (a o : ObjectRef) (e : Error),
    Machine.create .standard {} 0 true = .ok m ∧ allocArray [] m = .done a m₁ ∧ allocPlainObject m₁ = .done o m₂ ∧
    m₂.heap.Valid ∧ (∀ x, m₂.LengthHeld x) ∧ m₂.heap.keyText m₂.realm.names.length = .ok "length" ∧
    (Write.set a m₂.realm.names.length (.object o)).RunsNothing false m₂ ∧
    (Write.set a m₂.realm.names.length (.object o)).perform Edit.refusing false m₂ = .failed e m₃ ∧
    m₃.heap ≠ m₂.heap := by
  have hleaves : (Machine.create .standard {} 0 true).toOption.any objectLengthLeavesText = true := by decide +kernel
  cases hm : Machine.create .standard {} 0 true with
  | error e => rw [hm] at hleaves; cases hleaves
  | ok m =>
    rw [hm] at hleaves
    change objectLengthLeavesText m = true at hleaves
    unfold objectLengthLeavesText at hleaves
    split at hleaves
    · next a m₁ halloc =>
      split at hleaves
      · next o m₂ hobject =>
        rw [Bool.and_eq_true, Bool.and_eq_true, Bool.and_eq_true] at hleaves
        obtain ⟨⟨⟨hname, honly⟩, hkey⟩, hgrown⟩ := hleaves
        split at hgrown
        · next e m₃ hset =>
          obtain ⟨c, hsized⟩ := Machine.allocArray_sized (Machine.built_create hm) (beq_iff_eq.mp hname) halloc
          have hkept : (Edit.allocPlain.perform Edit.refusing m₁).Leaves (Machine.Sized a _ c) :=
            Edit.keeps_perform (e := .allocPlain) (fun _ _ _ => .fail _) trivial m₁ hsized
          obtain ⟨n, -, hmeasured⟩ : m₂.Sized a _ c := by
            have hplain : Edit.allocPlain.perform Edit.refusing m₁ = .done () m₂ := Proc.bind_done hobject _
            rwa [hplain] at hkept
          obtain ⟨obj, hl⟩ := hmeasured.hasLength
          have hnothing : (Write.set a m₂.realm.names.length (.object o)).RunsNothing false m₂ :=
            .of_ends (by rw [hset]; exact nofun)
          refine ⟨m, m₁, m₂, m₃, a, o, e, rfl, halloc, hobject, hmeasured.heap.valid, fun x hx => ?_,
            Except.eq_ok_of_toOption (beq_iff_eq.mp hkey), hnothing, (hnothing _ _).trans hset, fun heq => ?_⟩
          · cases Heap.eq_of_onlyArray honly hl.isArray hx
            exact ⟨_, _, _, hl.ownProperty, rfl, rfl⟩
          · rw [heq, beq_iff_eq] at hgrown
            omega
        · cases hgrown
      · cases hleaves
    · cases hleaves

/-- No object gets memory for a key that it does not have. -/
@[reducible] def Heap.Memory.scarce : Heap.Memory where
  grants _ _ := false

/-- A plain object can be made on the machine, and where memory is scarce its first property fails on a heap that has
grown. -/
def scarcityLeavesCell (m : Machine) : Bool :=
  match allocPlainObject m with
  | .done o m₁ => [true, false].all fun strict =>
      match @Write.perform .scarce Edit.refusing strict (.set o (.index 0) .null) m₁ with
      | .failed .outOfMemory m₂ => m₂.heap.live == m₁.heap.live + 1
      | _ => false
  | _ => false

/-- **A property for whose key there is no memory leaves its cell behind**, in both kinds of code. -/
theorem scarcity_leaves_cell : ∃ (m m₁ : Machine) (o : ObjectRef), Machine.create .standard {} 0 true = .ok m ∧
    allocPlainObject m = .done o m₁ ∧ ∀ strict, ∃ m₂,
      @Write.perform .scarce Edit.refusing strict (.set o (.index 0) .null) m₁ = .failed .outOfMemory m₂ ∧
        m₂.heap ≠ m₁.heap := by
  have hleaves : (Machine.create .standard {} 0 true).toOption.any scarcityLeavesCell = true := by decide +kernel
  cases hm : Machine.create .standard {} 0 true with
  | error e => rw [hm] at hleaves; cases hleaves
  | ok m =>
    rw [hm] at hleaves
    change scarcityLeavesCell m = true at hleaves
    unfold scarcityLeavesCell at hleaves
    split at hleaves
    · next o m₁ hobject =>
      refine ⟨m, m₁, o, rfl, hobject, fun strict => ?_⟩
      have hgrown := List.all_eq_true.mp hleaves strict (by cases strict <;> simp)
      split at hgrown
      · next m₂ hset =>
        refine ⟨m₂, hset, fun heq => ?_⟩
        rw [heq, beq_iff_eq] at hgrown
        omega
      · cases hgrown
    · cases hleaves

end ScriptCore
