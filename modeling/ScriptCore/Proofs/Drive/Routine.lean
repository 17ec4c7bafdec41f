import ScriptCore.Callable
import ScriptCore.Operator
import ScriptCore.Proofs.Heap.Kinds
import ScriptCore.Reference

/-! # What running code is made of

While a task runs it reads and changes the heap, looks at the realm, and has more code evaluated or called
through the engine. It does nothing else to the machine: it sees no frames, spends no fuel and collects no
garbage. `Routine` says so of a procedure that takes an engine. Whatever is to be proved of all running code
is proved by induction on it: a case for the heap, one for each way to run more code, and one for sequences.

* `Routine`: the procedures that running code consists of.
* `Routine.runs_nothing`: one that ends on an engine that never comes back ends alike on every engine.
* `routine_getProperty` and so on: the operations on values, one after the other. -/

namespace ScriptCore

variable {α β : Type}

/-! ### Looking at the machine -/

theorem Run.names_bind (p : CommonNames → Run α) (m : Machine) : (Run.names >>= p) m = p m.realm.names m := rfl

theorem Run.readHeap_bind (g : Heap → Except Error α) (p : α → Run β) (m : Machine) :
    (Run.readHeap g >>= p) m =
      match g m.heap with
      | .ok x => p x m
      | .error e => .failed e m := by
  show Proc.bind (Run.readHeap g) p m = _
  simp only [Proc.bind, Run.readHeap, Proc.reads]
  cases g m.heap <;> rfl

theorem Run.onHeap_done {p : Proc Heap α} {m : Machine} {x : α} {h : Heap} (hp : p m.heap = .done x h) :
    Run.onHeap p m = .done x { m with heap := h } := by
  unfold Run.onHeap
  dsimp only
  rw [hp]

theorem Run.onHeap_failed {p : Proc Heap α} {m : Machine} {e : Error} {h : Heap}
    (hp : p m.heap = .failed e h) : Run.onHeap p m = .failed e { m with heap := h } := by
  unfold Run.onHeap
  dsimp only
  rw [hp]

/-- A sequence that ends with a value got past its first part. -/
theorem Run.onHeap_bind_done {p : Proc Heap α} {f : α → Run β} {m m' : Machine} {y : β}
    (hdone : (Run.onHeap p >>= f) m = .done y m') :
    ∃ x h, p m.heap = .done x h ∧ f x { m with heap := h } = .done y m' := by
  rw [Proc.bind_eq] at hdone
  unfold Run.onHeap at hdone
  dsimp only at hdone
  cases hp : p m.heap with
  | done x h => rw [hp] at hdone; exact ⟨x, h, rfl, hdone⟩
  | failed e h => rw [hp] at hdone; cases hdone
  | stalled => rw [hp] at hdone; cases hdone

theorem Run.onHeap_bind (p : Proc Heap α) (f : α → Proc Heap β) :
    Run.onHeap (p >>= f) = (Run.onHeap p >>= fun a => Run.onHeap (f a)) := by
  funext m
  rw [Proc.bind_eq]
  unfold Run.onHeap
  dsimp only
  rw [Proc.bind_eq]
  cases p m.heap <;> rfl

theorem Run.onHeap_map (f : α → β) (p : Proc Heap α) : Run.onHeap (f <$> p) = f <$> Run.onHeap p := by
  rw [map_eq_pure_bind, map_eq_pure_bind, Run.onHeap_bind]
  rfl

/-- What a new machine is made of. -/
theorem Machine.create_eq_ok {limits : HeapLimits} {options : MonitorOptions} {now : Nat} {sloppy : Bool}
    {m : Machine} (h : Machine.create limits options now sloppy = .ok m) :
    ∃ realm heap, Realm.create sloppy (Heap.empty limits) = .done realm heap ∧
      m = ⟨heap, realm, .ofOptions options now, .empty, none, none, #[]⟩ := by
  unfold Machine.create at h
  cases hr : Realm.create sloppy (Heap.empty limits) with
  | done realm heap =>
    rw [hr] at h
    cases h
    exact ⟨realm, heap, rfl, rfl⟩
  | failed e heap => rw [hr] at h; cases h
  | stalled => rw [hr] at h; cases h

/-! ### Procedures of running code -/

/-- **A procedure that does what running code may do.** -/
inductive Routine : {α : Type} → (Engine → Run α) → Prop where
  | pure {α : Type} (a : α) : Routine fun _ => (Pure.pure a : Run α)
  | fail {α : Type} (e : Error) : Routine fun _ => (throw e : Run α)
  | onHeap {α : Type} {p : Proc Heap α} (hp : Heap.Routine ObjectKind.Scripted p) :
      Routine fun _ => Run.onHeap p
  | look {α : Type} (f : Realm → Bool → α) :
      Routine fun _ m => .done (f m.realm m.monitor.options.debug) m
  | evaluate (r : BranchRequest) : Routine fun E => E.evaluate r
  | call (f receiver : Value) (args : List Value) : Routine fun E => E.call f receiver args
  | bind {α β : Type} {P : Engine → Run α} {F : Engine → α → Run β} (hp : Routine P)
      (hf : ∀ a, Routine fun E => F E a) : Routine fun E => P E >>= F E

namespace Routine

variable {P Q : Engine → Run α}

theorem onHeap_reads (f : Heap → Except Error α) : Run.onHeap (Proc.reads f) = Run.readHeap f := by
  funext m
  simp only [Run.onHeap, Run.readHeap, Proc.reads]
  cases f m.heap <;> rfl

theorem readHeap (f : Heap → Except Error α) : Routine fun _ => Run.readHeap f := by
  rw [← onHeap_reads]
  exact .onHeap (.reads f)

theorem realm : Routine fun _ => Run.realm := .look fun realm _ => realm

theorem names : Routine fun _ => Run.names := .look fun realm _ => realm.names

theorem isDebug : Routine fun _ => Run.isDebug := .look fun _ debug => debug

theorem ofExcept (r : Except Error α) : Routine fun _ => (Proc.ofExcept r : Run α) := by
  cases r with
  | ok a => exact .pure a
  | error e => exact .fail e

theorem map (hp : Routine P) (f : α → β) : Routine fun E => f <$> P E := by
  simp only [map_eq_pure_bind]
  exact .bind hp fun a => .pure (f a)

theorem discard (hp : Routine P) : Routine fun E => discard (P E) := hp.map _

/-- A condition that does not depend on the engine. -/
theorem ite {c : Prop} [Decidable c] (hp : Routine P) (hq : Routine Q) :
    Routine fun E => if c then P E else Q E := by
  by_cases hc : c
  · simpa only [hc, if_true] using hp
  · simpa only [hc, if_false] using hq

/-- What follows a procedure that runs only under a condition. -/
theorem after_ite {c : Prop} [Decidable c] {Q : Engine → Run β} (hp : Routine P) (hq : Routine Q) :
    Routine fun E => if c then P E >>= fun _ => Q E else Q E :=
  .ite (.bind hp fun _ => hq) hq

/-! ### The operations on the heap that running code uses -/

theorem intern {t : Text} : Routine fun _ => Run.onHeap (Heap.intern t) := .onHeap (.intern t)

theorem keyOfName {name : String} : Routine fun _ => Run.onHeap (Heap.keyOfName name) :=
  .onHeap (Heap.routine_keyOfName name)

theorem allocCell {d : Descriptor} : Routine fun _ => Run.onHeap (Heap.allocCell d) :=
  .onHeap (Heap.routine_allocCell d)

theorem writeCell {c : CellRef} {v : Value} : Routine fun _ => Run.onHeap (Heap.writeCell c v) :=
  .onHeap (.modifyCell c _)

theorem putCell {c : CellRef} {d : Descriptor} : Routine fun _ => Run.onHeap (Heap.putCell c d) :=
  .onHeap (.modifyCell c _)

theorem allocObject {prototype : Option ObjectRef} {tag : ClassTag} {kind : ObjectKind}
    (hk : kind.Scripted) : Routine fun _ => Run.onHeap (Heap.allocObject prototype tag kind) :=
  .onHeap (Heap.routine_allocObject prototype tag hk)

theorem installCell [Heap.Memory] {o : ObjectRef} {key : PropertyKey} {c : CellRef} :
    Routine fun _ => Run.onHeap (Heap.installCell o key c) := .onHeap (Heap.routine_installCell o key c)

theorem define [Heap.Memory] {o : ObjectRef} {key : PropertyKey} {d : Descriptor} :
    Routine fun _ => Run.onHeap (Heap.define o key d) := .onHeap (Heap.routine_define o key d)

theorem remove {o : ObjectRef} {key : PropertyKey} : Routine fun _ => Run.onHeap (Heap.remove o key) :=
  .onHeap (Heap.routine_remove o key)

theorem retainKeys {o : ObjectRef} {p : PropertyKey → Bool} :
    Routine fun _ => Run.onHeap (Heap.retainKeys o p) := .onHeap (Heap.routine_retainKeys o p)

theorem modifyScope {s : ScopeRef} {f : Scope → Scope} :
    Routine fun _ => Run.onHeap (Heap.modifyScope s f) := .onHeap (.modifyScope s f)

theorem childScope {parent : ScopeRef} : Routine fun _ => Run.onHeap (ScriptCore.childScope parent) :=
  .onHeap (Heap.routine_childScope trivial parent)

theorem declare {s : ScopeRef} {name : String} {v : Value} :
    Routine fun _ => Run.onHeap (ScriptCore.declare s name v) := .onHeap (Heap.routine_declare s name v)

theorem declareAll {s : ScopeRef} {names : List String} :
    Routine fun _ => Run.onHeap (ScriptCore.declareAll s names) :=
  .onHeap (Heap.routine_declareAll s names)

end Routine

/-! ### Reading properties and converting values -/

theorem routine_refuseBase (what : String) (base : Value) (key : PropertyKey) :
    Routine fun _ => (refuseBase what base key : Run α) :=
  .bind (.readHeap _) fun e => .fail e

theorem routine_readDescriptor (d : Descriptor) (receiver : Value) :
    Routine fun E => readDescriptor E d receiver := by
  unfold readDescriptor
  cases d.content with
  | data v _ => exact .pure v
  | accessor getter _ => exact .bind (.readHeap _) fun b => .ite (.call getter receiver []) (.pure _)

theorem routine_getProperty (base : Value) (key : PropertyKey) :
    Routine fun E => getProperty E base key := by
  refine .bind .realm fun realm => .bind (.readHeap _) fun found => ?_
  cases found with
  | refused => exact routine_refuseBase _ base key
  | found v => exact .pure v
  | unit u => exact .bind .intern fun s => .pure _
  | missing => exact .pure _
  | chain o =>
    refine .bind (.readHeap _) fun d => ?_
    cases d with
    | none => exact .pure _
    | some d => exact routine_readDescriptor d base

theorem routine_hasProperty (base : Value) (key : PropertyKey) :
    Routine fun _ => hasProperty base key := by
  refine .bind .realm fun realm => .bind (.readHeap _) fun found => ?_
  cases found with
  | none => exact routine_refuseBase _ base key
  | some b => exact .pure b

theorem routine_convertBy (v : Value) : ∀ (keys : List PropertyKey)
    (tried : Bool), Routine fun E => convertBy E v keys tried
  | [], tried => .bind (.readHeap _) fun text => .ite (.fail _) (.bind .intern fun s => .pure _)
  | key :: keys, tried => by
    refine .bind (routine_getProperty v key) fun method => .bind (.readHeap _) fun callable => .ite ?_ ?_
    · exact .bind (.call method v []) fun result =>
        .ite (routine_convertBy v keys true) (.pure result)
    · exact routine_convertBy v keys tried

theorem routine_toPrimitive (v : Value) (hint : Hint) :
    Routine fun E => toPrimitive E v hint := by
  cases v with
  | object o => exact .bind .names fun names => routine_convertBy _ _ false
  | _ => exact .pure _

theorem routine_toNumber (v : Value) :
    Routine fun E => toNumber E v := by
  have primitive : Routine fun _ => Run.readHeap fun h => h.numberOf v :=
    .readHeap _
  cases v with
  | object o => exact .bind (routine_toPrimitive _ _) fun p => .readHeap _
  | _ => exact primitive

theorem routine_stringOf {K : ObjectKind → Prop} (v : Value) : Heap.Routine K (Heap.stringOf v) := by
  cases v with
  | string s => exact .pure s
  | object o => exact .fail _
  | bool b => cases b <;> exact .intern _
  | _ => exact .intern _

theorem routine_toStringRef (v : Value) :
    Routine fun E => toStringRef E v := by
  have primitive : Routine fun _ => Run.onHeap (Heap.stringOf v) := .onHeap (routine_stringOf v)
  cases v with
  | object o => exact .bind (routine_toPrimitive _ _) fun p => .onHeap (routine_stringOf p)
  | _ => exact primitive

theorem routine_toPropertyKey (v : Value) :
    Routine fun E => toPropertyKey E v := by
  have convert : Routine fun E => (do
      let s ← toStringRef E v
      Run.readHeap fun h => h.keyOfString s) :=
    .bind (routine_toStringRef v) fun s => .readHeap _
  cases v with
  | number x =>
    unfold toPropertyKey
    dsimp only
    cases arrayIndexOfNumber? x with
    | some i => exact .pure _
    | none => exact .bind .intern fun s => .readHeap _
  | string s => exact .readHeap fun h => h.keyOfString s
  | _ => exact convert

/-! ### Arrays and writing -/

theorem routine_allocPlainObject : Routine fun _ => allocPlainObject :=
  .bind .realm fun _ => .allocObject trivial

theorem routine_defineElements {K : ObjectKind → Prop} (a : ObjectRef) : ∀ (i : Nat) (values : List Value),
    Heap.Routine K (defineElements a i values)
  | _, [] => .pure _
  | i, _ :: values => .bind (.discard (Heap.routine_define a _ _)) fun _ =>
      routine_defineElements a (i + 1) values

theorem routine_allocArray (values : List Value) : Routine fun _ => allocArray values :=
  .bind .realm fun _ => .bind (.allocObject trivial) fun a => .bind (.discard .define) fun _ =>
    .bind (.onHeap (routine_defineElements _ _ _)) fun _ => .pure a

theorem routine_writeLength [Heap.Memory] (a : ObjectRef) (n : UInt32) :
    Routine fun _ => writeLength a n := by
  refine .bind .names fun names => .bind (.readHeap _) fun c => ?_
  cases c with
  | some c => exact .writeCell
  | none => exact .discard .define

theorem routine_noteKey [Heap.Memory] (o : ObjectRef) (key : PropertyKey) :
    Routine fun _ => noteKey o key := by
  have hlength : Routine fun _ => arrayLength o := .bind .names fun names => .readHeap _
  cases key with
  | index i =>
    exact .bind (.readHeap _) fun isArray =>
      .ite (.bind hlength fun n => .ite (routine_writeLength o _) (.pure _)) (.pure _)
  | string s => exact .pure _

theorem routine_setLength [Heap.Memory] (a : ObjectRef) (v : Value) :
    Routine fun E => setLength E a v := by
  refine .bind (routine_toNumber v) fun x => ?_
  cases Number.wholeBelow? UInt32.size x with
  | some n => exact .bind .retainKeys fun _ => routine_writeLength a _
  | none => exact .bind (.readHeap _) fun text => .fail _

theorem routine_refuseWrite (key : PropertyKey) (strict : Bool) :
    Routine fun _ => refuseWrite key strict :=
  .ite (.bind (.readHeap _) fun _ => .fail _) (.pure _)

theorem routine_createOwn [Heap.Memory] (o : ObjectRef) (key : PropertyKey) (v : Value) (strict : Bool) :
    Routine fun _ => createOwn o key v strict :=
  .bind (.readHeap _) fun _ => .ite
    (.bind (.discard .define) fun _ => .bind (routine_noteKey o key) fun _ => .pure _)
    (routine_refuseWrite key strict)

theorem routine_setOrdinary [Heap.Memory] (o : ObjectRef) (key : PropertyKey) (v : Value)
    (strict : Bool) : Routine fun E => setOrdinary E o key v strict := by
  refine .bind (.readHeap _) fun found => ?_
  cases found with
  | none => exact routine_createOwn o key v strict
  | some place =>
    obtain ⟨holder, c⟩ := place
    refine .bind (.readHeap _) fun d => ?_
    cases d.content with
    | data w writable =>
      cases writable with
      | false => exact routine_refuseWrite key strict
      | true =>
        exact .ite (.bind .writeCell fun _ => .pure _) (routine_createOwn o key v strict)
    | accessor getter setter =>
      exact .bind (.readHeap _) fun callable => .ite
        (.bind (.discard (.call setter (.object o) [v])) fun _ => .pure _)
        (routine_refuseWrite key strict)

theorem routine_setProperty [Heap.Memory] (o : ObjectRef) (key : PropertyKey) (v : Value)
    (strict : Bool) : Routine fun E => setProperty E o key v strict :=
  .bind .names fun _ => .bind (.readHeap _) fun _ => .ite
    (.bind (.readHeap _) fun _ => .ite
      (.bind (routine_setLength o v) fun _ => .pure _) (routine_refuseWrite key strict))
    (routine_setOrdinary o key v strict)

theorem routine_setMember [Heap.Memory] (base : Value) (key : PropertyKey) (v : Value)
    (strict : Bool) : Routine fun E => setMember E base key v strict := by
  cases base with
  | object o => exact routine_setProperty o key v strict
  | undefined => exact routine_refuseBase _ _ key
  | null => exact routine_refuseBase _ _ key
  | _ => exact routine_refuseWrite key strict

theorem routine_deleteProperty (o : ObjectRef) (key : PropertyKey) (strict : Bool) :
    Routine fun _ => deleteProperty o key strict := by
  refine .bind (.readHeap _) fun found => ?_
  cases found with
  | none => exact .pure _
  | some d =>
    exact .ite (routine_refuseWrite key strict) (.bind (.discard .remove) fun _ => .pure _)

/-! ### Operators -/

theorem routine_looseRounds : ∀ (rounds : Nat) (a b : Value),
    Routine fun E => looseRounds E rounds a b
  | 0, _, _ => .pure _
  | rounds + 1, a, b => by
    have left : ∀ v w, Routine fun E => (do looseRounds E rounds (.number (← toNumber E v)) w) :=
      fun v w => .bind (routine_toNumber v) fun x => routine_looseRounds rounds _ w
    have right : ∀ v w, Routine fun E => (do looseRounds E rounds v (.number (← toNumber E w))) :=
      fun v w => .bind (routine_toNumber w) fun x => routine_looseRounds rounds v _
    cases a with
    | undefined =>
      cases b with
      | bool y => exact right _ _
      | _ => exact .pure _
    | null =>
      cases b with
      | bool y => exact right _ _
      | _ => exact .pure _
    | bool x =>
      cases b with
      | bool y => exact .pure _
      | _ => exact left _ _
    | number x =>
      cases b with
      | bool y => exact right _ _
      | string t => exact right _ _
      | object p =>
        exact .bind (routine_toPrimitive _ _) fun v => routine_looseRounds rounds _ v
      | _ => exact .pure _
    | string s =>
      cases b with
      | bool y => exact right _ _
      | number y => exact left _ _
      | object p =>
        refine .bind (routine_toPrimitive _ _) fun v => ?_
        cases v with
        | string t => exact .pure _
        | _ => exact routine_looseRounds rounds _ _
      | _ => exact .pure _
    | object o =>
      cases b with
      | bool y => exact right _ _
      | number y =>
        exact .bind (routine_toPrimitive _ _) fun v => routine_looseRounds rounds v _
      | string t =>
        refine .bind (routine_toPrimitive _ _) fun v => ?_
        cases v with
        | string t => exact .pure _
        | _ => exact routine_looseRounds rounds _ _
      | _ => exact .pure _

theorem routine_concat (a b : StringRef) : Routine fun _ => concat a b :=
  .bind (.readHeap _) fun _ => .bind (.readHeap _) fun _ => .intern

theorem routine_addValues (a b : Value) :
    Routine fun E => addValues E a b := by
  refine .bind (routine_toPrimitive a _) fun a => .bind (routine_toPrimitive b _) fun b => ?_
  have text : ∀ s v, Routine fun E => do return Value.string (← stringAdd E s v) := by
    intro s v
    refine .bind ?_ fun t => .pure _
    exact .bind (routine_toPrimitive v _) fun p => .bind (routine_toStringRef p) fun t =>
      routine_concat s t
  have before : ∀ v s, Routine fun E => do let t ← toStringRef E v; return Value.string (← concat t s) :=
    fun v s => .bind (routine_toStringRef v) fun t => .bind (routine_concat t s) fun u => .pure _
  have sum : ∀ v w, Routine fun E => do let x ← toNumber E v; let y ← toNumber E w; return Value.number (x + y) :=
    fun v w => .bind (routine_toNumber v) fun x => .bind (routine_toNumber w) fun y => .pure _
  cases a with
  | string s => exact text s b
  | _ =>
    cases b with
    | string s => exact before _ s
    | _ => exact sum _ _

theorem routine_lessThan (a b : Value) :
    Routine fun E => lessThan E a b := by
  refine .bind (routine_toPrimitive a _) fun a => .bind (routine_toPrimitive b _) fun b => ?_
  have numbers : ∀ v w, Routine fun E => do
        let x ← toNumber E v
        let y ← toNumber E w
        if x.isNaN || y.isNaN then return none else return some (decide (x < y)) :=
    fun v w => .bind (routine_toNumber v) fun x => .bind (routine_toNumber w) fun y =>
      .ite (.pure _) (.pure _)
  cases a with
  | string s =>
    cases b with
    | string t => exact .bind (.readHeap _) fun x => .bind (.readHeap _) fun y => .pure _
    | _ => exact numbers _ _
  | _ => exact numbers _ _

theorem routine_arithmetic (f : Float → Float → Float) (a b : Value) :
    Routine fun E => arithmetic E f a b :=
  .bind (routine_toNumber a) fun _ => .bind (routine_toNumber b) fun _ => .pure _

theorem routine_applyBinary (op : BinaryOp) (a b : Value) :
    Routine fun E => applyBinary E op a b := by
  cases op with
  | add => exact routine_addValues a b
  | sub => exact routine_arithmetic _ a b
  | mul => exact routine_arithmetic _ a b
  | div => exact routine_arithmetic _ a b
  | rem => exact routine_arithmetic _ a b
  | looseEq => exact .bind (routine_looseRounds 4 a b) fun x => .pure _
  | looseNotEq => exact .bind (routine_looseRounds 4 a b) fun x => .pure _
  | strictEq => exact .pure _
  | strictNotEq => exact .pure _
  | lt => exact .bind (routine_lessThan a b) fun x => .pure _
  | gt => exact .bind (routine_lessThan b a) fun x => .pure _
  | ltEq => exact .bind (routine_lessThan b a) fun x => .pure _
  | gtEq => exact .bind (routine_lessThan a b) fun x => .pure _
  | isIn =>
    exact .bind (routine_toPropertyKey a) fun key => .ite
      (.bind (routine_hasProperty b key) fun x => .pure _) (.bind (.readHeap _) fun text => .fail _)

/-! ### Names, functions and references -/

theorem routine_lookupName (s : ScopeRef) (name : String) :
    Routine fun E => lookupName E s name := by
  refine .bind .keyOfName fun key => .bind (.readHeap _) fun holder => ?_
  cases holder with
  | none => exact .fail _
  | some holder =>
    refine .bind (.readHeap _) fun d => ?_
    cases d with
    | none => exact .fail _
    | some d => exact routine_readDescriptor d _

theorem routine_hasBinding (s : ScopeRef) (name : String) :
    Routine fun _ => hasBinding s name :=
  .bind .keyOfName fun _ => .bind (.readHeap _) fun _ => .pure _

theorem routine_assignName (s : ScopeRef) (name : String) (v : Value) :
    Routine fun E => assignName E s name v := by
  refine .bind .keyOfName fun key => .bind (.readHeap _) fun strict => .bind (.readHeap _) fun holder => ?_
  cases holder with
  | some holder => exact .discard (routine_setProperty holder key v strict)
  | none =>
    exact .ite (.fail _) (.bind (.readHeap _) fun outermost =>
      .discard (routine_setProperty outermost key v false))

theorem routine_defineFunctionNames (f : ObjectRef) (name : String) (arity : Nat) :
    Routine fun _ => defineFunctionNames f name arity :=
  .bind .intern fun _ => .bind .names fun _ => .bind (.discard .define) fun _ => .discard .define

theorem routine_allocClosureObject (c : Closure) : Routine fun _ => allocClosureObject c :=
  .bind .realm fun _ => .bind (.allocObject trivial) fun f => .bind routine_allocPlainObject fun _ =>
    .bind (.discard .define) fun _ => .bind (routine_defineFunctionNames f _ _) fun _ => .pure f

theorem routine_allocClosure (f : Function) (s : ScopeRef) :
    Routine fun _ => allocClosure f s := by
  unfold allocClosure
  cases f.arrow with
  | true => exact .bind (.map (.readHeap _) _) fun receiver => routine_allocClosureObject _
  | false => exact .bind (.pure _) fun receiver => routine_allocClosureObject _

theorem routine_errorToValue (e : Error) : Routine fun _ => errorToValue e := by
  have object : ∀ e : Error, Routine fun _ => do
        let realm ← Run.realm
        let o ← Heap.allocObject (some realm.errorPrototype) .error .ordinary
        let name ← Heap.internString e.surfaceName
        let message ← Heap.internString e.message
        discard (Heap.define o realm.names.name (.hidden (.string name)) : Run CellRef)
        discard (Heap.define o realm.names.message (.hidden (.string message)) : Run CellRef)
        return Value.object o := fun e =>
    .bind .realm fun realm => .bind (.allocObject trivial) fun o => .bind .intern fun name =>
      .bind .intern fun message => .bind (.discard .define) fun _ =>
        .bind (.discard .define) fun _ => .pure _
  cases e with
  | throw v => exact .pure v
  | _ => exact object _

theorem routine_requireIterable (v : Value) : Routine fun _ => requireIterable v :=
  .ite (.bind (.readHeap _) fun _ => .fail _) (.pure _)

mutual

theorem routine_write (v : Value) : ∀ r : Reference,
    Routine fun E => r.write E v
  | .binding scope name => by
    unfold Reference.write
    exact routine_assignName scope name v
  | .property base key strict => by
    unfold Reference.write
    exact .discard (routine_setMember base key v strict)
  | .object properties => by
    unfold Reference.write
    exact routine_writeProperties v properties
  | .array elements => by
    unfold Reference.write
    exact .bind (routine_requireIterable v) fun _ => routine_writeElements v 0 elements

theorem routine_writeProperties (v : Value) :
    ∀ properties : List (PropertyKey × Reference),
      Routine fun E => writeProperties E v properties
  | [] => by
    unfold writeProperties
    exact .pure _
  | (key, target) :: rest => by
    unfold writeProperties
    exact .bind (routine_getProperty v key) fun item => .bind (routine_write item target) fun _ =>
      routine_writeProperties v rest

theorem routine_writeElements (v : Value) : ∀ (i : Nat)
    (elements : List (Option Reference)),
      Routine fun E => writeElements E v i elements
  | _, [] => by
    unfold writeElements
    exact .pure _
  | i, none :: rest => by
    unfold writeElements
    exact routine_writeElements v (i + 1) rest
  | i, some target :: rest => by
    unfold writeElements
    exact .bind (routine_getProperty v _) fun item => .bind (routine_write item target) fun _ =>
      routine_writeElements v (i + 1) rest

end

theorem routine_resolveKey (scope : ScopeRef) (key : MemberKey) :
    Routine fun E => resolveKey E scope key := by
  cases key with
  | named name => exact .keyOfName
  | computed e => exact .bind (.evaluate _) fun c => routine_toPropertyKey _

mutual

theorem routine_resolvePattern (scope : ScopeRef) : ∀ target : Pattern,
    Routine fun E => resolvePattern E scope target
  | .ident name => by
    unfold resolvePattern
    exact .pure _
  | .member base key => by
    unfold resolvePattern
    exact .bind (.evaluate _) fun c => .bind (routine_resolveKey scope key) fun k =>
      .bind (.readHeap _) fun strict => .pure _
  | .object properties => by
    unfold resolvePattern
    exact .bind (routine_resolveProperties scope properties) fun rs => .pure _
  | .array elements => by
    unfold resolvePattern
    exact .bind (routine_resolveElements scope elements) fun rs => .pure _

theorem routine_resolveProperties (scope : ScopeRef) :
    ∀ properties : List (String × Pattern),
      Routine fun E => resolveProperties E scope properties
  | [] => by
    unfold resolveProperties
    exact .pure _
  | (name, target) :: rest => by
    unfold resolveProperties
    exact .bind .keyOfName fun key => .bind (routine_resolvePattern scope target) fun r =>
      .bind (routine_resolveProperties scope rest) fun rs => .pure _

theorem routine_resolveElements (scope : ScopeRef) :
    ∀ elements : List (Option Pattern),
      Routine fun E => resolveElements E scope elements
  | [] => by
    unfold resolveElements
    exact .pure _
  | none :: rest => by
    unfold resolveElements
    exact .bind (routine_resolveElements scope rest) fun rs => .pure _
  | some target :: rest => by
    unfold resolveElements
    exact .bind (routine_resolvePattern scope target) fun r =>
      .bind (routine_resolveElements scope rest) fun rs => .pure _

end

theorem routine_writePattern (scope : ScopeRef) (target : Pattern)
    (v : Value) : Routine fun E => writePattern E scope target v :=
  .bind (routine_resolvePattern scope target) fun r => routine_write v r

/-! ### Coming to an end -/

/-- **What runs on an engine that always ends, ends.** -/
theorem Routine.ends {P : Engine → Run α} (hP : Routine P) {E : Engine} (hevaluate : ∀ r m, E.evaluate r m ≠ .stalled)
    (hcall : ∀ f receiver args m, E.call f receiver args m ≠ .stalled) (m : Machine) : P E m ≠ .stalled := by
  induction hP generalizing m with
  | pure | fail | look => exact nofun
  | @onHeap _ p hp =>
    have hends := hp.ends m.heap
    unfold Run.onHeap
    cases hdone : p m.heap with
    | done | failed => simp [hdone]
    | stalled => exact absurd hdone hends
  | evaluate r => exact hevaluate r m
  | call f receiver args => exact hcall f receiver args m
  | @bind _ _ P F _ _ ihp ihf =>
    dsimp only
    cases hdone : P E m with
    | done a m' =>
      rw [Proc.bind_done hdone]
      exact ihf a m'
    | failed e m' =>
      rw [Proc.bind_failed hdone]
      exact nofun
    | stalled => exact absurd hdone (ihp m)

/-! ### Running no code -/

/-- An engine that never comes back. -/
def Engine.stalling : Engine where
  evaluate _ := Proc.stall
  call _ _ _ := Proc.stall
  start _ := Proc.stall
  step := Proc.stall
  run := Proc.stall
  execute _ := Proc.stall

/-- **What ends on an engine that never comes back has run no code**, and so ends alike on every engine. -/
theorem Routine.runs_nothing {P : Engine → Run α} (hP : Routine P) :
    ∀ m, P .stalling m ≠ .stalled → ∀ E, P E m = P .stalling m := by
  induction hP with
  | pure | fail | onHeap | look => exact fun _ _ _ => rfl
  | evaluate | call => exact fun _ hends => absurd rfl hends
  | @bind _ _ P F hp hf ihp ihf =>
    intro m hends E
    dsimp only at hends ⊢
    rw [Proc.bind_eq] at hends
    rw [Proc.bind_eq, Proc.bind_eq]
    cases hdone : P .stalling m with
    | stalled => rw [hdone] at hends; exact absurd rfl hends
    | failed e m' =>
      rw [ihp m (by rw [hdone]; exact nofun) E, hdone]
      rfl
    | done a m' =>
      rw [hdone] at hends
      rw [ihp m (by rw [hdone]; exact nofun) E, hdone]
      exact ihf a m' hends E

end ScriptCore
