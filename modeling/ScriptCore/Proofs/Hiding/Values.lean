import ScriptCore.Operator
import ScriptCore.Proofs.Calls.Reads
import ScriptCore.Proofs.Hiding.Reticent

/-! # Reading, converting and writing show no hidden object

The operations on values, one after the other. Where one of them runs code, the engine runs it, and is trusted to show
no hidden object either.

* `Engine.Reticent`: what is asked of the engine.
* `reticent_getProperty`, `reticent_setProperty`, `reticent_applyBinary` and so on: **the operations on values.** -/

namespace ScriptCore

open Heap (object_eq_ok refers_iff)

variable {S : Scene} {h h' : Heap} {E : Engine} {o : ObjectRef} {obj : Object} {key : PropertyKey} {c : CellRef}
  {d : Descriptor} {v receiver : Value} {strict : Bool}

/-- **Code that the engine runs shows no hidden object.** -/
structure Engine.Reticent (S : Scene) (E : Engine) : Prop where
  evaluate : ∀ {h : Heap} {r : BranchRequest}, h.Clear r → ScriptCore.Reticent S h (E.evaluate r) Heap.Clear
  call : ∀ {h : Heap} {f receiver : Value} {args : List Value}, h.Clear f → h.Clear receiver → h.Clear args →
    ScriptCore.Reticent S h (E.call f receiver args) Heap.Clear
  start : ∀ {h : Heap} (r : BranchRequest), ScriptCore.Reticent S h (E.start r) Heap.Clear
  step : ∀ {h : Heap}, ScriptCore.Reticent S h E.step Heap.Clear
  run : ∀ {h : Heap}, ScriptCore.Reticent S h E.run Heap.Clear
  execute : ∀ {h : Heap} (body : List Stmt), ScriptCore.Reticent S h (E.execute body) Heap.Clear

/-! ### The realm -/

namespace Heap

theorem clear_realm {R : Realm} (hR : h.Clear R) : h.Clear R.globalScope ∧ h.Clear R.globalObject ∧
    h.Clear R.objectPrototype ∧ h.Clear R.functionPrototype ∧ h.Clear R.arrayPrototype ∧ h.Clear R.errorPrototype := by
  have hall : h.Clear (R.globalScope, R.globalObject, R.objectPrototype, R.functionPrototype, R.arrayPrototype,
      R.stringPrototype, R.numberPrototype, R.booleanPrototype, R.errorPrototype, R.names,
      Plain.mk R.sloppyThisIsGlobal) := hR
  simp only [clear_prod] at hall
  tauto

theorem clear_common {R : Realm} (hR : h.Clear R) (hkey : key ∈ R.names.all) : h.Clear key := by
  have hall : h.Clear (R.globalScope, R.globalObject, R.objectPrototype, R.functionPrototype, R.arrayPrototype,
      R.stringPrototype, R.numberPrototype, R.booleanPrototype, R.errorPrototype, R.names,
      Plain.mk R.sloppyThisIsGlobal) := hR
  have hnames : h.Clear (R.names.length, R.names.prototype, R.names.name, R.names.message, R.names.callee,
      R.names.arguments, R.names.valueOf, R.names.toString) := by
    simp only [clear_prod] at hall
    exact hall.2.2.2.2.2.2.2.2.2.1
  simp only [clear_prod] at hnames
  simp only [CommonNames.all, List.mem_cons, List.not_mem_nil, or_false] at hkey
  rcases hkey with rfl | rfl | rfl | rfl | rfl | rfl | rfl | rfl <;> tauto

/-! ### What is found is clear -/

namespace Secure

theorem ownProperty (hs : h.Secure) (hown : h.ownProperty o key = .ok (some d)) : h.Clear d := by
  obtain ⟨c, -, hc⟩ := ownProperty_eq_some.mp hown
  exact hs.cell hc

theorem property (hs : h.Secure) (hfound : h.property o key = .ok (some d)) : h.Clear d := by
  unfold Heap.property at hfound
  cases hfind : h.findProperty o key with
  | error e => rw [hfind] at hfound; cases hfound
  | ok found =>
    rw [hfind] at hfound
    cases found with
    | none => cases hfound
    | some place =>
      change (do return some (← h.cell place.2) : Except Error (Option Descriptor)) = _ at hfound
      cases hc : h.cell place.2 with
      | error e => rw [hc] at hfound; cases hfound
      | ok d' =>
        rw [hc] at hfound
        cases hfound
        exact hs.cell hc

end Secure

/-- A value that is found without a chain is a length. -/
theorem clear_found {R : Realm} {base : Value} (hfound : h.lookup R base key = .ok (.found v)) : h.Clear v := by
  cases base with
  | string s =>
    cases key with
    | index i =>
      unfold lookup at hfound
      dsimp only at hfound
      cases ht : h.text s with
      | error e => rw [ht] at hfound; cases hfound
      | ok t =>
        rw [ht] at hfound
        dsimp only [bind, Except.bind] at hfound
        split at hfound <;> cases hfound
    | string k =>
      unfold lookup at hfound
      dsimp only at hfound
      split at hfound
      · cases ht : h.text s with
        | error e => rw [ht] at hfound; cases hfound
        | ok t => rw [ht] at hfound; cases hfound; exact clear_ofCount _
      · cases hfound
  | _ => cases hfound

end Heap

/-! ### Reading -/

theorem reticent_refuseBase {α : Type} {Q : Heap → α → Prop} (what : String) (base : Value) (key : PropertyKey) :
    Reticent S h (refuseBase what base key) Q :=
  .read (Heap.mild_baseError what base key) fun _ he => .refuse (Heap.baseError_ne_throw he)

theorem reticent_readDescriptor (hE : E.Reticent S) (hd : h.Clear d) (hreceiver : h.Clear receiver) :
    Reticent S h (readDescriptor E d receiver) Heap.Clear := by
  unfold readDescriptor
  rw [Heap.clear_descriptor] at hd
  cases hcontent : d.content with
  | data v _ =>
    rw [hcontent] at hd
    exact .pure hd
  | accessor getter _ =>
    rw [hcontent, Heap.clear_accessor] at hd
    exact .read (Heap.mild_isCallable getter) fun _ _ =>
      .ite (fun _ => hE.call hd.1 hreceiver (by simp)) fun _ => .pure Heap.clear_undefined

theorem reticent_getProperty (hE : E.Reticent S) {base : Value} (hbase : h.Clear base) :
    Reticent S h (getProperty E base key) Heap.Clear := by
  refine .secure fun hs _ => .realm_bind (.read (Heap.mild_lookup S.realm base key) fun found hfound => ?_)
  cases found with
  | refused => exact reticent_refuseBase _ base key
  | found v => exact .pure (Heap.clear_found hfound)
  | unit u => exact reticent_string.bind fun _ _ _ hr => .pure hr
  | missing => exact .pure Heap.clear_undefined
  | chain o =>
    refine .read (Heap.mild_property o key) fun found hfound => ?_
    cases found with
    | none => exact .pure Heap.clear_undefined
    | some d => exact reticent_readDescriptor hE (hs.property hfound) hbase

theorem reticent_hasProperty (base : Value) (key : PropertyKey) :
    Reticent S h (hasProperty base key) Heap.Clear := by
  refine .realm_bind (.read (Heap.mild_hasOn S.realm base key) fun found _ => ?_)
  cases found with
  | none => exact reticent_refuseBase _ base key
  | some b => exact .pure (Heap.clear_bool b)

/-! ### Converting -/

theorem reticent_convertBy (hE : E.Reticent S) : ∀ (keys : List PropertyKey) (tried : Bool) {h : Heap},
    h.Clear v → Reticent S h (convertBy E v keys tried) Heap.Clear
  | [], tried, h, _ => by
    refine .read (Heap.mild_describe v) fun text _ => .ite (fun _ => .refuse fun _ he => by cases he) fun _ => ?_
    exact reticent_string.bind fun _ _ _ hr => .pure hr
  | key :: keys, tried, h, hv => by
    refine (reticent_getProperty hE hv).bind fun h₁ method hh hmethod => ?_
    refine .read (Heap.mild_isCallable method) fun callable _ => .ite (fun _ => ?_) fun _ => ?_
    · refine (hE.call hmethod (hh.clear hv) (by simp)).bind fun h₂ result hh₂ hresult => ?_
      exact .ite (fun _ => reticent_convertBy hE keys true (hh₂.clear (hh.clear hv))) fun _ => .pure hresult
    · exact reticent_convertBy hE keys tried (hh.clear hv)

theorem reticent_toPrimitive (hE : E.Reticent S) (hint : Hint) (hv : h.Clear v) :
    Reticent S h (toPrimitive E v hint) Heap.Clear := by
  cases v with
  | object o => exact .names_bind (reticent_convertBy hE _ false hv)
  | _ => exact .pure hv

theorem reticent_numberOf (v : Value) : Reticent S h (Run.readHeap fun h => h.numberOf v) Heap.Clear :=
  .reads (Heap.mild_numberOf v) fun _ _ => Heap.clear_float _

theorem reticent_toNumber (hE : E.Reticent S) (hv : h.Clear v) : Reticent S h (toNumber E v) Heap.Clear := by
  have hprimitive := reticent_numberOf (S := S) (h := h) v
  cases v with
  | object o => exact (reticent_toPrimitive hE _ hv).bind fun _ p _ _ => reticent_numberOf p
  | _ => exact hprimitive

theorem reticent_stringOf (hv : h.Clear v) : Reticent S h (Run.onHeap (Heap.stringOf v)) Heap.Clear := by
  cases v with
  | string s => exact .pure hv
  | object o => exact .refuse fun _ he => by cases he
  | bool b => cases b <;> exact reticent_string
  | _ => exact reticent_string

theorem reticent_toStringRef (hE : E.Reticent S) (hv : h.Clear v) : Reticent S h (toStringRef E v) Heap.Clear := by
  have hprimitive := reticent_stringOf (S := S) hv
  cases v with
  | object o => exact (reticent_toPrimitive hE _ hv).bind fun _ p _ hp => reticent_stringOf hp
  | _ => exact hprimitive

theorem reticent_keyOfString (r : StringRef) : Reticent S h (Run.readHeap fun h => h.keyOfString r) Heap.Clear :=
  .reads (Heap.mild_keyOfString r) fun _ hkey => (Heap.keyed_of_keyOfString hkey).clear

theorem reticent_toPropertyKey (hE : E.Reticent S) (hv : h.Clear v) :
    Reticent S h (toPropertyKey E v) Heap.Clear := by
  have hconvert : Reticent S h (do
      let r ← toStringRef E v
      Run.readHeap fun h => h.keyOfString r) Heap.Clear :=
    (reticent_toStringRef hE hv).bind fun _ r _ _ => reticent_keyOfString r
  cases v with
  | number x =>
    unfold toPropertyKey
    dsimp only
    cases arrayIndexOfNumber? x with
    | some i => exact .pure (Heap.clear_index i)
    | none => exact reticent_string.bind fun _ r _ _ => reticent_keyOfString r
  | string r => exact reticent_keyOfString r
  | _ => exact hconvert

/-! ### Objects and arrays -/

/-- A property that holds a value is furnished. -/
theorem reticent_furnish (hkey : h.Clear key) (hd : h.Clear d) (hdata : d.isAccessor = false) :
    Reticent S h (discard (Run.onHeap (Heap.define o key d))) Heap.Clear :=
  .discard (reticent_define hkey hd hdata)

theorem reticent_allocPlainObject : Reticent S h allocPlainObject Heap.Clear :=
  .secure fun _ hR => .realm_bind (reticent_allocObject (Heap.clear_realm hR).2.2.1 Heap.clear_ordinary)

theorem reticent_defineElements : ∀ (i : Nat) (values : List Value) {h : Heap}, h.Clear values →
    Reticent S h (Run.onHeap (defineElements o i values)) Heap.Clear
  | _, [], _, _ => .pure (Heap.clear_unit _)
  | i, v :: values, h, hvalues => by
    unfold defineElements
    rw [Proc.discard_bind, Run.onHeap_bind]
    rw [Heap.clear_list, List.forall_mem_cons, ← Heap.clear_list] at hvalues
    exact (reticent_define (Heap.clear_index _) (Heap.clear_descriptor.mpr hvalues.1) rfl).bind fun h₁ _ hh _ =>
      reticent_defineElements (i + 1) values (hh.clear hvalues.2)

theorem clear_lengthDescriptor (n : Nat) : h.Clear (lengthDescriptor n) :=
  Heap.clear_descriptor.mpr (Heap.clear_ofCount n)

theorem reticent_allocArray {values : List Value} (hvalues : h.Clear values) :
    Reticent S h (allocArray values) Heap.Clear := by
  refine .secure fun _ hR => .realm_bind ?_
  have harray := (Heap.clear_realm hR).2.2.2.2.1
  have hlength := Heap.clear_common hR (by simp [CommonNames.all] : S.realm.names.length ∈ S.realm.names.all)
  refine (reticent_allocObject harray Heap.clear_array).bind fun h₁ o hh ho => ?_
  refine (reticent_furnish (hh.clear hlength) (clear_lengthDescriptor _) rfl).bind fun h₂ _ hh₂ _ => ?_
  exact (reticent_defineElements 0 values (hh₂.clear (hh.clear hvalues))).bind fun h₃ _ hh₃ _ =>
    .pure (hh₃.clear (hh₂.clear ho))

/-- The length of an array is written. -/
theorem reticent_writeLength (o : ObjectRef) (n : UInt32) : Reticent S h (writeLength o n) Heap.Clear := by
  refine .secure fun _ hR => .names_bind (.read (Heap.mild_ownCell o _) fun found _ => ?_)
  cases found with
  | some c => exact reticent_writeCell (Heap.clear_ofCount _)
  | none => exact reticent_furnish (Heap.clear_common hR (by simp [CommonNames.all])) (clear_lengthDescriptor _) rfl

theorem reticent_noteKey (o : ObjectRef) (key : PropertyKey) : Reticent S h (noteKey o key) Heap.Clear := by
  cases key with
  | string r => exact .pure (Heap.clear_unit _)
  | index i =>
    refine .read (Heap.mild_isArray o) fun isArray _ => .ite (fun _ => ?_) fun _ => .pure (Heap.clear_unit _)
    have hlength : Reticent S h (arrayLength o) Heap.Clear :=
      .names_bind (.reads (Heap.mild_lengthOf _ o) fun _ _ => Heap.clear_word _)
    exact hlength.bind fun h₁ n _ _ => .ite (fun _ => reticent_writeLength o _) fun _ => .pure (Heap.clear_unit _)

theorem reticent_setLength (hE : E.Reticent S) (ho : ¬ h.Hides o) (hlive : h.Names ⟨.object, o.handle⟩)
    (hv : h.Clear v) : Reticent S h (setLength E o v) Heap.Clear := by
  refine (reticent_toNumber hE hv).bind fun h₁ x hh _ => ?_
  cases Number.wholeBelow? UInt32.size x with
  | none => exact .read (Heap.mild_describe v) fun text _ => .refuse fun _ he => by cases he
  | some n =>
    exact (reticent_retainKeys (fun hx => ho (hh.hides o hlive hx)) _).bind fun h₂ _ _ _ => reticent_writeLength o _

/-! ### Writing -/

theorem reticent_refuseWrite (key : PropertyKey) (strict : Bool) : Reticent S h (refuseWrite key strict) Heap.Clear :=
  .ite (fun _ => .read (Heap.mild_keyText key) fun _ _ => .refuse fun _ he => by cases he) fun _ =>
    .pure (Heap.clear_bool _)

theorem reticent_createOwn (hkey : h.Clear key) (hv : h.Clear v) :
    Reticent S h (createOwn o key v strict) Heap.Clear := by
  refine .read (Heap.mild_isExtensible o) fun _ _ => .ite (fun _ => ?_) fun _ => reticent_refuseWrite key strict
  exact (reticent_furnish (d := .data v) hkey (Heap.clear_descriptor.mpr hv) rfl).bind fun _ _ _ _ =>
    (reticent_noteKey o key).bind fun _ _ _ _ => .pure (Heap.clear_bool _)

/-- An object whose properties are written: values may show it, or it is hidden and has the key. -/
def Heap.Writable (h : Heap) (o : ObjectRef) (key : PropertyKey) : Prop := h.Clear o ∨ h.Hides o ∧ ∃ c, h.Refers o key c

theorem reticent_setOrdinary (hE : E.Reticent S) (hkey : h.Clear key) (ho : h.Writable o key) (hv : h.Clear v) :
    Reticent S h (setOrdinary E o key v strict) Heap.Clear := by
  refine .secure fun hs _ => .read (Heap.mild_findProperty o key) fun found hfound => ?_
  cases found with
  | none => exact reticent_createOwn hkey hv
  | some place =>
    obtain ⟨holder, c⟩ := place
    have hholder := Heap.refers_of_findProperty hfound
    refine .read (Heap.mild_cell c) fun d hc => ?_
    have hd := Heap.clear_descriptor.mp (hs.cell hc)
    cases hcontent : d.content with
    | data u writable =>
      cases writable with
      | false => exact reticent_refuseWrite key strict
      | true =>
        refine .ite (fun _ => ?_) fun _ => reticent_createOwn hkey hv
        exact (reticent_writeCell hv).bind fun _ _ _ _ => .pure (Heap.clear_bool _)
    | accessor getter setter =>
      rw [hcontent, Heap.clear_accessor] at hd
      refine .read (Heap.mild_isCallable setter) fun _ _ => .ite (fun _ => ?_) fun _ => reticent_refuseWrite key strict
      -- hidden objects hold no accessors
      have hshown : h.Clear o := by
        refine ho.resolve_right fun ⟨hhidden, c', hr⟩ => ?_
        have hown : holder = o := by
          by_contra hother
          exact Heap.not_refers_of_findProperty hfound (by rintro _ _ ⟨⟩; exact hother) c' hr
        subst hown
        obtain ⟨obj, hobj, hfind⟩ := refers_iff.mp hholder
        obtain ⟨d', hd', hdata⟩ := ((hs.object hobj).2 hhidden).2 key c hfind
        cases hc.symm.trans hd'
        unfold Descriptor.isAccessor at hdata
        rw [hcontent] at hdata
        cases hdata
      rw [Proc.discard_bind]
      exact (hE.call hd.2 hshown (by simpa using hv)).bind fun _ _ _ _ => .pure (Heap.clear_bool _)

theorem reticent_setProperty (hE : E.Reticent S) (hkey : h.Clear key) (ho : h.Writable o key) (hv : h.Clear v) :
    Reticent S h (setProperty E o key v strict) Heap.Clear := by
  refine .secure fun hs _ =>
    .names_bind (.read (Heap.mild_isArray o) fun isArray hisArray => .ite (fun hlength => ?_) fun _ => ?_)
  · obtain ⟨obj, hobj, hkind⟩ := Heap.isArray_eq_ok.mp hisArray
    have harray : obj.kind = .array := hkind.mp (by simpa using (Bool.and_eq_true .. ▸ hlength).1)
    have hshown : ¬ h.Hides o := fun hhidden => by
      cases harray.symm.trans ((hs.object hobj).2 hhidden).1
    refine .read (Heap.mild_ownWritable o key) fun _ _ => .ite (fun _ => ?_) fun _ => reticent_refuseWrite key strict
    exact (reticent_setLength hE hshown (Heap.names_object.mpr ⟨obj, hobj⟩) hv).bind fun _ _ _ _ =>
      .pure (Heap.clear_bool _)
  · exact reticent_setOrdinary hE hkey ho hv

theorem reticent_setMember (hE : E.Reticent S) {base : Value} (hbase : h.Clear base) (hkey : h.Clear key)
    (hv : h.Clear v) : Reticent S h (setMember E base key v strict) Heap.Clear := by
  cases base with
  | object o => exact reticent_setProperty hE hkey (.inl hbase) hv
  | undefined => exact reticent_refuseBase _ _ key
  | null => exact reticent_refuseBase _ _ key
  | _ => exact reticent_refuseWrite key strict

theorem reticent_deleteProperty (ho : h.Clear o) : Reticent S h (deleteProperty o key strict) Heap.Clear := by
  refine .read (Heap.mild_ownProperty o key) fun found _ => ?_
  cases found with
  | none => exact .pure (Heap.clear_bool _)
  | some d =>
    refine .ite (fun _ => reticent_refuseWrite key strict) fun _ => ?_
    rw [Proc.discard_bind]
    exact (reticent_remove ((Heap.clear_ref o).mp ho).2).bind fun _ _ _ _ => .pure (Heap.clear_bool _)

/-! ### Operators -/

theorem reticent_looseRounds (hE : E.Reticent S) : ∀ (rounds : Nat) (a b : Value) {h : Heap}, h.Clear a →
    h.Clear b → Reticent S h (looseRounds E rounds a b) Heap.Clear
  | 0, _, _, _, _, _ => .pure (Heap.clear_bool _)
  | rounds + 1, a, b, h, ha, hb => by
    have answer : ∀ x : Bool, Reticent S h (pure x) Heap.Clear := fun x => .pure (Heap.clear_bool x)
    have left : ∀ u t, h.Clear u → h.Clear t → Reticent S h (do
        looseRounds E rounds (.number (← toNumber E u)) t) Heap.Clear :=
      fun u t hu ht => (reticent_toNumber hE hu).bind fun _ x hh _ =>
        reticent_looseRounds hE rounds _ t (Heap.clear_number x) (hh.clear ht)
    have right : ∀ u t, h.Clear u → h.Clear t → Reticent S h (do
        looseRounds E rounds u (.number (← toNumber E t))) Heap.Clear :=
      fun u t hu ht => (reticent_toNumber hE ht).bind fun _ x hh _ =>
        reticent_looseRounds hE rounds u _ (hh.clear hu) (Heap.clear_number x)
    cases a with
    | undefined =>
      cases b with
      | bool y => exact right _ _ ha hb
      | _ => exact answer _
    | null =>
      cases b with
      | bool y => exact right _ _ ha hb
      | _ => exact answer _
    | bool x =>
      cases b with
      | bool y => exact answer _
      | _ => exact left _ _ ha hb
    | number x =>
      cases b with
      | bool y => exact right _ _ ha hb
      | string t => exact right _ _ ha hb
      | object p =>
        exact (reticent_toPrimitive hE _ hb).bind fun _ v hh hv =>
          reticent_looseRounds hE rounds _ v (hh.clear ha) hv
      | _ => exact answer _
    | string r =>
      cases b with
      | bool y => exact right _ _ ha hb
      | number y => exact left _ _ ha hb
      | object p =>
        refine (reticent_toPrimitive hE _ hb).bind fun _ v hh hv => ?_
        cases v with
        | string t => exact .pure (Heap.clear_bool _)
        | _ => exact reticent_looseRounds hE rounds _ _ (hh.clear ha) hv
      | _ => exact answer _
    | object p =>
      cases b with
      | bool y => exact right _ _ ha hb
      | number y =>
        exact (reticent_toPrimitive hE _ ha).bind fun _ v hh hv =>
          reticent_looseRounds hE rounds v _ hv (hh.clear hb)
      | string t =>
        refine (reticent_toPrimitive hE _ ha).bind fun _ v hh hv => ?_
        cases v with
        | string t => exact .pure (Heap.clear_bool _)
        | _ => exact reticent_looseRounds hE rounds _ _ hv (hh.clear hb)
      | _ => exact answer _

theorem reticent_concat (a b : StringRef) : Reticent S h (concat a b) Heap.Clear :=
  .read (Heap.mild_text a) fun _ _ => .read (Heap.mild_text b) fun _ _ => reticent_string

theorem reticent_addValues (hE : E.Reticent S) {a b : Value} (ha : h.Clear a) (hb : h.Clear b) :
    Reticent S h (addValues E a b) Heap.Clear := by
  refine (reticent_toPrimitive hE _ ha).bind fun h₁ a hh₁ ha => ?_
  refine (reticent_toPrimitive hE _ (hh₁.clear hb)).bind fun h₂ b hh₂ hb => ?_
  have ha := hh₂.clear ha
  have text : ∀ r v, h₂.Clear v → Reticent S h₂ (do return Value.string (← stringAdd E r v)) Heap.Clear := by
    intro r v hv
    have hadd : Reticent S h₂ (stringAdd E r v) Heap.Clear :=
      (reticent_toPrimitive hE _ hv).bind fun _ p _ hp => (reticent_toStringRef hE hp).bind fun _ t _ _ =>
        reticent_concat r t
    exact hadd.bind fun _ _ _ hr => .pure hr
  have before : ∀ v r, h₂.Clear v → Reticent S h₂ (do
      let t ← toStringRef E v; return Value.string (← concat t r)) Heap.Clear :=
    fun v r hv => (reticent_toStringRef hE hv).bind fun _ t _ _ => (reticent_concat t r).bind fun _ _ _ hr => .pure hr
  have sum : ∀ u v, h₂.Clear u → h₂.Clear v → Reticent S h₂ (do
      let x ← toNumber E u; let y ← toNumber E v; return Value.number (x + y)) Heap.Clear :=
    fun u v hu hv => (reticent_toNumber hE hu).bind fun _ x hh _ =>
      (reticent_toNumber hE (hh.clear hv)).bind fun _ y _ _ => .pure (Heap.clear_number _)
  cases a with
  | string r => exact text r b hb
  | _ =>
    cases b with
    | string r => exact before _ r ha
    | _ => exact sum _ _ ha hb

theorem reticent_lessThan (hE : E.Reticent S) {a b : Value} (ha : h.Clear a) (hb : h.Clear b) :
    Reticent S h (lessThan E a b) Heap.Clear := by
  refine (reticent_toPrimitive hE _ ha).bind fun h₁ a hh₁ ha => ?_
  refine (reticent_toPrimitive hE _ (hh₁.clear hb)).bind fun h₂ b hh₂ hb => ?_
  have ha := hh₂.clear ha
  have answer : ∀ {h : Heap} (x : Option Bool), Reticent S h (pure x) Heap.Clear := fun x =>
    .pure (by cases x <;> simp)
  have numbers : ∀ u v, h₂.Clear u → h₂.Clear v → Reticent S h₂ (do
      let x ← toNumber E u
      let y ← toNumber E v
      if x.isNaN || y.isNaN then return none else return some (decide (x < y))) Heap.Clear :=
    fun u v hu hv => (reticent_toNumber hE hu).bind fun _ x hh _ =>
      (reticent_toNumber hE (hh.clear hv)).bind fun _ y _ _ => .ite (fun _ => answer _) fun _ => answer _
  cases a with
  | string r =>
    cases b with
    | string t => exact .read (Heap.mild_text r) fun _ _ => .read (Heap.mild_text t) fun _ _ => answer _
    | _ => exact numbers _ _ ha hb
  | _ => exact numbers _ _ ha hb

theorem reticent_arithmetic (hE : E.Reticent S) (f : Float → Float → Float) {a b : Value} (ha : h.Clear a)
    (hb : h.Clear b) : Reticent S h (arithmetic E f a b) Heap.Clear :=
  (reticent_toNumber hE ha).bind fun _ _ hh _ => (reticent_toNumber hE (hh.clear hb)).bind fun _ _ _ _ =>
    .pure (Heap.clear_number _)

theorem reticent_applyBinary (hE : E.Reticent S) (op : BinaryOp) {a b : Value} (ha : h.Clear a) (hb : h.Clear b) :
    Reticent S h (applyBinary E op a b) Heap.Clear := by
  have less : ∀ {a b : Value} (f : Option Bool → Bool), h.Clear a → h.Clear b →
      Reticent S h (do return Value.bool (f (← lessThan E a b))) Heap.Clear :=
    fun f ha hb => (reticent_lessThan hE ha hb).bind fun _ _ _ _ => .pure (Heap.clear_bool_value _)
  cases op with
  | add => exact reticent_addValues hE ha hb
  | sub => exact reticent_arithmetic hE _ ha hb
  | mul => exact reticent_arithmetic hE _ ha hb
  | div => exact reticent_arithmetic hE _ ha hb
  | rem => exact reticent_arithmetic hE _ ha hb
  | looseEq => exact (reticent_looseRounds hE 4 a b ha hb).bind fun _ _ _ _ => .pure (Heap.clear_bool_value _)
  | looseNotEq => exact (reticent_looseRounds hE 4 a b ha hb).bind fun _ _ _ _ => .pure (Heap.clear_bool_value _)
  | strictEq => exact .pure (Heap.clear_bool_value _)
  | strictNotEq => exact .pure (Heap.clear_bool_value _)
  | lt => exact less (· == some true) ha hb
  | gt => exact less (· == some true) hb ha
  | ltEq => exact less (· == some false) hb ha
  | gtEq => exact less (· == some false) ha hb
  | isIn =>
    exact (reticent_toPropertyKey hE ha).bind fun _ key _ _ => .ite
      (fun _ => (reticent_hasProperty b key).bind fun _ _ _ _ => .pure (Heap.clear_bool_value _))
      fun _ => .read (Heap.mild_describe b) fun _ _ => .refuse fun _ he => by cases he

end ScriptCore
