import ScriptCore.Object.Write
import ScriptCore.Proofs.Renaming.Allocation

/-! # Properties and conversions go alike

Reading, writing and deleting properties of values that are alike, arrays and their lengths, and the
conversions, which may run code of the program through the engine.

* `sim_getProperty`, `sim_setProperty`, `sim_deleteProperty`.
* `sim_toPrimitive`: a conversion gives primitives that are alike. -/

namespace ScriptCore

variable {M : Mode} {ρ ρ' : Renaming} {E₁ E₂ : Engine}

/-! ### Reading -/

/-- Look-ups in the same place. -/
inductive Lookup.Alike (ρ : Renaming) : Lookup → Lookup → Prop where
  | refused : Alike ρ .refused .refused
  | found {v w : Value} (h : Renamable.Alike ρ v w) : Alike ρ (.found v) (.found w)
  | unit (u : UInt16) : Alike ρ (.unit u) (.unit u)
  | missing : Alike ρ .missing .missing
  | chain {o p : ObjectRef} (h : Renamable.Alike ρ o p) : Alike ρ (.chain o) (.chain p)

instance : Renamable Lookup where
  refs
    | .found v => refs v
    | .chain o => refs o
    | _ => []
  Alike := Lookup.Alike
  transfer h hr := by
    cases h with
    | refused => exact .refused
    | found h => exact .found (Renamable.transfer h hr)
    | unit u => exact .unit u
    | missing => exact .missing
    | chain h => exact .chain (Renamable.transfer h hr)
  paired h := by
    cases h with
    | found h => exact Renamable.paired h
    | chain h => exact Renamable.paired h
    | _ => exact .nil

namespace Heap.Alike

variable {h₁ h₂ : Heap}

theorem lookup (hh : Heap.Alike M ρ h₁ h₂) {r s : Realm} {v w : Value} {k l : PropertyKey}
    (hr : ScriptCore.Alike ρ r s) (hv : ScriptCore.Alike ρ v w) (hk : ScriptCore.Alike ρ k l) :
    ScriptCore.Alike ρ (h₁.lookup r v k) (h₂.lookup s w l) := by
  obtain ⟨-, -, -, -, -, hstring, hnumber, hbool, -, hn, -⟩ := Realm.alike_iff.mp hr
  cases hv with
  | undefined => exact .ok .refused
  | null => exact .ok .refused
  | bool b => exact .ok (.chain hbool)
  | number x => exact .ok (.chain hnumber)
  | object ho => exact .ok (.chain ho)
  | string hs =>
    obtain ⟨x, hx, hy⟩ := hh.text hs
    cases hk with
    | index i =>
      simp only [Heap.lookup, hx, hy, ok_bind]
      cases x.unitAt? i.toNat with
      | some u => exact .ok (.unit u)
      | none => exact .ok .missing
    | @string a b hk =>
      have hlen := hh.key_eq_iff (.string hk) (CommonNames.alike_iff.mp hn).1
      simp only [Heap.lookup, hx, hy, ok_bind]
      by_cases hkey : PropertyKey.string a = r.names.length
      · rw [if_pos hkey, if_pos (hlen.mp hkey)]
        exact .ok (.found (.number _))
      · rw [if_neg hkey, if_neg fun h => hkey (hlen.mpr h)]
        exact .ok (.chain hstring)

theorem baseError (hh : Heap.Alike M ρ h₁ h₂) (what : String) {v w : Value} {k l : PropertyKey}
    (hv : ScriptCore.Alike ρ v w) (hk : ScriptCore.Alike ρ k l) :
    ScriptCore.Alike ρ (h₁.baseError what v k) (h₂.baseError what w l) := by
  refine alike_bind (hh.keyText hk) fun a b hab => ?_
  obtain rfl : a = b := hab
  refine alike_bind (hh.describe hv) fun c d hcd => ?_
  obtain rfl : c = d := hcd
  exact .ok (.same rfl nofun)

theorem hasOn (hh : Heap.Alike M ρ h₁ h₂) {r s : Realm} {v w : Value} {k l : PropertyKey}
    (hr : ScriptCore.Alike ρ r s) (hv : ScriptCore.Alike ρ v w) (hk : ScriptCore.Alike ρ k l) :
    ScriptCore.Alike ρ (h₁.hasOn r v k) (h₂.hasOn s w l) := by
  obtain ⟨-, -, -, -, -, hstring, hnumber, hbool, -, hn, -⟩ := Realm.alike_iff.mp hr
  have found : ∀ {o p : ObjectRef}, ScriptCore.Alike ρ o p →
      ScriptCore.Alike ρ (do return some (← h₁.findProperty o k).isSome : Except Error (Option Bool))
        (do return some (← h₂.findProperty p l).isSome) := by
    intro o p ho
    refine alike_bind (hh.findProperty ho hk) fun a b hab => ?_
    cases hab <;> exact .ok (.some rfl)
  cases hv with
  | undefined => exact .ok .none
  | null => exact .ok .none
  | bool b => exact found hbool
  | number x => exact found hnumber
  | object ho => exact found ho
  | string hs =>
    obtain ⟨x, hx, hy⟩ := hh.text hs
    have hfound := found hstring
    cases hk with
    | index i =>
      simp only [Heap.hasOn, hx, hy, ok_bind]
      by_cases hi : i.toNat < x.length
      · simp only [hi, decide_true, if_true]
        exact .ok (.some rfl)
      · simp only [hi, decide_false, Bool.false_eq_true, if_false]
        exact hfound
    | @string a b hk =>
      have hlen := hh.key_eq_iff (.string hk) (CommonNames.alike_iff.mp hn).1
      simp only [Heap.hasOn, hx, hy, ok_bind, beq_iff_eq]
      by_cases hkey : PropertyKey.string a = r.names.length
      · rw [if_pos hkey, if_pos (hlen.mp hkey)]
        exact .ok (.some rfl)
      · rw [if_neg hkey, if_neg fun h => hkey (hlen.mpr h)]
        exact hfound

end Heap.Alike

theorem sim_refuseBase {α : Type} {Q : Renaming → α → α → Prop} (what : String) {v w : Value}
    {k l : PropertyKey} (hv : Alike ρ v w) (hk : Alike ρ k l) :
    Sim M ρ Q (refuseBase what v k) (refuseBase what w l) :=
  (Sim.readHeap fun _ hρ _ _ hh => hh.baseError what (hv.mono hρ) (hk.mono hρ)).bind
    fun _ _ _ _ he => .fail he

theorem sim_readDescriptor {d e : Descriptor} {v w : Value} (hd : Alike ρ d e) :
    Sim M ρ Alike (readDescriptor E₁ d v) (readDescriptor E₂ e w) := by
  obtain ⟨hc, -⟩ := Descriptor.alike_iff.mp hd
  obtain ⟨_, _, _, c⟩ := d
  obtain ⟨_, _, _, c'⟩ := e
  cases hc with
  | data hx _ => exact .pure hx

/-- **Reading a property.** -/
theorem sim_getProperty {v w : Value} {k l : PropertyKey} (hv : Alike ρ v w) (hk : Alike ρ k l) :
    Sim M ρ Alike (getProperty E₁ v k) (getProperty E₂ w l) := by
  refine Sim.realm.bind fun ρ₁ hρ₁ r s hr => ?_
  have hv := hv.mono hρ₁
  have hk := hk.mono hρ₁
  refine (Sim.readHeap fun ρ' hρ _ _ hh => hh.lookup (hr.mono hρ) (hv.mono hρ) (hk.mono hρ)).bind
    fun ρ₂ hρ₂ x y hxy => ?_
  have hv := hv.mono hρ₂
  have hk := hk.mono hρ₂
  cases hxy with
  | refused => exact sim_refuseBase "read" hv hk
  | found h => exact .pure h
  | unit u => exact (Heap.sim_intern _).onHeap.bind fun _ _ _ _ hs => .pure (.string hs)
  | missing => exact .pure .undefined
  | chain ho =>
    refine (Sim.readHeap fun ρ' hρ _ _ hh => hh.property (ho.mono hρ) (hk.mono hρ)).bind
      fun ρ₃ hρ₃ d e hde => ?_
    cases hde with
    | none => exact .pure .undefined
    | some hd => exact sim_readDescriptor hd

theorem sim_hasProperty {v w : Value} {k l : PropertyKey} (hv : Alike ρ v w) (hk : Alike ρ k l) :
    Sim M ρ Alike (hasProperty v k) (hasProperty w l) := by
  refine Sim.realm.bind fun ρ₁ hρ₁ r s hr => ?_
  have hv := hv.mono hρ₁
  have hk := hk.mono hρ₁
  refine (Sim.readHeap fun ρ' hρ _ _ hh => hh.hasOn (hr.mono hρ) (hv.mono hρ) (hk.mono hρ)).bind
    fun ρ₂ hρ₂ x y hxy => ?_
  cases hxy with
  | none => exact sim_refuseBase "check" (hv.mono hρ₂) (hk.mono hρ₂)
  | some h => exact .pure h

/-! ### Conversions -/

section Conversions

variable (hE : Engine.Sim M E₁ E₂)

/-- Primitives that are alike. -/
def AlikePrimitives (ρ : Renaming) (v w : Value) : Prop := Alike ρ v w ∧ v.isObject = false

theorem isObject_eq {v w : Value} (h : Alike ρ v w) : v.isObject = w.isObject := by cases h <;> rfl

include hE

theorem sim_convertBy : ∀ (ks ls : List PropertyKey) (ρ : Renaming) (v w : Value) (tried : Bool),
    Alike ρ v w → Alike ρ ks ls →
    Sim M ρ AlikePrimitives (convertBy E₁ v ks tried) (convertBy E₂ w ls tried)
  | [], _, ρ, v, w, tried, hv, hk => by
    cases hk
    refine (Sim.readHeap fun _ hρ _ _ hh => hh.describe (hv.mono hρ)).bind fun ρ₁ hρ₁ a b hab => ?_
    obtain rfl : a = b := hab
    cases tried with
    | true => exact .fail (.same rfl nofun)
    | false =>
      exact (Heap.sim_internString a).onHeap.bind fun _ _ s t hs =>
        .pure_of fun _ hρ => ⟨.string (hs.mono hρ), rfl⟩
  | k :: ks, _, ρ, v, w, tried, hv, hk => by
    obtain _ | ⟨hkl, hks⟩ := hk
    refine (sim_getProperty hv hkl).bind fun ρ₁ hρ₁ f g hfg => ?_
    refine (Sim.readHeap fun _ hρ _ _ hh => hh.isCallable (hfg.mono hρ)).bind
      fun ρ₂ hρ₂ a b hab => ?_
    obtain rfl : a = b := hab
    have hks : Alike ρ ks _ := hks
    have hle := hρ₁.trans hρ₂
    cases a with
    | false => exact sim_convertBy ks _ ρ₂ v w tried (hv.mono hle) (hks.mono hle)
    | true =>
      refine (hE.call (hfg.mono hρ₂) (hv.mono hle) .nil).bind fun ρ₃ hρ₃ x y hxy => ?_
      have hle := hle.trans hρ₃
      rw [← isObject_eq hxy]
      cases hobj : x.isObject with
      | true => exact sim_convertBy ks _ ρ₃ v w true (hv.mono hle) (hks.mono hle)
      | false => exact .pure_of fun _ hρ => ⟨hxy.mono hρ, hobj⟩

/-- **Converting to a primitive.** -/
theorem sim_toPrimitive {v w : Value} (hint : Hint) (hv : Alike ρ v w) :
    Sim M ρ AlikePrimitives (toPrimitive E₁ v hint) (toPrimitive E₂ w hint) := by
  cases hv with
  | object ho =>
    refine Sim.names.bind fun ρ₁ hρ₁ n m hn => ?_
    obtain ⟨-, -, -, -, -, -, hvalue, hstring⟩ := CommonNames.alike_iff.mp hn
    have ho := ho.mono hρ₁
    cases hint with
    | string => exact sim_convertBy hE _ _ _ _ _ false (.object ho) (.cons hstring (.cons hvalue .nil))
    | default => exact sim_convertBy hE _ _ _ _ _ false (.object ho) (.cons hvalue (.cons hstring .nil))
    | number => exact sim_convertBy hE _ _ _ _ _ false (.object ho) (.cons hvalue (.cons hstring .nil))
  | undefined => exact .pure_of fun _ _ => ⟨.undefined, rfl⟩
  | null => exact .pure_of fun _ _ => ⟨.null, rfl⟩
  | bool b => exact .pure_of fun _ _ => ⟨.bool b, rfl⟩
  | number x => exact .pure_of fun _ _ => ⟨.number x, rfl⟩
  | string hs => exact .pure_of fun _ hρ => ⟨.string (hs.mono hρ), rfl⟩

omit hE in
theorem Heap.Alike.numberOf {h₁ h₂ : Heap} (hh : Heap.Alike M ρ h₁ h₂) {v w : Value}
    (hv : ScriptCore.Alike ρ v w) : ScriptCore.Alike ρ (h₁.numberOf v) (h₂.numberOf w) := by
  cases hv with
  | string hs =>
    obtain ⟨x, hx, hy⟩ := hh.text hs
    simp only [Heap.numberOf, hx, hy, ok_bind]
    exact .ok rfl
  | _ => exact .ok rfl

theorem sim_toNumber {v w : Value} (hv : Alike ρ v w) :
    Sim M ρ Alike (toNumber E₁ v) (toNumber E₂ w) := by
  cases hv with
  | object ho =>
    exact (sim_toPrimitive hE .number (.object ho)).bind fun ρ₁ hρ₁ p q hpq =>
      Sim.readHeap fun _ hρ _ _ hh => hh.numberOf (hpq.1.mono hρ)
  | undefined => exact Sim.readHeap fun _ _ _ _ hh => hh.numberOf .undefined
  | null => exact Sim.readHeap fun _ _ _ _ hh => hh.numberOf .null
  | bool b => exact Sim.readHeap fun _ _ _ _ hh => hh.numberOf (.bool b)
  | number x => exact Sim.readHeap fun _ _ _ _ hh => hh.numberOf (.number x)
  | string hs => exact Sim.readHeap fun _ hρ _ _ hh => hh.numberOf (.string (hs.mono hρ))

omit hE in
theorem Heap.sim_stringOf {v w : Value} (hv : AlikePrimitives ρ v w) :
    Sim M ρ ScriptCore.Alike (stringOf v) (stringOf w) := by
  obtain ⟨hv, hobj⟩ := hv
  cases hv with
  | undefined => exact sim_internString _
  | null => exact sim_internString _
  | bool b => cases b <;> exact sim_internString _
  | number x => exact sim_internString _
  | string hs => exact .pure hs
  | object ho => cases hobj

theorem sim_toStringRef {v w : Value} (hv : Alike ρ v w) :
    Sim M ρ Alike (toStringRef E₁ v) (toStringRef E₂ w) := by
  cases hv with
  | object ho =>
    exact (sim_toPrimitive hE .string (.object ho)).bind fun ρ₁ hρ₁ p q hpq =>
      (Heap.sim_stringOf hpq).onHeap
  | undefined => exact (Heap.sim_stringOf ⟨.undefined, rfl⟩).onHeap
  | null => exact (Heap.sim_stringOf ⟨.null, rfl⟩).onHeap
  | bool b => exact (Heap.sim_stringOf ⟨.bool b, rfl⟩).onHeap
  | number x => exact (Heap.sim_stringOf ⟨.number x, rfl⟩).onHeap
  | string hs => exact (Heap.sim_stringOf ⟨.string hs, rfl⟩).onHeap

theorem sim_toPropertyKey {v w : Value} (hv : Alike ρ v w) :
    Sim M ρ Alike (toPropertyKey E₁ v) (toPropertyKey E₂ w) := by
  have viaString : ∀ {v w : Value}, Alike ρ v w →
      Sim M ρ Alike (toStringRef E₁ v >>= fun s => Run.readHeap fun h => h.keyOfString s)
        (toStringRef E₂ w >>= fun s => Run.readHeap fun h => h.keyOfString s) := fun hv =>
    (sim_toStringRef hE hv).bind fun _ _ _ _ hs =>
      Sim.readHeap fun _ hρ _ _ hh => hh.keyOfString (hs.mono hρ)
  cases hv with
  | number x =>
    simp only [toPropertyKey]
    cases arrayIndexOfNumber? x with
    | some i => exact .pure (.index i)
    | none =>
      exact (Heap.sim_internString _).onHeap.bind fun _ _ _ _ hs =>
        Sim.readHeap fun _ hρ _ _ hh => hh.keyOfString (hs.mono hρ)
  | string hs => exact Sim.readHeap fun _ hρ _ _ hh => hh.keyOfString (hs.mono hρ)
  | undefined => exact viaString .undefined
  | null => exact viaString .null
  | bool b => exact viaString (.bool b)
  | object ho => exact viaString (.object ho)

end Conversions

/-! ### Plain objects and arrays -/

theorem sim_allocPlainObject : Sim M ρ Alike allocPlainObject allocPlainObject :=
  Sim.realm.bind fun _ _ _ _ hr =>
    (Heap.sim_allocObject .object (.some (Realm.alike_iff.mp hr).2.2.1) .ordinary).onHeap

theorem alike_lengthDescriptor (n : Nat) : Alike ρ (lengthDescriptor n) (lengthDescriptor n) :=
  Descriptor.alike_nonConfigurable (Descriptor.alike_hidden (.number _))

theorem sim_defineElements : ∀ (vs ws : List Value) (ρ : Renaming) (a b : ObjectRef) (i : Nat),
    Alike ρ a b → Alike ρ vs ws → Sim M ρ Alike (defineElements a i vs) (defineElements b i ws)
  | [], _, ρ, a, b, i, ha, hv => by cases hv; exact .pure rfl
  | v :: vs, _, ρ, a, b, i, ha, hv => by
    obtain _ | ⟨hvw, hvs⟩ := hv
    have hvs : Alike ρ vs _ := hvs
    exact (Heap.sim_define ha (.index _) (Descriptor.alike_data hvw)).discard.bind fun ρ₁ hρ₁ _ _ _ =>
      sim_defineElements vs _ ρ₁ a b (i + 1) (ha.mono hρ₁) (hvs.mono hρ₁)

theorem sim_allocArray {vs ws : List Value} (hv : Alike ρ vs ws) :
    Sim M ρ Alike (allocArray vs) (allocArray ws) := by
  refine Sim.realm.bind fun ρ₁ hρ₁ r s hr => ?_
  obtain ⟨-, -, -, -, harray, -, -, -, -, hn, -⟩ := Realm.alike_iff.mp hr
  refine (Heap.sim_allocObject .array (.some harray) .array).onHeap.bind fun ρ₂ hρ₂ a b ha => ?_
  rw [hv.length_eq]
  refine (Heap.sim_define ha ((CommonNames.alike_iff.mp hn).1.mono hρ₂)
    (alike_lengthDescriptor _)).onHeap.discard.bind fun ρ₃ hρ₃ _ _ _ => ?_
  have hle := (hρ₁.trans hρ₂).trans hρ₃
  exact (sim_defineElements _ _ _ _ _ 0 (ha.mono hρ₃) (hv.mono hle)).onHeap.bind
    fun ρ₄ hρ₄ _ _ _ => .pure ((ha.mono hρ₃).mono hρ₄)

theorem Heap.Alike.lengthOf {h₁ h₂ : Heap} (hh : Heap.Alike M ρ h₁ h₂) {n m : CommonNames}
    {a b : ObjectRef} (hn : ScriptCore.Alike ρ n m) (ha : ScriptCore.Alike ρ a b) :
    ScriptCore.Alike ρ (h₁.lengthOf n a) (h₂.lengthOf m b) := by
  refine alike_bind (hh.ownProperty ha (CommonNames.alike_iff.mp hn).1) fun d e hde => ?_
  cases hde with
  | none => exact .ok rfl
  | @some d e hde =>
    obtain ⟨hc, -⟩ := Descriptor.alike_iff.mp hde
    obtain ⟨_, _, _, c⟩ := d
    obtain ⟨_, _, _, c'⟩ := e
    cases hc with
    | data hv _ => cases hv <;> exact .ok rfl

theorem sim_arrayLength {a b : ObjectRef} (ha : Alike ρ a b) :
    Sim M ρ Alike (arrayLength a) (arrayLength b) :=
  Sim.names.bind fun _ hρ₁ _ _ hn =>
    Sim.readHeap fun _ hρ _ _ hh => hh.lengthOf (hn.mono hρ) (ha.mono (hρ₁.trans hρ))

theorem sim_writeLength {a b : ObjectRef} (n : UInt32) (ha : Alike ρ a b) :
    Sim M ρ Alike (writeLength a n) (writeLength b n) := by
  refine Sim.names.bind fun ρ₁ hρ₁ ns ms hn => ?_
  have ha := ha.mono hρ₁
  have hlen := (CommonNames.alike_iff.mp hn).1
  refine (Sim.readHeap fun _ hρ _ _ hh => hh.ownCell (ha.mono hρ) (hlen.mono hρ)).bind
    fun ρ₂ hρ₂ c d hcd => ?_
  cases hcd with
  | some hc => exact (Heap.sim_writeCell hc (.number _)).onHeap
  | none =>
    exact (Heap.sim_define (ha.mono hρ₂) (hlen.mono hρ₂) (alike_lengthDescriptor _)).onHeap.discard

theorem sim_noteIndex {a b : ObjectRef} (i : UInt32) (ha : Alike ρ a b) :
    Sim M ρ Alike (noteIndex a i) (noteIndex b i) := by
  refine (sim_arrayLength ha).bind fun ρ₁ hρ₁ n m hnm => ?_
  obtain rfl : n = m := hnm
  split
  · exact sim_writeLength _ (ha.mono hρ₁)
  · exact .pure rfl

theorem sim_noteKey {a b : ObjectRef} {k l : PropertyKey} (ha : Alike ρ a b) (hk : Alike ρ k l) :
    Sim M ρ Alike (noteKey a k) (noteKey b l) := by
  cases hk with
  | string _ => exact .pure rfl
  | index i =>
    refine (Sim.readHeap fun _ hρ _ _ hh => hh.isArray (ha.mono hρ)).bind fun ρ₁ hρ₁ x y hxy => ?_
    obtain rfl : x = y := hxy
    split
    · exact sim_noteIndex i (ha.mono hρ₁)
    · exact .pure rfl

theorem sim_setLength (hE : Engine.Sim M E₁ E₂) {a b : ObjectRef} {v w : Value} (ha : Alike ρ a b)
    (hv : Alike ρ v w) : Sim M ρ Alike (setLength E₁ a v) (setLength E₂ b w) := by
  refine (sim_toNumber hE hv).bind fun ρ₁ hρ₁ x y hxy => ?_
  obtain rfl : x = y := hxy
  cases Number.wholeBelow? UInt32.size x with
  | none =>
    refine (Sim.readHeap fun _ hρ _ _ hh => hh.describe (hv.mono (hρ₁.trans hρ))).bind
      fun ρ₂ hρ₂ s t hst => ?_
    obtain rfl : s = t := hst
    exact .fail (.same rfl nofun)
  | some n =>
    have hbeyond : ∀ (ρ' : Renaming) (k l : PropertyKey), Alike ρ' k l →
        (!k.isBeyond n.toUInt32) = !l.isBeyond n.toUInt32 := by
      intro ρ' k l hk
      cases hk <;> rfl
    exact (Heap.sim_retainKeys (ha.mono hρ₁) hbeyond).onHeap.bind fun ρ₂ hρ₂ _ _ _ =>
      sim_writeLength _ (ha.mono (hρ₁.trans hρ₂))

/-! ### Writing and deleting -/

theorem sim_refuseWrite {k l : PropertyKey} (strict : Bool) (hk : Alike ρ k l) :
    Sim M ρ Alike (refuseWrite k strict) (refuseWrite l strict) := by
  cases strict with
  | false => exact .pure rfl
  | true =>
    refine (Sim.readHeap fun _ hρ _ _ hh => hh.keyText (hk.mono hρ)).bind fun ρ₁ hρ₁ s t hst => ?_
    obtain rfl : s = t := hst
    exact .fail (.same rfl nofun)

theorem sim_createOwn {o p : ObjectRef} {k l : PropertyKey} {v w : Value} (strict : Bool)
    (ho : Alike ρ o p) (hk : Alike ρ k l) (hv : Alike ρ v w) :
    Sim M ρ Alike (createOwn o k v strict) (createOwn p l w strict) := by
  refine (Sim.readHeap fun _ hρ _ _ hh => hh.isExtensible (ho.mono hρ)).bind fun ρ₁ hρ₁ x y hxy => ?_
  obtain rfl : x = y := hxy
  have ho := ho.mono hρ₁
  have hk := hk.mono hρ₁
  cases x with
  | false => exact sim_refuseWrite strict hk
  | true =>
    refine (Heap.sim_define ho hk (Descriptor.alike_data (hv.mono hρ₁))).onHeap.discard.bind
      fun ρ₂ hρ₂ _ _ _ => ?_
    exact (sim_noteKey (ho.mono hρ₂) (hk.mono hρ₂)).bind fun _ _ _ _ _ => .pure rfl

theorem Heap.Alike.ownWritable {h₁ h₂ : Heap} (hh : Heap.Alike M ρ h₁ h₂) {o p : ObjectRef}
    {k l : PropertyKey} (ho : ScriptCore.Alike ρ o p) (hk : ScriptCore.Alike ρ k l) :
    ScriptCore.Alike ρ (h₁.ownWritable o k) (h₂.ownWritable p l) := by
  refine alike_bind (hh.ownProperty ho hk) fun d e hde => ?_
  cases hde with
  | none => exact .ok rfl
  | @some d e hde =>
    obtain ⟨hc, -⟩ := Descriptor.alike_iff.mp hde
    obtain ⟨_, _, _, c⟩ := d
    obtain ⟨_, _, _, c'⟩ := e
    cases hc with
    | data hv w => exact .ok rfl

theorem sim_setOrdinary {o p : ObjectRef} {k l : PropertyKey} {v w : Value} (strict : Bool)
    (ho : Alike ρ o p) (hk : Alike ρ k l) (hv : Alike ρ v w) :
    Sim M ρ Alike (setOrdinary E₁ o k v strict) (setOrdinary E₂ p l w strict) := by
  refine (Sim.readHeap fun _ hρ _ _ hh => hh.findProperty (ho.mono hρ) (hk.mono hρ)).bind
    fun ρ₁ hρ₁ x y hxy => ?_
  have ho := ho.mono hρ₁
  have hk := hk.mono hρ₁
  have hv := hv.mono hρ₁
  cases hxy with
  | none => exact sim_createOwn strict ho hk hv
  | @some x y hxy =>
    obtain ⟨holder, c⟩ := x
    obtain ⟨holder', c'⟩ := y
    obtain ⟨hholder, hc⟩ := hxy
    refine (Sim.readHeap fun _ hρ _ _ hh => hh.cell? (hc.mono hρ)).bind fun ρ₂ hρ₂ d e hde => ?_
    have ho := ho.mono hρ₂
    have hk := hk.mono hρ₂
    have hv := hv.mono hρ₂
    obtain ⟨hcont, -⟩ := Descriptor.alike_iff.mp hde
    obtain ⟨_, _, _, content⟩ := d
    obtain ⟨_, _, _, content'⟩ := e
    cases hcont with
    | data hx writable =>
      cases writable with
      | false => exact sim_refuseWrite strict hk
      | true =>
        have write : Sim M ρ₂ Alike (do Heap.writeCell c v; return true : Run Bool)
            (do Heap.writeCell c' w; return true) :=
          (Heap.sim_writeCell (hc.mono hρ₂) hv).onHeap.bind fun _ _ _ _ _ => .pure rfl
        refine Sim.assume (P := holder = o ↔ holder' = p) (fun ρ' hρ _ _ hh =>
          hh.object_eq_iff ((hholder.mono hρ₂).mono hρ) (ho.mono hρ)) fun heq => ?_
        by_cases hown : holder = o
        · simp only [if_pos hown, if_pos (heq.mp hown)]
          exact write
        · simp only [if_neg hown, if_neg fun h => hown (heq.mpr h)]
          exact sim_createOwn strict ho hk hv

/-- **Writing a property of an object.** -/
theorem sim_setProperty (hE : Engine.Sim M E₁ E₂) {o p : ObjectRef} {k l : PropertyKey} {v w : Value}
    (strict : Bool) (ho : Alike ρ o p) (hk : Alike ρ k l) (hv : Alike ρ v w) :
    Sim M ρ Alike (setProperty E₁ o k v strict) (setProperty E₂ p l w strict) := by
  refine Sim.names.bind fun ρ₁ hρ₁ n m hn => ?_
  have hlen := (CommonNames.alike_iff.mp hn).1
  refine (Sim.readHeap fun _ hρ _ _ hh => hh.isArray (ho.mono (hρ₁.trans hρ))).bind
    fun ρ₂ hρ₂ x y hxy => ?_
  obtain rfl : x = y := hxy
  have hle := hρ₁.trans hρ₂
  have ho := ho.mono hle
  have hk := hk.mono hle
  have hv := hv.mono hle
  refine Sim.assume (P := k = n.length ↔ l = m.length) (fun ρ' hρ _ _ hh =>
    hh.key_eq_iff (hk.mono hρ) ((hlen.mono hρ₂).mono hρ)) fun heq => ?_
  have hcond : decide (k = n.length) = decide (l = m.length) := decide_eq_decide.mpr heq
  rw [hcond]
  split
  · refine (Sim.readHeap fun _ hρ _ _ hh => hh.ownWritable (ho.mono hρ) (hk.mono hρ)).bind
      fun ρ₃ hρ₃ x y hxy => ?_
    obtain rfl : x = y := hxy
    cases x with
    | false => exact sim_refuseWrite strict (hk.mono hρ₃)
    | true =>
      exact (sim_setLength hE (ho.mono hρ₃) (hv.mono hρ₃)).bind fun _ _ _ _ _ => .pure rfl
  · exact sim_setOrdinary strict ho hk hv

theorem sim_setMember (hE : Engine.Sim M E₁ E₂) {a b : Value} {k l : PropertyKey} {v w : Value}
    (strict : Bool) (ha : Alike ρ a b) (hk : Alike ρ k l) (hv : Alike ρ v w) :
    Sim M ρ Alike (setMember E₁ a k v strict) (setMember E₂ b l w strict) := by
  cases ha with
  | object ho => exact sim_setProperty hE strict ho hk hv
  | undefined => exact sim_refuseBase "set" .undefined hk
  | null => exact sim_refuseBase "set" .null hk
  | bool b => exact sim_refuseWrite strict hk
  | number x => exact sim_refuseWrite strict hk
  | string s => exact sim_refuseWrite strict hk

theorem sim_deleteProperty {o p : ObjectRef} {k l : PropertyKey} (strict : Bool) (ho : Alike ρ o p)
    (hk : Alike ρ k l) : Sim M ρ Alike (deleteProperty o k strict) (deleteProperty p l strict) := by
  refine (Sim.readHeap fun _ hρ _ _ hh => hh.ownProperty (ho.mono hρ) (hk.mono hρ)).bind
    fun ρ₁ hρ₁ d e hde => ?_
  cases hde with
  | none => exact .pure rfl
  | some hde =>
    obtain ⟨-, -, hconf, hvar⟩ := Descriptor.alike_iff.mp hde
    simp only [hconf, hvar]
    split
    · exact sim_refuseWrite strict (hk.mono hρ₁)
    · exact (Heap.sim_remove (ho.mono hρ₁) (hk.mono hρ₁)).onHeap.discard.bind fun _ _ _ _ _ => .pure rfl

end ScriptCore
