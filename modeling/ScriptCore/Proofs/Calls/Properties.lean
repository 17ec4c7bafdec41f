import ScriptCore.Operator
import ScriptCore.Proofs.Calls.Making

/-! # Reading, converting and writing work by acts

The operations on values, one after the other. Where one of them runs code, the code is run by an engine that is
`Fair`: what it runs works, too, and delivers what names no private object.

* `Engine.Fair`: what is asked of the engine.
* `works_getProperty`, `works_setProperty`, `works_applyBinary` and so on: **the operations on values.** -/

namespace ScriptCore

variable {S : Setting} {own : Handle → Prop} {w w' : World} {E : Engine} {o : ObjectRef} {obj : Object}
  {key : PropertyKey} {c : CellRef} {d : Descriptor} {v receiver : Value} {s : ScopeRef} {name : String}
  {strict : Bool}

/-- The value names no private object. -/
abbrev World.Shows (S : Setting) (w : World) (v : Value) : Prop := v.Public S.realm w.heap

/-- **Code that the engine runs works**, and delivers what names no private object. -/
structure Engine.Fair (S : Setting) (E : Engine) : Prop where
  evaluate : ∀ {own : Handle → Prop} {w : World} (e : Expr) {s : ScopeRef} {o : ObjectRef}, w.heap.Binds s o →
    Works S own w (E.evaluate (.expression e s)) fun w' c => c.Public S.realm w'.heap
  call : ∀ {own : Handle → Prop} {w : World} {f receiver : Value} {args : List Value}, w.Shows S f →
    w.Shows S receiver → (∀ v ∈ args, w.Shows S v) → Works S own w (E.call f receiver args) (World.Shows S)

/-- Something is delivered. -/
abbrev World.Anything {α : Type} (_ : World) (_ : α) : Prop := True

theorem Works.weaken {α : Type} {p : Run α} {Q : World → α → Prop} (hp : Works S own w p Q) :
    Works S own w p World.Anything := hp.imp fun _ _ _ _ _ => trivial

/-! ### Reading -/

theorem Heap.public_baseError {h : Heap} {R : Realm} {what : String} {base : Value} {e : Error}
    (he : h.baseError what base key = .ok e) : e.Public R h :=
  fun u hu => absurd hu (Heap.baseError_ne_throw he u)

theorem works_refuseBase {α : Type} {Q : World → α → Prop} (what : String) (base : Value) (key : PropertyKey) :
    Works S own w (refuseBase what base key) Q :=
  .read (Heap.mild_baseError what base key) fun _ he => .fail (Heap.public_baseError he)

theorem works_readDescriptor (hE : E.Fair S) (hd : d.Public S.realm w.heap) (hreceiver : w.Shows S receiver) :
    Works S own w (readDescriptor E d receiver) (World.Shows S) := by
  unfold readDescriptor
  unfold Descriptor.Public at hd
  cases hcontent : d.content with
  | data v _ =>
    rw [hcontent] at hd
    exact .pure hd
  | accessor getter _ =>
    rw [hcontent] at hd
    exact .read (Heap.mild_isCallable getter) fun _ _ =>
      .ite (fun _ => hE.call hd.1 hreceiver (by simp)) fun _ => .pure trivial

theorem works_getProperty (hE : E.Fair S) {base : Value} (hbase : w.Shows S base) :
    Works S own w (getProperty E base key) (World.Shows S) := by
  refine .lawful fun hw => .realm_bind (.read (Heap.mild_lookup S.realm base key) fun found hfound => ?_)
  cases found with
  | refused => exact works_refuseBase _ base key
  | found v => exact .pure (Heap.Tidy.found hfound)
  | unit u => exact works_intern.bind fun _ _ _ _ _ => .pure trivial
  | missing => exact .pure trivial
  | chain o =>
    refine .read (Heap.mild_property o key) fun found hfound => ?_
    cases found with
    | none => exact .pure trivial
    | some d => exact works_readDescriptor hE (hw.heap.property hfound) hbase

theorem works_hasProperty (base : Value) (key : PropertyKey) :
    Works S own w (hasProperty base key) World.Anything := by
  refine .realm_bind (.read (Heap.mild_hasOn S.realm base key) fun found _ => ?_)
  cases found with
  | none => exact works_refuseBase _ base key
  | some b => exact .pure trivial

/-! ### Converting -/

theorem public_typeCoercion {h : Heap} {R : Realm} (what : String) : (Error.typeCoercion what).Public R h :=
  fun _ hu => by cases hu

theorem works_convertBy (hE : E.Fair S) : ∀ (keys : List PropertyKey) (tried : Bool) {w : World},
    w.Shows S v → Works S own w (convertBy E v keys tried) (World.Shows S)
  | [], tried, w, _ => by
    refine .read (Heap.mild_describe v) fun text _ => .ite (fun _ => .fail (public_typeCoercion _)) fun _ => ?_
    exact works_intern.bind fun _ _ _ _ _ => .pure trivial
  | key :: keys, tried, w, hv => by
    refine (works_getProperty hE hv).bind fun w₁ method _ hacts hmethod => ?_
    refine .read (Heap.mild_isCallable method) fun callable _ => .ite (fun _ => ?_) fun _ => ?_
    · refine (hE.call hmethod (hacts.value hv) (by simp)).bind fun w₂ result _ hacts₂ hresult => ?_
      exact .ite (fun _ => works_convertBy hE keys true (hacts₂.value (hacts.value hv))) fun _ => .pure hresult
    · exact works_convertBy hE keys tried (hacts.value hv)

theorem works_toPrimitive (hE : E.Fair S) (hint : Hint) (hv : w.Shows S v) :
    Works S own w (toPrimitive E v hint) (World.Shows S) := by
  cases v with
  | object o => exact .names_bind (works_convertBy hE _ false hv)
  | _ => exact .pure trivial

theorem works_toNumber (hE : E.Fair S) (hv : w.Shows S v) : Works S own w (toNumber E v) World.Anything := by
  have hprimitive : Works S own w (Run.readHeap fun h => h.numberOf v) World.Anything :=
    .reads (Heap.mild_numberOf v) fun _ _ => trivial
  cases v with
  | object o =>
    exact (works_toPrimitive hE _ hv).bind fun _ p _ _ _ => .reads (Heap.mild_numberOf p) fun _ _ => trivial
  | _ => exact hprimitive

theorem works_stringOf (v : Value) : Works S own w (Run.onHeap (Heap.stringOf v)) World.Anything := by
  cases v with
  | string s => exact .pure trivial
  | object o => exact .fail fun _ hu => by cases hu
  | bool b => cases b <;> exact works_intern.weaken
  | _ => exact works_intern.weaken

theorem works_toStringRef (hE : E.Fair S) (hv : w.Shows S v) :
    Works S own w (toStringRef E v) World.Anything := by
  have hprimitive : Works S own w (Run.onHeap (Heap.stringOf v)) World.Anything := works_stringOf v
  cases v with
  | object o => exact (works_toPrimitive hE _ hv).bind fun _ p _ _ _ => works_stringOf p
  | _ => exact hprimitive

theorem works_keyOfString (r : StringRef) :
    Works S own w (Run.readHeap fun h => h.keyOfString r) fun w' key => w'.heap.Keyed key :=
  .reads (Heap.mild_keyOfString r) fun _ hkey => Heap.keyed_of_keyOfString hkey

theorem works_toPropertyKey (hE : E.Fair S) (hv : w.Shows S v) :
    Works S own w (toPropertyKey E v) fun w' key => w'.heap.Keyed key := by
  have hconvert : Works S own w (do
      let r ← toStringRef E v
      Run.readHeap fun h => h.keyOfString r) fun w' key => w'.heap.Keyed key :=
    (works_toStringRef hE hv).bind fun _ r _ _ _ => works_keyOfString r
  cases v with
  | number x =>
    unfold toPropertyKey
    dsimp only
    cases arrayIndexOfNumber? x with
    | some i => exact .pure (Heap.keyed_index i)
    | none => exact works_intern.bind fun _ r _ _ _ => works_keyOfString r
  | string r => exact works_keyOfString r
  | _ => exact hconvert

/-! ### Objects and arrays -/

/-- An object on which nothing depends, in a world with the same calls. -/
theorem World.Unguarded.next (ho : w.Unguarded S o) (hacts : Acts S own w w') (hcalls : w'.calls = w.calls) :
    w'.Unguarded S o := ⟨ho.global, hacts.shown ho.shown, hcalls ▸ ho.arguments⟩

/-- A property of an object on which nothing depends. -/
theorem works_furnish (ho : w.Unguarded S o) (hd : d.Public S.realm w.heap) (hdata : d.isAccessor = false)
    (hkey : w.heap.Keyed key) :
    Works S own w (Run.onHeap (Heap.define o key d)) fun w' _ => w'.Unguarded S o ∧ w'.calls = w.calls :=
  (works_define hd hdata hkey fun _ => .unguarded ho).imp fun _ _ _ hacts ⟨_, hrebinds, _⟩ =>
    ⟨ho.next hacts hrebinds.calls, hrebinds.calls⟩

theorem public_lengthDescriptor {h : Heap} {R : Realm} (n : Nat) : (lengthDescriptor n).Public R h := trivial

theorem works_allocPlainObject : Works S own w allocPlainObject fun w' o => w'.Unguarded S o ∧ w.Extends w' :=
  .realm_bind ((works_allocPublic (show ObjectKind.ordinary.Public S.realm w.heap from trivial)).imp fun _ _ _ _ ⟨ho, _, _, hext⟩ => ⟨ho, hext⟩)

theorem works_defineElements : ∀ (i : Nat) (values : List Value) {w : World}, w.Unguarded S o →
    (∀ v ∈ values, w.Shows S v) → Works S own w (Run.onHeap (defineElements o i values)) World.Anything
  | _, [], _, _, _ => .pure trivial
  | i, v :: values, w, ho, hvalues => by
    unfold defineElements
    rw [Proc.discard_bind, Run.onHeap_bind]
    have hv : (Descriptor.data v).Public S.realm w.heap := hvalues v (List.mem_cons_self ..)
    exact (works_furnish ho hv rfl (Heap.keyed_index _)).bind fun w₁ _ _ hacts hfurnished =>
      works_defineElements (i + 1) values hfurnished.1 fun u hu => hacts.value (hvalues u (List.mem_cons_of_mem _ hu))

theorem works_allocArray {values : List Value} (hvalues : ∀ v ∈ values, w.Shows S v) :
    Works S own w (allocArray values) fun w' o => w'.heap.Public S.realm o := by
  refine .lawful fun hw => .realm_bind ?_
  refine (works_allocPublic (show ObjectKind.array.Public S.realm w.heap from trivial)).bind fun w₁ o hw₁ hacts ⟨ho, _⟩ => ?_
  rw [Proc.discard_bind]
  refine (works_furnish ho (public_lengthDescriptor _) rfl (hw₁.realm.names _ (List.mem_cons_self ..))).bind
    fun w₂ _ _ hacts₂ ⟨ho₂, _⟩ => ?_
  refine (works_defineElements 0 values ho₂ fun v hv => (hacts₂.value (hacts.value (hvalues v hv)))).bind
    fun w₃ _ _ hacts₃ _ => .pure (hacts₃.shown ho₂.shown)

/-- No scope binds names in an array. -/
theorem World.Lawful.ne_global_of_array (hw : w.Lawful S) (ho : w.heap.object o = .ok obj)
    (hkind : obj.kind = .array) : o ≠ S.realm.globalObject := by
  rintro rfl
  rw [hw.realm.ordinary obj ho] at hkind
  cases hkind

theorem Acts.array (hacts : Acts S own w w') (ho : w.heap.object o = .ok obj) (hkind : obj.kind = .array) :
    ∃ obj', w'.heap.object o = .ok obj' ∧ obj'.kind = .array := by
  obtain ⟨obj', ho', hkind', -⟩ := hacts.stays.objects o obj trivial ho
  exact ⟨obj', ho', hkind'.trans hkind⟩

/-- The length of an array is written without a look at its attributes. -/
theorem works_writeLength (ho : w.heap.object o = .ok obj) (hkind : obj.kind = .array) (n : UInt32) :
    Works S own w (writeLength o n) World.Anything := by
  refine .lawful fun hw => .names_bind (.read (Heap.mild_ownCell o _) fun found hfound => ?_)
  have hne := hw.ne_global_of_array ho hkind
  cases found with
  | some c =>
    refine works_writeCell trivial fun _ d _ => .inr fun key hr => ?_
    exact absurd (hw.global_unshared hr hfound).1 hne
  | none =>
    refine .discard (works_define (public_lengthDescriptor _) rfl (hw.realm.names _ (List.mem_cons_self ..)) fun _ => ?_).weaken
    exact .absent (Heap.not_refers_of_ownCell hfound) fun hglobal => absurd hglobal hne

theorem works_noteKey (o : ObjectRef) (key : PropertyKey) : Works S own w (noteKey o key) World.Anything := by
  cases key with
  | string r => exact .pure trivial
  | index i =>
    refine .read (Heap.mild_isArray o) fun isArray hisArray => .ite (fun harray => ?_) fun _ => .pure trivial
    subst harray
    obtain ⟨obj, ho, hkind⟩ := Heap.isArray_eq_true hisArray
    have hlength : Works S own w (arrayLength o) fun w' _ => w' = w :=
      .names_bind (.reads (Heap.mild_lengthOf _ o) fun _ _ => rfl)
    refine hlength.bind fun w₁ n _ _ hsame => .ite (fun _ => ?_) fun _ => .pure trivial
    subst hsame
    exact works_writeLength ho hkind _

theorem works_setLength (hE : E.Fair S) (ho : w.heap.object o = .ok obj) (hkind : obj.kind = .array)
    (hv : w.Shows S v) : Works S own w (setLength E o v) World.Anything := by
  refine (works_toNumber hE hv).bind fun w₁ x _ hacts _ => ?_
  obtain ⟨obj₁, ho₁, hkind₁⟩ := hacts.array ho hkind
  cases Number.wholeBelow? UInt32.size x with
  | none => exact .read (Heap.mild_describe v) fun text _ => .fail fun _ hu => by cases hu
  | some n =>
    refine (works_retainKeys ho₁ hkind₁ _).bind fun w₂ _ _ hacts₂ _ => ?_
    obtain ⟨obj₂, ho₂, hkind₂⟩ := hacts₂.array ho₁ hkind₁
    exact works_writeLength ho₂ hkind₂ _

/-! ### Writing -/

theorem works_refuseWrite (key : PropertyKey) (strict : Bool) :
    Works S own w (refuseWrite key strict) World.Anything :=
  .ite (fun _ => .read (Heap.mild_keyText key) fun _ _ => .fail fun _ hu => by cases hu) fun _ => .pure trivial

theorem works_createOwn (hkey : w.heap.Keyed key) (hnew : ∀ c, ¬ w.heap.Refers o key c) (hv : w.Shows S v) :
    Works S own w (createOwn o key v strict) World.Anything := by
  refine .read (Heap.mild_isExtensible o) fun _ _ => .ite (fun _ => ?_) fun _ => works_refuseWrite key strict
  have hd : (Descriptor.data v).Public S.realm w.heap := hv
  rw [Proc.discard_bind]
  exact (works_define hd rfl hkey fun _ => .absent hnew fun _ => rfl).bind fun _ _ _ _ _ =>
    (works_noteKey o key).bind fun _ _ _ _ _ => .pure trivial

/-- An object whose properties are written: values name it, or it is that of a scope and has the key. -/
def World.Writable (S : Setting) (w : World) (o : ObjectRef) (key : PropertyKey) : Prop :=
  w.heap.Public S.realm o ∨ w.heap.Private S.realm o ∧ ∃ c, w.heap.Refers o key c

theorem works_setOrdinary (hE : E.Fair S) (hkey : w.heap.Keyed key) (ho : w.Writable S o key)
    (hv : w.Shows S v) : Works S own w (setOrdinary E o key v strict) World.Anything := by
  refine .lawful fun hw => .read (Heap.mild_findProperty o key) fun found hfound => ?_
  cases found with
  | none =>
    have hnew := Heap.not_refers_of_findProperty hfound (by simp)
    exact works_createOwn hkey hnew hv
  | some place =>
    obtain ⟨holder, c⟩ := place
    have hholder := Heap.refers_of_findProperty hfound
    refine .read (Heap.mild_cell c) fun d hc => ?_
    have hd := hw.heap.values c d hc
    unfold Descriptor.Public at hd
    cases hcontent : d.content with
    | data u writable =>
      cases writable with
      | false => exact works_refuseWrite key strict
      | true =>
        refine .ite (fun _ => ?_) fun hother => ?_
        · refine (works_writeCell hv fun _ d' hc' => .inl ?_).bind fun _ _ _ _ _ => .pure trivial
          cases hc.symm.trans hc'
          unfold Descriptor.isWritable
          rw [hcontent]
        · refine works_createOwn hkey (Heap.not_refers_of_findProperty hfound ?_) hv
          rintro holder' c' ⟨⟩
          exact hother
    | accessor getter setter =>
      rw [hcontent] at hd
      refine .read (Heap.mild_isCallable setter) fun _ _ => .ite (fun _ => ?_) fun _ => works_refuseWrite key strict
      -- the objects of scopes other than the global one hold no accessors
      have hshown : w.heap.Public S.realm o := by
        refine ho.resolve_right fun ⟨hprivate, c', hr⟩ => ?_
        have hown : holder = o := by
          by_contra hother
          exact Heap.not_refers_of_findProperty hfound (by rintro _ _ ⟨⟩; exact hother) c' hr
        subst hown
        have hdata := hw.heap.data holder key c d hprivate hholder hc
        unfold Descriptor.isAccessor at hdata
        rw [hcontent] at hdata
        cases hdata
      rw [Proc.discard_bind]
      have hargs : ∀ u ∈ [v], w.Shows S u := fun u hu => List.mem_singleton.mp hu ▸ hv
      exact (hE.call hd.2 (show w.Shows S (.object o) from hshown) hargs).bind fun _ _ _ _ _ => .pure trivial

theorem works_setProperty (hE : E.Fair S) (hkey : w.heap.Keyed key) (ho : w.Writable S o key)
    (hv : w.Shows S v) : Works S own w (setProperty E o key v strict) World.Anything := by
  refine .names_bind (.read (Heap.mild_isArray o) fun isArray hisArray => .ite (fun hlength => ?_) fun _ => ?_)
  · obtain ⟨obj, hobj, hkind⟩ := Heap.isArray_eq_ok.mp hisArray
    have harray : obj.kind = .array := hkind.mp (by simpa using (Bool.and_eq_true .. ▸ hlength).1)
    refine .read (Heap.mild_ownWritable o key) fun _ _ => .ite (fun _ => ?_) fun _ => works_refuseWrite key strict
    exact (works_setLength hE hobj harray hv).bind fun _ _ _ _ _ => .pure trivial
  · exact works_setOrdinary hE hkey ho hv

theorem works_setMember (hE : E.Fair S) {base : Value} (hbase : w.Shows S base) (hkey : w.heap.Keyed key)
    (hv : w.Shows S v) : Works S own w (setMember E base key v strict) World.Anything := by
  cases base with
  | object o => exact works_setProperty hE hkey (.inl hbase) hv
  | undefined => exact works_refuseBase _ _ key
  | null => exact works_refuseBase _ _ key
  | _ => exact works_refuseWrite key strict

theorem works_deleteProperty (ho : w.heap.Public S.realm o) :
    Works S own w (deleteProperty o key strict) World.Anything := by
  refine .read (Heap.mild_ownProperty o key) fun found hfound => ?_
  cases found with
  | none => exact .pure trivial
  | some d =>
    refine .ite (fun _ => works_refuseWrite key strict) fun hdeletable => ?_
    have hconfigurable : d.configurable = true := by
      cases hd : d.configurable with
      | true => rfl
      | false => exact absurd (by simp [hd]) hdeletable
    rw [Proc.discard_bind]
    exact (works_remove ho hfound hconfigurable).bind fun _ _ _ _ _ => .pure trivial

/-! ### Operators -/

theorem works_looseRounds (hE : E.Fair S) : ∀ (rounds : Nat) (a b : Value) {w : World}, w.Shows S a →
    w.Shows S b → Works S own w (looseRounds E rounds a b) World.Anything
  | 0, _, _, _, _, _ => .pure trivial
  | rounds + 1, a, b, w, ha, hb => by
    have left : ∀ u t, w.Shows S u → w.Shows S t → Works S own w (do
        looseRounds E rounds (.number (← toNumber E u)) t) World.Anything :=
      fun u t hu ht => (works_toNumber hE hu).bind fun _ x _ hacts _ =>
        works_looseRounds hE rounds _ t trivial (hacts.value ht)
    have right : ∀ u t, w.Shows S u → w.Shows S t → Works S own w (do
        looseRounds E rounds u (.number (← toNumber E t))) World.Anything :=
      fun u t hu ht => (works_toNumber hE ht).bind fun _ x _ hacts _ =>
        works_looseRounds hE rounds u _ (hacts.value hu) trivial
    cases a with
    | undefined =>
      cases b with
      | bool y => exact right _ _ ha hb
      | _ => exact .pure trivial
    | null =>
      cases b with
      | bool y => exact right _ _ ha hb
      | _ => exact .pure trivial
    | bool x =>
      cases b with
      | bool y => exact .pure trivial
      | _ => exact left _ _ ha hb
    | number x =>
      cases b with
      | bool y => exact right _ _ ha hb
      | string t => exact right _ _ ha hb
      | object p =>
        exact (works_toPrimitive hE _ hb).bind fun _ v _ hacts hv =>
          works_looseRounds hE rounds _ v (hacts.value ha) hv
      | _ => exact .pure trivial
    | string r =>
      cases b with
      | bool y => exact right _ _ ha hb
      | number y => exact left _ _ ha hb
      | object p =>
        refine (works_toPrimitive hE _ hb).bind fun _ v _ hacts hv => ?_
        cases v with
        | string t => exact .pure trivial
        | _ => exact works_looseRounds hE rounds _ _ (hacts.value ha) hv
      | _ => exact .pure trivial
    | object p =>
      cases b with
      | bool y => exact right _ _ ha hb
      | number y =>
        exact (works_toPrimitive hE _ ha).bind fun _ v _ hacts hv =>
          works_looseRounds hE rounds v _ hv (hacts.value hb)
      | string t =>
        refine (works_toPrimitive hE _ ha).bind fun _ v _ hacts hv => ?_
        cases v with
        | string t => exact .pure trivial
        | _ => exact works_looseRounds hE rounds _ _ hv (hacts.value hb)
      | _ => exact .pure trivial

theorem works_concat (a b : StringRef) : Works S own w (concat a b) World.Anything :=
  .read (Heap.mild_text a) fun _ _ => .read (Heap.mild_text b) fun _ _ => works_intern.weaken

theorem works_addValues (hE : E.Fair S) {a b : Value} (ha : w.Shows S a) (hb : w.Shows S b) :
    Works S own w (addValues E a b) (World.Shows S) := by
  refine (works_toPrimitive hE _ ha).bind fun w₁ a _ hacts₁ ha => ?_
  refine (works_toPrimitive hE _ (hacts₁.value hb)).bind fun w₂ b _ hacts₂ hb => ?_
  have ha := hacts₂.value ha
  have text : ∀ r v, w₂.Shows S v → Works S own w₂ (do return Value.string (← stringAdd E r v)) (World.Shows S) := by
    intro r v hv
    have hadd : Works S own w₂ (stringAdd E r v) World.Anything :=
      (works_toPrimitive hE _ hv).bind fun _ p _ _ hp => (works_toStringRef hE hp).bind fun _ t _ _ _ =>
        works_concat r t
    exact hadd.bind fun _ _ _ _ _ => .pure trivial
  have before : ∀ v r, w₂.Shows S v → Works S own w₂ (do
      let t ← toStringRef E v; return Value.string (← concat t r)) (World.Shows S) :=
    fun v r hv => (works_toStringRef hE hv).bind fun _ t _ _ _ => (works_concat t r).bind fun _ _ _ _ _ =>
      .pure trivial
  have sum : ∀ u v, w₂.Shows S u → w₂.Shows S v → Works S own w₂ (do
      let x ← toNumber E u; let y ← toNumber E v; return Value.number (x + y)) (World.Shows S) :=
    fun u v hu hv => (works_toNumber hE hu).bind fun _ x _ hacts _ =>
      (works_toNumber hE (hacts.value hv)).bind fun _ y _ _ _ => .pure trivial
  cases a with
  | string r => exact text r b hb
  | _ =>
    cases b with
    | string r => exact before _ r ha
    | _ => exact sum _ _ ha hb

theorem works_lessThan (hE : E.Fair S) {a b : Value} (ha : w.Shows S a) (hb : w.Shows S b) :
    Works S own w (lessThan E a b) World.Anything := by
  refine (works_toPrimitive hE _ ha).bind fun w₁ a _ hacts₁ ha => ?_
  refine (works_toPrimitive hE _ (hacts₁.value hb)).bind fun w₂ b _ hacts₂ hb => ?_
  have ha := hacts₂.value ha
  have numbers : ∀ u v, w₂.Shows S u → w₂.Shows S v → Works S own w₂ (do
      let x ← toNumber E u
      let y ← toNumber E v
      if x.isNaN || y.isNaN then return none else return some (decide (x < y))) World.Anything :=
    fun u v hu hv => (works_toNumber hE hu).bind fun _ x _ hacts _ =>
      (works_toNumber hE (hacts.value hv)).bind fun _ y _ _ _ => .ite (fun _ => .pure trivial) fun _ => .pure trivial
  cases a with
  | string r =>
    cases b with
    | string t => exact .read (Heap.mild_text r) fun _ _ => .read (Heap.mild_text t) fun _ _ => .pure trivial
    | _ => exact numbers _ _ ha hb
  | _ => exact numbers _ _ ha hb

theorem works_arithmetic (hE : E.Fair S) (f : Float → Float → Float) {a b : Value} (ha : w.Shows S a)
    (hb : w.Shows S b) : Works S own w (arithmetic E f a b) (World.Shows S) :=
  (works_toNumber hE ha).bind fun _ _ _ hacts _ => (works_toNumber hE (hacts.value hb)).bind fun _ _ _ _ _ =>
    .pure trivial

theorem works_applyBinary (hE : E.Fair S) (op : BinaryOp) {a b : Value} (ha : w.Shows S a) (hb : w.Shows S b) :
    Works S own w (applyBinary E op a b) (World.Shows S) := by
  have less : ∀ {a b : Value} (f : Option Bool → Bool), w.Shows S a → w.Shows S b →
      Works S own w (do return Value.bool (f (← lessThan E a b))) (World.Shows S) :=
    fun f ha hb => (works_lessThan hE ha hb).bind fun _ _ _ _ _ => .pure trivial
  cases op with
  | add => exact works_addValues hE ha hb
  | sub => exact works_arithmetic hE _ ha hb
  | mul => exact works_arithmetic hE _ ha hb
  | div => exact works_arithmetic hE _ ha hb
  | rem => exact works_arithmetic hE _ ha hb
  | looseEq => exact (works_looseRounds hE 4 a b ha hb).bind fun _ _ _ _ _ => .pure trivial
  | looseNotEq => exact (works_looseRounds hE 4 a b ha hb).bind fun _ _ _ _ _ => .pure trivial
  | strictEq => exact .pure trivial
  | strictNotEq => exact .pure trivial
  | lt => exact less (· == some true) ha hb
  | gt => exact less (· == some true) hb ha
  | ltEq => exact less (· == some false) hb ha
  | gtEq => exact less (· == some false) ha hb
  | isIn =>
    exact (works_toPropertyKey hE ha).bind fun _ key _ _ _ => .ite
      (fun _ => (works_hasProperty b key).bind fun _ _ _ _ _ => .pure trivial)
      fun _ => .read (Heap.mild_describe b) fun _ _ => .fail fun _ hu => by cases hu

end ScriptCore
