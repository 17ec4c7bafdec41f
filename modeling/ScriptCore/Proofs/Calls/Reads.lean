import ScriptCore.Proofs.Calls.Works
import ScriptCore.Proofs.Object.Frozen

/-! # What running code reads

A reader of the heap fails with an error of its own or delivers something; it never fails with a value that the
program threw. What it delivers from a tidy heap names no private object.

* `mild_property` and so on: no reader throws.
* `Tidy.property`, `Tidy.lookup`: the properties that are found are public.
* `Tidy.binding`, `Tidy.outermost`: which objects the scopes of a chain bind names in. -/

namespace ScriptCore

variable {h : Heap} {R : Realm} {o : ObjectRef} {obj : Object} {key : PropertyKey} {c : CellRef}
  {d : Descriptor} {v : Value} {s : ScopeRef} {sc : Scope}

namespace Heap

/-! ### No reader throws -/

theorem mild_ownCell (o : ObjectRef) (key : PropertyKey) : Mild (h.ownCell o key) :=
  (mild_object o).bind fun _ => .ok _

theorem mild_ownProperty (o : ObjectRef) (key : PropertyKey) : Mild (h.ownProperty o key) := by
  refine (mild_ownCell o key).bind fun found => ?_
  cases found with
  | none => exact .ok _
  | some c => exact (mild_cell c).bind fun _ => .ok _

theorem mild_isArray (o : ObjectRef) : Mild (h.isArray o) :=
  (mild_object o).bind fun obj => by cases obj.kind <;> exact .ok _

theorem mild_isExtensible (o : ObjectRef) : Mild (h.isExtensible o) := (mild_object o).bind fun _ => .ok _

theorem mild_ownWritable (o : ObjectRef) (key : PropertyKey) : Mild (h.ownWritable o key) :=
  (mild_ownProperty o key).bind fun found => by cases found <;> exact .ok _

theorem mild_lengthOf (names : CommonNames) (a : ObjectRef) : Mild (h.lengthOf names a) := by
  refine (mild_ownProperty a names.length).bind fun found => ?_
  cases found with
  | none => exact .ok _
  | some d =>
    dsimp only
    split <;> exact .ok _

theorem mild_findWithin (key : PropertyKey) : ∀ (bound : Nat) (o : Option ObjectRef),
    Mild (h.findWithin key bound o)
  | bound, none => by
    unfold findWithin
    exact .ok _
  | 0, some o => by
    unfold findWithin
    exact .error fun _ hv => by cases hv
  | bound + 1, some o => by
    unfold findWithin
    cases ho : h.object o with
    | error e => exact (mild_object o).of_error ho
    | ok obj =>
      dsimp only
      cases obj.properties.find? key with
      | some c => exact .ok _
      | none => exact mild_findWithin key bound _

theorem mild_findProperty (o : ObjectRef) (key : PropertyKey) : Mild (h.findProperty o key) :=
  mild_findWithin key _ _

theorem mild_property (o : ObjectRef) (key : PropertyKey) : Mild (h.property o key) := by
  refine (mild_findProperty o key).bind fun found => ?_
  cases found with
  | none => exact .ok _
  | some found => exact (mild_cell found.2).bind fun _ => .ok _

theorem mild_isCallable (v : Value) : Mild (h.isCallable v) := by
  cases v with
  | object o => exact (mild_object o).bind fun obj => by cases obj.kind <;> exact .ok _
  | _ => exact .ok _

theorem mild_keyOfString (s : StringRef) : Mild (h.keyOfString s) :=
  (mild_text s).bind fun t => by cases arrayIndex? t.units.toList <;> exact .ok _

theorem mild_keyText (key : PropertyKey) : Mild (h.keyText key) := by
  cases key with
  | string s => exact (mild_text s).bind fun _ => .ok _
  | index i => exact .ok _

theorem mild_describe (v : Value) : Mild (h.describe v) := by
  cases v with
  | string s => exact (mild_text s).bind fun _ => .ok _
  | object o => exact ((mild_object o).bind fun _ => .ok _ : Mild (h.tag o)).bind fun _ => .ok _
  | _ => exact .ok _

theorem mild_truthy (v : Value) : Mild (h.truthy v) := by
  cases v with
  | string s => exact (mild_text s).bind fun _ => .ok _
  | _ => exact .ok _

theorem mild_typeName (v : Value) : Mild (h.typeName v) := by
  cases v with
  | object o => exact (mild_isCallable (.object o)).bind fun _ => .ok _
  | _ => exact .ok _

theorem mild_numberOf (v : Value) : Mild (h.numberOf v) := by
  cases v with
  | string s => exact (mild_text s).bind fun _ => .ok _
  | _ => exact .ok _

theorem mild_baseError (what : String) (base : Value) (key : PropertyKey) :
    Mild (h.baseError what base key) :=
  (mild_keyText key).bind fun _ => (mild_describe base).bind fun _ => .ok _

/-- A refusal is no value of the program. -/
theorem baseError_ne_throw {what : String} {base : Value} {key : PropertyKey} {e : Error}
    (he : h.baseError what base key = .ok e) : ∀ v, e ≠ .throw v := by
  rintro v rfl
  unfold baseError at he
  cases hk : h.keyText key with
  | error e' => rw [hk] at he; cases he
  | ok t =>
    rw [hk] at he
    change (do let value ← h.describe base; return Error.typeError _ : Except Error Error) = _ at he
    cases hd : h.describe base with
    | error e' => rw [hd] at he; cases he
    | ok t' => rw [hd] at he; cases he

theorem mild_lookup (R : Realm) (base : Value) (key : PropertyKey) : Mild (h.lookup R base key) := by
  cases base with
  | string s =>
    cases key with
    | index i =>
      refine (mild_text s).bind fun t => ?_
      cases t.unitAt? i.toNat <;> exact .ok _
    | string k =>
      unfold lookup
      dsimp only
      split
      · exact (mild_text s).bind fun _ => .ok _
      · exact .ok _
  | _ => exact .ok _

theorem mild_hasOn (R : Realm) (base : Value) (key : PropertyKey) : Mild (h.hasOn R base key) := by
  have hchain : ∀ o, Mild (do return some (← h.findProperty o key).isSome) :=
    fun o => (mild_findProperty o key).bind fun _ => .ok _
  cases base with
  | string s =>
    refine (mild_text s).bind fun t => ?_
    cases key with
    | index i =>
      dsimp only
      split
      · exact .ok _
      · exact hchain _
    | string k =>
      dsimp only
      split
      · exact .ok _
      · exact hchain _
  | undefined => exact .ok _
  | null => exact .ok _
  | bool b => exact hchain _
  | number x => exact hchain _
  | object o => exact hchain o

theorem mild_scopeReceiver (s : ScopeRef) : Mild (h.scopeReceiver s) := (mild_scope s).bind fun _ => .ok _

theorem mild_scopeIsStrict (s : ScopeRef) : Mild (h.scopeIsStrict s) := (mild_scope s).bind fun _ => .ok _

theorem mild_outermostWithin : ∀ (bound : Nat) (s : ScopeRef), Mild (h.outermostWithin bound s)
  | 0, _ => mild_invalidHandle
  | bound + 1, s => by
    unfold outermostWithin
    cases hs : h.scope s with
    | error e => exact (mild_scope s).of_error hs
    | ok sc =>
      dsimp only
      cases sc.parent with
      | some p => exact mild_outermostWithin bound p
      | none => exact .ok _

theorem mild_bindingWithin (key : PropertyKey) : ∀ (bound : Nat) (s : Option ScopeRef),
    Mild (h.bindingWithin key bound s)
  | bound, none => by
    unfold bindingWithin
    exact .ok _
  | 0, some s => by
    unfold bindingWithin
    exact mild_invalidHandle
  | bound + 1, some s => by
    unfold bindingWithin
    cases hs : h.scope s with
    | error e => exact (mild_scope s).of_error hs
    | ok sc =>
      dsimp only
      cases hown : h.ownCell sc.object key with
      | error e => exact (mild_ownCell sc.object key).of_error hown
      | ok found =>
        cases found with
        | some c => exact .ok _
        | none => exact mild_bindingWithin key bound _

theorem mild_functionName (f : ObjectRef) : Mild (h.functionName f) :=
  (mild_object f).bind fun obj => by cases obj.kind <;> exact .ok _

theorem mild_closure (f : ObjectRef) : Mild (h.closure f) :=
  (mild_object f).bind fun obj => by
    cases obj.kind with
    | closure cl => exact .ok _
    | _ => exact mild_invalidHandle

/-! ### What is found is public -/

/-- A closure is what its object was made for. -/
theorem closure_eq_ok {f : ObjectRef} {cl : Closure} :
    h.closure f = .ok cl ↔ ∃ obj, h.object f = .ok obj ∧ obj.kind = .closure cl := by
  unfold Heap.closure
  cases hobj : h.object f with
  | error e => exact ⟨nofun, fun ⟨_, ho, _⟩ => by cases ho⟩
  | ok obj =>
    dsimp only [bind, Except.bind]
    cases hkind : obj.kind with
    | closure cl' => simp [hkind, pure, Except.pure]
    | _ => simp [hkind, throw, throwThe, MonadExceptOf.throw]

theorem refers_of_find? (ho : h.object o = .ok obj) (hfind : obj.properties.find? key = some c) :
    h.Refers o key c := refers_iff.mpr ⟨obj, ho, hfind⟩

/-- What is found on a chain is a property of the object where it was found. -/
theorem refers_of_findProperty {holder : ObjectRef} (hfound : h.findProperty o key = .ok (some (holder, c))) :
    h.Refers holder key c := by
  obtain ⟨obj, ho, hfind⟩ := findWithin_holds _ _ hfound
  exact refers_of_find? ho hfind

/-- What is found further up the chain, or not at all, is no property of the object itself. -/
theorem not_refers_of_findProperty {found : Option (ObjectRef × CellRef)}
    (hfound : h.findProperty o key = .ok found) (hother : ∀ holder c, found = some (holder, c) → holder ≠ o) :
    ∀ c, ¬ h.Refers o key c := by
  intro c hr
  obtain ⟨obj, ho, hfind⟩ := refers_iff.mp hr
  rw [find?_of_findProperty hfound hother ho] at hfind
  cases hfind

theorem not_refers_of_ownCell (hown : h.ownCell o key = .ok none) : ∀ c, ¬ h.Refers o key c := by
  intro c hr
  cases hown.symm.trans hr

namespace Tidy

theorem ownProperty (ht : h.Tidy R) (hown : h.ownProperty o key = .ok (some d)) : d.Public R h := by
  obtain ⟨c, -, hc⟩ := ownProperty_eq_some.mp hown
  exact ht.values c d hc

theorem property (ht : h.Tidy R) (hfound : h.property o key = .ok (some d)) : d.Public R h := by
  unfold Heap.property at hfound
  cases hfind : h.findProperty o key with
  | error e => rw [hfind] at hfound; cases hfound
  | ok found =>
    rw [hfind] at hfound
    cases found with
    | none => cases hfound
    | some place =>
      change (do return some (← h.cell place.2) : Except Error (Option Descriptor)) = _ at hfound
      cases hc : h.cell place.2 with
      | error e => rw [hc] at hfound; cases hfound
      | ok d' =>
        rw [hc] at hfound
        cases hfound
        exact ht.values _ d hc

/-- A value that is found without a chain is a length. -/
theorem found {base : Value} (hlookup : h.lookup R base key = .ok (.found v)) : v.Public R h := by
  cases base with
  | string s =>
    cases key with
    | index i =>
      unfold lookup at hlookup
      dsimp only at hlookup
      cases ht : h.text s with
      | error e => rw [ht] at hlookup; cases hlookup
      | ok t =>
        rw [ht] at hlookup
        dsimp only [bind, Except.bind] at hlookup
        split at hlookup <;> cases hlookup
    | string k =>
      unfold lookup at hlookup
      dsimp only at hlookup
      split at hlookup
      · cases ht : h.text s with
        | error e => rw [ht] at hlookup; cases hlookup
        | ok t => rw [ht] at hlookup; cases hlookup; trivial
      · cases hlookup
  | _ => cases hlookup

theorem closure {cl : Closure} (ht : h.Tidy R) (ho : h.closure o = .ok cl) :
    (ObjectKind.closure cl).Public R h := by
  obtain ⟨obj, hobj, hkind⟩ := closure_eq_ok.mp ho
  exact hkind ▸ ht.kinds o obj hobj

/-! ### Scopes -/

theorem scopeReceiver (ht : h.Tidy R) (hs : h.scopeReceiver s = .ok v) : v.Public R h := by
  unfold Heap.scopeReceiver at hs
  cases hsc : h.scope s with
  | error e => rw [hsc] at hs; cases hs
  | ok sc => rw [hsc] at hs; cases hs; exact (ht.scopes s sc hsc).receiver

/-- A scope binds names in the global object or in a private one. -/
theorem binds (ht : h.Tidy R) (hb : h.Binds s o) : o = R.globalObject ∨ h.Private R o := by
  obtain ⟨sc, hs, rfl⟩ := hb
  have hproper := ht.scopes s sc hs
  cases hp : sc.parent with
  | none => exact .inl (hproper.outermost hp)
  | some p => exact .inr (hproper.inner p hp).2

theorem outermost (ht : h.Tidy R) : ∀ (bound : Nat) (s : ScopeRef), h.outermostWithin bound s = .ok o →
    o = R.globalObject
  | 0, _, hs => by cases hs
  | bound + 1, s, hs => by
    unfold outermostWithin at hs
    cases hsc : h.scope s with
    | error e => rw [hsc] at hs; cases hs
    | ok sc =>
      rw [hsc] at hs
      dsimp only at hs
      cases hp : sc.parent with
      | none =>
        rw [hp] at hs
        cases hs
        exact (ht.scopes s sc hsc).outermost hp
      | some p =>
        rw [hp] at hs
        exact outermost ht bound p hs

/-- The object where a name is bound has it as a key, and is one in which a scope binds names. -/
theorem binding (ht : h.Tidy R) : ∀ (bound : Nat) (s : Option ScopeRef),
    h.bindingWithin key bound s = .ok (some o) →
    (∃ c, h.Refers o key c) ∧ (o = R.globalObject ∨ h.Private R o)
  | bound, none, hs => by
    unfold bindingWithin at hs
    cases hs
  | 0, some s, hs => by
    unfold bindingWithin at hs
    cases hs
  | bound + 1, some s, hs => by
    unfold bindingWithin at hs
    cases hsc : h.scope s with
    | error e => rw [hsc] at hs; cases hs
    | ok sc =>
      rw [hsc] at hs
      dsimp only at hs
      cases hown : h.ownCell sc.object key with
      | error e => rw [hown] at hs; cases hs
      | ok found =>
        rw [hown] at hs
        cases found with
        | none => exact binding ht bound _ hs
        | some c =>
          cases hs
          exact ⟨⟨c, hown⟩, ht.binds ⟨sc, hsc, rfl⟩⟩

end Tidy

end Heap

end ScriptCore
