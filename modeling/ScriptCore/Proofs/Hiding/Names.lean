import ScriptCore.Callable
import ScriptCore.Proofs.Calls.Names
import ScriptCore.Proofs.Hiding.Values
import ScriptCore.Reference

/-! # Names, functions and references show no hidden object

A name is read and written in the object where it is bound. If that one is hidden it holds no accessors, so no getter
or setter gets to see it.

* `reticent_lookupName`, `reticent_assignName`: names.
* `reticent_allocClosure`, `reticent_errorToValue`: functions, and errors as values.
* `Reference.Clear`, `reticent_writePattern`: **references, and writing to them.** -/

namespace ScriptCore

open Heap (object_eq_ok scope_eq_ok refers_iff)

variable {S : Scene} {h h' : Heap} {E : Engine} {o : ObjectRef} {key : PropertyKey} {c : CellRef} {v : Value}
  {s : ScopeRef} {name : String} {strict : Bool}

/-! ### Scopes -/

namespace Heap.Secure

theorem scopeReceiver (hs : h.Secure) (hv : h.scopeReceiver s = .ok v) : h.Clear v := by
  unfold Heap.scopeReceiver at hv
  cases hsc : h.scope s with
  | error e => rw [hsc] at hv; cases hv
  | ok sc => rw [hsc] at hv; cases hv; exact (hs.scope hsc).2.2.1

theorem outermost (hs : h.Secure) : ∀ (bound : Nat) (s : ScopeRef), h.outermostWithin bound s = .ok o → h.Clear o
  | 0, _, ho => by cases ho
  | bound + 1, s, ho => by
    unfold outermostWithin at ho
    cases hsc : h.scope s with
    | error e => rw [hsc] at ho; cases ho
    | ok sc =>
      rw [hsc] at ho
      dsimp only at ho
      cases hp : sc.parent with
      | none =>
        rw [hp] at ho
        cases ho
        exact (hs.scope hsc).2.2.2.2 hp
      | some p =>
        rw [hp] at ho
        exact outermost hs bound p ho

/-- The object where a name is bound has it as a key. It is hidden if the scope is inside another. -/
theorem binding (hs : h.Secure) : ∀ (bound : Nat) (s : Option ScopeRef), h.bindingWithin key bound s = .ok (some o) →
    h.Writable o key
  | bound, none, ho => by
    unfold bindingWithin at ho
    cases ho
  | 0, some s, ho => by
    unfold bindingWithin at ho
    cases ho
  | bound + 1, some s, ho => by
    unfold bindingWithin at ho
    cases hsc : h.scope s with
    | error e => rw [hsc] at ho; cases ho
    | ok sc =>
      rw [hsc] at ho
      dsimp only at ho
      cases hown : h.ownCell sc.object key with
      | error e => rw [hown] at ho; cases ho
      | ok found =>
        rw [hown] at ho
        cases found with
        | none => exact binding hs bound _ ho
        | some c =>
          cases ho
          cases hp : sc.parent with
          | none => exact .inl ((hs.scope hsc).2.2.2.2 hp)
          | some p => exact .inr ⟨⟨s, sc, hsc, by simp [hp], rfl⟩, c, hown⟩

/-- A hidden object holds values only. -/
theorem data {d : Descriptor} (hs : h.Secure) (ho : h.Hides o) (hr : h.Refers o key c) (hc : h.cell c = .ok d) :
    d.isAccessor = false := by
  obtain ⟨obj, hobj, hfind⟩ := refers_iff.mp hr
  obtain ⟨d', hd', hdata⟩ := ((hs.object hobj).2 ho).2 key c hfind
  cases hc.symm.trans hd'
  exact hdata

end Heap.Secure

/-! ### Names -/

theorem reticent_lookupName (hE : E.Reticent S) (s : ScopeRef) (name : String) :
    Reticent S h (lookupName E s name) Heap.Clear := by
  refine reticent_keyOfName.bind fun h₁ key _ _ => .secure fun hs _ =>
    .read (Heap.mild_bindingWithin key _ _) fun found hfound => ?_
  cases found with
  | none => exact .refuse fun _ he => by cases he
  | some holder =>
    refine .read (Heap.mild_ownProperty holder key) fun own hown => ?_
    cases own with
    | none => exact .refuse fun _ he => by cases he
    | some d =>
      have hd := hs.ownProperty hown
      rcases hs.binding _ _ hfound with hshown | ⟨hhidden, -⟩
      · exact reticent_readDescriptor hE hd (Heap.clear_object_value.mpr hshown)
      · obtain ⟨c, hr, hc⟩ := Heap.ownProperty_eq_some.mp hown
        have hdata := hs.data hhidden hr hc
        show Reticent S h₁ (readDescriptor E d (.object holder)) _
        unfold readDescriptor
        rw [Heap.clear_descriptor] at hd
        unfold Descriptor.isAccessor at hdata
        cases hcontent : d.content with
        | data v _ =>
          rw [hcontent] at hd
          exact .pure hd
        | accessor _ _ =>
          rw [hcontent] at hdata
          cases hdata

theorem reticent_hasBinding (s : ScopeRef) (name : String) : Reticent S h (hasBinding s name) Heap.Clear :=
  reticent_keyOfName.bind fun _ key _ _ => .read (Heap.mild_bindingWithin key _ _) fun _ _ => .pure (Heap.clear_bool _)

theorem reticent_assignName (hE : E.Reticent S) (s : ScopeRef) (name : String) (hv : h.Clear v) :
    Reticent S h (assignName E s name v) Heap.Clear := by
  refine reticent_keyOfName.bind fun h₁ key hh ⟨hspells, _⟩ => .secure fun hs _ => ?_
  refine .read (Heap.mild_scopeIsStrict s) fun strict _ =>
    .read (Heap.mild_bindingWithin key _ _) fun found hfound => ?_
  cases found with
  | some holder => exact .discard (reticent_setProperty hE hspells.clear (hs.binding _ _ hfound) (hh.clear hv))
  | none =>
    refine .ite (fun _ => .refuse fun _ he => by cases he) fun _ => ?_
    refine .read (Heap.mild_outermostWithin _ s) fun outermost houtermost => ?_
    exact .discard (reticent_setProperty hE hspells.clear (.inl (hs.outermost _ _ houtermost)) (hh.clear hv))

/-! ### Functions, and errors as values -/

theorem Heap.clear_hidden (hv : h.Clear v) : h.Clear (Descriptor.hidden v) := Heap.clear_descriptor.mpr hv

theorem Heap.clear_readonly_hidden (hv : h.Clear v) : h.Clear (Descriptor.hidden v).readonly :=
  Heap.clear_descriptor.mpr hv

theorem Heap.clear_nonConfigurable_hidden (hv : h.Clear v) : h.Clear (Descriptor.hidden v).nonConfigurable :=
  Heap.clear_descriptor.mpr hv

theorem reticent_defineFunctionNames (o : ObjectRef) (name : String) (arity : Nat) :
    Reticent S h (defineFunctionNames o name arity) Heap.Clear := by
  refine reticent_string.bind fun h₁ r _ hr => .secure fun _ hR => .names_bind ?_
  refine (reticent_furnish (Heap.clear_common hR (by simp [CommonNames.all]))
    (Heap.clear_readonly_hidden (v := .string r) hr) rfl).bind fun h₂ _ hh₂ _ => ?_
  exact reticent_furnish (hh₂.clear (Heap.clear_common hR (by simp [CommonNames.all])))
    (Heap.clear_readonly_hidden (Heap.clear_ofCount arity)) rfl

theorem reticent_allocClosureObject {cl : Closure} (hcl : h.Clear cl) :
    Reticent S h (allocClosureObject cl) Heap.Clear := by
  refine .secure fun _ hR => .realm_bind ?_
  have hkind := Heap.clear_closure_kind.mpr hcl
  refine (reticent_allocObject (Heap.clear_realm hR).2.2.2.1 hkind).bind fun h₁ o hh ho => ?_
  refine reticent_allocPlainObject.bind fun h₂ p hh₂ hp => ?_
  have hkey := hh₂.clear (hh.clear (Heap.clear_common hR
    (by simp [CommonNames.all] : S.realm.names.prototype ∈ S.realm.names.all)))
  refine (reticent_furnish hkey (Heap.clear_nonConfigurable_hidden (v := .object p) hp) rfl).bind
    fun h₃ _ hh₃ _ => ?_
  exact (reticent_defineFunctionNames o _ _).bind fun _ _ hh₄ _ => .pure (hh₄.clear (hh₃.clear (hh₂.clear ho)))

theorem reticent_allocClosure (f : Function) (hs : h.Clear s) : Reticent S h (allocClosure f s) Heap.Clear := by
  have hclosure : ∀ receiver : Option Value, h.Clear receiver → Reticent S h (allocClosureObject
      { function := f, scope := s, boundScope := none, receiver, returnLastValue := f.isExpression }) Heap.Clear :=
    fun receiver hreceiver =>
      reticent_allocClosureObject (Heap.clear_closure.mpr ⟨hs, Heap.clear_none, hreceiver⟩)
  unfold allocClosure
  cases f.arrow with
  | true =>
    simp only [map_eq_pure_bind, if_true, bind_assoc]
    refine .secure fun hsecure _ => .read (Heap.mild_scopeReceiver s) fun v hv => ?_
    rw [pure_bind]
    exact hclosure _ (hsecure.scopeReceiver hv)
  | false =>
    simp only [Bool.false_eq_true, if_false, pure_bind]
    exact hclosure none Heap.clear_none

theorem reticent_errorToValue {e : Error} (he : h.Clear e) : Reticent S h (errorToValue e) Heap.Clear := by
  have object : ∀ e : Error, Reticent S h (do
        let realm ← Run.realm
        let o ← Heap.allocObject (some realm.errorPrototype) .error .ordinary
        let name ← Heap.internString e.surfaceName
        let message ← Heap.internString e.message
        discard (Heap.define o realm.names.name (.hidden (.string name)) : Run CellRef)
        discard (Heap.define o realm.names.message (.hidden (.string message)) : Run CellRef)
        return Value.object o) Heap.Clear := by
    intro e
    refine .secure fun _ hR => .realm_bind ?_
    have hkeys : ∀ key ∈ S.realm.names.all, h.Clear key := fun key hkey => Heap.clear_common hR hkey
    refine (reticent_allocObject (Heap.clear_realm hR).2.2.2.2.2 Heap.clear_ordinary).bind fun h₁ o hh₁ ho => ?_
    refine reticent_string.bind fun h₂ name hh₂ hname => reticent_string.bind fun h₃ message hh₃ hmessage => ?_
    have hh := (hh₁.trans hh₂).trans hh₃
    refine (reticent_furnish (hh.clear (hkeys _ (by simp [CommonNames.all])))
      (Heap.clear_hidden (v := .string name) (hh₃.clear hname)) rfl).bind fun h₄ _ hh₄ _ => ?_
    refine (reticent_furnish ((hh.trans hh₄).clear (hkeys _ (by simp [CommonNames.all])))
      (Heap.clear_hidden (v := .string message) (hh₄.clear hmessage)) rfl).bind fun h₅ _ hh₅ _ => ?_
    exact .pure (((hh₂.trans hh₃).trans (hh₄.trans hh₅)).clear ho)
  cases e with
  | throw v => exact .pure he
  | _ => exact object _

/-! ### References -/

/-- The reference shows no hidden object. -/
inductive Reference.Clear (h : Heap) : Reference → Prop where
  | binding {s : ScopeRef} (name : String) : Clear h (.binding s name)
  | property {base : Value} {key : PropertyKey} (strict : Bool) (hbase : h.Clear base) (hkey : h.Clear key) :
      Clear h (.property base key strict)
  | object {properties : List (PropertyKey × Reference)} (hproperties : ∀ p ∈ properties, Clear h p.2) :
      Clear h (.object properties)
  | array {elements : List (Option Reference)} (helements : ∀ r, some r ∈ elements → Clear h r) :
      Clear h (.array elements)

theorem Reference.Clear.next {r : Reference} (hr : r.Clear h) (hh : h.Shelters h') : r.Clear h' := by
  induction hr with
  | binding name => exact .binding name
  | property strict hbase hkey => exact .property strict (hh.clear hbase) (hh.clear hkey)
  | object _ ih => exact .object ih
  | array _ ih => exact .array ih

theorem reticent_requireIterable (v : Value) : Reticent S h (requireIterable v) Heap.Clear :=
  .ite (fun _ => .read (Heap.mild_describe v) fun _ _ => .refuse fun _ he => by cases he) fun _ =>
    .pure (Heap.clear_unit _)

mutual

theorem reticent_write (hE : E.Reticent S) : ∀ (r : Reference) {h : Heap} {v : Value}, r.Clear h → h.Clear v →
    Reticent S h (r.write E v) Heap.Clear
  | .binding scope name, h, v, _, hv => by
    unfold Reference.write
    exact reticent_assignName hE scope name hv
  | .property base key strict, h, v, hr, hv => by
    unfold Reference.write
    cases hr with
    | property _ hbase hkey => exact .discard (reticent_setMember hE hbase hkey hv)
  | .object properties, h, v, hr, hv => by
    unfold Reference.write
    cases hr with
    | object hproperties => exact reticent_writeProperties hE properties hproperties hv
  | .array elements, h, v, hr, hv => by
    unfold Reference.write
    cases hr with
    | array helements =>
      exact (reticent_requireIterable v).bind fun _ _ hh _ =>
        reticent_writeElements hE 0 elements (fun r hr => (helements r hr).next hh) (hh.clear hv)

theorem reticent_writeProperties (hE : E.Reticent S) : ∀ (properties : List (PropertyKey × Reference)) {h : Heap}
    {v : Value}, (∀ p ∈ properties, p.2.Clear h) → h.Clear v →
      Reticent S h (writeProperties E v properties) Heap.Clear
  | [], h, v, _, _ => by
    unfold writeProperties
    exact .pure (Heap.clear_unit _)
  | (key, target) :: rest, h, v, hproperties, hv => by
    unfold writeProperties
    refine (reticent_getProperty hE hv).bind fun h₁ item hh hitem => ?_
    have htarget := (hproperties _ (List.mem_cons_self ..)).next hh
    refine (reticent_write hE target htarget hitem).bind fun h₂ _ hh₂ _ => ?_
    exact reticent_writeProperties hE rest
      (fun p hp => (hproperties p (List.mem_cons_of_mem _ hp)).next (hh.trans hh₂)) ((hh.trans hh₂).clear hv)

theorem reticent_writeElements (hE : E.Reticent S) : ∀ (i : Nat) (elements : List (Option Reference)) {h : Heap}
    {v : Value}, (∀ r, some r ∈ elements → r.Clear h) → h.Clear v →
      Reticent S h (writeElements E v i elements) Heap.Clear
  | _, [], h, v, _, _ => by
    unfold writeElements
    exact .pure (Heap.clear_unit _)
  | i, none :: rest, h, v, helements, hv => by
    unfold writeElements
    exact reticent_writeElements hE (i + 1) rest (fun r hr => helements r (List.mem_cons_of_mem _ hr)) hv
  | i, some target :: rest, h, v, helements, hv => by
    unfold writeElements
    refine (reticent_getProperty hE hv).bind fun h₁ item hh hitem => ?_
    have htarget := (helements _ (List.mem_cons_self ..)).next hh
    refine (reticent_write hE target htarget hitem).bind fun h₂ _ hh₂ _ => ?_
    exact reticent_writeElements hE (i + 1) rest
      (fun r hr => (helements r (List.mem_cons_of_mem _ hr)).next (hh.trans hh₂)) ((hh.trans hh₂).clear hv)

end

/-! ### Resolving -/

theorem Heap.clear_value {c : Completion} (hc : h.Clear c) : h.Clear c.value := by
  cases c with
  | thrown v => exact hc
  | returned v => exact hc
  | _ => exact Heap.clear_getD hc Heap.clear_undefined

theorem Heap.clear_value? {c : Completion} (hc : h.Clear c) : h.Clear c.value? := by
  cases c <;> exact hc

theorem Heap.clear_updateEmpty {c : Completion} {v : Option Value} (hc : h.Clear c) (hv : h.Clear v) :
    h.Clear (c.updateEmpty v) := by
  unfold Completion.updateEmpty
  split
  · exact hv
  · exact hv
  · exact hv
  · exact hc

theorem Heap.clear_options {o : BranchOptions} : h.Clear o ↔ h.Clear o.creator ∧ h.Clear o.callee := by
  show h.Clear (o.creator, o.callee, Plain.mk o.returnLastValue, Plain.mk o.profileName, Plain.mk o.yieldPower) ↔ _
  simp

theorem Heap.clear_request {r : BranchRequest} : h.Clear r ↔ h.Clear r.scope ∧ h.Clear r.options := by
  show h.Clear (r.scope, r.options, Plain.mk r.kind, Plain.mk r.node) ↔ _
  simp

/-- The request to evaluate an expression shows its scope. -/
theorem Heap.clear_expression (e : Expr) (hs : h.Clear s) : h.Clear (BranchRequest.expression e s) :=
  Heap.clear_request.mpr ⟨hs, Heap.clear_options.mpr ⟨Heap.clear_none, Heap.clear_none⟩⟩

theorem reticent_resolveKey (hE : E.Reticent S) (hs : h.Clear s) (key : MemberKey) :
    Reticent S h (resolveKey E s key) Heap.Clear := by
  cases key with
  | named name => exact reticent_keyOfName.imp fun _ _ _ ⟨hspells, _⟩ => hspells.clear
  | computed e =>
    exact (hE.evaluate (Heap.clear_expression e hs)).bind fun _ c _ hc =>
      reticent_toPropertyKey hE (Heap.clear_value hc)

mutual

theorem reticent_resolvePattern (hE : E.Reticent S) : ∀ (target : Pattern) {h : Heap}, h.Clear s →
    Reticent S h (resolvePattern E s target) fun h' r => r.Clear h'
  | .ident name, h, _ => by
    unfold resolvePattern
    exact .pure (.binding name)
  | .member base key, h, hs => by
    unfold resolvePattern
    refine (hE.evaluate (Heap.clear_expression base hs)).bind fun h₁ c hh hc => ?_
    refine (reticent_resolveKey hE (hh.clear hs) key).bind fun h₂ k hh₂ hk => ?_
    exact .read (Heap.mild_scopeIsStrict s) fun strict _ =>
      .pure (.property strict (hh₂.clear (Heap.clear_value hc)) hk)
  | .object properties, h, hs => by
    unfold resolvePattern
    exact (reticent_resolveProperties hE properties hs).bind fun _ _ _ hr => .pure (.object hr)
  | .array elements, h, hs => by
    unfold resolvePattern
    exact (reticent_resolveElements hE elements hs).bind fun _ _ _ hr => .pure (.array hr)

theorem reticent_resolveProperties (hE : E.Reticent S) : ∀ (properties : List (String × Pattern)) {h : Heap},
    h.Clear s → Reticent S h (resolveProperties E s properties) fun h' rs => ∀ p ∈ rs, p.2.Clear h'
  | [], h, _ => by
    unfold resolveProperties
    exact .pure fun _ hp => absurd hp List.not_mem_nil
  | (name, target) :: rest, h, hs => by
    unfold resolveProperties
    refine reticent_keyOfName.bind fun h₁ key hh₁ _ => ?_
    refine (reticent_resolvePattern hE target (hh₁.clear hs)).bind fun h₂ r hh₂ hr => ?_
    refine (reticent_resolveProperties hE rest (hh₂.clear (hh₁.clear hs))).bind fun h₃ rs hh₃ hrs => ?_
    refine .pure fun p hp => ?_
    rcases List.mem_cons.mp hp with rfl | hp
    · exact hr.next hh₃
    · exact hrs p hp

theorem reticent_resolveElements (hE : E.Reticent S) : ∀ (elements : List (Option Pattern)) {h : Heap},
    h.Clear s → Reticent S h (resolveElements E s elements) fun h' rs => ∀ r, some r ∈ rs → r.Clear h'
  | [], h, _ => by
    unfold resolveElements
    exact .pure fun _ hp => absurd hp List.not_mem_nil
  | none :: rest, h, hs => by
    unfold resolveElements
    refine (reticent_resolveElements hE rest hs).bind fun h₁ rs _ hrs => .pure fun r hr => ?_
    rcases List.mem_cons.mp hr with hr | hr
    · cases hr
    · exact hrs r hr
  | some target :: rest, h, hs => by
    unfold resolveElements
    refine (reticent_resolvePattern hE target hs).bind fun h₁ r hh₁ hr => ?_
    refine (reticent_resolveElements hE rest (hh₁.clear hs)).bind fun h₂ rs hh₂ hrs => .pure fun r' hr' => ?_
    rcases List.mem_cons.mp hr' with hr' | hr'
    · cases hr'
      exact hr.next hh₂
    · exact hrs r' hr'

end

theorem reticent_writePattern (hE : E.Reticent S) (hs : h.Clear s) (target : Pattern) (hv : h.Clear v) :
    Reticent S h (writePattern E s target v) Heap.Clear :=
  (reticent_resolvePattern hE target hs).bind fun _ r hh hr => reticent_write hE r hr (hh.clear hv)

end ScriptCore
