import ScriptCore.Callable
import ScriptCore.Proofs.Calls.Properties
import ScriptCore.Reference

/-! # Names, functions and references work by acts

A name is read and written in the object where it is bound, which is the global object or a private one. A
private one holds no accessors, so no getter or setter gets to see it.

* `works_lookupName`, `works_assignName`: names.
* `works_allocClosure`, `works_errorToValue`: functions, and errors as values.
* `Reference.Proper`, `works_writePattern`: **references that name no private object, and writing to them.** -/

namespace ScriptCore

variable {S : Setting} {own : Handle → Prop} {w w' : World} {E : Engine} {o : ObjectRef} {key : PropertyKey}
  {v : Value} {s : ScopeRef} {name : String} {strict : Bool}

/-! ### Names -/

theorem works_lookupName (hE : E.Fair S) (s : ScopeRef) (name : String) :
    Works S own w (lookupName E s name) (World.Shows S) := by
  refine works_keyOfName.bind fun w₁ key hw₁ _ _ => .read (Heap.mild_bindingWithin key _ _) fun found hfound => ?_
  cases found with
  | none => exact .fail fun _ hu => by cases hu
  | some holder =>
    refine .read (Heap.mild_ownProperty holder key) fun own hown => ?_
    cases own with
    | none => exact .fail fun _ hu => by cases hu
    | some d =>
      have hd := hw₁.heap.ownProperty hown
      obtain ⟨-, rfl | hprivate⟩ := hw₁.heap.binding _ _ hfound
      · exact works_readDescriptor hE hd (show w₁.Shows S (.object S.realm.globalObject) from hw₁.realm.global)
      · obtain ⟨c, hr, hc⟩ := Heap.ownProperty_eq_some.mp hown
        have hdata := hw₁.heap.data holder key c d hprivate hr hc
        show Works S _ w₁ (readDescriptor E d (.object holder)) _
        unfold readDescriptor
        unfold Descriptor.Public at hd
        unfold Descriptor.isAccessor at hdata
        cases hcontent : d.content with
        | data v _ =>
          rw [hcontent] at hd
          exact .pure hd
        | accessor _ _ =>
          rw [hcontent] at hdata
          cases hdata

theorem works_hasBinding (s : ScopeRef) (name : String) :
    Works S own w (hasBinding s name) World.Anything :=
  works_keyOfName.bind fun _ key _ _ _ => .read (Heap.mild_bindingWithin key _ _) fun _ _ => .pure trivial

theorem works_assignName (hE : E.Fair S) (s : ScopeRef) (name : String) (hv : w.Shows S v) :
    Works S own w (assignName E s name v) World.Anything := by
  refine works_keyOfName.bind fun w₁ key hw₁ hacts ⟨hspells, _⟩ => ?_
  have hkey := hspells.keyed
  refine .read (Heap.mild_scopeIsStrict s) fun strict _ =>
    .read (Heap.mild_bindingWithin key _ _) fun found hfound => ?_
  cases found with
  | some holder =>
    refine .discard (works_setProperty hE hkey ?_ (hacts.value hv))
    obtain ⟨hr, rfl | hprivate⟩ := hw₁.heap.binding _ _ hfound
    · exact .inl hw₁.realm.global
    · exact .inr ⟨hprivate, hr⟩
  | none =>
    refine .ite (fun _ => .fail fun _ hu => by cases hu) fun _ => ?_
    refine .read (Heap.mild_outermostWithin _ s) fun outermost houtermost => ?_
    cases hw₁.heap.outermost _ _ houtermost
    exact .discard (works_setProperty hE hkey (.inl hw₁.realm.global) (hacts.value hv))

/-! ### Functions, and errors as values -/

theorem public_hidden {h : Heap} {R : Realm} (hv : v.Public R h) : (Descriptor.hidden v).Public R h := hv

theorem public_readonly_hidden {h : Heap} {R : Realm} (hv : v.Public R h) :
    (Descriptor.hidden v).readonly.Public R h := hv

theorem public_nonConfigurable_hidden {h : Heap} {R : Realm} (hv : v.Public R h) :
    (Descriptor.hidden v).nonConfigurable.Public R h := hv

theorem World.Lawful.named (hw : w.Lawful S) {key : PropertyKey} (hkey : key ∈ S.realm.names.all) :
    w.heap.Keyed key := hw.realm.names key hkey

theorem works_defineFunctionNames (ho : w.Unguarded S o) (name : String) (arity : Nat) :
    Works S own w (defineFunctionNames o name arity) World.Anything := by
  refine works_intern.bind fun w₁ r hw₁ hacts ⟨_, hext⟩ => .names_bind ?_
  have ho₁ := ho.next hacts hext.calls
  rw [Proc.discard_bind]
  refine (works_furnish ho₁ (public_readonly_hidden (v := .string r) trivial) rfl
    (hw₁.named (by simp [CommonNames.all]))).bind fun w₂ _ hw₂ _ ⟨ho₂, _⟩ => ?_
  exact .discard (works_furnish ho₂ (public_readonly_hidden (v := .ofCount arity) trivial) rfl
    (hw₂.named (by simp [CommonNames.all]))).weaken

theorem works_allocClosureObject {cl : Closure} (hcl : (ObjectKind.closure cl).Public S.realm w.heap) :
    Works S own w (allocClosureObject cl) fun w' o => w'.heap.Public S.realm o := by
  refine .realm_bind ((works_allocPublic hcl).bind fun w₁ o hw₁ _ ⟨ho, _⟩ => ?_)
  refine works_allocPlainObject.bind fun w₂ p hw₂ hacts₂ ⟨hp, hext⟩ => ?_
  rw [Proc.discard_bind]
  refine (works_furnish (ho.next hacts₂ hext.calls) (public_nonConfigurable_hidden (v := .object p) hp.shown) rfl
    (hw₂.named (by simp [CommonNames.all]))).bind fun w₃ _ _ hacts₃ ⟨ho₃, _⟩ => ?_
  exact (works_defineFunctionNames ho₃ _ _).bind fun _ _ _ hacts₄ _ => .pure (hacts₄.shown ho₃.shown)

theorem works_allocClosure (f : Function) (hs : w.heap.Binds s o) :
    Works S own w (allocClosure f s) fun w' o => w'.heap.Public S.realm o := by
  obtain ⟨sc, hsc, -⟩ := hs
  have hclosure : ∀ receiver : Option Value, (∀ v, receiver = some v → w.Shows S v) →
      Works S own w (allocClosureObject
        { function := f, scope := s, boundScope := none, receiver, returnLastValue := f.isExpression })
        fun w' o => w'.heap.Public S.realm o :=
    fun receiver hreceiver => works_allocClosureObject ⟨rfl, ⟨sc, hsc⟩, hreceiver⟩
  unfold allocClosure
  cases f.arrow with
  | true =>
    simp only [map_eq_pure_bind, if_true, bind_assoc]
    refine .lawful fun hw => .read (Heap.mild_scopeReceiver s) fun v hv => ?_
    rw [pure_bind]
    exact hclosure _ fun u hu => Option.some.inj hu ▸ hw.heap.scopeReceiver hv
  | false =>
    simp only [Bool.false_eq_true, if_false, pure_bind]
    exact hclosure none fun u hu => by cases hu

theorem works_errorToValue {e : Error} (he : e.Public S.realm w.heap) :
    Works S own w (errorToValue e) (World.Shows S) := by
  have object : ∀ e : Error, Works S own w (do
        let realm ← Run.realm
        let o ← Heap.allocObject (some realm.errorPrototype) .error .ordinary
        let name ← Heap.internString e.surfaceName
        let message ← Heap.internString e.message
        discard (Heap.define o realm.names.name (.hidden (.string name)) : Run CellRef)
        discard (Heap.define o realm.names.message (.hidden (.string message)) : Run CellRef)
        return Value.object o) (World.Shows S) := by
    intro e
    refine .realm_bind ((works_allocPublic (show ObjectKind.ordinary.Public S.realm w.heap from trivial)).bind fun w₁ o _ _ ⟨ho, _⟩ => ?_)
    refine works_intern.bind fun w₂ name _ hacts₂ ⟨_, hext₂⟩ => ?_
    refine works_intern.bind fun w₃ message hw₃ hacts₃ ⟨_, hext₃⟩ => ?_
    have ho₃ := (ho.next hacts₂ hext₂.calls).next hacts₃ hext₃.calls
    rw [Proc.discard_bind]
    refine (works_furnish ho₃ (public_hidden (v := .string name) trivial) rfl
      (hw₃.named (by simp [CommonNames.all]))).bind fun w₄ _ hw₄ _ ⟨ho₄, _⟩ => ?_
    rw [Proc.discard_bind]
    exact (works_furnish ho₄ (public_hidden (v := .string message) trivial) rfl
      (hw₄.named (by simp [CommonNames.all]))).bind fun _ _ _ _ ⟨ho₅, _⟩ => .pure ho₅.shown
  cases e with
  | throw v => exact .pure (he v rfl)
  | _ => exact object _

/-! ### References -/

/-- The reference can be resolved and names no private object. -/
inductive Reference.Proper (S : Setting) (w : World) : Reference → Prop where
  | binding {s : ScopeRef} (name : String) : Proper S w (.binding s name)
  | property {base : Value} {key : PropertyKey} (strict : Bool) (hbase : w.Shows S base)
      (hkey : w.heap.Keyed key) : Proper S w (.property base key strict)
  | object {properties : List (PropertyKey × Reference)} (hproperties : ∀ p ∈ properties, Proper S w p.2) :
      Proper S w (.object properties)
  | array {elements : List (Option Reference)} (helements : ∀ r, some r ∈ elements → Proper S w r) :
      Proper S w (.array elements)

theorem Reference.Proper.next {r : Reference} (hr : r.Proper S w) (hacts : Acts S own w w') : r.Proper S w' := by
  induction hr with
  | binding name => exact .binding name
  | property strict hbase hkey => exact .property strict (hacts.value hbase) (hacts.keyed hkey)
  | object _ ih => exact .object ih
  | array _ ih => exact .array ih

theorem works_requireIterable (v : Value) : Works S own w (requireIterable v) World.Anything :=
  .ite (fun _ => .read (Heap.mild_describe v) fun _ _ => .fail fun _ hu => by cases hu) fun _ => .pure trivial

mutual

theorem works_write (hE : E.Fair S) : ∀ (r : Reference) {w : World} {v : Value}, r.Proper S w → w.Shows S v →
    Works S own w (r.write E v) World.Anything
  | .binding scope name, w, v, _, hv => by
    unfold Reference.write
    exact works_assignName hE scope name hv
  | .property base key strict, w, v, hr, hv => by
    unfold Reference.write
    cases hr with
    | property _ hbase hkey => exact .discard (works_setMember hE hbase hkey hv)
  | .object properties, w, v, hr, hv => by
    unfold Reference.write
    cases hr with
    | object hproperties => exact works_writeProperties hE properties hproperties hv
  | .array elements, w, v, hr, hv => by
    unfold Reference.write
    cases hr with
    | array helements =>
      exact (works_requireIterable v).bind fun _ _ _ hacts _ =>
        works_writeElements hE 0 elements (fun r hr => (helements r hr).next hacts) (hacts.value hv)

theorem works_writeProperties (hE : E.Fair S) : ∀ (properties : List (PropertyKey × Reference)) {w : World}
    {v : Value}, (∀ p ∈ properties, p.2.Proper S w) → w.Shows S v →
      Works S own w (writeProperties E v properties) World.Anything
  | [], w, v, _, _ => by
    unfold writeProperties
    exact .pure trivial
  | (key, target) :: rest, w, v, hproperties, hv => by
    unfold writeProperties
    refine (works_getProperty hE hv).bind fun w₁ item _ hacts hitem => ?_
    have htarget := (hproperties _ (List.mem_cons_self ..)).next hacts
    refine (works_write hE target htarget hitem).bind fun w₂ _ _ hacts₂ _ => ?_
    exact works_writeProperties hE rest
      (fun p hp => ((hproperties p (List.mem_cons_of_mem _ hp)).next hacts).next hacts₂)
      (hacts₂.value (hacts.value hv))

theorem works_writeElements (hE : E.Fair S) : ∀ (i : Nat) (elements : List (Option Reference)) {w : World}
    {v : Value}, (∀ r, some r ∈ elements → r.Proper S w) → w.Shows S v →
      Works S own w (writeElements E v i elements) World.Anything
  | _, [], w, v, _, _ => by
    unfold writeElements
    exact .pure trivial
  | i, none :: rest, w, v, helements, hv => by
    unfold writeElements
    exact works_writeElements hE (i + 1) rest (fun r hr => helements r (List.mem_cons_of_mem _ hr)) hv
  | i, some target :: rest, w, v, helements, hv => by
    unfold writeElements
    refine (works_getProperty hE hv).bind fun w₁ item _ hacts hitem => ?_
    have htarget := (helements _ (List.mem_cons_self ..)).next hacts
    refine (works_write hE target htarget hitem).bind fun w₂ _ _ hacts₂ _ => ?_
    exact works_writeElements hE (i + 1) rest
      (fun r hr => ((helements r (List.mem_cons_of_mem _ hr)).next hacts).next hacts₂)
      (hacts₂.value (hacts.value hv))

end

/-! ### Resolving -/

theorem Completion.Public.value {h : Heap} {R : Realm} {c : Completion} (hc : c.Public R h) :
    c.value.Public R h := by
  cases c with
  | thrown v => exact hc
  | returned v => exact hc
  | normal v => cases v with
    | none => trivial
    | some v => exact hc v rfl
  | broken l v => cases v with
    | none => trivial
    | some v => exact hc v rfl
  | continued l v => cases v with
    | none => trivial
    | some v => exact hc v rfl

theorem Completion.Public.value? {h : Heap} {R : Realm} {c : Completion} (hc : c.Public R h) :
    ∀ v, c.value? = some v → v.Public R h := by
  intro v hv
  have hvalue := hc.value
  unfold Completion.value at hvalue
  rw [hv] at hvalue
  exact hvalue

theorem Completion.Public.updateEmpty {h : Heap} {R : Realm} {c : Completion} {v : Option Value}
    (hc : c.Public R h) (hv : ∀ x, v = some x → x.Public R h) : (c.updateEmpty v).Public R h := by
  unfold Completion.updateEmpty
  split
  · exact hv
  · exact hv
  · exact hv
  · exact hc

theorem works_resolveKey (hE : E.Fair S) (hs : w.heap.Binds s o) (key : MemberKey) :
    Works S own w (resolveKey E s key) fun w' key => w'.heap.Keyed key := by
  cases key with
  | named name => exact works_keyOfName.imp fun _ _ _ _ ⟨hspells, _⟩ => hspells.keyed
  | computed e => exact (hE.evaluate e hs).bind fun _ c _ _ hc => works_toPropertyKey hE hc.value

mutual

theorem works_resolvePattern (hE : E.Fair S) : ∀ (target : Pattern) {w : World}, w.heap.Binds s o →
    Works S own w (resolvePattern E s target) fun w' r => r.Proper S w'
  | .ident name, w, _ => by
    unfold resolvePattern
    exact .pure (.binding name)
  | .member base key, w, hs => by
    unfold resolvePattern
    refine (hE.evaluate base hs).bind fun w₁ c _ hacts hc => ?_
    refine (works_resolveKey hE (hacts.binds hs) key).bind fun w₂ k _ hacts₂ hk => ?_
    exact .read (Heap.mild_scopeIsStrict s) fun strict _ => .pure (.property strict (hacts₂.value hc.value) hk)
  | .object properties, w, hs => by
    unfold resolvePattern
    exact (works_resolveProperties hE properties hs).bind fun _ _ _ _ hr => .pure (.object hr)
  | .array elements, w, hs => by
    unfold resolvePattern
    exact (works_resolveElements hE elements hs).bind fun _ _ _ _ hr => .pure (.array hr)

theorem works_resolveProperties (hE : E.Fair S) : ∀ (properties : List (String × Pattern)) {w : World},
    w.heap.Binds s o → Works S own w (resolveProperties E s properties) fun w' rs => ∀ p ∈ rs, p.2.Proper S w'
  | [], w, _ => by
    unfold resolveProperties
    exact .pure fun _ hp => absurd hp List.not_mem_nil
  | (name, target) :: rest, w, hs => by
    unfold resolveProperties
    refine works_keyOfName.bind fun w₁ key _ hacts₁ _ => ?_
    refine (works_resolvePattern hE target (hacts₁.binds hs)).bind fun w₂ r _ hacts₂ hr => ?_
    refine (works_resolveProperties hE rest (hacts₂.binds (hacts₁.binds hs))).bind fun w₃ rs _ hacts₃ hrs => ?_
    refine .pure fun p hp => ?_
    rcases List.mem_cons.mp hp with rfl | hp
    · exact hr.next hacts₃
    · exact hrs p hp

theorem works_resolveElements (hE : E.Fair S) : ∀ (elements : List (Option Pattern)) {w : World},
    w.heap.Binds s o →
      Works S own w (resolveElements E s elements) fun w' rs => ∀ r, some r ∈ rs → r.Proper S w'
  | [], w, _ => by
    unfold resolveElements
    exact .pure fun _ hr => absurd hr List.not_mem_nil
  | none :: rest, w, hs => by
    unfold resolveElements
    refine (works_resolveElements hE rest hs).bind fun w₁ rs _ _ hrs => .pure fun r hr => ?_
    rcases List.mem_cons.mp hr with hr | hr
    · cases hr
    · exact hrs r hr
  | some target :: rest, w, hs => by
    unfold resolveElements
    refine (works_resolvePattern hE target hs).bind fun w₁ r _ hacts₁ hr => ?_
    refine (works_resolveElements hE rest (hacts₁.binds hs)).bind fun w₂ rs _ hacts₂ hrs => ?_
    refine .pure fun r' hr' => ?_
    rcases List.mem_cons.mp hr' with hr' | hr'
    · cases hr'
      exact hr.next hacts₂
    · exact hrs r' hr'

end

/-- **A value is written to a pattern.** -/
theorem works_writePattern (hE : E.Fair S) (hs : w.heap.Binds s o) (target : Pattern) (hv : w.Shows S v) :
    Works S own w (writePattern E s target v) World.Anything :=
  (works_resolvePattern hE target hs).bind fun _ r _ hacts hr => works_write hE r hr (hacts.value hv)

end ScriptCore
