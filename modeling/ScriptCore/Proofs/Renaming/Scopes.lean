import ScriptCore.Callable
import ScriptCore.Proofs.Renaming.Operators

/-! # Scopes and functions go alike

Walks along the scopes that enclose a scope are bounded by the number of slots of the heap, which
differs between the two sides. A paired scope has finitely many scopes around it, no more than either
heap has slots, so neither walk ever reaches its bound and both end at paired objects.

* `Heap.Alike.outermostObject`, `Heap.Alike.binding`: the two walks.
* `sim_lookupName`, `sim_assignName`: reading and writing names.
* `sim_allocClosure`, `sim_errorToValue`: making functions and error objects.
* `sim_createRealm`: two realms built on heaps that are alike. -/

namespace ScriptCore

variable {M : Mode} {ρ ρ' : Renaming} {h₁ h₂ : Heap} {E₁ E₂ : Engine}

/-! ### Walking outwards -/

namespace Heap.Alike

/-- Paired scopes are enclosed by equally many. -/
theorem chain_right (hh : Heap.Alike M ρ h₁ h₂) {o : Option ScopeRef} {l : List Handle}
    (hc : Chain h₁ o l) : ∀ {p : Option ScopeRef}, ScriptCore.Alike ρ o p →
      ∃ l', Chain h₂ p l' ∧ l'.length = l.length := by
  induction hc with
  | nil =>
    intro p hp
    cases hp
    exact ⟨[], .nil, rfl⟩
  | cons hb _ ih =>
    intro p hp
    obtain _ | hst := hp
    obtain ⟨a, b, ha, hb', hab⟩ := hh.scope hst
    rw [scope_eq_ok, hb] at ha
    cases ha
    obtain ⟨l', hl', hlen⟩ := ih (Scope.alike_iff.mp hab).2.1
    exact ⟨_, .cons (scope_eq_ok.mp hb') hl', by rw [List.length_cons, List.length_cons, hlen]⟩

/-- The scopes around a paired scope fit into the bounds of both sides. -/
theorem chain_bounds (hh : Heap.Alike M ρ h₁ h₂) {s t : ScopeRef} (hs : ScriptCore.Alike ρ s t) :
    ∃ l, Chain h₁ (some s) l ∧ l.length ≤ h₁.chainBound ∧ l.length ≤ h₂.chainBound := by
  obtain ⟨l, hl⟩ := hh.grounded s t hs
  obtain ⟨l', hl', hlen⟩ := hh.chain_right hl (.some hs)
  have h1 := hl.length_le
  have h2 := hl'.length_le
  exact ⟨l, hl, Nat.le_succ_of_le h1, Nat.le_succ_of_le (hlen ▸ h2)⟩

theorem outermostWithin (hh : Heap.Alike M ρ h₁ h₂) {o : Option ScopeRef} {l : List Handle}
    (hc : Chain h₁ o l) : ∀ {s t : ScopeRef} {n m : Nat}, o = some s → ScriptCore.Alike ρ s t →
      l.length ≤ n → l.length ≤ m →
      ScriptCore.Alike ρ (h₁.outermostWithin n s) (h₂.outermostWithin m t) := by
  induction hc with
  | nil => exact nofun
  | @cons s sc l hb _ ih =>
    rintro _ t (_ | n) (_ | m) ⟨⟩ hst hn hm
    iterate 3 simp at hn hm
    obtain ⟨a, b, ha, hb', hab⟩ := hh.scope hst
    obtain rfl : sc = a := by rw [scope_eq_ok, hb] at ha; cases ha; rfl
    obtain ⟨ho, hp, -⟩ := Scope.alike_iff.mp hab
    simp only [Heap.outermostWithin, ha, hb']
    generalize sc.parent = p, b.parent = q at hp ih
    cases hp with
    | none => exact .ok ho
    | some hp => exact ih rfl hp (Nat.le_of_succ_le_succ hn) (Nat.le_of_succ_le_succ hm)

theorem outermostObject (hh : Heap.Alike M ρ h₁ h₂) {s t : ScopeRef} (hs : ScriptCore.Alike ρ s t) :
    ScriptCore.Alike ρ (h₁.outermostObject s) (h₂.outermostObject t) := by
  obtain ⟨l, hl, hn, hm⟩ := hh.chain_bounds hs
  exact hh.outermostWithin hl rfl hs hn hm

theorem bindingWithin (hh : Heap.Alike M ρ h₁ h₂) {k k' : PropertyKey} (hk : ScriptCore.Alike ρ k k')
    {o : Option ScopeRef} {l : List Handle} (hc : Chain h₁ o l) :
    ∀ {p : Option ScopeRef} {n m : Nat}, ScriptCore.Alike ρ o p → l.length ≤ n → l.length ≤ m →
      ScriptCore.Alike ρ (h₁.bindingWithin k n o) (h₂.bindingWithin k' m p) := by
  induction hc with
  | nil =>
    intro p n m hp _ _
    cases hp
    simp only [Heap.bindingWithin]
    exact .ok .none
  | @cons s sc l hb _ ih =>
    rintro p (_ | n) (_ | m) hp hn hm
    iterate 3 simp at hn hm
    obtain _ | hst := hp
    obtain ⟨a, b, ha, hb', hab⟩ := hh.scope hst
    obtain rfl : sc = a := by rw [scope_eq_ok, hb] at ha; cases ha; rfl
    obtain ⟨ho, hp, -⟩ := Scope.alike_iff.mp hab
    have hcell := hh.ownCell ho hk
    simp only [Heap.bindingWithin, ha, hb']
    generalize h₁.ownCell sc.object k = x, h₂.ownCell b.object k' = y at hcell
    cases hcell with
    | error he => exact .error he
    | ok hcd =>
      cases hcd with
      | some _ => exact .ok (.some ho)
      | none => exact ih hp (Nat.le_of_succ_le_succ hn) (Nat.le_of_succ_le_succ hm)

theorem binding (hh : Heap.Alike M ρ h₁ h₂) {s t : ScopeRef} {k l : PropertyKey}
    (hs : ScriptCore.Alike ρ s t) (hk : ScriptCore.Alike ρ k l) :
    ScriptCore.Alike ρ (h₁.binding s k) (h₂.binding t l) := by
  obtain ⟨c, hc, hn, hm⟩ := hh.chain_bounds hs
  exact hh.bindingWithin hk hc (.some hs) hn hm

/-! ### Reading scopes -/

theorem scope? (hh : Heap.Alike M ρ h₁ h₂) {s t : ScopeRef} (hs : ScriptCore.Alike ρ s t) :
    ScriptCore.Alike ρ (h₁.scope s) (h₂.scope t) := by
  obtain ⟨a, b, ha, hb, hab⟩ := hh.scope hs
  rw [ha, hb]
  exact .ok hab

theorem object? (hh : Heap.Alike M ρ h₁ h₂) {o p : ObjectRef} (ho : ScriptCore.Alike ρ o p) :
    ScriptCore.Alike ρ (h₁.object o) (h₂.object p) := by
  obtain ⟨a, b, ha, hb, hab⟩ := hh.object ho
  rw [ha, hb]
  exact .ok hab

theorem scopeReceiver (hh : Heap.Alike M ρ h₁ h₂) {s t : ScopeRef} (hs : ScriptCore.Alike ρ s t) :
    ScriptCore.Alike ρ (h₁.scopeReceiver s) (h₂.scopeReceiver t) :=
  alike_bind (hh.scope? hs) fun _ _ hab => .ok (Scope.alike_iff.mp hab).2.2.1

theorem scopeIsStrict (hh : Heap.Alike M ρ h₁ h₂) {s t : ScopeRef} (hs : ScriptCore.Alike ρ s t) :
    ScriptCore.Alike ρ (h₁.scopeIsStrict s) (h₂.scopeIsStrict t) :=
  alike_bind (hh.scope? hs) fun _ _ hab => .ok (Scope.alike_iff.mp hab).2.2.2.2

end Heap.Alike

theorem Scope.alike_target {s t : Scope} (h : Alike ρ s t) : Alike ρ s.target t.target := by
  obtain ⟨ho, -, -, hw, -⟩ := Scope.alike_iff.mp h
  exact alike_getD hw ho

/-! ### Making and changing scopes -/

theorem sim_childScope {s t : ScopeRef} (hs : Alike ρ s t) :
    Sim M ρ Alike (childScope s) (childScope t) := by
  refine (Sim.reads fun _ hρ _ _ hh => hh.scope? (hs.mono hρ)).bind fun ρ₁ hρ₁ a b hab => ?_
  refine (Heap.sim_allocObject .object .none .ordinary).bind fun ρ₂ hρ₂ o p ho => ?_
  obtain ⟨-, -, hr, -, hstrict⟩ := Scope.alike_iff.mp hab
  exact Heap.sim_allocScope (Scope.alike_iff.mpr
    ⟨ho, .some ((hs.mono hρ₁).mono hρ₂), hr.mono hρ₂, .none, hstrict⟩)

theorem sim_setScopeReceiver {s t : ScopeRef} {v w : Value} (hs : Alike ρ s t) (hv : Alike ρ v w) :
    Sim M ρ Alike (setScopeReceiver s v) (setScopeReceiver t w) :=
  Heap.sim_modifyScope hs (fun _ hρ _ _ hab => ⟨hab.1, hab.2.1, hv.mono hρ, hab.2.2.2⟩) fun _ => rfl

theorem sim_setScopeStrict {s t : ScopeRef} (strict : Bool) (hs : Alike ρ s t) :
    Sim M ρ Alike (setScopeStrict s strict) (setScopeStrict t strict) :=
  Heap.sim_modifyScope hs
    (fun _ _ _ _ hab => ⟨hab.1, hab.2.1, hab.2.2.1, hab.2.2.2.1, rfl⟩) fun _ => rfl

theorem sim_setScopeWriteTo {s t : ScopeRef} {o p : Option ObjectRef} (hs : Alike ρ s t)
    (ho : Alike ρ o p) : Sim M ρ Alike (setScopeWriteTo s o) (setScopeWriteTo t p) := by
  have modify : ∀ {ρ'}, ρ ≤ ρ' → Sim M ρ' Alike
      (Heap.modifyScope s fun sc => { sc with writeTo := o })
      (Heap.modifyScope t fun sc => { sc with writeTo := p }) := fun hρ =>
    Heap.sim_modifyScope (hs.mono hρ)
      (fun _ hρ' _ _ hab => ⟨hab.1, hab.2.1, hab.2.2.1, ho.mono (hρ.trans hρ'), hab.2.2.2.2⟩)
      fun _ => rfl
  cases ho with
  | none => exact modify le_rfl
  | some h =>
    exact (Sim.reads fun _ hρ _ _ hh => hh.object? (h.mono hρ)).discard.bind fun _ hρ _ _ _ => modify hρ

/-! ### Declaring names -/

theorem sim_readTarget {s t : ScopeRef} (hs : Alike ρ s t) :
    Sim M ρ (fun ρ (a b : Scope) => Alike ρ a.target b.target)
      (Proc.reads fun h : Heap => h.scope s) (Proc.reads fun h : Heap => h.scope t) :=
  (Sim.reads fun _ hρ _ _ hh => hh.scope? (hs.mono hρ)).conseq fun _ _ _ _ => Scope.alike_target

theorem sim_declare {s t : ScopeRef} (name : String) {v w : Value} (hs : Alike ρ s t)
    (hv : Alike ρ v w) : Sim M ρ Alike (declare s name v) (declare t name w) :=
  (sim_readTarget hs).bind fun _ hρ₁ _ _ ht =>
    (Heap.sim_keyOfName name).bind fun _ hρ₂ _ _ hk =>
      Heap.sim_define (ht.mono hρ₂) hk (Descriptor.alike_declared (hv.mono (hρ₁.trans hρ₂)))

theorem sim_declareAll : ∀ (names : List String) (ρ : Renaming) (s t : ScopeRef), Alike ρ s t →
    Sim M ρ Alike (declareAll s names) (declareAll t names)
  | [], _, _, _, _ => .pure rfl
  | name :: names, _, s, t, hs =>
    (sim_declare name hs .undefined).discard.bind fun ρ₁ hρ₁ _ _ _ =>
      sim_declareAll names ρ₁ s t (hs.mono hρ₁)

theorem sim_declareCell {s t : ScopeRef} (name : String) {c d : CellRef} (hs : Alike ρ s t)
    (hc : Alike ρ c d) : Sim M ρ Alike (declareCell s name c) (declareCell t name d) :=
  (sim_readTarget hs).bind fun _ hρ₁ _ _ ht =>
    (Heap.sim_keyOfName name).bind fun _ hρ₂ _ _ hk =>
      Heap.sim_installCell (ht.mono hρ₂) hk (hc.mono (hρ₁.trans hρ₂))

/-! ### Names -/

theorem sim_lookupName {s t : ScopeRef} (name : String) (hs : Alike ρ s t) :
    Sim M ρ Alike (lookupName E₁ s name) (lookupName E₂ t name) := by
  refine (Heap.sim_keyOfName name).onHeap.bind fun ρ₁ hρ₁ k l hk => ?_
  have hs := hs.mono hρ₁
  refine (Sim.readHeap fun _ hρ _ _ hh => hh.binding (hs.mono hρ) (hk.mono hρ)).bind
    fun ρ₂ hρ₂ o p hop => ?_
  cases hop with
  | none => exact .fail (.same rfl nofun)
  | some hop =>
    refine (Sim.readHeap fun _ hρ _ _ hh =>
      hh.ownProperty (hop.mono hρ) (hk.mono (hρ₂.trans hρ))).bind fun ρ₃ hρ₃ d e hde => ?_
    cases hde with
    | none => exact .fail (.same rfl nofun)
    | some hde => exact sim_readDescriptor hde

theorem sim_hasBinding {s t : ScopeRef} (name : String) (hs : Alike ρ s t) :
    Sim M ρ Alike (hasBinding s name) (hasBinding t name) := by
  refine (Heap.sim_keyOfName name).onHeap.bind fun ρ₁ hρ₁ k l hk => ?_
  have hs := hs.mono hρ₁
  refine (Sim.readHeap fun _ hρ _ _ hh => hh.binding (hs.mono hρ) (hk.mono hρ)).bind
    fun ρ₂ hρ₂ o p hop => ?_
  cases hop <;> exact .pure rfl

theorem sim_assignName (hE : Engine.Sim M E₁ E₂) {s t : ScopeRef} (name : String) {v w : Value}
    (hs : Alike ρ s t) (hv : Alike ρ v w) :
    Sim M ρ Alike (assignName E₁ s name v) (assignName E₂ t name w) := by
  refine (Heap.sim_keyOfName name).onHeap.bind fun ρ₁ hρ₁ k l hk => ?_
  have hs := hs.mono hρ₁
  have hv := hv.mono hρ₁
  refine (Sim.readHeap fun _ hρ _ _ hh => hh.scopeIsStrict (hs.mono hρ)).bind
    fun ρ₂ hρ₂ strict strict' hstrict => ?_
  obtain rfl : strict = strict' := hstrict
  have hs := hs.mono hρ₂
  have hv := hv.mono hρ₂
  have hk := hk.mono hρ₂
  refine (Sim.readHeap fun _ hρ _ _ hh => hh.binding (hs.mono hρ) (hk.mono hρ)).bind
    fun ρ₃ hρ₃ o p hop => ?_
  have hs := hs.mono hρ₃
  have hv := hv.mono hρ₃
  have hk := hk.mono hρ₃
  cases hop with
  | some hop => exact (sim_setProperty hE strict hop hk hv).discard
  | none =>
    cases strict with
    | true => exact .fail (.same rfl nofun)
    | false =>
      exact (Sim.readHeap fun _ hρ _ _ hh => hh.outermostObject (hs.mono hρ)).bind
        fun _ hρ₄ _ _ ho => (sim_setProperty hE false ho (hk.mono hρ₄) (hv.mono hρ₄)).discard

/-! ### Functions and error objects -/

theorem sim_defineFunctionNames {f g : ObjectRef} (name : String) (arity : Nat) (hf : Alike ρ f g) :
    Sim M ρ Alike (defineFunctionNames f name arity) (defineFunctionNames g name arity) := by
  refine (Heap.sim_internString name).onHeap.bind fun ρ₁ hρ₁ s t hs => ?_
  refine Sim.names.bind fun ρ₂ hρ₂ n m hn => ?_
  obtain ⟨hlength, -, hname, -⟩ := CommonNames.alike_iff.mp hn
  have hf := hf.mono (hρ₁.trans hρ₂)
  refine (Heap.sim_define hf hname (Descriptor.alike_readonly (Descriptor.alike_hidden
    (.string (hs.mono hρ₂))))).onHeap.discard.bind fun ρ₃ hρ₃ _ _ _ => ?_
  exact (Heap.sim_define (hf.mono hρ₃) (hlength.mono hρ₃) (Descriptor.alike_readonly
    (Descriptor.alike_hidden (.number _)))).onHeap.discard

theorem sim_allocClosureObject {c d : Closure} (hc : Alike ρ c d) :
    Sim M ρ Alike (allocClosureObject c) (allocClosureObject d) := by
  refine Sim.realm.bind fun ρ₁ hρ₁ r s hr => ?_
  obtain ⟨-, -, -, hfunction, -, -, -, -, -, hn, -⟩ := Realm.alike_iff.mp hr
  refine (Heap.sim_allocObject .function (.some hfunction) (.closure (hc.mono hρ₁))).onHeap.bind
    fun ρ₂ hρ₂ f g hf => ?_
  refine sim_allocPlainObject.bind fun ρ₃ hρ₃ o p ho => ?_
  have hf := hf.mono hρ₃
  have hprototype := (CommonNames.alike_iff.mp hn).2.1.mono (hρ₂.trans hρ₃)
  refine (Heap.sim_define hf hprototype (Descriptor.alike_nonConfigurable
    (Descriptor.alike_hidden (.object ho)))).onHeap.discard.bind fun ρ₄ hρ₄ _ _ _ => ?_
  rw [(Closure.alike_iff.mp hc).2.2.2.1]
  exact (sim_defineFunctionNames _ _ (hf.mono hρ₄)).bind fun _ hρ₅ _ _ _ =>
    .pure ((hf.mono hρ₄).mono hρ₅)

theorem sim_allocClosure (f : Function) {s t : ScopeRef} (hs : Alike ρ s t) :
    Sim M ρ Alike (allocClosure f s) (allocClosure f t) := by
  have make : ∀ {ρ'} {v w : Option Value}, ρ ≤ ρ' → Alike ρ' v w → Sim M ρ' Alike
      (allocClosureObject ⟨f, s, none, v, f.isExpression⟩)
      (allocClosureObject ⟨f, t, none, w, f.isExpression⟩) := fun hρ hv =>
    sim_allocClosureObject (Closure.alike_iff.mpr ⟨hs.mono hρ, .none, hv, rfl, rfl⟩)
  unfold allocClosure
  split
  · exact ((Sim.readHeap fun _ hρ _ _ hh => hh.scopeReceiver (hs.mono hρ)).map
      fun _ _ _ _ hv _ hρ => .some (hv.mono hρ)).bind fun _ hρ _ _ hv => make hρ hv
  · exact make le_rfl .none

theorem Heap.Alike.functionName (hh : Heap.Alike M ρ h₁ h₂) {f g : ObjectRef}
    (hf : ScriptCore.Alike ρ f g) : ∃ name, h₁.functionName f = .ok name ∧
      h₂.functionName g = .ok name := by
  obtain ⟨a, b, ha, hb, hab⟩ := hh.object hf
  obtain ⟨-, -, hk, -⟩ := Object.alike_iff.mp hab
  simp only [Heap.functionName, ha, hb, ok_bind]
  generalize a.kind = k, b.kind = l at hk
  cases hk with
  | ordinary => exact ⟨none, rfl, rfl⟩
  | array => exact ⟨none, rfl, rfl⟩
  | @closure c d hc => exact ⟨c.function.name, rfl, by rw [(Closure.alike_iff.mp hc).2.2.2.1]; rfl⟩

/-- **The value by which the program sees an error.** -/
theorem sim_errorToValue {e e' : Error} (he : Alike ρ e e') :
    Sim M ρ Alike (errorToValue e) (errorToValue e') := by
  cases he with
  | throw hv => exact .pure hv
  | same hi ht =>
    have object : Sim M ρ Alike
        (do
          let realm ← Run.realm
          let o ← Heap.allocObject (some realm.errorPrototype) .error .ordinary
          let name ← Heap.internString e.surfaceName
          let message ← Heap.internString e.message
          discard (Heap.define o realm.names.name (.hidden (.string name)))
          discard (Heap.define o realm.names.message (.hidden (.string message)))
          return Value.object o : Run Value)
        (do
          let realm ← Run.realm
          let o ← Heap.allocObject (some realm.errorPrototype) .error .ordinary
          let name ← Heap.internString e.surfaceName
          let message ← Heap.internString e.message
          discard (Heap.define o realm.names.name (.hidden (.string name)))
          discard (Heap.define o realm.names.message (.hidden (.string message)))
          return Value.object o) := by
      refine Sim.realm.bind fun ρ₁ hρ₁ r s hr => ?_
      obtain ⟨-, -, -, -, -, -, -, -, herror, hn, -⟩ := Realm.alike_iff.mp hr
      obtain ⟨-, -, hname, hmessage, -⟩ := CommonNames.alike_iff.mp hn
      refine (Heap.sim_allocObject .error (.some herror) .ordinary).onHeap.bind
        fun ρ₂ hρ₂ o p ho => ?_
      refine (Heap.sim_internString _).onHeap.bind fun ρ₃ hρ₃ x y hx => ?_
      refine (Heap.sim_internString _).onHeap.bind fun ρ₄ hρ₄ z w hz => ?_
      have ho := (ho.mono hρ₃).mono hρ₄
      have hle := (hρ₂.trans hρ₃).trans hρ₄
      refine (Heap.sim_define ho (hname.mono hle) (Descriptor.alike_hidden
        (.string (hx.mono hρ₄)))).onHeap.discard.bind fun ρ₅ hρ₅ _ _ _ => ?_
      refine (Heap.sim_define (ho.mono hρ₅) (hmessage.mono (hle.trans hρ₅)) (Descriptor.alike_hidden
        (.string (hz.mono hρ₅)))).onHeap.discard.bind fun ρ₆ hρ₆ _ _ _ => ?_
      exact .pure (.object ((ho.mono hρ₅).mono hρ₆))
    cases e with
    | throw v => exact absurd rfl (ht v)
    | _ => exact object

/-! ### Realms -/

theorem sim_internNames : Sim M ρ Alike CommonNames.intern CommonNames.intern := by
  refine (Heap.sim_keyOfName _).bind fun ρ₁ hρ₁ _ _ h₁ => ?_
  refine (Heap.sim_keyOfName _).bind fun ρ₂ hρ₂ _ _ h₂ => ?_
  refine (Heap.sim_keyOfName _).bind fun ρ₃ hρ₃ _ _ h₃ => ?_
  refine (Heap.sim_keyOfName _).bind fun ρ₄ hρ₄ _ _ h₄ => ?_
  refine (Heap.sim_keyOfName _).bind fun ρ₅ hρ₅ _ _ h₅ => ?_
  refine (Heap.sim_keyOfName _).bind fun ρ₆ hρ₆ _ _ h₆ => ?_
  refine (Heap.sim_keyOfName _).bind fun ρ₇ hρ₇ _ _ h₇ => ?_
  refine (Heap.sim_keyOfName _).bind fun ρ₈ hρ₈ _ _ h₈ => ?_
  have h₇₈ := hρ₈
  have h₆₈ := hρ₇.trans h₇₈
  have h₅₈ := hρ₆.trans h₆₈
  have h₄₈ := hρ₅.trans h₅₈
  have h₃₈ := hρ₄.trans h₄₈
  have h₂₈ := hρ₃.trans h₃₈
  exact .pure (CommonNames.alike_iff.mpr ⟨h₁.mono (hρ₂.trans h₂₈), h₂.mono h₂₈, h₃.mono h₃₈,
    h₄.mono h₄₈, h₅.mono h₅₈, h₆.mono h₆₈, h₇.mono h₇₈, h₈⟩)

theorem sim_defineConstant {o p : ObjectRef} (name : String) {v w : Value} (ho : Alike ρ o p)
    (hv : Alike ρ v w) :
    Sim M ρ Alike (Realm.defineConstant o name v) (Realm.defineConstant p name w) :=
  (Heap.sim_keyOfName name).bind fun _ hρ _ _ hk =>
    (Heap.sim_define (ho.mono hρ) hk (Descriptor.alike_nonConfigurable
      (Descriptor.alike_readonly (Descriptor.alike_hidden (hv.mono hρ))))).discard

/-- **Realms built on heaps that are alike.** -/
theorem sim_createRealm (sloppy : Bool) :
    Sim M ρ Alike (Realm.create sloppy) (Realm.create sloppy) := by
  refine sim_internNames.bind fun ρ₁ _ n m hn => ?_
  refine (Heap.sim_allocObject .object .none .ordinary).bind fun ρ₂ hρ₂ _ _ hobject => ?_
  refine (Heap.sim_allocObject .function (.some hobject) .ordinary).bind fun ρ₃ hρ₃ _ _ hfunction => ?_
  have hobject := hobject.mono hρ₃
  refine (Heap.sim_allocObject .array (.some hobject) .ordinary).bind fun ρ₄ hρ₄ _ _ harray => ?_
  have hobject := hobject.mono hρ₄
  refine (Heap.sim_allocObject _ (.some hobject) .ordinary).bind fun ρ₅ hρ₅ _ _ hstring => ?_
  have hobject := hobject.mono hρ₅
  refine (Heap.sim_allocObject _ (.some hobject) .ordinary).bind fun ρ₆ hρ₆ _ _ hnumber => ?_
  have hobject := hobject.mono hρ₆
  refine (Heap.sim_allocObject _ (.some hobject) .ordinary).bind fun ρ₇ hρ₇ _ _ hboolean => ?_
  have hobject := hobject.mono hρ₇
  refine (Heap.sim_allocObject .error (.some hobject) .ordinary).bind fun ρ₈ hρ₈ _ _ herror => ?_
  -- the prototypes so far, under the pairs of this moment
  have hobject := hobject.mono hρ₈
  have hboolean := hboolean.mono hρ₈
  have hnumber := (hnumber.mono hρ₇).mono hρ₈
  have hstring := (hstring.mono hρ₆).mono (hρ₇.trans hρ₈)
  have harray := (harray.mono hρ₅).mono (hρ₆.trans (hρ₇.trans hρ₈))
  have hfunction := (hfunction.mono hρ₄).mono (hρ₅.trans (hρ₆.trans (hρ₇.trans hρ₈)))
  have hn := ((hn.mono hρ₂).mono hρ₃).mono (hρ₄.trans (hρ₅.trans (hρ₆.trans (hρ₇.trans hρ₈))))
  obtain ⟨hlength, -, hname, hmessage, -⟩ := CommonNames.alike_iff.mp hn
  refine (Heap.sim_allocCell (Descriptor.alike_nonConfigurable
    (Descriptor.alike_hidden (.number _)))).bind fun ρ₉ hρ₉ _ _ hcell => ?_
  refine (Heap.sim_installCell (harray.mono hρ₉) (hlength.mono hρ₉) hcell).bind
    fun ρ₁₀ hρ₁₀ _ _ _ => ?_
  refine (Heap.sim_internString _).bind fun ρ₁₁ hρ₁₁ _ _ htext => ?_
  have hle := hρ₉.trans (hρ₁₀.trans hρ₁₁)
  refine (Heap.sim_define (herror.mono hle) (hname.mono hle)
    (Descriptor.alike_hidden (.string htext))).discard.bind fun ρ₁₂ hρ₁₂ _ _ _ => ?_
  refine (Heap.sim_internString _).bind fun ρ₁₃ hρ₁₃ _ _ htext => ?_
  have hle := hle.trans (hρ₁₂.trans hρ₁₃)
  refine (Heap.sim_define (herror.mono hle) (hmessage.mono hle)
    (Descriptor.alike_hidden (.string htext))).discard.bind fun ρ₁₄ hρ₁₄ _ _ _ => ?_
  have hle := hle.trans hρ₁₄
  refine (Heap.sim_allocObject .object (.some (hobject.mono hle)) .ordinary).bind
    fun ρ₁₅ hρ₁₅ _ _ hglobal => ?_
  refine (Heap.sim_keyOfName _).bind fun ρ₁₆ hρ₁₆ _ _ hk => ?_
  have hglobal := hglobal.mono hρ₁₆
  refine (Heap.sim_define hglobal hk (Descriptor.alike_hidden (.object hglobal))).discard.bind
    fun ρ₁₇ hρ₁₇ _ _ _ => ?_
  have hglobal := hglobal.mono hρ₁₇
  refine (sim_defineConstant _ hglobal .undefined).bind fun ρ₁₈ hρ₁₈ _ _ _ => ?_
  have hglobal := hglobal.mono hρ₁₈
  refine (sim_defineConstant _ hglobal (.number _)).bind fun ρ₁₉ hρ₁₉ _ _ _ => ?_
  have hglobal := hglobal.mono hρ₁₉
  refine (sim_defineConstant _ hglobal (.number _)).bind fun ρ₂₀ hρ₂₀ _ _ _ => ?_
  have hglobal := hglobal.mono hρ₂₀
  refine Sim.bind (Heap.sim_allocScope ?_) fun ρ₂₁ hρ₂₁ _ _ hscope => ?_
  · exact Scope.alike_iff.mpr ⟨hglobal, .none, .object hglobal, .none, rfl⟩
  have hle := hle.trans (hρ₁₅.trans (hρ₁₆.trans (hρ₁₇.trans (hρ₁₈.trans (hρ₁₉.trans
    (hρ₂₀.trans hρ₂₁))))))
  exact .pure (Realm.alike_iff.mpr ⟨hscope, hglobal.mono hρ₂₁, hobject.mono hle, hfunction.mono hle,
    harray.mono hle, hstring.mono hle, hnumber.mono hle, hboolean.mono hle, herror.mono hle,
    hn.mono hle, rfl⟩)

end ScriptCore
