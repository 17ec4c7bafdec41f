import ScriptCore.Proofs.Scope.Sequences
import ScriptCore.Task.Invocation

/-! # Setting up a call

A call opens a scope and binds in it its own name, its variables, in sloppy code the names of the functions declared
in it, the object that offers its arguments and its parameters, in this order, so that what is bound later hides what
was bound before under the same name.

* `Initial`, `Function.atParams`, `paramInitial`: what the names of a call are bound to at first.
* `Heap.Entered`: the scope of the call, and what it binds.
* `Heap.Offers`: the object that offers the arguments.
* `InvocationTask.gives_setUp`: **what is bound when a call was set up.**
* `InvocationTask.gives_bindParams`: **what is bound when its parameters are.** -/

namespace ScriptCore

variable {h h' h₀ h₁ : Heap} {m : Machine} {O : ObjectRef → Prop} {C : CellRef → Prop} {a o : ObjectRef} {obj : Object}
  {key : PropertyKey} {c l : CellRef} {slots : List CellRef} {d : Descriptor} {v : Value} {vs : List Value} {R : Realm}
  {E : Engine} {i : Nat} {s : ScopeRef} {sc outer : Scope} {Γ : Heap.Bindings} {t : InvocationTask} {strict : Bool}
  {name : String} {P : Initial → Value → Prop} {μ : String → Option Initial}

/-! ### What names are bound to at first -/

/-- What a name of a call may be bound to when its body starts. -/
inductive Initial where
  /-- The closure of a function that the body declares. -/
  | function (g : Function)
  /-- The argument at a position, `undefined` if there is none. -/
  | argument (i : Nat)
  /-- An array of the arguments from a position on. -/
  | rest (i : Nat)
  /-- The object that offers the arguments. -/
  | arguments
  | undefined
  /-- The closure that is called. -/
  | callee

namespace Function

/-- What the names are bound to that a function declares: variables and, in sloppy code, functions hide the name of the
function itself. -/
def atDeclarations (f : Function) (strict : Bool) (name : String) : Option Initial :=
  if name ∈ f.vars ∨ strict = false ∧ name ∈ f.functions.filterMap (·.name) then some .undefined
  else if f.name = some name then some .callee else none

/-- The same when the object that offers the arguments is bound, too. -/
def atParams (f : Function) (strict : Bool) (name : String) : Option Initial :=
  if name = "arguments" then some .arguments else f.atDeclarations strict name

end Function

/-- What the parameters from position `i` on bind: of those with one name the last counts, and nothing after a rest
parameter is bound. -/
def paramInitial : Nat → List Param → String → Option Initial
  | _, [], _ => none
  | i, .simple n _ :: params, name =>
    (paramInitial (i + 1) params name).or (if n = name then some (.argument i) else none)
  | i, .rest n :: _, name => if n = name then some (.rest i) else none
  | i, .pattern _ _ :: params, name => paramInitial (i + 1) params name

/-- The argument at a position, `undefined` if there is none. -/
def argumentAt (args : List Value) (i : Nat) : Value := args[i]?.getD .undefined

namespace InvocationTask

theorem length_paddedArgs (t : InvocationTask) :
    t.paddedArgs.length = max t.args.length t.closure.function.params.length := by
  unfold paddedArgs
  rw [List.length_append, List.length_replicate]
  omega

theorem getElem?_paddedArgs (hi : i < t.paddedArgs.length) : t.paddedArgs[i]? = some (argumentAt t.args i) := by
  rw [length_paddedArgs] at hi
  unfold paddedArgs argumentAt
  by_cases hlt : i < t.args.length
  · rw [List.getElem?_append_left hlt, List.getElem?_eq_getElem hlt]
    rfl
  · rw [List.getElem?_append_right (Nat.le_of_not_lt hlt), List.getElem?_replicate, if_pos (by omega),
      List.getElem?_eq_none (Nat.le_of_not_lt hlt)]
    rfl

end InvocationTask

/-- A call that runs. -/
structure Activation where
  callee : ObjectRef
  args : List Value
  realm : Realm
  /-- The heap before the call. -/
  before : Heap
  scope : ScopeRef
  /-- The object in which the scope binds names. -/
  bindings : ObjectRef
  /-- The object that offers the arguments. -/
  arguments : ObjectRef

/-- The call `t` in the scope `s` that binds names in `o`, with its arguments offered by `a`. -/
def InvocationTask.activation (t : InvocationTask) (R : Realm) (h₀ : Heap) (s : ScopeRef) (o a : ObjectRef) : Activation :=
  ⟨t.callee, t.args, R, h₀, s, o, a⟩

/-- **The object is a closure of the function**, made in the scope. -/
def Heap.ClosureOf (h : Heap) (f : ObjectRef) (g : Function) (s : ScopeRef) : Prop :=
  ∃ cl, h.closure f = .ok cl ∧ cl.function = g ∧ cl.scope = s ∧ cl.boundScope = none

/-- The cells of the object `b` are its own as far as `o` is concerned. -/
structure Heap.Apart (h : Heap) (o b : ObjectRef) : Prop where
  ne : b ≠ o
  live : ∀ key c, h.Refers b key c → ∃ d, h.cell c = .ok d
  unshared : ∀ key c key', h.Refers b key c → ¬ h.Refers o key' c

theorem Heap.Apart.of_layer {b : ObjectRef} (hl : h.Layer s sc Γ) (hne : b ≠ sc.object)
    (hlive : ∀ key c, h.Refers b key c → ∃ d, h.cell c = .ok d)
    (hunbound : ∀ name c v, Γ name = some (c, v) → ∀ key, ¬ h.Refers b key c) : h.Apart sc.object b :=
  ⟨hne, hlive, fun key c key' hr hr' => let ⟨name, v, hname, _⟩ := hl.only key' c hr'; hunbound name c v hname key hr⟩

/-- **What the value is to which a name is bound.** -/
def Initial.Means (k : Activation) (h : Heap) : Initial → Value → Prop
  | .function g, v => ∃ f, v = .object f ∧ h.ClosureOf f g k.scope
  | .argument i, v => v = argumentAt k.args i
  | .rest i, v => ∃ b, v = .object b ∧ (∀ x, k.before.object b ≠ .ok x) ∧ h.Lists k.realm b (k.args.drop i) ∧
      h.Apart k.bindings b
  | .arguments, v => v = .object k.arguments
  | .undefined, v => v = .undefined
  | .callee, v => v = .object k.callee

/-- **What is bound is what `μ` says**, and nothing else is. -/
structure Heap.Bindings.Reflects (Γ : Heap.Bindings) (P : Initial → Value → Prop) (μ : String → Option Initial) : Prop where
  bound : ∀ name x, μ name = some x → ∃ c v, Γ name = some (c, v) ∧ P x v
  unbound : ∀ name, μ name = none → Γ name = none

theorem Heap.Bindings.Reflects.nothing : Heap.Bindings.Reflects (fun _ => none) P fun _ => none :=
  ⟨nofun, fun _ _ => rfl⟩

theorem Heap.Bindings.Reflects.imp {P' : Initial → Value → Prop} (hr : Γ.Reflects P μ)
    (hP : ∀ name x v, μ name = some x → P x v → P' x v) : Γ.Reflects P' μ :=
  ⟨fun name x hx => let ⟨c, v, hname, hv⟩ := hr.bound name x hx; ⟨c, v, hname, hP name x v hx hv⟩, hr.unbound⟩

theorem Heap.Bindings.Reflects.update {x : Initial} (hr : Γ.Reflects P μ) (name : String) (c : CellRef) (hx : P x v) :
    Heap.Bindings.Reflects (Function.update Γ name (some (c, v))) P (Function.update μ name (some x)) := by
  refine ⟨fun n y hn => ?_, fun n hn => ?_⟩
  · by_cases hname : n = name
    · rw [hname, Function.update_self] at hn ⊢
      cases hn
      exact ⟨c, v, rfl, hx⟩
    · rw [Function.update_of_ne hname] at hn ⊢
      exact hr.bound n y hn
  · by_cases hname : n = name
    · rw [hname, Function.update_self] at hn
      cases hn
    · rw [Function.update_of_ne hname] at hn ⊢
      exact hr.unbound n hn

/-! ### The scope of the call -/

namespace Heap

/-- **The scope was opened since `h₀`**, and what it binds is `Γ`; nothing that was there has changed. -/
structure Entered (h₀ : Heap) (s : ScopeRef) (sc : Scope) (Γ : Bindings) (h : Heap) : Prop where
  kept : h.WellKept
  untouched : Untouched h₀ h
  freshObject : ∀ obj, h₀.object sc.object ≠ .ok obj
  freshScope : ∀ x, h₀.scope s ≠ .ok x
  layer : h.Layer s sc Γ

namespace Entered

/-- What binds names in the scope changes nothing that was there before. -/
theorem next {Γ' : Bindings} (he : h₀.Entered s sc Γ h) (hk : h'.WellKept)
    (ht : OnlyTouches (· = sc.object) (fun _ => False) h h') (hl : h'.Layer s sc Γ') : h₀.Entered s sc Γ' h' :=
  ⟨hk, he.untouched.trans ht (fun _ obj ho hx => he.freshObject obj (ho ▸ hx)) fun _ _ hc _ => hc, he.freshObject,
    he.freshScope, hl⟩

theorem beside (he : h₀.Entered s sc Γ h) (hk : h'.WellKept) (ht : Untouched h h') : h₀.Entered s sc Γ h' :=
  he.next hk ht.untouched (he.layer.untouched ht)

/-- An object that was made beside the scope is not the one that binds its names. -/
theorem ne_of_making {b : ObjectRef} (he : h₀.Entered s sc Γ h) (hm : h.Making b obj h₁) : b ≠ sc.object := by
  rintro rfl
  obtain ⟨x, hx⟩ := he.layer.live
  exact hm.fresh x hx

end Entered

/-- A new scope binds nothing. -/
theorem gives_childScope (hk : h.WellKept) (parent : ScopeRef) :
    h.Gives (childScope parent) fun h' s => ∃ outer o, h.scope parent = .ok outer ∧
      h.Entered s ⟨o, some parent, outer.receiver, none, outer.strict⟩ (fun _ => none) h' := by
  refine .read fun outer houter => .bind (gives_allocObject hk none .object .ordinary) fun h₁ o hm s h' hdone => ?_
  have hkept := (routine_allocScope (K := fun _ => True) _).keeps_wellKept hm.kept hdone
  rcases allocScope_filled hm.kept.valid _ with ⟨e, hfailed⟩ | ⟨s', h₂, hdone', hf⟩
  · rw [hdone] at hfailed
    cases hfailed
  cases hdone.symm.trans hdone'
  have ho := hf.object hm.object
  refine ⟨outer, o, houter, hkept, hm.untouched.andThen hf.untouched, hm.fresh,
    fun x hx => ?_, scope_eq_ok.mpr hf.block?_self, rfl, ⟨_, ho⟩, nofun, fun key c hr => ?_, nofun⟩
  · have hx' := scope_eq_ok.mp (hm.untouched.scope s x hx)
    rw [hf.fresh rfl] at hx'
    cases hx'
  · cases hr.find? ho

/-- A name that is a key already is declared. -/
theorem Entered.gives_define (he : h₀.Entered s sc Γ h) (hs : h.Spells key name) (v : Value) :
    h.Gives (define sc.object key (.declared v)) fun h' c =>
      h₀.Entered s sc (Function.update Γ name (some (c, v))) h' ∧
        OnlyTouches (· = sc.object) (fun _ => False) h h' ∧ ∀ d, h.cell c ≠ .ok d := by
  intro c h' hdone
  obtain ⟨hr, hc, hfresh, -⟩ := define_rekeys he.kept hdone
  refine ⟨he.next hr.kept hr.touches ?_, hr.touches, hfresh⟩
  exact he.layer.rekey hr (hr.touches.spells hs) ⟨_, hc, rfl⟩ fun other w _ => he.layer.ne_fresh hfresh other w

/-- A new scope gets another receiver or becomes strict. -/
theorem Entered.gives_modifyScope {f : Scope → Scope} (he : h₀.Entered s sc Γ h) (hobject : (f sc).object = sc.object)
    (hwriteTo : (f sc).writeTo = none) :
    h.Gives (modifyScope s f) fun h' _ => h₀.Entered s (f sc) Γ h' := by
  intro x h' hdone
  have hkept := Routine.keeps_wellKept (.modifyScope s f) he.kept hdone
  rw [modifyScope_done he.layer.scope] at hdone
  cases hdone
  have hblock := scope_eq_ok.mp he.layer.scope
  have hsame : h.SameBut s.handle (.scope (f sc)) (h.put s.handle (.scope (f sc))) :=
    block?_put (Option.isSome_of_eq_some hblock) _
  obtain ⟨hobjects, hcells, htexts⟩ := put_scope he.layer.scope (f sc)
  have hscope : ∀ q, q ≠ s → (h.put s.handle (.scope (f sc))).scope q = h.scope q := by
    intro q hq
    unfold Heap.scope
    rw [hsame, if_neg]
    rintro hqs
    exact hq (congrArg ScopeRef.mk hqs)
  have hself : (h.put s.handle (.scope (f sc))).scope s = .ok (f sc) :=
    scope_eq_ok.mpr ((hsame s.handle).trans (if_pos rfl))
  refine ⟨hkept, ?_, fun obj ho => he.freshObject obj (hobject ▸ ho), he.freshScope, ?_⟩
  · refine ⟨fun t u ht => (htexts t).trans (he.untouched.text t u ht), fun q x hx => ?_,
      fun o obj hno ho => (hobjects o).trans (he.untouched.object o obj hno ho),
      fun c d hnc hc => (hcells c).trans (he.untouched.cell c d hnc hc),
      fun o obj ho => ⟨obj, (hobjects o).trans (he.untouched.object o obj id ho)⟩,
      fun c d hc => ⟨d, (hcells c).trans (he.untouched.cell c d id hc)⟩⟩
    exact (hscope q (fun hq => he.freshScope x (hq ▸ hx))).trans (he.untouched.scope q x hx)
  · exact he.layer.transport hself hobject hwriteTo (fun obj ho => (hobjects _).trans ho)
      (fun _ c _ d _ hc => (hcells c).trans hc) fun _ _ _ _ hs => hs.of_texts fun t u _ ht => (htexts t).trans ht

end Heap

namespace InvocationTask

/-- The scope is inside the one in which the closure was made. -/
theorem gives_openScope (hk : h.WellKept) (hunbound : t.closure.boundScope = none) :
    m.Gives h t.openScope fun h' x => ∃ outer o, h.scope t.closure.scope = .ok outer ∧
      h.Entered x.1 ⟨o, some t.closure.scope, outer.receiver, none, outer.strict⟩ (fun _ => none) h' := by
  unfold openScope
  rw [hunbound]
  exact .bind (.onHeap (Heap.gives_childScope hk t.closure.scope)) fun _ _ hs => .pure hs

theorem gives_bodyReceiver (t : InvocationTask) (strict : Bool) (v : Value) :
    m.Gives h (t.bodyReceiver strict v) fun h' _ => h' = h := by
  refine .realm ?_
  split
  · exact .read fun _ _ => .pure rfl
  · exact .pure rfl

end InvocationTask

/-! ### Declarations -/

section Declaring

variable (he : h₀.Entered s sc Γ h) (hr : Γ.Reflects P μ)
include he hr

theorem Heap.Entered.gives_declare (name : String) (v : Value) {x : Initial} (hx : P x v) :
    h.Gives (declare s name v) fun h' _ => ∃ Γ', h₀.Entered s sc Γ' h' ∧
      Γ'.Reflects P (Function.update μ name (some x)) :=
  (he.layer.gives_declare he.kept name v).imp fun _ c hdeclared =>
    ⟨_, he.next hdeclared.1 hdeclared.2.1 hdeclared.2.2.2, hr.update name c hx⟩

theorem Heap.Entered.gives_declareAll (names : List String) (hundefined : P .undefined .undefined) :
    h.Gives (declareAll s names) fun h' _ => ∃ Γ', h₀.Entered s sc Γ' h' ∧
      Γ'.Reflects P fun n => if n ∈ names then some .undefined else μ n := by
  induction names generalizing h Γ μ with
  | nil => exact .pure ⟨Γ, he, by simpa using hr⟩
  | cons name names ih =>
    refine .discard_bind (he.gives_declare hr name .undefined hundefined) fun h₁ _ hdeclared => ?_
    obtain ⟨Γ₁, he₁, hr₁⟩ := hdeclared
    refine (ih he₁ hr₁).imp fun h' _ hall => ?_
    obtain ⟨Γ', he', hr'⟩ := hall
    refine ⟨Γ', he', ?_⟩
    convert hr' using 2 with n
    by_cases hn : n = name
    · subst hn
      simp
    · simp [hn]

end Declaring

/-- **The names that a function declares are bound.** -/
theorem InvocationTask.gives_declareNames (he : h₀.Entered s sc (fun _ => none) h) (hcallee : P .callee (.object t.callee))
    (hundefined : P .undefined .undefined) :
    m.Gives h (t.declareNames s strict) fun h' _ => ∃ Γ', h₀.Entered s sc Γ' h' ∧
      Γ'.Reflects P (t.closure.function.atDeclarations strict) := by
  unfold declareNames
  dsimp only
  -- What remains to be declared once the function itself is bound, or has no name.
  have hrest : ∀ {h Γ}, h₀.Entered s sc Γ h →
      Γ.Reflects P (fun n => if t.closure.function.name = some n then some .callee else none) →
      m.Gives h (do
        declareAll s t.closure.function.vars
        if !strict then declareAll s (t.closure.function.functions.filterMap (·.name)) : Run Unit)
        fun h' _ => ∃ Γ', h₀.Entered s sc Γ' h' ∧ Γ'.Reflects P (t.closure.function.atDeclarations strict) := by
    intro h Γ he hr
    refine .bind (.onHeap (he.gives_declareAll hr _ hundefined)) fun h₁ _ hvars => ?_
    obtain ⟨Γ₁, he₁, hr₁⟩ := hvars
    cases strict with
    | true =>
      refine .pure ⟨Γ₁, he₁, ?_⟩
      convert hr₁ using 2 with n
      simp [Function.atDeclarations]
    | false =>
      refine (Machine.Gives.onHeap (he₁.gives_declareAll hr₁ _ hundefined)).imp fun h' _ hall => ?_
      obtain ⟨Γ', he', hr'⟩ := hall
      refine ⟨Γ', he', ?_⟩
      convert hr' using 2 with n
      unfold Function.atDeclarations
      simp only [true_and]
      split_ifs <;> simp_all
  cases hname : t.closure.function.name with
  | none =>
    rw [hname] at hrest
    exact hrest he .nothing
  | some name =>
    rw [hname] at hrest
    refine .discard_bind (.onHeap (he.gives_declare .nothing name (.object t.callee) hcallee)) fun h₁ _ hdeclared => ?_
    obtain ⟨Γ₁, he₁, hr₁⟩ := hdeclared
    refine hrest he₁ ?_
    convert hr₁ using 2 with n
    by_cases hn : n = name
    · simp [hn]
    · simp [hn, Ne.symm hn]

/-! ### The arguments -/

/-- Every index of the object is below `n`. -/
def Object.IndexedBelow (obj : Object) (n : Nat) : Prop :=
  ∀ j c, obj.properties.find? (.index j) = some c → j.toNat < n

theorem Object.IndexedBelow.bind {n : Nat} (hobj : obj.IndexedBelow n) (c : CellRef) :
    (obj.bind (.index n.toUInt32) c).IndexedBelow (n + 1) := by
  intro j x hx
  change (obj.properties.insert _ c).find? _ = some x at hx
  rw [PropertyMap.find?_insert] at hx
  split_ifs at hx with hj
  · cases hj
    exact Nat.lt_succ_of_le (Nat.mod_le ..)
  · exact Nat.lt_succ_of_lt (hobj j x hx)

theorem Object.IndexedBelow.find?_next {n : Nat} (hobj : obj.IndexedBelow n) (hn : n < UInt32.size) :
    obj.properties.find? (.index n.toUInt32) = none := by
  cases hfind : obj.properties.find? (.index n.toUInt32) with
  | none => rfl
  | some c =>
    have hlt := hobj _ c hfind
    rw [Nat.toUInt32_eq, UInt32.toNat_ofNat', Nat.mod_eq_of_lt hn] at hlt
    exact absurd hlt (Nat.lt_irrefl n)

/-- The object that offers the arguments while it is filled: it has `vs` in the cells `slots`, and is otherwise new. -/
structure Heap.Filling (h₀ : Heap) (R : Realm) (a : ObjectRef) (vs : List Value) (slots : List CellRef) (obj : Object)
    (h : Heap) : Prop where
  making : h₀.Making a obj h
  kind : obj.kind = .ordinary
  tag : obj.tag = .arguments
  prototype : obj.prototype = some R.objectPrototype
  indexed : obj.IndexedBelow vs.length
  sequence : h.Sequence a vs slots

/-- One more argument was put into the object. -/
theorem Heap.Filling.append (hf : h₀.Filling R a vs slots obj h) (hm : h₀.Making a (obj.bind (.index vs.length.toUInt32) c) h')
    (hre : h.Rekeyed a (.index vs.length.toUInt32) c h') (hfresh : c ∉ slots) (hc : h'.Stores c v) :
    h₀.Filling R a (vs ++ [v]) (slots ++ [c]) (obj.bind (.index vs.length.toUInt32) c) h' where
  making := hm
  kind := hf.kind
  tag := hf.tag
  prototype := hf.prototype
  indexed := by
    rw [List.length_append, List.length_singleton]
    exact hf.indexed.bind c
  sequence := hf.sequence.append hf.making.kept hf.making.object (hf.sequence.length ▸ hre) hfresh hc

theorem Heap.Filling.beside (hf : h₀.Filling R a vs slots obj h) (hk : h'.WellKept) (ht : Heap.Untouched h h') :
    h₀.Filling R a vs slots obj h' :=
  { hf with making := hf.making.beside hk ht, sequence := hf.sequence.next ht id fun _ _ => id }

theorem Heap.Filling.count_lt (hf : h₀.Filling R a vs slots obj h) : vs.length < UInt32.size :=
  hf.sequence.length ▸ hf.making.kept.numbered.count_cells hf.sequence.nodup fun _ => hf.sequence.live

/-- **The object is filled with the arguments**, and in sloppy code with the cells that are made for them. -/
theorem gives_fillArguments (hp : h₀.PlainIndices m.realm) (strict : Bool) (vs' : List Value) :
    ∀ {h : Heap} {vs : List Value} {slots : List CellRef} {obj : Object}, h₀.Filling m.realm a vs slots obj h →
      m.Gives h (InvocationTask.fillArguments E a strict vs.length vs') fun h' cells => ∃ obj' slots',
        h₀.Filling m.realm a (vs ++ vs') slots' obj' h' ∧ (strict = false → slots' = slots ++ cells) := by
  induction vs' with
  | nil =>
    intro h vs slots obj hf
    exact .pure ⟨obj, slots, by rwa [List.append_nil], fun _ => (List.append_nil _).symm⟩
  | cons v vs' ih =>
    intro h vs slots obj hf
    refine .bind (.onHeap (Heap.gives_allocCell hf.making.kept (.data v))) fun h₁ c hallocated => ?_
    obtain ⟨hk₁, ht₁, hfresh, hc⟩ := hallocated
    have hf₁ := hf.beside hk₁ ht₁
    -- With the argument in place, the rest follows.
    have hrest : ∀ {h₂ x}, h₀.Filling m.realm a (vs ++ [v]) (slots ++ [x]) (obj.bind (.index vs.length.toUInt32) x) h₂ →
        (strict = false → x = c) → m.Gives h₂ (do
          return c :: (← InvocationTask.fillArguments E a strict (vs.length + 1) vs')) fun h' cells => ∃ obj' slots',
            h₀.Filling m.realm a (vs ++ v :: vs') slots' obj' h' ∧ (strict = false → slots' = slots ++ cells) := by
      intro h₂ x hf₂ hx
      have hfilled := ih hf₂
      rw [List.length_append, List.length_singleton] at hfilled
      refine .bind hfilled fun h' cells hall => ?_
      obtain ⟨obj', slots', hf', hslots⟩ := hall
      refine .pure ⟨obj', slots', by rwa [List.append_assoc] at hf', fun hsloppy => ?_⟩
      rw [hslots hsloppy, hx hsloppy, List.append_assoc]
      rfl
    have hnew : ∀ {x}, (∀ d, h.cell x ≠ .ok d) → x ∉ slots := fun hx hmem =>
      let ⟨d, hd⟩ := hf.sequence.live hmem
      hx d hd
    cases strict with
    | true =>
      refine .discard_bind (gives_setProperty hf₁.making hf₁.kind hf₁.prototype (hp.untouched hf₁.making.untouched)
        (hf.indexed.find?_next hf.count_lt) E v) fun h₂ _ hset => ?_
      obtain ⟨x, hm₂, hre, hx, hfresh'⟩ := hset
      exact hrest (hf₁.append hm₂ hre (hnew fun d hd => hfresh' d (ht₁.cell x d id hd)) ⟨_, hx, rfl⟩) nofun
    | false =>
      refine .bind (.onHeap (hf₁.making.gives_installCell _ (fun e => hf.making.fresh_cell hfresh e) hc))
        fun h₂ _ hinstalled => ?_
      obtain ⟨hm₂, hre, hx⟩ := hinstalled
      exact hrest (hf₁.append hm₂ hre (hnew hfresh) ⟨_, hx, rfl⟩) fun _ => rfl

/-- The names that a call needs are those of the realm. -/
structure CommonNames.Spelled (names : CommonNames) (h : Heap) : Prop where
  length : h.Spells names.length "length"
  callee : h.Spells names.callee "callee"
  arguments : h.Spells names.arguments "arguments"

namespace CommonNames.Spelled

variable {names : CommonNames} (hn : names.Spelled h)
include hn

theorem untouched (ht : Heap.Untouched h h') : names.Spelled h' :=
  ⟨ht.spells hn.length, ht.spells hn.callee, ht.spells hn.arguments⟩

theorem length_ne_index (i : UInt32) : names.length ≠ .index i := by
  obtain ⟨r, hr, -⟩ : ∃ r, names.length = .string r ∧ h.text r = .ok (Text.ofString "length") := hn.length
  rw [hr]
  exact nofun

theorem callee_ne_index (i : UInt32) : names.callee ≠ .index i := by
  obtain ⟨r, hr, -⟩ : ∃ r, names.callee = .string r ∧ h.text r = .ok (Text.ofString "callee") := hn.callee
  rw [hr]
  exact nofun

end CommonNames.Spelled

/-- **The object offers the arguments of the call** in the cells `slots`, and their number in the cell `l`. -/
structure Heap.Offers (h : Heap) (R : Realm) (t : InvocationTask) (a : ObjectRef) (l : CellRef) (slots : List CellRef) :
    Prop where
  object : ∃ obj, h.object a = .ok obj ∧ obj.tag = .arguments
  refers : h.Refers a R.names.length l
  length : h.cell l = .ok (.hidden (.ofCount t.args.length))
  sequence : h.Sequence a t.paddedArgs slots
  distinct : l ∉ slots

/-- It does as long as its properties are not touched. -/
theorem Heap.Offers.next (ho : h.Offers R t a l slots) (ht : Heap.OnlyTouches O C h h') (hO : ¬ O a) (hl : ¬ C l)
    (hC : ∀ c ∈ slots, ¬ C c) : h'.Offers R t a l slots :=
  let ⟨obj, hobj, htag⟩ := ho.object
  ⟨⟨obj, ht.object a obj hO hobj, htag⟩, ht.refers hO ho.refers, ht.cell l _ hl ho.length, ho.sequence.next ht hO hC,
    ho.distinct⟩

/-- A property of the object that is no argument. -/
theorem Heap.Filling.other (hf : h₀.Filling R a vs slots obj h) (hm : h₀.Making a (obj.bind key c) h')
    (hre : h.Rekeyed a key c h') (hkey : ∀ i, key ≠ .index i) : h₀.Filling R a vs slots (obj.bind key c) h' where
  making := hm
  kind := hf.kind
  tag := hf.tag
  prototype := hf.prototype
  indexed j x hx := by
    change (obj.properties.insert key c).find? _ = some x at hx
    rw [PropertyMap.find?_insert, if_neg (hkey j)] at hx
    exact hf.indexed j x hx
  sequence := hf.sequence.other hf.making.object hre hkey

namespace InvocationTask

theorem gives_allocArguments (hk : h.WellKept) (hn : m.realm.names.Spelled h) (hp : h.PlainIndices m.realm)
    (t : InvocationTask) (strict : Bool) :
    m.Gives h (t.allocArguments E strict) fun h' x => ∃ obj l slots, h.Making x.1 obj h' ∧
      h'.Offers m.realm t x.1 l slots ∧ (strict = false → slots = x.2) := by
  unfold allocArguments
  refine .realm (.bind (.onHeap (Heap.gives_allocObject hk _ .arguments .ordinary)) fun h₁ a hm => ?_)
  have hempty : h.Filling m.realm a [] [] ⟨some m.realm.objectPrototype, .arguments, true, .empty, .ordinary⟩ h₁ :=
    ⟨hm, rfl, rfl, rfl, (fun _ _ hc => by cases hc), .nil h₁ a⟩
  refine .bind (gives_fillArguments hp strict t.paddedArgs hempty) fun h₂ cells hfilled => ?_
  obtain ⟨obj₂, slots, hf₂, hslots⟩ := hfilled
  rw [List.nil_append] at hf₂
  -- The number of the arguments comes last.
  have hlength : ∀ {h₃ obj₃}, h.Filling m.realm a t.paddedArgs slots obj₃ h₃ → m.Gives h₃ (do
      discard (Heap.define a m.realm.names.length (.hidden (.ofCount t.args.length)) : Run CellRef)
      return (a, cells)) fun h' x => ∃ obj l slots, h.Making x.1 obj h' ∧ h'.Offers m.realm t x.1 l slots ∧
        (strict = false → slots = x.2) := by
    intro h₃ obj₃ hf₃
    refine .discard_bind (.onHeap (hf₃.making.gives_define _ _)) fun h₄ c hdefined => ?_
    obtain ⟨hm₄, hre, hc, hfresh⟩ := hdefined
    have hf₄ := hf₃.other hm₄ hre hn.length_ne_index
    refine .pure ⟨_, c, slots, hm₄, ⟨⟨_, hm₄.object, hf₄.tag⟩, ?_, hc, hf₄.sequence, fun hmem => ?_⟩, hslots⟩
    · exact (hre.refers hf₃.making.object _ _).mpr (by rw [if_pos rfl])
    · obtain ⟨d, hd⟩ := hf₃.sequence.live hmem
      exact hfresh d hd
  cases strict with
  | true => exact hlength hf₂
  | false =>
    refine .discard_bind (.onHeap (hf₂.making.gives_define _ _)) fun h₃ c hdefined => ?_
    obtain ⟨hm₃, hre, -, -⟩ := hdefined
    exact hlength (hf₂.other hm₃ hre hn.callee_ne_index)

/-- **The call `t` became `t'` when it was set up**, and what is bound is what its function says, before the parameters
are bound. -/
structure Prepared (t : InvocationTask) (R : Realm) (h₀ : Heap) (s : ScopeRef) (sc : Scope) (Γ : Heap.Bindings)
    (a : ObjectRef) (l : CellRef) (slots : List CellRef) (t' : InvocationTask) (h : Heap) : Prop where
  task : t' = { t with scope := some s, strict := sc.strict, argCells := t'.argCells }
  entered : h₀.Entered s sc Γ h
  reflects : ∀ h', Γ.Reflects (Initial.Means (t.activation R h₀ s sc.object a) h') (t.closure.function.atParams sc.strict)
  offers : h.Offers R t a l slots
  cells : sc.strict = false → slots = t'.argCells
  apart : a ≠ sc.object
  unshared : ∀ name c v, Γ name = some (c, v) → c ≠ l ∧ c ∉ slots

/-- **A call is set up.** -/
theorem gives_setUp (hk : h.WellKept) (hn : m.realm.names.Spelled h) (hp : h.PlainIndices m.realm)
    (hunbound : t.closure.boundScope = none) :
    m.Gives h (t.setUp E) fun h' t' => ∃ outer s sc Γ a l slots, h.scope t.closure.scope = .ok outer ∧
      sc.parent = some t.closure.scope ∧ sc.strict = (t.closure.function.strict || outer.strict) ∧
      t.Prepared m.realm h s sc Γ a l slots t' h' := by
  refine .bind (gives_openScope hk hunbound) fun h₁ x hopened => ?_
  obtain ⟨outer, o, houter, he₁⟩ := hopened
  obtain ⟨s, receiver⟩ := x
  dsimp only
  -- What remains when it is settled whether the scope is strict.
  suffices hrest : ∀ {h₂ sc}, h.Entered s sc (fun _ => none) h₂ → sc.parent = some t.closure.scope →
      sc.strict = (t.closure.function.strict || outer.strict) → m.Gives h₂ (do
        let strict ← Run.readHeap fun h => h.scopeIsStrict s
        let receiver ← t.bodyReceiver strict receiver
        setScopeReceiver s receiver
        t.declareNames s strict
        let x ← t.allocArguments E strict
        let names ← Run.names
        let target := (← Run.readHeap fun h => h.scope s).target
        discard (Heap.define target names.arguments (.declared (.object x.1)) : Run CellRef)
        return { t with scope := some s, strict, argCells := x.2 }) fun h' t' => ∃ outer s sc Γ a l slots,
          h.scope t.closure.scope = .ok outer ∧ sc.parent = some t.closure.scope ∧
          sc.strict = (t.closure.function.strict || outer.strict) ∧ t.Prepared m.realm h s sc Γ a l slots t' h' by
    cases hstrict : t.closure.function.strict with
    | true =>
      rw [hstrict] at hrest
      exact .bind (.onHeap (he₁.gives_modifyScope rfl rfl)) fun h₂ _ he₂ => hrest he₂ rfl rfl
    | false =>
      rw [hstrict] at hrest
      exact hrest he₁ rfl rfl
  intro h₂ sc he₂ hparent hsc
  refine .read fun strict hread => ?_
  obtain rfl : sc.strict = strict := by
    unfold Heap.scopeIsStrict at hread
    rw [he₂.layer.scope] at hread
    exact Except.ok.inj hread
  refine .bind (gives_bodyReceiver t sc.strict receiver) fun h₃ receiver hsame => ?_
  subst hsame
  refine .bind (.onHeap (he₂.gives_modifyScope rfl he₂.layer.writeTo)) fun h₃ _ he₃ => ?_
  -- What the names that are declared mean does not depend on what comes next.
  refine .bind (gives_declareNames (P := fun x v => ∀ a h', x.Means (t.activation m.realm h s sc.object a) h' v) he₃
    (fun _ _ => rfl) fun _ _ => rfl) fun h₄ _ hdeclared => ?_
  obtain ⟨Γ, he₄, hr⟩ := hdeclared
  refine .bind (gives_allocArguments he₄.kept (hn.untouched he₄.untouched) (hp.untouched he₄.untouched) t sc.strict)
    fun h₅ x hallocated => ?_
  obtain ⟨a, cells⟩ := x
  obtain ⟨obj, l, slots, hm, hoffers, hslots⟩ := hallocated
  have he₅ := he₄.beside hm.kept hm.untouched
  refine .names (.read fun sc' hread => ?_)
  cases he₅.layer.scope.symm.trans hread
  dsimp only
  rw [he₅.layer.target]
  refine .discard_bind (.onHeap (he₅.gives_define (hn.untouched he₅.untouched).arguments _)) fun h₆ c hdefined => ?_
  obtain ⟨he₆, ht, hfresh⟩ := hdefined
  have hapart : a ≠ sc.object := he₄.ne_of_making hm
  refine .pure ⟨outer, s, { sc with receiver }, _, a, l, slots, houter, hparent, hsc, rfl, he₆, fun h' => ?_,
    hoffers.next ht hapart id fun _ _ => id, hslots, hapart, fun name x v hx => ?_⟩
  · have hr' : Γ.Reflects (Initial.Means (t.activation m.realm h s sc.object a) h') _ := hr.imp fun _ _ _ _ hv => hv a h'
    convert hr'.update (v := .object a) (x := .arguments) "arguments" c rfl using 1
    funext name
    unfold Function.atParams
    by_cases hname : name = "arguments"
    · rw [if_pos hname, hname, Function.update_self]
    · rw [if_neg hname, Function.update_of_ne hname]
  · -- The cells of the arguments are newer than those of the declared names, and older than the one of `arguments`.
    by_cases hname : name = "arguments"
    · rw [hname, Function.update_self] at hx
      cases hx
      refine ⟨?_, fun hmem => ?_⟩
      · rintro rfl
        exact hfresh _ hoffers.length
      · obtain ⟨d, hd⟩ := hoffers.sequence.live hmem
        exact hfresh d hd
    · rw [Function.update_of_ne hname] at hx
      obtain ⟨⟨d, hd, -⟩, -⟩ := he₄.layer.bound name x v hx
      refine ⟨?_, fun hmem => ?_⟩
      · rintro rfl
        exact hm.apart hd _ hoffers.refers
      · obtain ⟨i, hi, rfl⟩ := List.getElem_of_mem hmem
        exact hm.apart hd _ (hoffers.sequence.slot i _ (List.getElem?_eq_getElem hi))

end InvocationTask

/-! ### Parameters -/

/-- The parameter needs no code to be bound: it is simple and has no default, or takes the rest of the arguments. -/
def Param.IsPlain : Param → Prop
  | .simple _ none | .rest _ => True
  | .simple _ (some _) | .pattern _ _ => False

/-- The cell to which a parameter is bound: in sloppy code that of its argument, otherwise a new one. -/
def Initial.BoundTo (t : InvocationTask) (h : Heap) (c : CellRef) : Initial → Prop
  | .argument i => if t.strict = true then ∀ d, h.cell c ≠ .ok d else t.argCells[i]? = some c
  | _ => ∀ d, h.cell c ≠ .ok d

theorem Initial.boundTo_of_strict (hs : t.strict = true) (hc : ∀ d, h.cell c ≠ .ok d) : (argument i).BoundTo t h c := by
  show if t.strict = true then _ else _
  rwa [if_pos hs]

theorem Initial.boundTo_of_sloppy (hs : t.strict = false) (hc : t.argCells[i]? = some c) : (argument i).BoundTo t h c := by
  show if t.strict = true then _ else _
  rwa [if_neg (by rw [hs]; exact Bool.false_ne_true)]

theorem Initial.BoundTo.earlier {x : Initial} (hx : x.BoundTo t h₁ c) (ht : Heap.OnlyTouches O C h h₁) : x.BoundTo t h c := by
  have hfresh : (∀ d, h₁.cell c ≠ .ok d) → ∀ d, h.cell c ≠ .ok d := fun hc d hd =>
    let ⟨d', hd'⟩ := ht.cells c d hd
    hc d' hd'
  cases x with
  | argument i =>
    unfold BoundTo at hx ⊢
    split_ifs at hx ⊢ with hstrict
    · exact hfresh hx
    · exact hx
  | _ => exact hfresh hx

namespace InvocationTask

/-- **The parameters are bound to what `μ` says** since the heap was `h` and the scope bound `Γ`; other names are bound
as they were. -/
structure Binds (k : Activation) (t : InvocationTask) (μ : String → Option Initial) (h : Heap) (Γ : Heap.Bindings)
    (h' : Heap) (Γ' : Heap.Bindings) : Prop where
  bound : ∀ name x, μ name = some x → ∃ c v, Γ' name = some (c, v) ∧ x.Means k h' v ∧ x.BoundTo t h c
  others : ∀ name, μ name = none → Γ' name = Γ name

/-- A simple parameter is bound, and then those that follow it. -/
theorem Binds.simple {k : Activation} {params : List Param} {default : Option Expr} {Γ' : Heap.Bindings}
    (hargs : k.args = t.args) (hc : (Initial.argument i).BoundTo t h c) (ht : Heap.OnlyTouches O C h h₁)
    (hb : t.Binds k (paramInitial (i + 1) params) h₁ (Function.update Γ name (some (c, argumentAt t.args i))) h' Γ') :
    t.Binds k (paramInitial i (.simple name default :: params)) h Γ h' Γ' := by
  refine ⟨fun n x hx => ?_, fun n hx => ?_⟩
  · unfold paramInitial at hx
    cases hrest : paramInitial (i + 1) params n with
    | some y =>
      rw [hrest] at hx
      cases hx
      obtain ⟨c', v, hn, hv, hc'⟩ := hb.bound n _ hrest
      exact ⟨c', v, hn, hv, hc'.earlier ht⟩
    | none =>
      rw [hrest, Option.none_or] at hx
      split_ifs at hx with hname
      cases hx
      subst hname
      exact ⟨c, argumentAt t.args i, (hb.others _ hrest).trans (Function.update_self ..), by rw [← hargs]; rfl, hc⟩
  · unfold paramInitial at hx
    obtain ⟨hrest, hx⟩ := Option.or_eq_none_iff.mp hx
    split_ifs at hx with hname
    rw [hb.others n hrest, Function.update_of_ne (Ne.symm hname)]

/-- The cells of the arguments from position `i` on hold them, and no name is bound to one of them. -/
structure Awaits (t : InvocationTask) (i : Nat) (Γ : Heap.Bindings) (h : Heap) : Prop where
  nodup : t.argCells.Nodup
  stores : ∀ j c, t.argCells[j]? = some c → h.Stores c (argumentAt t.args j)
  unbound : ∀ name c v, Γ name = some (c, v) → c ∉ t.argCells.drop i

/-- When a name was bound to the cell of the argument at position `i`, those of the next arguments are still waiting. -/
theorem Awaits.next (ha : t.Awaits i Γ h) (ht : Heap.OnlyTouches O (fun _ => False) h h')
    (hc : (Initial.argument i).BoundTo t h c) (hsloppy : t.strict = false) :
    t.Awaits (i + 1) (Function.update Γ name (some (c, v))) h' := by
  have hci : t.argCells[i]? = some c := by
    change if t.strict = true then _ else _ at hc
    rwa [if_neg (by rw [hsloppy]; exact Bool.false_ne_true)] at hc
  refine ⟨ha.nodup, fun j x hx => ht.stores id (ha.stores j x hx), fun n x u hn hmem => ?_⟩
  by_cases hname : n = name
  · rw [hname, Function.update_self] at hn
    cases hn
    obtain ⟨j, hj⟩ := List.mem_iff_getElem?.mp hmem
    rw [List.getElem?_drop] at hj
    have hsame := (List.getElem?_inj (List.getElem?_eq_some_iff.mp hci).1 ha.nodup).mp (hci.trans hj.symm)
    omega
  · rw [Function.update_of_ne hname] at hn
    refine ha.unbound n x u hn ?_
    rw [← List.drop_drop] at hmem
    exact List.mem_of_mem_drop hmem

theorem gives_askBody (t : InvocationTask) (s : ScopeRef) :
    m.Gives h (t.askBody s) fun h' x => h' = h ∧ ∃ node options,
      x = ({ t with state := .bodyEvaluating }, .ask ⟨.function, node, s, options⟩) ∧
      ∀ body, t.closure.function.body = .block body → node = .statements body := by
  refine .isDebug (.pure ⟨rfl, _, _, rfl, fun body hbody => ?_⟩)
  rw [hbody]

section Binding

variable (he : h₀.Entered s sc Γ h)
include he

theorem gives_bindSimple (hawaits : t.strict = false → t.Awaits i Γ h) (name : String) :
    m.Gives h (t.bindSimple s i name (argumentAt t.args i)) fun h' _ => ∃ c,
      h₀.Entered s sc (Function.update Γ name (some (c, argumentAt t.args i))) h' ∧
      Heap.OnlyTouches (· = sc.object) (fun _ => False) h h' ∧ (Initial.argument i).BoundTo t h c := by
  unfold bindSimple
  cases hstrict : t.strict with
  | true =>
    refine .map ((Machine.Gives.onHeap (he.layer.gives_declare he.kept name (argumentAt t.args i))).imp fun h' c hdeclared => ?_)
    obtain ⟨hk, ht, hfresh, hl⟩ := hdeclared
    exact ⟨c, he.next hk ht hl, ht, Initial.boundTo_of_strict hstrict hfresh⟩
  | false =>
    have ha := hawaits hstrict
    cases hc : t.argCells[i]? with
    | none => exact .fail _
    | some c =>
      have hmem : c ∈ t.argCells.drop i := List.mem_iff_getElem?.mpr ⟨0, by rw [List.getElem?_drop]; exact hc⟩
      refine (Machine.Gives.onHeap (he.layer.gives_declareCell he.kept (ha.stores i c hc)
        fun other w _ hother => ha.unbound other c w hother hmem)).imp fun h' _ hdeclared => ?_
      obtain ⟨hk, ht, hl⟩ := hdeclared
      exact ⟨c, he.next hk ht hl, ht, Initial.boundTo_of_sloppy hstrict hc⟩

/-- An object that was made beside the scope stays apart from its names when one of them is bound to it, in a new cell. -/
theorem apart_of_making {b : ObjectRef} (hm : h.Making b obj h₁) (hfresh : ∀ d, h₁.cell c ≠ .ok d)
    (ht : Heap.OnlyTouches (· = sc.object) (fun _ => False) h₁ h')
    (hl : h'.Layer s sc (Function.update Γ name (some (c, v)))) : h'.Apart sc.object b := by
  have hne := he.ne_of_making hm
  have hold : ∀ {key x}, h'.Refers b key x → h₁.Refers b key x := fun hr => ht.refers_of hne hm.object hr
  have hlive : ∀ {key x}, h'.Refers b key x → ∃ d, h₁.cell x = .ok d := fun hr =>
    (hm.cells _ _ ((hold hr).find? hm.object)).2
  refine .of_layer hl hne (fun key x hr => ?_) fun n x w hn key hr => ?_
  · obtain ⟨d, hd⟩ := hlive hr
    exact ⟨d, ht.cell x d id hd⟩
  · by_cases hsame : n = name
    · rw [hsame, Function.update_self] at hn
      cases hn
      obtain ⟨d, hd⟩ := hlive hr
      exact hfresh d hd
    · rw [Function.update_of_ne hsame] at hn
      obtain ⟨⟨d, hd, -⟩, -⟩ := he.layer.bound n x w hn
      exact hm.apart hd key (hold hr)

/-- **A rest parameter** is bound to a new array of the arguments that are left. -/
theorem Binds.rest {b : ObjectRef} {params : List Param} (hm : h.Making b obj h₁) (hlists : h₁.Lists R b (t.args.drop i))
    (hfresh : ∀ d, h₁.cell c ≠ .ok d) (ht : Heap.OnlyTouches (· = sc.object) (fun _ => False) h₁ h')
    (hl : h'.Layer s sc (Function.update Γ name (some (c, .object b)))) :
    t.Binds (t.activation R h₀ s sc.object a) (paramInitial i (.rest name :: params)) h Γ h'
      (Function.update Γ name (some (c, .object b))) := by
  refine ⟨fun n x hx => ?_, fun n hx => ?_⟩
  · unfold paramInitial at hx
    split_ifs at hx with hname
    cases hx
    subst hname
    have hlists' : h'.Lists R b (t.args.drop i) :=
      hlists.transport (fun obj => ht.object b obj (he.ne_of_making hm)) fun _ x d _ => ht.cell x d id
    exact ⟨c, .object b, Function.update_self ..,
      ⟨b, rfl, fun x hx => hm.fresh x (he.untouched.object b x id hx), hlists', apart_of_making he hm hfresh ht hl⟩,
      fun d hd => hfresh d (hm.untouched.cell c d id hd)⟩
  · unfold paramInitial at hx
    split_ifs at hx with hname
    rw [Function.update_of_ne (Ne.symm hname)]

end Binding

/-- **The parameters are bound**, and then the body is asked for. -/
theorem gives_bindParams (hn : ∀ i, m.realm.names.length ≠ .index i) (a : ObjectRef) (params : List Param) :
    ∀ {i : Nat} {h : Heap} {Γ : Heap.Bindings}, h₀.Entered s sc Γ h → (t.strict = false → t.Awaits i Γ h) →
      (∀ p ∈ params, p.IsPlain) → m.Gives h (bindParams E t s i params) fun h' x =>
        (∃ Γ', h₀.Entered s sc Γ' h' ∧ Heap.OnlyTouches (· = sc.object) (fun _ => False) h h' ∧
          t.Binds (t.activation m.realm h₀ s sc.object a) (paramInitial i params) h Γ h' Γ') ∧
        ∃ node options, x = ({ t with state := .bodyEvaluating }, .ask ⟨.function, node, s, options⟩) ∧
          ∀ body, t.closure.function.body = .block body → node = .statements body := by
  induction params with
  | nil =>
    intro i h Γ he _ _
    refine (gives_askBody t s).imp fun h' x hasked => ?_
    obtain ⟨rfl, hx⟩ := hasked
    exact ⟨⟨Γ, he, .refl _ _ _, ⟨nofun, fun _ _ => rfl⟩⟩, hx⟩
  | cons p params ih =>
    intro i h Γ he hawaits hplain
    cases p with
    | pattern target default => exact (hplain _ (List.mem_cons_self ..)).elim
    | rest name =>
      rw [bindParams]
      refine .bind (gives_allocArray he.kept hn (t.args.drop i)) fun h₁ b hallocated => ?_
      obtain ⟨obj, hm, hlists⟩ := hallocated
      have he₁ := he.beside hm.kept hm.untouched
      refine .discard_bind (.onHeap (he₁.layer.gives_declare he₁.kept name (.object b))) fun h₂ c hdeclared => ?_
      obtain ⟨hk₂, ht₂, hfresh, hl₂⟩ := hdeclared
      refine (gives_askBody t s).imp fun h' x hasked => ?_
      obtain ⟨rfl, hx⟩ := hasked
      exact ⟨⟨_, he₁.next hk₂ ht₂ hl₂, hm.untouched.untouched.andThen ht₂, .rest he hm hlists hfresh ht₂ hl₂⟩, hx⟩
    | simple name default =>
      cases default with
      | some e => exact (hplain _ (List.mem_cons_self ..)).elim
      | none =>
        have hbind : bindParams E t s i (.simple name none :: params) = (do
            t.bindSimple s i name (argumentAt t.args i)
            bindParams E t s (i + 1) params) := by
          rw [bindParams]
          · unfold argumentAt
            cases t.args[i]? <;> rfl
          · exact fun _ _ hsome => by cases hsome
        rw [hbind]
        refine .bind (gives_bindSimple he hawaits name) fun h₁ _ hbound => ?_
        obtain ⟨c, he₁, ht₁, hc⟩ := hbound
        refine (ih he₁ (fun hsloppy => ?_) fun p hp => hplain p (List.mem_cons_of_mem _ hp)).imp fun h' x hall => ?_
        · exact (hawaits hsloppy).next ht₁ hc hsloppy
        obtain ⟨⟨Γ', he', ht', hb⟩, hx⟩ := hall
        exact ⟨⟨Γ', he', ht₁.andThen ht', .simple rfl hc ht₁ hb⟩, hx⟩

end InvocationTask

end ScriptCore
