import ScriptCore.Proofs.Hiding.Tasks

/-! # Calls show no hidden object

A call is set up in a scope inside that of its closure. It declares its names there, unless the closure has a scope
bound to it: then they are declared in the object of that scope. Either way they are bound to cells that hold values:
new ones, or in sloppy code those of the arguments, which the call keeps until all its parameters are bound.

* `Heap.Inner`: a scope inside another that declares names in its own object.
* `InvocationTask.reticent_setUp`: **a call is set up**; its scope declares the variables of its body.
* `InvocationTask.reticent_begin`, `InvocationTask.reticent_goOn`: **calls show no hidden object.** -/

namespace ScriptCore

open Heap (scope_eq_ok)

variable {S : Scene} {h h' : Heap} {E : Engine} {o : ObjectRef} {key : PropertyKey} {c : CellRef} {d : Descriptor}
  {v : Value} {s : ScopeRef} {name : String} {r : Except Error Completion}

/-- The scope is inside another, and declares names in its own object. -/
def Heap.Inner (h : Heap) (s : ScopeRef) : Prop := ∃ sc, h.scope s = .ok sc ∧ sc.parent ≠ none ∧ sc.writeTo = none

theorem Heap.clear_invocation {t : InvocationTask} : h.Clear t ↔ h.Clear t.callee ∧ h.Clear t.closure ∧
    h.Clear t.receiver ∧ h.Clear t.args ∧ h.Clear t.callerScope ∧ h.Clear t.extra.callee ∧ h.Clear t.scope ∧
      h.Clear t.argCells := by
  show h.Clear (t.callee, t.closure, t.receiver, t.args, t.callerScope, (t.extra.callee, Plain.mk t.extra.profileName),
    t.scope, t.argCells, Plain.mk t.state, Plain.mk t.strict) ↔ _
  simp only [clear_prod, clear_plain, and_true]

namespace InvocationTask

variable {t : InvocationTask}

/-! ### Setting up -/

/-- The receiver or the strictness of a scope is set. -/
theorem reticent_adjustScope {f : Scope → Scope} (hf : ∀ sc, (f sc).object = sc.object ∧ (f sc).parent = sc.parent ∧
      (h.Clear sc.receiver → h.Clear (f sc).receiver) ∧ (f sc).writeTo = sc.writeTo) :
    Reticent S h (Run.onHeap (Heap.modifyScope s f)) fun h' _ => h.Inner s → h'.Inner s := by
  refine (reticent_modifyScope fun sc _ => ?_).imp fun h' _ _ hset ⟨sc, hsc, hparent, htarget⟩ => ?_
  · obtain ⟨hobject, hparent, hreceiver, htarget⟩ := hf sc
    exact ⟨hobject, hparent, hreceiver, fun o ho => .inl (htarget ▸ ho)⟩
  · obtain ⟨-, hparent', -, htarget'⟩ := hf sc
    exact ⟨_, hset sc hsc, hparent' ▸ hparent, htarget'.trans htarget⟩

/-- The declarations of a scope are sent to another object. -/
theorem reticent_setScopeWriteTo (ho : h.Names ⟨.object, o.handle⟩) :
    Reticent S h (Run.onHeap (setScopeWriteTo s (some o))) Heap.Clear := by
  unfold setScopeWriteTo
  dsimp only
  rw [Proc.discard_bind, Run.onHeap_bind, Routine.onHeap_reads]
  refine .read (Heap.mild_object o) fun _ _ => ?_
  have hset := reticent_modifyScope (S := S) (h := h) (s := s) (f := fun sc => { sc with writeTo := some o })
    fun _ _ => ⟨rfl, rfl, id, fun q hq => .inr (Option.some.inj hq ▸ ho)⟩
  exact hset.imp fun _ _ _ _ => Heap.clear_unit _

/-- **The scope of a call**, and the receiver that its body may see. -/
theorem reticent_openScope (ht : h.Clear t) : Reticent S h t.openScope fun h' r =>
    h'.Clear r ∧ (t.closure.boundScope = none → h'.Inner r.1) := by
  obtain ⟨-, hclosure, hreceiver, -⟩ := Heap.clear_invocation.mp ht
  obtain ⟨-, -, hbound⟩ := Heap.clear_closure.mp hclosure
  unfold openScope
  cases hscope : t.closure.boundScope with
  | none =>
    refine reticent_childScope.bind fun h₁ s hh ⟨_, _, _, hs⟩ => .pure ⟨Heap.clear_prod.mpr ⟨?_, ?_⟩, fun _ => ?_⟩
    · exact Heap.clear_scope.mpr ⟨_, hs⟩
    · exact hh.clear (Heap.clear_getD hbound hreceiver)
    · exact ⟨_, hs, by simp, rfl⟩
  | some bound =>
    refine reticent_childScope.bind fun h₁ s hh ⟨_, _, _, hs⟩ => .secure fun hsecure _ => ?_
    have hclear : h₁.Clear s := Heap.clear_scope.mpr ⟨_, hs⟩
    refine .read (Heap.mild_scope bound) fun sc hsc => ?_
    refine (reticent_setScopeWriteTo (hsecure.scope hsc).1).bind fun h₂ _ hh₂ _ => .secure fun hsecure₂ _ => ?_
    cases hreceiver' : t.closure.receiver with
    | some v =>
      rw [hreceiver'] at hbound
      exact .pure ⟨Heap.clear_prod.mpr ⟨hh₂.clear hclear, hh₂.clear (hh.clear hbound)⟩, nofun⟩
    | none =>
      exact .read (Heap.mild_scopeReceiver bound) fun v hv =>
        .pure ⟨Heap.clear_prod.mpr ⟨hh₂.clear hclear, hsecure₂.scopeReceiver hv⟩, nofun⟩

theorem reticent_bodyReceiver (t : InvocationTask) (strict : Bool) (hv : h.Clear v) :
    Reticent S h (t.bodyReceiver strict v) fun h' u => h' = h ∧ h'.Clear u := by
  refine .secure fun hs _ => .realm_bind (.ite (fun _ => ?_) fun _ => .pure ⟨rfl, hv⟩)
  exact .read (Heap.mild_outermostWithin _ _) fun o ho => .pure ⟨rfl, Heap.clear_object_value.mpr (hs.outermost _ _ ho)⟩

/-- The names that a call declares before it binds its parameters; the variables of the body are among them. -/
theorem reticent_declareNames (hcallee : h.Clear t.callee) (strict : Bool) :
    Reticent S h (t.declareNames s strict) fun h' _ =>
      h.Inner s → ∀ name ∈ t.closure.function.vars, h'.Declares s name := by
  have hrest : ∀ {h : Heap}, Reticent S h (do
      declareAll s t.closure.function.vars
      if !strict then declareAll s (t.closure.function.functions.filterMap (·.name)) : Run Unit)
        fun h' _ => h.Inner s → ∀ name ∈ t.closure.function.vars, h'.Declares s name := fun {h} =>
    (reticent_declareAll _).bind fun h₁ _ _ ⟨_, hvars⟩ => by
      have hdeclared : h.Inner s → ∀ name ∈ t.closure.function.vars, h₁.Declares s name :=
        fun ⟨sc, hsc, hparent, htarget⟩ => hvars sc hsc hparent htarget
      exact .ite (fun _ => (reticent_declareAll _).imp fun _ _ hh _ hs name hname => (hdeclared hs name hname).next hh)
        fun _ => .pure hdeclared
  unfold declareNames
  dsimp only
  cases t.closure.function.name with
  | none => exact hrest
  | some name =>
    refine (reticent_declare (v := .object t.callee) hcallee).discard_bind fun h₁ _ _ ⟨hsame, _⟩ => hrest.imp
      fun _ _ _ hvars ⟨sc, hsc, hinner⟩ => hvars ⟨sc, hsame s sc hsc, hinner⟩

/-- **Each argument gets a cell.** In sloppy code no other code runs meanwhile. -/
theorem reticent_fillArguments (hE : ∀ S, E.Reticent S) (strict : Bool) : ∀ (vs : List Value) (i : Nat) {S : Scene}
    {h : Heap}, h.Clear o → h.Clear vs → Reticent S h (fillArguments E o strict i vs) fun h' cs =>
      h'.Clear cs ∧ ∀ c ∈ if strict then [] else cs, h'.Valued c
  | [], _, _, _, _, _ => by
    unfold fillArguments
    exact .pure ⟨fun _ hr => absurd hr List.not_mem_nil, by simp⟩
  | v :: vs, i, S, h, ho, hvs => by
    unfold fillArguments
    rw [Heap.clear_list, List.forall_mem_cons, ← Heap.clear_list] at hvs
    refine (reticent_allocCell (d := .data v) (Heap.clear_descriptor.mpr hvs.1)).bind fun h₁ c hh₁ hnew => ?_
    obtain ⟨hc, -⟩ := hnew
    have hvalued : ∀ x ∈ [c], h₁.Valued x := List.forall_mem_singleton.mpr ⟨_, hc, rfl⟩
    have hclear : h₁.Clear c := Heap.clear_cell.mpr ⟨_, hc⟩
    have hrest : ∀ {S h₂}, h₁.Shelters h₂ → Reticent S h₂ (fillArguments E o strict (i + 1) vs) fun h' cs =>
        h'.Clear cs ∧ ∀ c ∈ if strict then [] else cs, h'.Valued c := fun hh₂ =>
      reticent_fillArguments hE strict vs (i + 1) (hh₂.clear (hh₁.clear ho)) (hh₂.clear (hh₁.clear hvs.2))
    cases strict with
    | true =>
      refine (reticent_setProperty (hE S) (Heap.clear_index _) (.inl (hh₁.clear ho)) (hh₁.clear hvs.1)).discard_bind
        fun h₂ _ hh₂ _ => (hrest hh₂).bind fun h₃ cs hh₃ hcs => .pure ⟨?_, by simp⟩
      exact Heap.clear_list.mpr (List.forall_mem_cons.mpr ⟨hh₃.clear (hh₂.clear hclear), Heap.clear_list.mp hcs.1⟩)
    | false =>
      refine ((reticent_installCell (Heap.clear_index _) (hvalued c (List.mem_singleton_self c))).keeping hvalued).bind
        fun h₂ _ hh₂ hkept => ((hrest hh₂).keeping hkept.2).bind fun h₃ cs hh₃ hfilled => .pure ?_
      obtain ⟨⟨hcs, hvalues⟩, hkept₃⟩ := hfilled
      refine ⟨?_, List.forall_mem_cons.mpr ⟨hkept₃ c (List.mem_singleton_self c), hvalues⟩⟩
      exact Heap.clear_list.mpr (List.forall_mem_cons.mpr ⟨hh₃.clear (hh₂.clear hclear), Heap.clear_list.mp hcs⟩)

/-- **The arguments object and the cells of the arguments.** -/
theorem reticent_allocArguments (hE : ∀ S, E.Reticent S) (ht : h.Clear t) (strict : Bool) :
    Reticent S h (t.allocArguments E strict) fun h' r =>
      h'.Clear r ∧ ∀ c ∈ if strict then [] else r.2, h'.Valued c := by
  obtain ⟨hcallee, -, -, hargs, -⟩ := Heap.clear_invocation.mp ht
  refine .secure fun _ hR => .realm_bind ?_
  have hkey : ∀ key ∈ S.realm.names.all, h.Clear key := fun key hkey => Heap.clear_common hR hkey
  refine (reticent_allocObject (Heap.clear_realm hR).2.2.1 Heap.clear_ordinary).bind fun h₁ a hh₁ ha => ?_
  have hpadded : h₁.Clear t.paddedArgs := by
    refine Heap.clear_list.mpr fun v hv => ?_
    rcases List.mem_append.mp hv with hv | hv
    · exact hh₁.clear (Heap.clear_list.mp hargs v hv)
    · obtain rfl := List.eq_of_mem_replicate hv
      exact Heap.clear_undefined
  refine (reticent_fillArguments hE strict _ 0 ha hpadded).bind fun h₂ cs hh₂ ⟨hcs, hvalued⟩ => ?_
  have hh := hh₁.trans hh₂
  have hfinish : ∀ {h₃}, h₂.Shelters h₃ → (∀ c ∈ if strict then [] else cs, h₃.Valued c) → Reticent S h₃ (do
      discard (Heap.define a S.realm.names.length (.hidden (.ofCount t.args.length)))
      return (a, cs) : Run (ObjectRef × List CellRef)) fun h' r =>
        h'.Clear r ∧ ∀ c ∈ if strict then [] else r.2, h'.Valued c := fun hh₃ hkept =>
    ((reticent_furnish ((hh.trans hh₃).clear (hkey _ (by simp [CommonNames.all])))
      (Heap.clear_hidden (Heap.clear_ofCount _)) rfl).keeping hkept).bind fun h₄ _ hh₄ ⟨_, hkept₄⟩ =>
        .pure ⟨Heap.clear_prod.mpr ⟨(hh₂.trans (hh₃.trans hh₄)).clear ha, (hh₃.trans hh₄).clear hcs⟩, hkept₄⟩
  cases strict with
  | true => exact hfinish (.refl _) hvalued
  | false =>
    exact ((reticent_furnish (hh.clear (hkey _ (by simp [CommonNames.all])))
      (Heap.clear_hidden (v := .object t.callee) (hh.clear hcallee)) rfl).keeping hvalued).bind
        fun _ _ hh₃ hkept => hfinish hh₃ hkept.2

/-- The call was set up: its scope is there and the cells of its arguments. -/
structure SetUp (h : Heap) (t t' : InvocationTask) : Prop where
  clear : h.Clear t'
  values : ∀ c ∈ t'.cells, h.Valued c
  closure : t'.closure = t.closure
  declares : t.closure.boundScope = none → ∃ s, t'.scope = some s ∧ ∀ name ∈ t.closure.function.vars, h.Declares s name

/-- Setting up what is left when the scope is there. -/
theorem reticent_setUpIn (hE : ∀ S, E.Reticent S) (ht : h.Clear t) (hs : h.Clear s) (hv : h.Clear v)
    (hinner : t.closure.boundScope = none → h.Inner s) :
    Reticent S h (do
      let strict ← Run.readHeap fun h => h.scopeIsStrict s
      let receiver ← t.bodyReceiver strict v
      setScopeReceiver s receiver
      t.declareNames s strict
      let (arguments, argCells) ← t.allocArguments E strict
      let names ← Run.names
      let target := (← Run.readHeap fun h => h.scope s).target
      discard (Heap.define target names.arguments (.declared (.object arguments)))
      return { t with scope := some s, strict, argCells } : Run InvocationTask) fun h' t' => t.SetUp h' t' := by
  refine .secure fun _ hR => .read (Heap.mild_scopeIsStrict s) fun strict _ => ?_
  refine (reticent_bodyReceiver t strict hv).bind fun h' u _ hreceives => ?_
  obtain ⟨rfl, hu⟩ := hreceives
  refine Reticent.bind (reticent_adjustScope fun _ => ⟨rfl, rfl, fun _ => hu, rfl⟩) fun h₂ _ hh₂ hinner₂ => ?_
  refine (reticent_declareNames (hh₂.clear (Heap.clear_invocation.mp ht).1) strict).bind fun h₃ _ hh₃ hvars => ?_
  have hh : h'.Shelters h₃ := hh₂.trans hh₃
  refine (reticent_allocArguments hE (hh.clear ht) strict).bind fun h₄ r hh₄ hmade => ?_
  obtain ⟨a, cs⟩ := r
  obtain ⟨hr, hvalued⟩ := hmade
  obtain ⟨ha, hcs⟩ := Heap.clear_prod.mp hr
  refine .names_bind (.read (Heap.mild_scope s) fun sc _ => ?_)
  have hkey := (hh.trans hh₄).clear (Heap.clear_common hR
    (by simp [CommonNames.all] : S.realm.names.arguments ∈ S.realm.names.all))
  refine ((reticent_furnish (d := .declared (.object a)) hkey (Heap.clear_descriptor.mpr ha) rfl).keeping hvalued).bind
    fun h₅ _ hh₅ hbound => .pure ?_
  obtain ⟨hcallee, hclosure, hreceiver, hargs, hcaller, hextra, -⟩ :=
    Heap.clear_invocation.mp ((hh.trans (hh₄.trans hh₅)).clear ht)
  refine ⟨Heap.clear_invocation.mpr ⟨hcallee, hclosure, hreceiver, hargs, hcaller, hextra, ?_, hh₅.clear hcs⟩, hbound.2,
    rfl, fun hnone => ⟨s, rfl, fun name hname => ?_⟩⟩
  · exact Heap.clear_some.mpr ((hh.trans (hh₄.trans hh₅)).clear hs)
  · exact (hvars (hinner₂ (hinner hnone)) name hname).next (hh₄.trans hh₅)

/-- **Setting up the scope, the names and the arguments.** -/
theorem reticent_setUp (hE : ∀ S, E.Reticent S) (ht : h.Clear t) :
    Reticent S h (t.setUp E) fun h' t' => t.SetUp h' t' := by
  refine (reticent_openScope ht).bind fun h₁ r hh₁ ⟨hr, hinner⟩ => ?_
  obtain ⟨s, v⟩ := r
  obtain ⟨hs, hv⟩ := Heap.clear_prod.mp hr
  dsimp only at hinner ⊢
  by_cases hstrict : t.closure.function.strict = true
  · rw [if_pos hstrict]
    exact Reticent.bind (reticent_adjustScope fun _ => ⟨rfl, rfl, id, rfl⟩) fun _ _ hh hkept =>
      reticent_setUpIn hE (hh.clear (hh₁.clear ht)) (hh.clear hs) (hh.clear hv) fun hnone => hkept (hinner hnone)
  · rw [if_neg hstrict]
    exact reticent_setUpIn hE (hh₁.clear ht) hs hv hinner

/-! ### Binding parameters -/

/-- What a call hands over: itself, with the cells that it keeps, and what it asks for or ended with. -/
abbrev Given (t : InvocationTask) (h : Heap) (r : InvocationTask × Step) : Prop := h.Clear r ∧ r.1.cells = t.cells

theorem reticent_bindSimple (hkept : t.cells ⊆ S.cells) (hv : h.Clear v) (n : Nat) (name : String) :
    Reticent S h (t.bindSimple s n name v) Heap.Clear := by
  refine .ite (fun _ => .discard (reticent_declare hv)) fun hsloppy => ?_
  cases hc : t.argCells[n]? with
  | none => exact .refuse fun _ he => by cases he
  | some c =>
    refine .values fun hvalues => reticent_declareCell (hvalues c (hkept ?_))
    rw [cells, if_neg hsloppy]
    exact List.mem_of_getElem? hc

/-- The call in another state. -/
theorem clear_state (ht : h.Clear t) (state : InvocationState) : h.Clear { t with state } :=
  Heap.clear_invocation.mpr (Heap.clear_invocation.mp ht)

theorem reticent_askBody (ht : h.Clear t) (hs : h.Clear s) :
    Reticent S h (t.askBody s) t.Given := by
  obtain ⟨hcallee, -, -, -, -, hextra, -⟩ := Heap.clear_invocation.mp ht
  exact .isDebug_bind fun debug => .pure ⟨Heap.clear_prod.mpr ⟨clear_state ht _, Heap.clear_request.mpr
    ⟨hs, Heap.clear_options.mpr ⟨Heap.clear_some.mpr hcallee, hextra⟩⟩⟩, rfl⟩

theorem given_askDefault (ht : h.Clear t) (hs : h.Clear s) (n : Nat) (e : Expr) :
    t.Given h (t.askDefault s n e) :=
  ⟨Heap.clear_prod.mpr ⟨clear_state ht _, Heap.clear_expression e hs⟩, rfl⟩

/-- **Binding parameters**, as far as no default is needed. -/
theorem reticent_bindParams (hE : E.Reticent S) (hkept : t.cells ⊆ S.cells) : ∀ (params : List Param) (n : Nat)
    {h : Heap}, h.Clear t → h.Clear s → Reticent S h (bindParams E t s n params) t.Given
  | [], n, h, ht, hs => by
    unfold bindParams
    exact reticent_askBody ht hs
  | .rest name :: params, n, h, ht, hs => by
    unfold bindParams
    have hargs := (Heap.clear_invocation.mp ht).2.2.2.1
    have hdrop : h.Clear (t.args.drop n) :=
      Heap.clear_list.mpr fun v hv => Heap.clear_list.mp hargs v (List.mem_of_mem_drop hv)
    refine (reticent_allocArray hdrop).bind fun h₁ o hh₁ ho => ?_
    refine (reticent_declare (v := .object o) ho).discard_bind fun h₂ _ hh₂ _ => ?_
    have hh := hh₁.trans hh₂
    exact reticent_askBody (hh.clear ht) (hh.clear hs)
  | .simple name default :: params, n, h, ht, hs => by
    have hargs := (Heap.clear_invocation.mp ht).2.2.2.1
    have hbound : ∀ {v}, h.Clear v → Reticent S h
        (t.bindSimple s n name v >>= fun _ => bindParams E t s (n + 1) params) t.Given := fun hv =>
      (reticent_bindSimple hkept hv n name).bind fun _ _ hh _ =>
        reticent_bindParams hE hkept params (n + 1) (hh.clear ht) (hh.clear hs)
    unfold bindParams
    cases harg : t.args[n]? with
    | some v => exact hbound (Heap.clear_list.mp hargs v (List.mem_of_getElem? harg))
    | none =>
      cases default with
      | none => exact hbound (v := .undefined) Heap.clear_undefined
      | some e => exact .pure (given_askDefault ht hs n e)
  | .pattern target default :: params, n, h, ht, hs => by
    unfold bindParams
    refine (reticent_declareAll target.boundNames).bind fun h₁ _ hh₁ _ => ?_
    have ht₁ := hh₁.clear ht
    have hargs := (Heap.clear_invocation.mp ht₁).2.2.2.1
    have hbound : ∀ {v}, h₁.Clear v → Reticent S h₁
        (writePattern E s target v >>= fun _ => bindParams E t s (n + 1) params) t.Given := fun hv =>
      (reticent_writePattern hE (hh₁.clear hs) target hv).bind fun _ _ hh _ =>
        reticent_bindParams hE hkept params (n + 1) (hh.clear ht₁) (hh.clear (hh₁.clear hs))
    cases harg : t.args[n]? with
    | some v => exact hbound (Heap.clear_list.mp hargs v (List.mem_of_getElem? harg))
    | none =>
      cases default with
      | none => exact hbound (v := .undefined) Heap.clear_undefined
      | some e => exact .pure (given_askDefault ht₁ (hh₁.clear hs) n e)

/-- A parameter gets the value of its default, and those after it are bound. -/
theorem reticent_bindValue (hE : E.Reticent S) (hkept : t.cells ⊆ S.cells) (ht : h.Clear t) (hs : h.Clear s)
    (hv : h.Clear v) (n : Nat) :
    Reticent S h (do
      match t.closure.function.params[n]? with
      | some (.simple name _) => t.bindSimple s n name v
      | some (.pattern target _) => writePattern E s target v
      | some (.rest _) | none => throw (.invocation s!"parameter {n} has no default")
      bindParams E t s (n + 1) (t.closure.function.params.drop (n + 1))) t.Given := by
  have hrest : ∀ {h'}, h.Shelters h' →
      Reticent S h' (bindParams E t s (n + 1) (t.closure.function.params.drop (n + 1))) t.Given := fun hh =>
    reticent_bindParams hE hkept _ (n + 1) (hh.clear ht) (hh.clear hs)
  cases t.closure.function.params[n]? with
  | none => exact .refuse fun _ he => by cases he
  | some p =>
    cases p with
    | simple name default => exact (reticent_bindSimple hkept hv n name).bind fun _ _ hh _ => hrest hh
    | pattern target default => exact (reticent_writePattern hE hs target hv).bind fun _ _ hh _ => hrest hh
    | rest name => exact .refuse fun _ he => by cases he

/-- Going on after the default of a parameter. -/
theorem reticent_bindDefault (hE : E.Reticent S) (hkept : t.cells ⊆ S.cells) (ht : h.Clear t) (hv : h.Clear v)
    (n : Nat) :
    Reticent S h (t.bindDefault E n v) t.Given := by
  obtain ⟨-, -, -, -, -, -, hscope, -⟩ := Heap.clear_invocation.mp ht
  unfold bindDefault callScope
  cases hs : t.scope with
  | none => exact .refuse fun _ he => by cases he
  | some s =>
    rw [hs] at hscope
    cases t.argCells[n]? with
    | none => exact reticent_bindValue hE hkept ht hscope hv n
    | some c =>
      exact (reticent_writeCell hv).bind fun _ _ hh _ =>
        reticent_bindValue hE hkept (hh.clear ht) (hh.clear hscope) (hh.clear hv) n

/-! ### Start and resume -/

/-- **A call starts**, in a scope that declares the variables of its body. -/
theorem reticent_begin (hE : ∀ S, E.Reticent S) (ht : h.Clear t) : Reticent S h (t.begin E) fun h' r =>
    (h'.Clear r ∧ ∀ c ∈ r.1.cells, h'.Valued c) ∧ (r.1.closure.boundScope = none → r.1.Furnished h') ∧
      ∃ t' : InvocationTask, t'.Asked r := by
  refine (reticent_setUp hE (clear_state ht .invoking)).bind fun h₁ t₁ _ hset => ?_
  obtain ⟨-, -, -, -, -, -, hscope, -⟩ := Heap.clear_invocation.mp hset.clear
  unfold callScope
  cases hs : t₁.scope with
  | none => exact .refuse fun _ he => by cases he
  | some s =>
    rw [hs] at hscope
    have hbound := (reticent_bindParams (hE _) (List.subset_append_left _ _) t₁.closure.function.params 0 hset.clear
      hscope).keeping (S := S) hset.values
    refine (hbound.yields (asked_bindParams hs _ 0)).imp
      fun h₂ r hh ⟨⟨⟨hr, hcells⟩, hvalues⟩, hasked⟩ => ⟨⟨hr, hcells.symm ▸ hvalues⟩, fun hnone _ => ?_, t₁, hasked⟩
    rw [hasked.closure] at hnone ⊢
    obtain ⟨s', hs', hvars⟩ := hset.declares (hset.closure ▸ hnone)
    exact ⟨s', hasked.scope.trans hs', fun name hname => (hvars name (hset.closure ▸ hname)).next hh⟩

/-- The value of the body, or the error that it came to. -/
theorem reticent_bodyValue {c : Completion} (hc : h.Clear c) :
    Reticent S h (Proc.ofExcept (bodyValue c)) Heap.Clear := by
  cases c with
  | normal v => exact .pure (Heap.clear_getD hc Heap.clear_undefined)
  | returned v => exact .pure hc
  | thrown v => exact .fail hc
  | broken label v => exact .refuse fun _ he => by cases he
  | continued label v => exact .refuse fun _ he => by cases he

/-- **A call goes on** after the default of a parameter or after its body. -/
theorem reticent_goOn (hE : E.Reticent S) (hkept : t.cells ⊆ S.cells) (ht : h.Clear t) (hr : h.Clear r) :
    Reticent S h (t.goOn E r) t.Given := by
  cases r with
  | error e => exact .fail hr
  | ok c =>
    rw [goOn_ok]
    have hunexpected : ∀ state : InvocationState, Reticent S h
        (throw (.driverState (.invocationResumed state.name)) : Run (InvocationTask × Step)) t.Given :=
      fun _ => .refuse fun _ he => by cases he
    cases t.state with
    | paramBinding n => exact reticent_bindDefault hE hkept ht (Heap.clear_value hr) n
    | bodyEvaluating =>
      exact (reticent_bodyValue hr).bind fun _ v hh hv =>
        .pure ⟨Heap.clear_prod.mpr ⟨hh.clear ht, hv⟩, rfl⟩
    | created => exact hunexpected _
    | invoking => exact hunexpected _
    | returned => exact hunexpected _
    | thrown => exact hunexpected _

end InvocationTask

end ScriptCore
