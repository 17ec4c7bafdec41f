import ScriptCore.Task.Invocation
import ScriptCore.Proofs.Renaming.Statements

/-! # Calls of closures go alike

A call that waits has its scope and a cell for each parameter, and it waits for its body or for the
default of a parameter that has one.

* `InvocationTask.sim_setUp`: setting up the scope, the names and the arguments object.
* `InvocationTask.sim_bindParams`: binding parameters as far as no default is needed.
* `InvocationTask.sim_begin`, `InvocationTask.sim_goOn`: from the start, and after a child. -/

namespace ScriptCore

variable {M : Mode} {ρ ρ' : Renaming} {E₁ E₂ : Engine}

/-- The parameter has a default. -/
def Param.HasDefault : Param → Prop
  | .simple _ default | .pattern _ default => default.isSome
  | .rest _ => False

namespace InvocationTask

variable {t t' : InvocationTask}

/-- The scope is set up, and there is a cell for each parameter. -/
structure Ready (t : InvocationTask) : Prop where
  scope : t.scope.isSome
  cells : t.closure.function.params.length ≤ t.argCells.length

/-- The call waits for its body, or for the default of a parameter that has one. -/
structure Resumable (t : InvocationTask) : Prop extends Ready t where
  state : t.state = .bodyEvaluating ∨
    ∃ i p, t.state = .paramBinding i ∧ t.closure.function.params[i]? = some p ∧ p.HasDefault

theorem alike_iff : Alike ρ t t' ↔ Alike ρ t.callee t'.callee ∧ Alike ρ t.closure t'.closure ∧
    Alike ρ t.receiver t'.receiver ∧ Alike ρ t.args t'.args ∧ Alike ρ t.callerScope t'.callerScope ∧
    Alike ρ t.extra t'.extra ∧ Alike ρ t.scope t'.scope ∧ Alike ρ t.argCells t'.argCells ∧
    t.state = t'.state ∧ t.strict = t'.strict := Iff.rfl

theorem alike_state (h : Alike ρ t t') (state : InvocationState) :
    Alike ρ { t with state } { t' with state } := by
  obtain ⟨h1, h2, h3, h4, h5, h6, h7, h8, -, h10⟩ := alike_iff.mp h
  exact ⟨h1, h2, h3, h4, h5, h6, h7, h8, rfl, h10⟩

theorem function_eq (h : Alike ρ t t') : t.closure.function = t'.closure.function :=
  (Closure.alike_iff.mp (alike_iff.mp h).2.1).2.2.2.1

/-! ### Setting up -/

theorem sim_openScope (h : Alike ρ t t') : Sim M ρ Alike t.openScope t'.openScope := by
  obtain ⟨-, hclosure, hreceiver, -⟩ := alike_iff.mp h
  obtain ⟨hscope, hbound, hthis, -, -⟩ := Closure.alike_iff.mp hclosure
  unfold openScope
  generalize t.closure.boundScope = b, t'.closure.boundScope = b' at hbound
  generalize t.closure.receiver = r, t'.closure.receiver = r' at hthis
  cases hbound with
  | none =>
    exact (sim_childScope hscope).onHeap.bind fun _ hρ _ _ hs =>
      .pure ⟨hs, alike_getD (hthis.mono hρ) (hreceiver.mono hρ)⟩
  | some hb =>
    refine (sim_childScope hb).onHeap.bind fun ρ₁ hρ₁ s s' hs => ?_
    have hb := hb.mono hρ₁
    refine (Sim.readHeap fun _ hρ _ _ hh => hh.scope? (hb.mono hρ)).bind fun ρ₂ hρ₂ a a' ha => ?_
    refine (sim_setScopeWriteTo (hs.mono hρ₂) (.some (Scope.alike_iff.mp ha).1)).onHeap.bind
      fun ρ₃ hρ₃ _ _ _ => ?_
    have hs := (hs.mono hρ₂).mono hρ₃
    have hb := (hb.mono hρ₂).mono hρ₃
    cases hthis with
    | some hr => exact .pure ⟨hs, hr.mono (hρ₁.trans (hρ₂.trans hρ₃))⟩
    | none =>
      exact (Sim.readHeap fun _ hρ _ _ hh => hh.scopeReceiver (hb.mono hρ)).bind
        fun _ hρ₄ _ _ hr => .pure ⟨hs.mono hρ₄, hr⟩

theorem isNullish_eq {v w : Value} (h : Alike ρ v w) : v.isNullish = w.isNullish := by
  cases h <;> rfl

theorem sim_bodyReceiver (h : Alike ρ t t') (strict : Bool) {v w : Value} (hv : Alike ρ v w) :
    Sim M ρ Alike (t.bodyReceiver strict v) (t'.bodyReceiver strict w) := by
  have hcaller := (alike_iff.mp h).2.2.2.2.1
  refine Sim.realm.bind fun ρ₁ hρ₁ r s hr => ?_
  obtain ⟨-, -, -, -, -, -, -, -, -, -, hsloppy⟩ := Realm.alike_iff.mp hr
  rw [isNullish_eq hv, hsloppy]
  split
  · exact (Sim.readHeap fun _ hρ _ _ hh => hh.outermostObject (hcaller.mono (hρ₁.trans hρ))).bind
      fun _ _ _ _ ho => .pure (.object ho)
  · exact .pure (hv.mono hρ₁)

/-- Each argument gets a cell. -/
theorem sim_fillArguments (hE : Engine.Sim M E₁ E₂) (strict : Bool) : ∀ (vs ws : List Value)
    (ρ : Renaming) (o p : ObjectRef) (i : Nat), Alike ρ o p → Alike ρ vs ws →
    Sim M ρ (fun ρ cs ds => Alike ρ cs ds ∧ cs.length = vs.length)
      (fillArguments E₁ o strict i vs) (fillArguments E₂ p strict i ws)
  | [], _, _, _, _, _, _, hv => by
    cases hv
    exact .pure_of fun _ _ => ⟨.nil, rfl⟩
  | v :: vs, _, ρ, o, p, i, ho, hv => by
    obtain _ | ⟨hvw, hvs⟩ := hv
    have hvs : Alike ρ vs _ := hvs
    refine (Heap.sim_allocCell (Descriptor.alike_data hvw)).onHeap.bind fun ρ₁ hρ₁ c d hc => ?_
    have ho := ho.mono hρ₁
    have rest : ∀ {ρ₂}, ρ₁ ≤ ρ₂ → Sim M ρ₂ (fun ρ cs ds => Alike ρ cs ds ∧ cs.length = vs.length + 1)
        (do return c :: (← fillArguments E₁ o strict (i + 1) vs))
        (do return d :: (← fillArguments E₂ p strict (i + 1) _)) := fun hρ₂ =>
      (sim_fillArguments hE strict vs _ _ o p (i + 1) (ho.mono hρ₂)
        (hvs.mono (hρ₁.trans hρ₂))).bind fun _ hρ₃ cs _ hcs =>
          .pure_of fun _ hρ₄ => ⟨.cons (hc.mono (hρ₂.trans (hρ₃.trans hρ₄))) (hcs.1.mono hρ₄), by
            rw [List.length_cons, hcs.2]⟩
    cases strict with
    | true =>
      exact (sim_setProperty hE true ho (.index _) (hvw.mono hρ₁)).discard.bind
        fun _ hρ₂ _ _ _ => rest hρ₂
    | false => exact (Heap.sim_installCell ho (.index _) hc).onHeap.bind fun _ hρ₂ _ _ _ => rest hρ₂

theorem sim_allocArguments (hE : Engine.Sim M E₁ E₂) (h : Alike ρ t t') (strict : Bool) :
    Sim M ρ (fun ρ a b => Alike ρ a b ∧ t.closure.function.params.length ≤ a.2.length)
      (t.allocArguments E₁ strict) (t'.allocArguments E₂ strict) := by
  obtain ⟨hcallee, -, -, hargs, -⟩ := alike_iff.mp h
  refine Sim.realm.bind fun ρ₁ hρ₁ r s hr => ?_
  obtain ⟨-, -, hobject, -, -, -, -, -, -, hn, -⟩ := Realm.alike_iff.mp hr
  refine (Heap.sim_allocObject .arguments (.some hobject) .ordinary).onHeap.bind
    fun ρ₂ hρ₂ o p ho => ?_
  have hle := hρ₁.trans hρ₂
  have hpadded : Alike ρ₂ t.paddedArgs t'.paddedArgs := by
    unfold paddedArgs
    have hundefined : Alike ρ₂ Value.undefined .undefined := .undefined
    rw [← function_eq h, ← hargs.length_eq]
    exact alike_append (hargs.mono hle) (alike_replicate hundefined _)
  refine (sim_fillArguments hE strict _ _ ρ₂ o p 0 ho hpadded).bind fun ρ₃ hρ₃ cs ds hcs => ?_
  obtain ⟨hcs, hlen⟩ := hcs
  have hcells : t.closure.function.params.length ≤ cs.length := by
    rw [hlen, paddedArgs, List.length_append, List.length_replicate]
    omega
  obtain ⟨hlength, -, -, -, hcalleeName, -⟩ := CommonNames.alike_iff.mp (hn.mono (hρ₂.trans hρ₃))
  have ho := ho.mono hρ₃
  have finish : ∀ {ρ₄}, ρ₃ ≤ ρ₄ →
      Sim M ρ₄ (fun ρ a b => Alike ρ a b ∧ t.closure.function.params.length ≤ a.2.length)
        (do
          discard (Heap.define o r.names.length (.hidden (.ofCount t.args.length)))
          return (o, cs) : Run _)
        (do
          discard (Heap.define p s.names.length (.hidden (.ofCount t'.args.length)))
          return (p, ds)) := by
    intro ρ₄ hρ₄
    rw [← hargs.length_eq]
    exact (Heap.sim_define (ho.mono hρ₄) (hlength.mono hρ₄)
      (Descriptor.alike_hidden (.number _))).onHeap.discard.bind fun _ hρ₅ _ _ _ =>
        .pure_of fun _ hρ₆ => ⟨⟨ho.mono (hρ₄.trans (hρ₅.trans hρ₆)),
          hcs.mono (hρ₄.trans (hρ₅.trans hρ₆))⟩, hcells⟩
  cases strict with
  | true => exact finish le_rfl
  | false =>
    exact (Heap.sim_define ho hcalleeName (Descriptor.alike_hidden
      (.object (hcallee.mono (hle.trans hρ₃))))).onHeap.discard.bind fun _ hρ₄ _ _ _ => finish hρ₄

theorem sim_declareNames (h : Alike ρ t t') {s s' : ScopeRef} (hs : Alike ρ s s') (strict : Bool) :
    Sim M ρ Alike (t.declareNames s strict) (t'.declareNames s' strict) := by
  have hcallee := (alike_iff.mp h).1
  have rest : ∀ {ρ₁}, ρ ≤ ρ₁ → Sim M ρ₁ Alike
      (do
        declareAll s t.closure.function.vars
        if !strict then declareAll s (t.closure.function.functions.filterMap (·.name)) : Run Unit)
      (do
        declareAll s' t.closure.function.vars
        if !strict then declareAll s' (t.closure.function.functions.filterMap (·.name))) := by
    intro ρ₁ hρ₁
    refine (sim_declareAll _ _ _ _ (hs.mono hρ₁)).onHeap.bind fun ρ₂ hρ₂ _ _ _ => ?_
    cases strict with
    | true => exact .pure rfl
    | false => exact (sim_declareAll _ _ _ _ (hs.mono (hρ₁.trans hρ₂))).onHeap
  unfold declareNames
  dsimp only
  rw [← function_eq h]
  cases t.closure.function.name with
  | none => exact rest le_rfl
  | some name =>
    exact (sim_declare name hs (.object hcallee)).onHeap.discard.bind fun _ hρ _ _ _ => rest hρ

/-- Calls that are alike and set up. -/
def AlikeReady (ρ : Renaming) (t t' : InvocationTask) : Prop := Alike ρ t t' ∧ t.Ready

/-- **Setting up the scope, the names and the arguments object.** -/
theorem sim_setUp (hE : Engine.Sim M E₁ E₂) (h : Alike ρ t t') :
    Sim M ρ AlikeReady (t.setUp E₁) (t'.setUp E₂) := by
  refine (sim_openScope h).bind fun ρ₁ hρ₁ a b hab => ?_
  obtain ⟨s, v⟩ := a
  obtain ⟨s', w⟩ := b
  obtain ⟨hs, hv⟩ := hab
  dsimp only
  rw [← function_eq h]
  refine Sim.after_ite (sim_setScopeStrict true hs).onHeap fun ρ₂ hρ₂ => ?_
  have h := h.mono (hρ₁.trans hρ₂)
  have hs := hs.mono hρ₂
  have hv := hv.mono hρ₂
  refine (Sim.readHeap fun _ hρ _ _ hh => hh.scopeIsStrict (hs.mono hρ)).bind
    fun ρ₃ hρ₃ strict strict' hstrict => ?_
  obtain rfl : strict = strict' := hstrict
  refine (sim_bodyReceiver (h.mono hρ₃) strict (hv.mono hρ₃)).bind fun ρ₄ hρ₄ x y hx => ?_
  have hle := hρ₃.trans hρ₄
  refine (sim_setScopeReceiver (hs.mono hle) hx).onHeap.bind fun ρ₅ hρ₅ _ _ _ => ?_
  have hle := hle.trans hρ₅
  refine (sim_declareNames (h.mono hle) (hs.mono hle) strict).bind fun ρ₆ hρ₆ _ _ _ => ?_
  have hle := hle.trans hρ₆
  refine (sim_allocArguments hE (h.mono hle) strict).bind fun ρ₇ hρ₇ a b hab => ?_
  obtain ⟨o, cs⟩ := a
  obtain ⟨p, ds⟩ := b
  obtain ⟨⟨ho, hcs⟩, hcells⟩ := hab
  refine Sim.names.bind fun ρ₈ hρ₈ n m hn => ?_
  have hle := hle.trans (hρ₇.trans hρ₈)
  have hs := hs.mono hle
  refine (Sim.readHeap fun _ hρ _ _ hh => hh.scope? (hs.mono hρ)).bind fun ρ₉ hρ₉ a b hab => ?_
  have harguments := (CommonNames.alike_iff.mp hn).2.2.2.2.2.1.mono hρ₉
  refine (Heap.sim_define (Scope.alike_target hab) harguments (Descriptor.alike_declared
    (.object (ho.mono (hρ₈.trans hρ₉))))).onHeap.discard.bind fun ρ₁₀ hρ₁₀ _ _ _ => ?_
  refine .pure_of fun ρ' hρ' => ?_
  have hle' := hρ₉.trans (hρ₁₀.trans hρ')
  obtain ⟨h1, h2, h3, h4, h5, h6, -, -, h9, -⟩ := alike_iff.mp (h.mono (hle.trans hle'))
  exact ⟨⟨h1, h2, h3, h4, h5, h6, .some (hs.mono hle'), hcs.mono (hρ₈.trans hle'), h9, rfl⟩,
    rfl, hcells⟩

/-! ### Parameters and body -/

theorem sim_bindSimple (h : Alike ρ t t') {s s' : ScopeRef} (hs : Alike ρ s s') (index : Nat)
    (name : String) {v w : Value} (hv : Alike ρ v w) :
    Sim M ρ Alike (t.bindSimple s index name v) (t'.bindSimple s' index name w) := by
  obtain ⟨-, -, -, -, -, -, -, hcells, -, hstrict⟩ := alike_iff.mp h
  have hcell := alike_getElem? hcells index
  unfold bindSimple
  rw [← hstrict]
  cases t.strict with
  | true => exact (sim_declare name hs hv).onHeap.discard
  | false =>
    generalize t.argCells[index]? = x, t'.argCells[index]? = y at hcell
    cases hcell with
    | some hc => exact (sim_declareCell name hs hc).onHeap
    | none => exact .fail (.same rfl nofun)

theorem sim_askBody (h : Alike ρ t t') (hready : t.Ready) {s s' : ScopeRef} (hs : Alike ρ s s') :
    Sim M ρ (Advanced Resumable) (t.askBody s) (t'.askBody s') := by
  obtain ⟨hcallee, hclosure, -, -, -, hextra, -⟩ := alike_iff.mp h
  obtain ⟨hxcallee, hxname⟩ := hextra
  refine Sim.isDebug.bind fun ρ₁ hρ₁ debug debug' hdebug => ?_
  obtain rfl : debug = debug' := hdebug
  have hreturn := (Closure.alike_iff.mp hclosure).2.2.2.2
  have hname : t.extra.profileName = t'.extra.profileName := hxname
  rw [← function_eq h, ← hname, ← hreturn]
  refine .advanced ⟨alike_state (h.mono hρ₁) .bodyEvaluating, .suspended (.branch ?_),
    fun _ _ => ⟨⟨hready.scope, hready.cells⟩, .inl rfl⟩⟩
  exact ⟨hs.mono hρ₁, ⟨.some (hcallee.mono hρ₁), hxcallee.mono hρ₁, rfl, rfl, rfl⟩, rfl, rfl⟩

theorem advanced_askDefault (h : Alike ρ t t') (hready : t.Ready) {s s' : ScopeRef}
    (hs : Alike ρ s s') {index : Nat} {p : Param}
    (hp : t.closure.function.params[index]? = some p) (hdefault : p.HasDefault) (e : Expr) :
    Advanced Resumable ρ (t.askDefault s index e) (t'.askDefault s' index e) :=
  ⟨alike_state h (.paramBinding index), .suspended (.branch (alike_expression e hs)),
    fun _ _ => ⟨⟨hready.scope, hready.cells⟩, .inr ⟨index, p, rfl, hp, hdefault⟩⟩⟩

/-- **Binding parameters as far as no default is needed.** -/
theorem sim_bindParams (hE : Engine.Sim M E₁ E₂) : ∀ (params : List Param) (ρ : Renaming)
    (s s' : ScopeRef) (index : Nat), Alike ρ t t' → t.Ready → Alike ρ s s' →
    t.closure.function.params.drop index = params →
    Sim M ρ (Advanced Resumable) (bindParams E₁ t s index params) (bindParams E₂ t' s' index params)
  | [], _, _, _, _, h, hready, hs, _ => sim_askBody h hready hs
  | .rest name :: params, ρ, s, s', index, h, hready, hs, _ => by
    have hargs := (alike_iff.mp h).2.2.2.1
    refine (sim_allocArray (alike_drop hargs index)).bind fun ρ₁ hρ₁ o p ho => ?_
    refine (sim_declare name (hs.mono hρ₁) (.object ho)).onHeap.discard.bind fun ρ₂ hρ₂ _ _ _ => ?_
    exact sim_askBody (h.mono (hρ₁.trans hρ₂)) hready (hs.mono (hρ₁.trans hρ₂))
  | .simple name default :: params, ρ, s, s', index, h, hready, hs, hdrop => by
    have harg := alike_getElem? (alike_iff.mp h).2.2.2.1 index
    have hp : t.closure.function.params[index]? = some (.simple name default) := by
      rw [← List.head?_drop, hdrop]
      rfl
    have hdrop' : t.closure.function.params.drop (index + 1) = params := by
      rw [← List.tail_drop, hdrop]
      rfl
    have bind : ∀ {v w : Value}, Alike ρ v w → Sim M ρ (Advanced Resumable)
        (t.bindSimple s index name v >>= fun _ => bindParams E₁ t s (index + 1) params)
        (t'.bindSimple s' index name w >>= fun _ => bindParams E₂ t' s' (index + 1) params) :=
      fun hv => (sim_bindSimple h hs index name hv).bind fun ρ₁ hρ₁ _ _ _ =>
        sim_bindParams hE params ρ₁ s s' (index + 1) (h.mono hρ₁) hready (hs.mono hρ₁) hdrop'
    simp only [bindParams]
    generalize t.args[index]? = x, t'.args[index]? = y at harg
    cases harg with
    | some hv => exact bind hv
    | none =>
      cases default with
      | none => exact bind .undefined
      | some e => exact .advanced (advanced_askDefault h hready hs hp rfl e)
  | .pattern target default :: params, ρ, s, s', index, h, hready, hs, hdrop => by
    have harg := alike_getElem? (alike_iff.mp h).2.2.2.1 index
    have hp : t.closure.function.params[index]? = some (.pattern target default) := by
      rw [← List.head?_drop, hdrop]
      rfl
    have hdrop' : t.closure.function.params.drop (index + 1) = params := by
      rw [← List.tail_drop, hdrop]
      rfl
    simp only [bindParams]
    refine (sim_declareAll _ _ _ _ hs).onHeap.bind fun ρ₁ hρ₁ _ _ _ => ?_
    have h := h.mono hρ₁
    have hs := hs.mono hρ₁
    have bind : ∀ {v w : Value}, Alike ρ₁ v w → Sim M ρ₁ (Advanced Resumable)
        (writePattern E₁ s target v >>= fun _ => bindParams E₁ t s (index + 1) params)
        (writePattern E₂ s' target w >>= fun _ => bindParams E₂ t' s' (index + 1) params) :=
      fun hv => (sim_writePattern hE target hs hv).bind fun ρ₂ hρ₂ _ _ _ =>
        sim_bindParams hE params ρ₂ s s' (index + 1) (h.mono hρ₂) hready (hs.mono hρ₂) hdrop'
    have harg := harg.mono hρ₁
    generalize t.args[index]? = x, t'.args[index]? = y at harg
    cases harg with
    | some hv => exact bind hv
    | none =>
      cases default with
      | none => exact bind .undefined
      | some e => exact .advanced (advanced_askDefault h hready hs hp rfl e)

/-- The scope of a call that is set up. -/
theorem sim_callScope (h : Alike ρ t t') (hready : t.Ready) :
    Sim M ρ Alike (liftM t.callScope : Run ScopeRef) (liftM t'.callScope) := by
  have hscope := (alike_iff.mp h).2.2.2.2.2.2.1
  have hsome := hready.scope
  refine Sim.ofExcept ?_
  unfold callScope
  generalize t.scope = x, t'.scope = y at hscope hsome
  cases hscope with
  | none => cases hsome
  | some hs => exact .ok hs

theorem sim_bindDefault (hE : Engine.Sim M E₁ E₂) (h : Alike ρ t t') (hready : t.Ready) {index : Nat}
    {p : Param} (hp : t.closure.function.params[index]? = some p) (hdefault : p.HasDefault)
    {v w : Value} (hv : Alike ρ v w) :
    Sim M ρ (Advanced Resumable) (t.bindDefault E₁ index v) (t'.bindDefault E₂ index w) := by
  refine (sim_callScope h hready).bind fun ρ₁ hρ₁ s s' hs => ?_
  have h := h.mono hρ₁
  have hv := hv.mono hρ₁
  have rest : ∀ {ρ₂}, ρ₁ ≤ ρ₂ → Sim M ρ₂ (Advanced Resumable)
      (bindParams E₁ t s (index + 1) (t.closure.function.params.drop (index + 1)))
      (bindParams E₂ t' s' (index + 1) (t.closure.function.params.drop (index + 1))) := fun hρ₂ =>
    sim_bindParams hE _ _ s s' (index + 1) (h.mono hρ₂) hready (hs.mono hρ₂) rfl
  have bind : ∀ {ρ₂}, ρ₁ ≤ ρ₂ → Sim M ρ₂ (Advanced Resumable)
      (match p with
        | .simple name _ => do
          t.bindSimple s index name v
          bindParams E₁ t s (index + 1) (t.closure.function.params.drop (index + 1))
        | .pattern target _ => do
          writePattern E₁ s target v
          bindParams E₁ t s (index + 1) (t.closure.function.params.drop (index + 1))
        | .rest _ => throw (.invocation s!"parameter {index} has no default"))
      (match p with
        | .simple name _ => do
          t'.bindSimple s' index name w
          bindParams E₂ t' s' (index + 1) (t.closure.function.params.drop (index + 1))
        | .pattern target _ => do
          writePattern E₂ s' target w
          bindParams E₂ t' s' (index + 1) (t.closure.function.params.drop (index + 1))
        | .rest _ => throw (.invocation s!"parameter {index} has no default")) := by
    intro ρ₂ hρ₂
    cases p with
    | simple name default =>
      exact (sim_bindSimple (h.mono hρ₂) (hs.mono hρ₂) index name (hv.mono hρ₂)).bind
        fun _ hρ₃ _ _ _ => rest (hρ₂.trans hρ₃)
    | pattern target default =>
      exact (sim_writePattern hE target (hs.mono hρ₂) (hv.mono hρ₂)).bind
        fun _ hρ₃ _ _ _ => rest (hρ₂.trans hρ₃)
    | rest name => exact hdefault.elim
  have hcell := alike_getElem? (alike_iff.mp h).2.2.2.2.2.2.2.1 index
  rw [← function_eq h]
  simp only [hp]
  generalize t.argCells[index]? = x, t'.argCells[index]? = y at hcell
  cases hcell with
  | none => cases p <;> exact bind le_rfl
  | some hc =>
    refine (Heap.sim_writeCell hc hv).onHeap.bind fun _ hρ₂ _ _ _ => ?_
    cases p <;> exact bind hρ₂

theorem sim_bodyValue {c d : Completion} (hc : Alike ρ c d) :
    Sim M ρ Alike (liftM (bodyValue c) : Run Value) (liftM (bodyValue d)) := by
  refine Sim.ofExcept ?_
  cases hc with
  | normal hv => exact .ok (alike_getD hv .undefined)
  | thrown hv => exact .error (.throw hv)
  | returned hv => exact .ok hv
  | broken _ _ => exact .error (.same rfl nofun)
  | continued _ _ => exact .error (.same rfl nofun)

/-! ### Start and resume -/

/-- What a call does when it starts, before its end is recorded. -/
def begin (engine : Engine) (t : InvocationTask) : Run (InvocationTask × Step) := do
  let t ← { t with state := .invoking }.setUp engine
  let scope ← t.callScope
  bindParams engine t scope 0 t.closure.function.params

/-- What a call does after a child, before its end is recorded. -/
def goOn (engine : Engine) (t : InvocationTask) (outcome : Except Error Completion) :
    Run (InvocationTask × Step) := do
  let completion ← outcome
  match t.state with
  | .paramBinding index => bindDefault engine t index completion.value
  | .bodyEvaluating => return (t, .value (← bodyValue completion))
  | state => throw (.driverState (.invocationResumed state.name))

theorem start_eq (engine : Engine) (h : t.state = .created) :
    t.start engine = settle t (t.begin engine) := by
  unfold start
  rw [if_pos h]
  rfl

/-- **Calls start alike.** -/
theorem sim_begin (hE : Engine.Sim M E₁ E₂) (h : Alike ρ t t') :
    Sim M ρ (Advanced Resumable) (t.begin E₁) (t'.begin E₂) := by
  refine (sim_setUp hE (alike_state h .invoking)).bind fun ρ₁ hρ₁ u u' hu => ?_
  obtain ⟨hu, hready⟩ := hu
  refine (sim_callScope hu hready).bind fun ρ₂ hρ₂ s s' hs => ?_
  rw [← function_eq hu]
  exact sim_bindParams hE _ ρ₂ s s' 0 (hu.mono hρ₂) hready hs List.drop_zero

/-- **Calls that can be resumed go on alike.** -/
theorem sim_goOn (hE : Engine.Sim M E₁ E₂) {o o' : Except Error Completion} (h : Alike ρ t t')
    (hw : t.Resumable) (ho : Alike ρ o o') :
    Sim M ρ (Advanced Resumable) (t.goOn E₁ o) (t'.goOn E₂ o') := by
  refine (sim_outcome ho).bind fun ρ₁ hρ₁ c d hc => ?_
  have h := h.mono hρ₁
  have hstate : t.state = t'.state := (alike_iff.mp h).2.2.2.2.2.2.2.2.1
  rw [← hstate]
  rcases hw.state with hbody | ⟨i, p, hparam, hp, hdefault⟩
  · simp only [hbody]
    refine (sim_bodyValue hc).bind fun ρ₂ hρ₂ v w hv => ?_
    exact .advanced ⟨h.mono hρ₂, .finished (.normal (.some hv)), fun _ hs => by cases hs⟩
  · simp only [hparam]
    exact sim_bindDefault hE h hw.toReady hp hdefault (alike_value hc)

end InvocationTask

end ScriptCore
