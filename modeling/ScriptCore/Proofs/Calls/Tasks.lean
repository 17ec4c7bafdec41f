import ScriptCore.Proofs.Calls.Names
import ScriptCore.Proofs.Drive.Asking

/-! # Statements and expressions work by acts

A task is `Proper` in a world when its scope is live and its values name no private object. What it asks for, and
what it ends with, is then proper, too. A list of statements that binds names in the global object must not
declare functions with a forbidden name: they would be written without a look at what the name is.

* `hoistedOfList`: the functions that a list of statements declares in its own scope.
* `StatementsTask.Proper`, `StatementTask.Proper`, `ExpressionTask.Proper`: tasks that can go on.
* `StatementsTask.works_start`, `StatementTask.works_resume`, `ExpressionTask.works_start` and so on: **tasks work
  by acts.** -/

namespace ScriptCore

variable {α β τ : Type} {S : Setting} {own : Handle → Prop} {w w' : World} {E : Engine} {o : ObjectRef}
  {key : PropertyKey} {v : Value} {s : ScopeRef} {name : String}

/-! ### Functions declared in a scope -/

mutual

/-- The functions declared inside a statement that are bound in the scope of the statement. -/
def Stmt.hoisted : Stmt → List Function
  | .ifThen _ consequent alternate => consequent.hoisted ++ hoistedOfOption alternate
  | .block statements => hoistedOfList statements
  | .whileLoop _ body => body.hoisted
  | .tryCatch block _ _ => hoistedOfList block
  | _ => []

/-- The functions declared inside an optional statement that are bound in its scope. -/
def hoistedOfOption : Option Stmt → List Function
  | none => []
  | some s => s.hoisted

/-- The functions declared in a list of statements or inside them that are bound in the scope of the list. -/
def hoistedOfList : List Stmt → List Function
  | [] => []
  | .function f :: rest => f :: hoistedOfList rest
  | s :: rest => s.hoisted ++ hoistedOfList rest

end

theorem mem_hoisted_rest {f : Function} {s : Stmt} {rest : List Stmt} (hf : f ∈ hoistedOfList rest) :
    f ∈ hoistedOfList (s :: rest) := by
  cases s <;> simp [hoistedOfList, hf]

theorem mem_hoisted_first {f : Function} {s : Stmt} {rest : List Stmt} (hf : f ∈ s.hoisted) :
    f ∈ hoistedOfList (s :: rest) := by
  cases s with
  | function g => simp [Stmt.hoisted] at hf
  | _ => exact List.mem_append_left _ hf

/-- If names are bound in the global object in the scope, none of the functions has a forbidden name. -/
def World.Spares (S : Setting) (w : World) (s : ScopeRef) (fs : List Function) : Prop :=
  w.heap.Binds s S.realm.globalObject → ∀ f ∈ fs, ∀ name, f.name = some name → ¬ S.forbids name

namespace World.Spares

variable {fs fs' : List Function}

theorem sub (hs : w.Spares S s fs) (hsub : ∀ f ∈ fs', f ∈ fs) : w.Spares S s fs' :=
  fun hglobal f hf => hs hglobal f (hsub f hf)

theorem persists {P : Handle → Prop} (hs : w.Spares S s fs) (hp : Heap.Persists P w.heap w'.heap)
    (ho : w.heap.Binds s o) (hP : P s.handle) : w'.Spares S s fs := by
  intro hglobal
  cases (hp.binds ho hP).unique hglobal
  exact hs ho

theorem next (hs : w.Spares S s fs) (hacts : Acts S own w w') (ho : w.heap.Binds s o) : w'.Spares S s fs :=
  hs.persists hacts.stays ho trivial

end World.Spares

/-! ### What is asked for -/

/-- A branch that can be evaluated. -/
structure BranchRequest.Proper (S : Setting) (w : World) (r : BranchRequest) : Prop where
  scope : ∃ o, w.heap.Binds r.scope o
  spares : w.Spares S r.scope (match r.node with
    | .statements list => hoistedOfList list
    | .statement s => s.hoisted
    | .expression _ => [])

/-- A call that can be made. -/
structure CallRequest.Proper (S : Setting) (w : World) (r : CallRequest) : Prop where
  callee : w.Shows S r.callee
  receiver : w.Shows S r.receiver
  args : ∀ v ∈ r.args, w.Shows S v
  scope : ∃ o, w.heap.Binds r.scope o

/-- What a task came to names no private object, and what it asks for can be evaluated. -/
def Step.Proper (S : Setting) (w : World) : Step → Prop
  | .finished c => c.Public S.realm w.heap
  | .suspended (.branch r) => r.Proper S w
  | .suspended (.call r) => r.Proper S w

theorem proper_expression (e : Expr) (hs : w.heap.Binds s o) : Step.Proper S w (.ask (.expression e s)) :=
  ⟨⟨o, hs⟩, fun _ _ hf => absurd hf List.not_mem_nil⟩

theorem proper_statement {t : Stmt} (hs : w.heap.Binds s o) (hspares : w.Spares S s t.hoisted) :
    Step.Proper S w (.ask (.statement t s)) := ⟨⟨o, hs⟩, hspares⟩

theorem proper_block {list : List Stmt} (hs : w.heap.Binds s o) (hspares : w.Spares S s (hoistedOfList list)) :
    Step.Proper S w (.ask (.block list s)) := ⟨⟨o, hs⟩, hspares⟩

/-- An outcome that names no private object. -/
def World.Outputs (S : Setting) (w : World) : Except Error Completion → Prop
  | .ok c => c.Public S.realm w.heap
  | .error e => e.Public S.realm w.heap

theorem Acts.outputs {r : Except Error Completion} (hacts : Acts S own w w') (hr : w.Outputs S r) :
    w'.Outputs S r := by
  cases r with
  | ok c => exact hacts.completion hr
  | error e => exact hacts.error hr

theorem World.Outputs.ok {r : Except Error Completion} {c : Completion} (hr : w.Outputs S r) (hc : r = .ok c) :
    c.Public S.realm w.heap := by
  subst hc
  exact hr

theorem World.Outputs.error {r : Except Error Completion} {e : Error} (hr : w.Outputs S r) (he : r = .error e) :
    e.Public S.realm w.heap := by
  subst he
  exact hr

theorem works_outcome {r : Except Error Completion} (hr : w.Outputs S r) :
    Works S own w (Proc.ofExcept r) fun w' c => w'.heap = w.heap ∧ c.Public S.realm w'.heap :=
  .ofExcept (fun _ hc => ⟨rfl, hr.ok hc⟩) fun _ he => hr.error he

/-! ### Lists of statements -/

theorem works_hoistVariables : ∀ (names : List String) {w : World}, w.heap.Binds s o →
    Works S own w (Run.onHeap (hoistVariables s o names)) World.Anything
  | [], _, _ => .pure trivial
  | name :: rest, w, hs => by
    unfold hoistVariables
    rw [Run.onHeap_bind]
    refine works_keyOfName.bind fun w₁ key hw₁ hacts ⟨hspells, _⟩ => ?_
    have hs₁ := hacts.binds hs
    rw [Run.onHeap_bind, Routine.onHeap_reads]
    refine .read (Heap.mild_ownCell o key) fun found hfound => ?_
    cases found with
    | some c => exact works_hoistVariables rest hs₁
    | none =>
      dsimp only
      rw [Proc.discard_bind, Run.onHeap_bind]
      refine (works_declare (v := .undefined) hs₁ trivial fun _ key' hkey' => ?_).bind fun w₂ _ _ hacts₂ _ =>
        works_hoistVariables rest (hacts₂.binds hs₁)
      cases hkey' key hspells
      exact .absent (Heap.not_refers_of_ownCell hfound) fun _ => rfl

/-- **The closure of a declared function is bound**: in a global property only if its name is not forbidden. -/
theorem works_hoistFunction (f : Function) (hs : w.heap.Binds s o)
    (hname : o = S.realm.globalObject → ¬ S.forbids name) :
    Works S own w (hoistFunction s o f name) World.Anything := by
  refine (works_allocClosure f hs).bind fun w₁ closure _ hacts₁ hclosure => ?_
  refine works_keyOfName.bind fun w₂ key hw₂ hacts₂ ⟨hspells, _⟩ => ?_
  have hs₂ := hacts₂.binds (hacts₁.binds hs)
  have hv : w₂.Shows S (.object closure) := hacts₂.shown hclosure
  refine .read (Heap.mild_ownCell o key) fun found hfound => ?_
  cases found with
  | some c =>
    refine (works_writeCell hv fun _ d _ => .inr fun key' hr => ⟨name, ?_⟩)
    obtain ⟨rfl, rfl⟩ := hw₂.global_unshared hr hfound
    exact ⟨hspells, hname rfl⟩
  | none =>
    refine .discard (works_declare hs₂ hv fun _ key' hkey' => ?_).weaken
    cases hkey' key hspells
    exact .absent (Heap.not_refers_of_ownCell hfound) fun _ => rfl

theorem works_hoistFunctions : ∀ (statements : List Stmt) {w : World}, w.heap.Binds s o →
    w.Spares S s (hoistedOfList statements) →
    Works S own w (hoistFunctions s o statements) World.Anything
  | [], _, _, _ => .pure trivial
  | t :: rest, w, hs, hspares => by
    have ih : ∀ {w'}, Acts S own w w' → Works S own w' (hoistFunctions s o rest) World.Anything := fun hacts =>
      works_hoistFunctions rest (hacts.binds hs) ((hspares.sub fun _ => mem_hoisted_rest).next hacts hs)
    cases t with
    | function f =>
      obtain ⟨name, params, body, strict, arrow, quiet⟩ := f
      cases name with
      | none => exact ih .refl
      | some name =>
        refine (works_hoistFunction _ hs fun hglobal => ?_).bind fun _ _ _ hacts _ => ih hacts
        exact hspares (hglobal ▸ hs) _ (List.mem_cons_self ..) name rfl
    | _ => exact ih .refl

theorem mem_handlesOfOption {u : Option Value} {x : Handle} (hu : u = some v) (hx : x ∈ v.handles) :
    x ∈ handlesOfOption u := by
  subst hu
  exact hx

/-- A list of statements that can go on. -/
structure StatementsTask.Proper (S : Setting) (w : World) (t : StatementsTask) : Prop where
  scope : ∃ o, w.heap.Binds t.scope o
  spares : w.Spares S t.scope (hoistedOfList t.statements)
  rest : w.Spares S t.scope (hoistedOfList t.rest)
  last : ∀ v, t.last = some v → w.Shows S v

namespace StatementsTask

variable {t : StatementsTask}

/-- What a list of statements depends on is what it refers to. -/
theorem Proper.persists {P : Handle → Prop} (ht : t.Proper S w) (hp : Heap.Persists P w.heap w'.heap)
    (hP : ∀ x ∈ t.handles, P x) : t.Proper S w' := by
  obtain ⟨o, hs⟩ := ht.scope
  have hscope : P t.scope.handle := hP _ (List.mem_cons_self ..)
  refine ⟨⟨o, hp.binds hs hscope⟩, ht.spares.persists hp hs hscope, ht.rest.persists hp hs hscope, fun v hv =>
    hp.value (ht.last v hv) fun x hx => hP x ?_⟩
  exact List.mem_cons_of_mem _ (List.mem_append_right _ (mem_handlesOfOption hv hx))

theorem Proper.next (ht : t.Proper S w) (hacts : Acts S own w w') : t.Proper S w' :=
  ht.persists hacts.stays fun _ _ => trivial

theorem Proper.advance (ht : t.Proper S w) : t.advance.1.Proper S w ∧ t.advance.2.Proper S w := by
  obtain ⟨o, hs⟩ := ht.scope
  unfold StatementsTask.advance
  cases hrest : t.rest with
  | nil =>
    refine ⟨ht, ?_⟩
    show Completion.Public S.realm w.heap t.ending
    unfold ending
    split
    · exact fun _ hv => by cases hv
    · exact ht.last
  | cons s rest =>
    have hspares := ht.rest
    rw [hrest] at hspares
    exact ⟨⟨⟨o, hs⟩, ht.spares, hspares.sub fun _ => mem_hoisted_rest, ht.last⟩,
      proper_statement hs (hspares.sub fun _ => mem_hoisted_first)⟩

theorem works_start (ht : t.Proper S w) :
    Works S own w t.start fun w' r => r.1.Proper S w' ∧ r.2.Proper S w' := by
  obtain ⟨o, hs⟩ := ht.scope
  have hhoist : Works S own w t.hoist World.Anything := by
    refine .lawful fun hw => .read (Heap.mild_scope t.scope) fun sc hsc => ?_
    rw [(hw.heap.scopes t.scope sc hsc).target, hs.object_eq hsc]
    dsimp only
    split
    · exact (works_hoistVariables _ hs).bind fun _ _ _ hacts _ =>
        works_hoistFunctions _ (hacts.binds hs) (ht.spares.next hacts hs)
    · exact works_hoistFunctions _ hs ht.spares
  exact hhoist.bind fun _ _ _ hacts _ => .pure (ht.next hacts).advance

theorem works_resume (ht : t.Proper S w) {r : Except Error Completion} (hr : w.Outputs S r) :
    Works S own w (t.resume r) fun w' r => r.1.Proper S w' ∧ r.2.Proper S w' := by
  refine (works_outcome hr).bind fun w₁ c _ hacts ⟨_, hc⟩ => ?_
  have ht₁ := ht.next hacts
  have hupdated := hc.updateEmpty ht₁.last
  refine .ite (fun _ => .pure ⟨ht₁, hupdated⟩) fun _ => .pure ?_
  exact Proper.advance (t := { t with last := (c.updateEmpty t.last).value? })
    ⟨ht₁.scope, ht₁.spares, ht₁.rest, hupdated.value?⟩

end StatementsTask

/-! ### Statements -/

/-- A statement that can go on. -/
structure StatementTask.Proper (S : Setting) (w : World) (t : StatementTask) : Prop where
  scope : ∃ o, w.heap.Binds t.scope o
  spares : w.Spares S t.scope t.stmt.hoisted
  last : ∀ v, t.last = some v → w.Shows S v

namespace StatementTask

variable {t : StatementTask}

theorem Proper.persists {P : Handle → Prop} (ht : t.Proper S w) (hp : Heap.Persists P w.heap w'.heap)
    (hP : ∀ x ∈ t.handles, P x) : t.Proper S w' := by
  obtain ⟨o, hs⟩ := ht.scope
  have hscope : P t.scope.handle := hP _ (List.mem_cons_self ..)
  exact ⟨⟨o, hp.binds hs hscope⟩, ht.spares.persists hp hs hscope, fun v hv =>
    hp.value (ht.last v hv) fun x hx => hP x (List.mem_cons_of_mem _ (mem_handlesOfOption hv hx))⟩

theorem Proper.next (ht : t.Proper S w) (hacts : Acts S own w w') : t.Proper S w' :=
  ht.persists hacts.stays fun _ _ => trivial

/-- What a statement hands over: itself and what it asks for or ended with. -/
abbrev Hands (S : Setting) (w : World) (r : StatementTask × Step) : Prop := r.1.Proper S w ∧ r.2.Proper S w

theorem Proper.finish (ht : t.Proper S w) {c : Completion} (hc : c.Public S.realm w.heap) :
    Hands S w (t.finish c) := ⟨ht, hc⟩

theorem Proper.askExpr (ht : t.Proper S w) (state : StatementState) (e : Expr) :
    Hands S w (t.askExpr state e) :=
  ht.scope.elim fun _ hs => ⟨⟨ht.scope, ht.spares, ht.last⟩, proper_expression e hs⟩

theorem Proper.askStmt (ht : t.Proper S w) (state : StatementState) {u : Stmt}
    (hspares : w.Spares S t.scope u.hoisted) : Hands S w (t.askStmt state u) :=
  ht.scope.elim fun _ hs => ⟨⟨ht.scope, ht.spares, ht.last⟩, proper_statement hs hspares⟩

theorem Proper.askBlock (ht : t.Proper S w) (state : StatementState) {list : List Stmt} {scope : ScopeRef}
    (hs : w.heap.Binds scope o) (hspares : w.Spares S scope (hoistedOfList list)) :
    Hands S w (t.askBlock state list scope) := ⟨⟨ht.scope, ht.spares, ht.last⟩, proper_block hs hspares⟩

theorem Proper.askInitializer (ht : t.Proper S w) (i : Nat) (declarations : List (Pattern × Option Expr)) :
    Hands S w (t.askInitializer i declarations) := by
  unfold StatementTask.askInitializer
  split
  · exact ht.askExpr _ _
  · exact ht.finish fun _ hv => by cases hv

theorem Proper.start (ht : t.Proper S w) : Hands S w t.start := by
  obtain ⟨stmt, scope, state, last⟩ := t
  obtain ⟨o, hs⟩ := ht.scope
  have hspares := ht.spares
  cases stmt with
  | expr e => exact ht.askExpr _ _
  | vars declarations => exact ht.askInitializer _ _
  | function f => exact ht.finish fun _ hv => by cases hv
  | ret value =>
    cases value with
    | none => exact ht.finish (c := .returned .undefined) trivial
    | some e => exact ht.askExpr _ _
  | ifThen test consequent alternate => exact ht.askExpr _ _
  | block list => exact ht.askBlock _ hs hspares
  | whileLoop test body => exact ht.askExpr _ _
  | breakLoop => exact ht.finish (c := .broken none none) fun _ hv => by cases hv
  | continueLoop => exact ht.finish (c := .continued none none) fun _ hv => by cases hv
  | throwValue e => exact ht.askExpr _ _
  | tryCatch block param handler => exact ht.askBlock _ hs hspares

/-- The handler runs in a scope inside that of the statement. -/
theorem works_handle (ht : t.Proper S w) (param : Option String) (handler : List Stmt) {e : Error}
    (he : e.Public S.realm w.heap) :
    Works S own w (t.handle param handler e) fun w' r =>
      Hands S w' r ∧ r.2.Asks fun q => w'.heap.Inside q.scope t.scope := by
  unfold handle
  refine .owning fun hown => .ite (fun _ => ?_) fun _ => .fail he
  refine (works_errorToValue he).bind fun w₁ v hw₁ hacts₁ hv => ?_
  refine works_childScope.bind fun w₂ scope hw₂ hacts₂ ⟨o, hs, hprivate, hfresh, hext, hinside⟩ => ?_
  -- the scope of the handler does not bind names in the global object
  have hasked : ∀ {w'}, Acts S own w₂ w' → Hands S w' (t.askBlock .tryHandler handler scope) ∧
      (t.askBlock .tryHandler handler scope).2.Asks fun q => w'.heap.Inside q.scope t.scope := by
    intro w' hacts
    refine ⟨(((ht.next hacts₁).next hacts₂).next hacts).askBlock _ (hacts.binds hs) fun hglobal => ?_,
      .ask (Heap.Persists.inside hacts.stays hinside trivial)⟩
    cases hglobal.unique (hacts.binds hs)
    exact absurd (hacts.lawful hw₂).realm.global (hacts.hidden hprivate).not_public
  cases param with
  | none => exact .pure (hasked .refl)
  | some name =>
    dsimp only
    rw [Proc.discard_bind]
    refine (works_declare hs (hacts₂.value hv) fun _ key _ => ?_).bind fun w₃ _ _ hacts₃ _ => .pure (hasked hacts₃)
    refine .declares hprivate (hown _ (hacts₁.fresh hfresh)) fun k hk hb => ?_
    rw [hext.calls] at hk
    obtain ⟨obj, ho, -⟩ := (hw₁.calls k hk).bindings
    rw [hb] at ho
    cases hfresh.symm.trans (Heap.object_eq_ok.mp ho)

theorem Proper.afterBody (ht : t.Proper S w) (test : Expr) {c : Completion} (hc : c.Public S.realm w.heap) :
    Hands S w (t.afterBody test c) := by
  have hor : ∀ v : Option Value, (∀ x, v = some x → w.Shows S x) → ∀ x, v.or t.last = some x → w.Shows S x := by
    intro v hv x hx
    cases v with
    | none => exact ht.last x hx
    | some u => exact hv x hx
  have hagain : ∀ v : Option Value, (∀ x, v = some x → w.Shows S x) →
      Hands S w ({ t with last := v.or t.last }.askExpr .whileTest test) := fun v hv =>
    Proper.askExpr (t := { t with last := v.or t.last }) ⟨ht.scope, ht.spares, hor v hv⟩ _ _
  unfold StatementTask.afterBody
  split
  · exact ht.finish (c := .normal _) (hor _ hc)
  · exact hagain _ hc
  · exact hagain _ hc
  · exact ht.finish (hc.updateEmpty ht.last)

theorem works_value {r : Except Error Completion} (hr : w.Outputs S r) :
    Works S own w (Proc.ofExcept (childValue r)) (World.Shows S) := by
  cases r with
  | ok c => exact .pure (Completion.Public.value hr)
  | error e => exact .fail hr

theorem works_resume (hE : E.Fair S) (ht : t.Proper S w) {r : Except Error Completion} (hr : w.Outputs S r) :
    Works S own w (t.resume E r) (Hands S) := by
  have hvalue : Works S own w (Proc.ofExcept (childValue r)) (World.Shows S) := works_value hr
  have houtcome : Works S own w (Proc.ofExcept r) fun w' c => c.Public S.realm w'.heap :=
    (works_outcome hr).imp fun _ _ _ _ hc => hc.2
  have hunexpected : ∀ state : StatementState, Works S own w
      (throw (.driverState (.statementResumed state.name)) : Run (StatementTask × Step)) (Hands S) :=
    fun _ => .fail fun _ hu => by cases hu
  obtain ⟨stmt, scope, state, last⟩ := t
  obtain ⟨o, hs⟩ := ht.scope
  have hspares := ht.spares
  cases state with
  | start => exact hunexpected _
  | operand =>
    cases stmt with
    | expr e =>
      exact hvalue.bind fun _ v _ hacts hv => .pure ((ht.next hacts).finish (c := .ofValue v)
        fun _ hx => Option.some.inj hx ▸ hv)
    | ret e => exact hvalue.bind fun _ v _ hacts hv => .pure ((ht.next hacts).finish (c := .returned v) hv)
    | throwValue e => exact hvalue.bind fun _ v _ _ hv => .fail fun _ hx => Error.throw.inj hx ▸ hv
    | _ => exact hunexpected _
  | varInit i =>
    cases stmt with
    | vars declarations =>
      refine hvalue.bind fun w₁ v _ hacts hv => ?_
      dsimp only
      cases declarations[i]? with
      | some d =>
        exact (works_writePattern hE (hacts.binds hs) d.1 hv).bind fun _ _ _ hacts₂ _ =>
          .pure (((ht.next hacts).next hacts₂).askInitializer _ _)
      | none => exact .pure ((ht.next hacts).askInitializer _ _)
    | _ => exact hunexpected _
  | ifTest =>
    cases stmt with
    | ifThen test consequent alternate =>
      refine hvalue.bind fun w₁ v _ hacts hv => .read (Heap.mild_truthy v) fun _ _ => ?_
      have ht₁ := ht.next hacts
      have hspares₁ := hspares.next hacts hs
      refine .ite (fun _ => .pure (ht₁.askStmt _ (hspares₁.sub fun _ => List.mem_append_left _))) fun _ => ?_
      cases alternate with
      | some u => exact .pure (ht₁.askStmt _ (hspares₁.sub fun _ => List.mem_append_right _))
      | none => exact .pure (ht₁.finish (c := .ofValue .undefined) fun _ hx => Option.some.inj hx ▸ trivial)
    | _ => exact hunexpected _
  | nested =>
    have hplain : Works S own w (do
        return StatementTask.finish ⟨stmt, scope, .nested, last⟩ (← Proc.ofExcept r)) (Hands S) :=
      houtcome.bind fun _ _ _ hacts hc => .pure ((ht.next hacts).finish hc)
    cases stmt with
    | ifThen test consequent alternate =>
      exact houtcome.bind fun _ _ _ hacts hc => .pure ((ht.next hacts).finish
        (hc.updateEmpty fun _ hx => Option.some.inj hx ▸ trivial))
    | _ => exact hplain
  | whileTest =>
    cases stmt with
    | whileLoop test body =>
      refine hvalue.bind fun w₁ v _ hacts hv => .read (Heap.mild_truthy v) fun _ _ => ?_
      have ht₁ := ht.next hacts
      exact .ite (fun _ => .pure (ht₁.askStmt _ (hspares.next hacts hs))) fun _ =>
        .pure (ht₁.finish (c := .normal _) ht₁.last)
    | _ => exact hunexpected _
  | whileBody =>
    cases stmt with
    | whileLoop test body => exact houtcome.bind fun _ _ _ hacts hc => .pure ((ht.next hacts).afterBody _ hc)
    | _ => exact hunexpected _
  | tryBlock =>
    cases stmt with
    | tryCatch block param handler =>
      cases r with
      | error e => exact (works_handle ht param handler hr).imp fun _ _ _ _ hh => hh.1
      | ok c =>
        cases c with
        | thrown v =>
          exact (works_handle ht param handler (e := .throw v) fun _ hx => Error.throw.inj hx ▸ hr).imp
            fun _ _ _ _ hh => hh.1
        | _ => exact .pure (ht.finish hr)
    | _ => exact hunexpected _
  | tryHandler =>
    cases stmt with
    | tryCatch block param handler =>
      exact houtcome.bind fun _ _ _ hacts hc => .pure ((ht.next hacts).finish hc)
    | _ => exact hunexpected _

end StatementTask

end ScriptCore
