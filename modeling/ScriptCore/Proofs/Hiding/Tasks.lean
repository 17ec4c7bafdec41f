import ScriptCore.Proofs.Calls.Enclosing
import ScriptCore.Proofs.Hiding.Names

/-! # Statements and expressions show no hidden object

A task that is clear stays clear, and so is what it asks for and what it ends with.

* `StatementsTask.reticent_start`, `StatementTask.reticent_resume`, `ExpressionTask.reticent_start` and so on:
  **tasks show no hidden object.** -/

namespace ScriptCore

open Proc (within)

variable {α β τ : Type} {S : Scene} {h h' : Heap} {E : Engine} {o : ObjectRef} {key : PropertyKey} {v : Value}
  {s p : ScopeRef} {name : String} {r : Except Error Completion}

/-! ### What tasks hold -/

namespace Heap

@[simp] theorem clear_finished {c : Completion} : h.Clear (Step.finished c) ↔ h.Clear c := Iff.rfl

@[simp] theorem clear_ask {q : BranchRequest} : h.Clear (Step.ask q) ↔ h.Clear q := Iff.rfl

@[simp] theorem clear_value_step : h.Clear (Step.value v) ↔ h.Clear v := Iff.rfl

@[simp] theorem clear_ok {α : Type} [Renamable α] {a : α} : h.Clear (.ok a : Except Error α) ↔ h.Clear a := Iff.rfl

@[simp] theorem clear_failed {α : Type} [Renamable α] {e : Error} :
    h.Clear (.error e : Except Error α) ↔ h.Clear e := Iff.rfl

theorem clear_call {q : CallRequest} : h.Clear (Step.suspended (.call q)) ↔
    h.Clear q.callee ∧ h.Clear q.receiver ∧ h.Clear q.args ∧ h.Clear q.scope ∧ h.Clear q.extra.callee := by
  show h.Clear (q.callee, q.receiver, q.args, q.scope, q.extra.callee, Plain.mk q.extra.profileName) ↔ _
  simp

theorem clear_statements {t : StatementsTask} : h.Clear t ↔ h.Clear t.scope ∧ h.Clear t.options ∧ h.Clear t.last := by
  show h.Clear (t.scope, t.options, t.last, Plain.mk t.kind, Plain.mk t.statements, Plain.mk t.rest) ↔ _
  simp

theorem clear_statement {t : StatementTask} : h.Clear t ↔ h.Clear t.scope ∧ h.Clear t.last := by
  show h.Clear (t.scope, t.last, Plain.mk t.stmt, Plain.mk t.state) ↔ _
  simp

theorem clear_expressionTask {t : ExpressionTask} :
    h.Clear t ↔ h.Clear t.scope ∧ h.Clear t.values ∧ h.Clear t.callee ∧ h.Clear t.receiver := by
  show h.Clear (t.scope, t.values, t.callee, t.receiver, Plain.mk t.expr, Plain.mk t.pending, Plain.mk t.phase) ↔ _
  simp

/-- There is no value. -/
theorem clear_empty_value : h.Clear (none : Option Value) := clear_none

/-- A request without options shows its scope. -/
theorem clear_plainly {kind : BranchKind} {node : BranchNode} (hs : h.Clear s) :
    h.Clear (BranchRequest.mk kind node s {}) :=
  clear_request.mpr ⟨hs, clear_options.mpr ⟨clear_none, clear_none⟩⟩

/-- The request of a task shows what the task shows. -/
theorem clear_ofRequest {q : BranchRequest} (hq : h.Clear q) : h.Clear (Task.ofRequest q) := by
  obtain ⟨kind, node, scope, options⟩ := q
  obtain ⟨hs, hoptions⟩ := clear_request.mp hq
  cases node with
  | statements list => exact clear_statements.mpr ⟨hs, hoptions, clear_none⟩
  | statement stmt => exact clear_statement.mpr ⟨hs, clear_none⟩
  | expression e => exact clear_expressionTask.mpr ⟨hs, by simp, clear_undefined, clear_undefined⟩

end Heap

/-- A scope keeps the scope around it. -/
theorem Heap.Shelters.inside (hh : h.Shelters h') (hs : h.Inside s p) : h'.Inside s p := by
  obtain ⟨sc, hsc, hparent⟩ := hs
  obtain ⟨sc', hsc', -, hparent'⟩ := hh.scope hsc
  exact ⟨sc', hsc', hparent'.trans hparent⟩

/-! ### Lists of statements -/

theorem reticent_hoistVariables : ∀ (names : List String) {h : Heap},
    Reticent S h (Run.onHeap (hoistVariables s o names)) Heap.Clear
  | [], _ => .pure (Heap.clear_unit _)
  | name :: rest, h => by
    unfold hoistVariables
    rw [Run.onHeap_bind]
    refine reticent_keyOfName.bind fun h₁ key _ _ => ?_
    rw [Run.onHeap_bind, Routine.onHeap_reads]
    refine .read (Heap.mild_ownCell o key) fun found _ => ?_
    cases found with
    | some c => exact reticent_hoistVariables rest
    | none =>
      dsimp only
      rw [Proc.discard_bind, Run.onHeap_bind]
      exact (reticent_declare Heap.clear_undefined).bind fun _ _ _ _ => reticent_hoistVariables rest

theorem reticent_hoistFunction (f : Function) (hs : h.Clear s) :
    Reticent S h (hoistFunction s o f name) Heap.Clear := by
  refine (reticent_allocClosure f hs).bind fun h₁ closure _ hclosure => ?_
  refine reticent_keyOfName.bind fun h₂ key hh₂ _ => ?_
  have hv : h₂.Clear (Value.object closure) := hh₂.clear hclosure
  refine .read (Heap.mild_ownCell o key) fun found _ => ?_
  cases found with
  | some c => exact reticent_writeCell hv
  | none => exact .discard (reticent_declare hv)

theorem reticent_hoistFunctions : ∀ (statements : List Stmt) {h : Heap}, h.Clear s →
    Reticent S h (hoistFunctions s o statements) Heap.Clear
  | [], _, _ => .pure (Heap.clear_unit _)
  | t :: rest, h, hs => by
    have ih : ∀ {h'}, h.Shelters h' → Reticent S h' (hoistFunctions s o rest) Heap.Clear := fun hh =>
      reticent_hoistFunctions rest (hh.clear hs)
    cases t with
    | function f =>
      obtain ⟨name, params, body, strict, arrow, quiet⟩ := f
      cases name with
      | none => exact ih (.refl h)
      | some name => exact (reticent_hoistFunction _ hs).bind fun _ _ hh _ => ih hh
    | _ => exact ih (.refl h)

namespace StatementsTask

variable {t : StatementsTask}

theorem clear_advance (ht : h.Clear t) : h.Clear t.advance := by
  obtain ⟨hs, hoptions, hlast⟩ := Heap.clear_statements.mp ht
  unfold advance
  cases t.rest with
  | nil =>
    refine Heap.clear_prod.mpr ⟨ht, ?_⟩
    show h.Clear t.ending
    unfold ending
    split
    · exact Heap.clear_empty_value
    · exact hlast
  | cons u rest =>
    exact Heap.clear_prod.mpr ⟨Heap.clear_statements.mpr ⟨hs, hoptions, hlast⟩, Heap.clear_plainly hs⟩

theorem reticent_start (ht : h.Clear t) : Reticent S h t.start Heap.Clear := by
  have hs := (Heap.clear_statements.mp ht).1
  have hhoist : Reticent S h t.hoist Heap.Clear := by
    refine .read (Heap.mild_scope t.scope) fun sc _ => ?_
    split
    · exact (reticent_hoistVariables _).bind fun _ _ hh _ => reticent_hoistFunctions _ (hh.clear hs)
    · exact reticent_hoistFunctions _ hs
  exact hhoist.bind fun _ _ hh _ => .pure (clear_advance (hh.clear ht))

theorem reticent_resume (ht : h.Clear t) (hr : h.Clear r) : Reticent S h (t.resume r) Heap.Clear := by
  obtain ⟨hs, hoptions, hlast⟩ := Heap.clear_statements.mp ht
  cases r with
  | error e => exact .fail hr
  | ok c =>
    have hupdated := Heap.clear_updateEmpty hr hlast
    refine .ite (fun _ => .pure (Heap.clear_prod.mpr ⟨ht, hupdated⟩)) fun _ => .pure ?_
    exact clear_advance (t := { t with last := (c.updateEmpty t.last).value? })
      (Heap.clear_statements.mpr ⟨hs, hoptions, Heap.clear_value? hupdated⟩)

end StatementsTask

/-! ### Statements -/

namespace StatementTask

variable {t : StatementTask}

theorem clear_finish {c : Completion} (ht : h.Clear t) (hc : h.Clear c) : h.Clear (t.finish c) :=
  Heap.clear_prod.mpr ⟨ht, hc⟩

theorem clear_askExpr (ht : h.Clear t) (state : StatementState) (e : Expr) : h.Clear (t.askExpr state e) := by
  obtain ⟨hs, hlast⟩ := Heap.clear_statement.mp ht
  exact Heap.clear_prod.mpr ⟨Heap.clear_statement.mpr ⟨hs, hlast⟩, Heap.clear_expression e hs⟩

theorem clear_askStmt (ht : h.Clear t) (state : StatementState) (u : Stmt) : h.Clear (t.askStmt state u) := by
  obtain ⟨hs, hlast⟩ := Heap.clear_statement.mp ht
  exact Heap.clear_prod.mpr ⟨Heap.clear_statement.mpr ⟨hs, hlast⟩, Heap.clear_plainly hs⟩

theorem clear_askBlock (ht : h.Clear t) (state : StatementState) (list : List Stmt) (hs : h.Clear s) :
    h.Clear (t.askBlock state list s) :=
  Heap.clear_prod.mpr ⟨Heap.clear_statement.mpr (Heap.clear_statement.mp ht), Heap.clear_plainly hs⟩

theorem clear_askInitializer (ht : h.Clear t) (i : Nat) (declarations : List (Pattern × Option Expr)) :
    h.Clear (t.askInitializer i declarations) := by
  unfold askInitializer
  split
  · exact clear_askExpr ht _ _
  · exact clear_finish ht Heap.clear_empty_value

theorem clear_start (ht : h.Clear t) : h.Clear t.start := by
  obtain ⟨stmt, scope, state, last⟩ := t
  have hs := (Heap.clear_statement.mp ht).1
  cases stmt with
  | expr e => exact clear_askExpr ht _ _
  | vars declarations => exact clear_askInitializer ht _ _
  | function f => exact clear_finish ht Heap.clear_empty_value
  | ret value =>
    cases value with
    | none => exact clear_finish (c := .returned .undefined) ht Heap.clear_undefined
    | some e => exact clear_askExpr ht _ _
  | ifThen test consequent alternate => exact clear_askExpr ht _ _
  | block list => exact clear_askBlock ht _ _ hs
  | whileLoop test body => exact clear_askExpr ht _ _
  | breakLoop => exact clear_finish (c := .broken none none) ht Heap.clear_empty_value
  | continueLoop => exact clear_finish (c := .continued none none) ht Heap.clear_empty_value
  | throwValue e => exact clear_askExpr ht _ _
  | tryCatch block param handler => exact clear_askBlock ht _ _ hs

/-- The handler runs in a scope inside that of the statement. -/
theorem reticent_handle (ht : h.Clear t) (param : Option String) (handler : List Stmt) {e : Error} (he : h.Clear e) :
    Reticent S h (t.handle param handler e) fun h' r =>
      h'.Clear r ∧ r.2.Asks fun q => h'.Inside q.scope t.scope := by
  unfold handle
  refine .ite (fun _ => ?_) fun _ => .fail he
  refine (reticent_errorToValue he).bind fun h₁ v hh₁ hv => ?_
  refine reticent_childScope.bind fun h₂ scope hh₂ ⟨_, _, _, hscope⟩ => ?_
  have hclear : h₂.Clear scope := Heap.clear_scope.mpr ⟨_, hscope⟩
  have hinside : h₂.Inside scope t.scope := ⟨_, hscope, rfl⟩
  have hasked : ∀ {h'}, h₂.Shelters h' → h'.Clear (t.askBlock .tryHandler handler scope) ∧
      (t.askBlock .tryHandler handler scope).2.Asks fun q => h'.Inside q.scope t.scope := fun hh =>
    ⟨clear_askBlock (hh.clear ((hh₁.trans hh₂).clear ht)) _ _ (hh.clear hclear), .ask (hh.inside hinside)⟩
  cases param with
  | none => exact .pure (hasked (.refl _))
  | some name => exact (reticent_declare (hh₂.clear hv)).discard_bind fun h₃ _ hh₃ _ => .pure (hasked hh₃)

theorem clear_afterBody (ht : h.Clear t) (test : Expr) {c : Completion} (hc : h.Clear c) :
    h.Clear (t.afterBody test c) := by
  obtain ⟨hs, hlast⟩ := Heap.clear_statement.mp ht
  have hagain : ∀ v : Option Value, h.Clear v →
      h.Clear ({ t with last := v.or t.last }.askExpr .whileTest test) := fun v hv =>
    clear_askExpr (t := { t with last := v.or t.last })
      (Heap.clear_statement.mpr ⟨hs, Heap.clear_or hv hlast⟩) _ _
  unfold afterBody
  split
  · exact clear_finish (c := .normal _) ht (Heap.clear_or hc hlast)
  · exact hagain _ hc
  · exact hagain _ hc
  · exact clear_finish ht (Heap.clear_updateEmpty hc hlast)

theorem reticent_value (hr : h.Clear r) : Reticent S h (Proc.ofExcept (childValue r)) Heap.Clear := by
  cases r with
  | ok c => exact .pure (Heap.clear_value hr)
  | error e => exact .fail hr

theorem reticent_outcome (hr : h.Clear r) : Reticent S h (Proc.ofExcept r) Heap.Clear :=
  .ofExcept (fun _ hc => by subst hc; exact hr) fun _ he => by subst he; exact hr

theorem reticent_resume (hE : E.Reticent S) (ht : h.Clear t) (hr : h.Clear r) :
    Reticent S h (t.resume E r) Heap.Clear := by
  have hvalue : Reticent S h (Proc.ofExcept (childValue r)) Heap.Clear := reticent_value hr
  have houtcome : Reticent S h (Proc.ofExcept r) Heap.Clear := reticent_outcome hr
  have hunexpected : ∀ state : StatementState, Reticent S h
      (throw (.driverState (.statementResumed state.name)) : Run (StatementTask × Step)) Heap.Clear :=
    fun _ => .refuse fun _ he => by cases he
  obtain ⟨stmt, scope, state, last⟩ := t
  obtain ⟨hs, hlast⟩ := Heap.clear_statement.mp ht
  cases state with
  | start => exact hunexpected _
  | operand =>
    cases stmt with
    | expr e => exact hvalue.bind fun _ v hh hv => .pure (clear_finish (c := .ofValue v) (hh.clear ht) hv)
    | ret e => exact hvalue.bind fun _ v hh hv => .pure (clear_finish (c := .returned v) (hh.clear ht) hv)
    | throwValue e => exact hvalue.bind fun _ v _ hv => .fail hv
    | _ => exact hunexpected _
  | varInit i =>
    cases stmt with
    | vars declarations =>
      refine hvalue.bind fun h₁ v hh hv => ?_
      dsimp only
      cases declarations[i]? with
      | some d =>
        exact (reticent_writePattern hE (hh.clear hs) d.1 hv).bind fun _ _ hh₂ _ =>
          .pure (clear_askInitializer (hh₂.clear (hh.clear ht)) _ _)
      | none => exact .pure (clear_askInitializer (hh.clear ht) _ _)
    | _ => exact hunexpected _
  | ifTest =>
    cases stmt with
    | ifThen test consequent alternate =>
      refine hvalue.bind fun h₁ v hh hv => .read (Heap.mild_truthy v) fun _ _ => ?_
      have ht₁ := hh.clear ht
      refine .ite (fun _ => .pure (clear_askStmt ht₁ _ _)) fun _ => ?_
      cases alternate with
      | some u => exact .pure (clear_askStmt ht₁ _ _)
      | none => exact .pure (clear_finish (c := .ofValue .undefined) ht₁ Heap.clear_undefined)
    | _ => exact hunexpected _
  | nested =>
    have hplain : Reticent S h (do
        return StatementTask.finish ⟨stmt, scope, .nested, last⟩ (← Proc.ofExcept r)) Heap.Clear :=
      houtcome.bind fun _ _ hh hc => .pure (clear_finish (hh.clear ht) hc)
    cases stmt with
    | ifThen test consequent alternate =>
      exact houtcome.bind fun _ _ hh hc => .pure (clear_finish (hh.clear ht)
        (Heap.clear_updateEmpty hc (Heap.clear_some.mpr Heap.clear_undefined)))
    | _ => exact hplain
  | whileTest =>
    cases stmt with
    | whileLoop test body =>
      refine hvalue.bind fun h₁ v hh hv => .read (Heap.mild_truthy v) fun _ _ => ?_
      exact .ite (fun _ => .pure (clear_askStmt (hh.clear ht) _ _)) fun _ =>
        .pure (clear_finish (c := .normal _) (hh.clear ht) (hh.clear hlast))
    | _ => exact hunexpected _
  | whileBody =>
    cases stmt with
    | whileLoop test body => exact houtcome.bind fun _ _ hh hc => .pure (clear_afterBody (hh.clear ht) _ hc)
    | _ => exact hunexpected _
  | tryBlock =>
    cases stmt with
    | tryCatch block param handler =>
      cases r with
      | error e => exact (reticent_handle ht param handler hr).imp fun _ _ _ hh => hh.1
      | ok c =>
        cases c with
        | thrown v => exact (reticent_handle ht param handler (e := .throw v) hr).imp fun _ _ _ hh => hh.1
        | _ => exact .pure (clear_finish ht hr)
    | _ => exact hunexpected _
  | tryHandler =>
    cases stmt with
    | tryCatch block param handler => exact houtcome.bind fun _ _ hh hc => .pure (clear_finish (hh.clear ht) hc)
    | _ => exact hunexpected _

end StatementTask

/-! ### Procedures with a part of their own -/

/-- A procedure with a part of its own is reticent: what it delivers together with its part satisfies `Q`. -/
def OwnReticent (S : Scene) (h : Heap) (t : τ) (p : Proc (τ × Machine) α) (Q : Heap → τ × α → Prop) : Prop :=
  Reticent S h (within t p) Q

namespace OwnReticent

variable {t : τ} {p : Proc (τ × Machine) α} {f : α → Proc (τ × Machine) β} {Q : Heap → τ × α → Prop}
  {Q' : Heap → τ × β → Prop}

theorem pure {a : α} (ha : Q h (t, a)) : OwnReticent S h t (pure a) Q := Reticent.pure ha

theorem fail {e : Error} (he : h.Clear e) : OwnReticent S h t (throw e : Proc (τ × Machine) α) Q := Reticent.fail he

theorem refuse {e : Error} (he : ∀ v, e ≠ .throw v) : OwnReticent S h t (throw e : Proc (τ × Machine) α) Q :=
  Reticent.refuse he

/-- What the machine does first. -/
theorem shared {P : Heap → α → Prop} {q : Run α} (hq : Reticent S h q P)
    (hf : ∀ h' a, h.Shelters h' → P h' a → OwnReticent S h' t (f a) Q') :
    OwnReticent S h t (Proc.shared q >>= f) Q' := by
  have hwithin : within t (Proc.shared q >>= f) = (q >>= fun a => within t (f a)) := by
    funext m
    show within t (Proc.bind (Proc.shared q) f) m = Proc.bind q (fun a => within t (f a)) m
    simp only [within, Proc.bind, Proc.shared]
    cases q m <;> rfl
  unfold OwnReticent
  rw [hwithin]
  exact hq.bind hf

theorem read {g : Heap → Except Error α} (hg : Mild (g h)) (hf : ∀ a, g h = .ok a → OwnReticent S h t (f a) Q') :
    OwnReticent S h t (Proc.shared (Run.readHeap g) >>= f) Q' :=
  shared (P := fun h' a => h' = h ∧ g h = .ok a) (.reads hg fun _ ha => ⟨rfl, ha⟩)
    fun _ a _ ⟨hsame, ha⟩ => hsame ▸ hf a ha

theorem getOwn {f : τ → Proc (τ × Machine) β} (hf : OwnReticent S h t (f t) Q') :
    OwnReticent S h t (Proc.own >>= f) Q' := hf

theorem setOwn {u : τ} {f : Unit → Proc (τ × Machine) β} (hf : OwnReticent S h u (f ()) Q') :
    OwnReticent S h t (Proc.setOwn u >>= f) Q' := hf

theorem modifyOwn {g : τ → τ} {f : Unit → Proc (τ × Machine) β} (hf : OwnReticent S h (g t) (f ()) Q') :
    OwnReticent S h t (Proc.modifyOwn g >>= f) Q' := hf

theorem ofExcept {r : Except Error α} (hok : ∀ a, r = .ok a → OwnReticent S h t (f a) Q')
    (herror : ∀ e, r = .error e → h.Clear e) : OwnReticent S h t (Proc.ofExcept r >>= f) Q' := by
  cases r with
  | ok a => exact hok a rfl
  | error e => exact Reticent.fail (herror e rfl)

theorem ite {b : Prop} [Decidable b] {q : Proc (τ × Machine) α} (hp : b → OwnReticent S h t p Q)
    (hq : ¬ b → OwnReticent S h t q Q) : OwnReticent S h t (if b then p else q) Q := by
  by_cases hb : b
  · rw [if_pos hb]
    exact hp hb
  · rw [if_neg hb]
    exact hq hb

end OwnReticent

/-! ### Expressions -/

namespace ExpressionTask

variable {t : ExpressionTask}

theorem clear_operand (ht : h.Clear t) (i : Nat) : h.Clear (t.operand i) := by
  obtain ⟨-, hvalues, -, -⟩ := Heap.clear_expressionTask.mp ht
  unfold operand
  cases hv : t.values[i]? with
  | none => exact Heap.clear_undefined
  | some v => exact Heap.clear_list.mp hvalues v (List.mem_of_getElem? hv)

theorem clear_done (ht : h.Clear t) (hv : h.Clear v) : h.Clear (t, Step.value v) := Heap.clear_prod.mpr ⟨ht, hv⟩

theorem clear_asking (ht : h.Clear t) (e : Expr) : h.Clear (t, t.ask e) :=
  Heap.clear_prod.mpr ⟨ht, Heap.clear_expression e (Heap.clear_expressionTask.mp ht).1⟩

theorem reticent_memberKey (hE : E.Reticent S) (ht : h.Clear t) (key : MemberKey) :
    Reticent S h (t.memberKey E key) Heap.Clear := by
  cases key with
  | named name => exact reticent_keyOfName.imp fun _ _ _ ⟨hspells, _⟩ => hspells.clear
  | computed e => exact reticent_toPropertyKey hE (clear_operand ht 1)

theorem reticent_writeLiteral (hE : E.Reticent S) : ∀ (properties : List (String × Expr)) (values : List Value)
    {h : Heap}, h.Clear o → h.Clear values → Reticent S h (writeLiteral E o properties values) Heap.Clear
  | [], _, _, _, _ => by
    unfold writeLiteral
    exact .pure (Heap.clear_unit _)
  | _ :: _, [], _, _, _ => by
    unfold writeLiteral
    exact .pure (Heap.clear_unit _)
  | (name, _) :: properties, v :: values, h, ho, hvalues => by
    unfold writeLiteral
    rw [Heap.clear_list, List.forall_mem_cons, ← Heap.clear_list] at hvalues
    refine reticent_keyOfName.bind fun h₁ key hh₁ hkey => ?_
    rw [Proc.discard_bind]
    refine (reticent_setProperty hE hkey.1.clear (.inl (hh₁.clear ho)) (hh₁.clear hvalues.1)).bind fun h₂ _ hh₂ _ => ?_
    exact reticent_writeLiteral hE properties values (hh₂.clear (hh₁.clear ho)) (hh₂.clear (hh₁.clear hvalues.2))

theorem reticent_askCall (ht : h.Clear t) (callee : Expr) : OwnReticent S h t (askCall callee) Heap.Clear := by
  obtain ⟨hs, hvalues, hcallee, hreceiver⟩ := Heap.clear_expressionTask.mp ht
  refine .getOwn (.read (Heap.mild_isCallable t.callee) fun callable _ => .ite (fun _ => ?_) fun _ =>
    .refuse fun _ he => by cases he)
  refine .shared (P := fun h' _ => h' = h) (fun m hm hS => ⟨hm ▸ .refl _, hS, hm⟩) fun h' debug _ hsame => ?_
  subst hsame
  exact .setOwn (.pure (Heap.clear_prod.mpr ⟨Heap.clear_expressionTask.mpr ⟨hs, by simp, hcallee, hreceiver⟩,
    Heap.clear_call.mpr ⟨hcallee, hreceiver, hvalues, hs, Heap.clear_some.mpr hcallee⟩⟩))

theorem reticent_askArguments (ht : h.Clear t) (callee : Expr) (args : List Expr) :
    OwnReticent S h t (askArguments callee args) Heap.Clear := by
  cases args with
  | nil => exact reticent_askCall ht callee
  | cons e rest =>
    exact .getOwn (.setOwn (.pure (clear_asking (t := { t with pending := rest })
      (Heap.clear_expressionTask.mpr (Heap.clear_expressionTask.mp ht)) e)))

theorem reticent_unary (hE : E.Reticent S) (ht : h.Clear t) (op : UnaryOp) (operand : Expr) :
    Reticent S h (t.unary E op operand) Heap.Clear := by
  have hoperand := clear_operand ht 0
  cases op with
  | not => exact .read (Heap.mild_truthy _) fun _ _ => .pure (Heap.clear_bool_value _)
  | neg => exact (reticent_toNumber hE hoperand).bind fun _ _ _ _ => .pure (Heap.clear_number _)
  | plus => exact (reticent_toNumber hE hoperand).bind fun _ _ _ _ => .pure (Heap.clear_number _)
  | void => exact .pure Heap.clear_undefined
  | typeOf => exact .read (Heap.mild_typeName _) fun _ _ => reticent_string.bind fun _ _ _ hr => .pure hr
  | delete =>
    cases operand with
    | member base key =>
      refine (reticent_memberKey hE ht key).bind fun h₁ k hh _ => ?_
      have hbase := hh.clear hoperand
      cases hv : t.operand 0 with
      | object o =>
        rw [hv] at hbase
        exact .read (Heap.mild_scopeIsStrict _) fun strict _ =>
          (reticent_deleteProperty hbase).bind fun _ _ _ _ => .pure (Heap.clear_bool_value _)
      | undefined => exact .read (Heap.mild_describe _) fun _ _ => .refuse fun _ he => by cases he
      | null => exact .read (Heap.mild_describe _) fun _ _ => .refuse fun _ he => by cases he
      | _ => exact .pure (Heap.clear_bool_value _)
    | _ => exact .pure (Heap.clear_bool_value _)

theorem reticent_assignTo (hE : E.Reticent S) (ht : h.Clear t) (target : Pattern) (hv : h.Clear v) :
    Reticent S h (t.assignTo E target v) Heap.Clear := by
  have hs := (Heap.clear_expressionTask.mp ht).1
  cases target with
  | member base key =>
    exact (reticent_memberKey hE ht key).bind fun h₁ k hh hk => .read (Heap.mild_scopeIsStrict _) fun strict _ =>
      .discard (reticent_setMember hE (hh.clear (clear_operand ht 0)) hk (hh.clear hv))
  | _ => exact reticent_writePattern hE hs _ hv

theorem reticent_combine (hE : E.Reticent S) (ht : h.Clear t) : OwnReticent S h t (combine E) Heap.Clear := by
  have hunexpected : ∀ phase : ExpressionPhase, OwnReticent S h t
      (throw (.driverState (.expressionFinished phase.name)) : ExprRun Step) Heap.Clear :=
    fun _ => .refuse fun _ he => by cases he
  refine .getOwn ?_
  obtain ⟨expr, scope, pending, values, phase, callee, receiver⟩ := t
  have hfirst := clear_operand ht 0
  have hsecond := clear_operand ht 1
  obtain ⟨hs, hvalues, hcallee, hreceiver⟩ := Heap.clear_expressionTask.mp ht
  cases expr with
  | array elements =>
    exact .shared (reticent_allocArray hvalues) fun _ o hh ho => .pure (clear_done (v := .object o) (hh.clear ht) ho)
  | object properties =>
    refine .shared reticent_allocPlainObject fun h₁ o hh ho => ?_
    refine .shared (reticent_writeLiteral hE properties values ho (hh.clear hvalues)) fun h₂ _ hh₂ _ => ?_
    exact .pure (clear_done (v := .object o) (hh₂.clear (hh.clear ht)) (hh₂.clear ho))
  | member base key =>
    refine .shared (reticent_memberKey hE ht key) fun h₁ k hh _ => ?_
    exact .shared (reticent_getProperty hE (hh.clear hfirst)) fun _ v hh₂ hv =>
      .pure (clear_done (hh₂.clear (hh.clear ht)) hv)
  | assign target value =>
    have hv : h.Clear (values.getLast?.getD .undefined) := by
      refine Heap.clear_getD (Heap.clear_option.mpr fun v hv => ?_) Heap.clear_undefined
      exact Heap.clear_list.mp hvalues v (List.mem_of_getLast? hv)
    exact .shared (reticent_assignTo hE ht target hv) fun _ _ hh _ => .pure (clear_done (hh.clear ht) (hh.clear hv))
  | call f args =>
    cases phase with
    | operands =>
      have htail : h.Clear values.tail :=
        Heap.clear_list.mpr fun v hv => Heap.clear_list.mp hvalues v (List.mem_of_mem_tail hv)
      have hplain : OwnReticent S h
          (⟨.call f args, scope, pending, values, .operands, callee, receiver⟩ : ExpressionTask) (do
            Proc.setOwn ⟨.call f args, scope, pending, values.tail, .operands,
              ExpressionTask.operand ⟨.call f args, scope, pending, values, .operands, callee, receiver⟩ 0, receiver⟩
            askCall f) Heap.Clear :=
        .setOwn (reticent_askCall (t := ⟨_, scope, pending, values.tail, .operands, _, receiver⟩)
          (Heap.clear_expressionTask.mpr ⟨hs, htail, hfirst, hreceiver⟩) f)
      cases f with
      | member base key =>
        refine .shared (reticent_memberKey hE ht key) fun h₁ k hh _ => ?_
        refine .shared (reticent_getProperty hE (hh.clear hfirst)) fun h₂ g hh₂ hg =>
          .setOwn (reticent_askArguments ?_ _ args)
        exact Heap.clear_expressionTask.mpr
          ⟨hh₂.clear (hh.clear hs), by simp, hg, hh₂.clear (hh.clear hfirst)⟩
      | _ => exact hplain
    | callArgs => exact reticent_askCall ht f
    | logicalRight => exact hunexpected _
    | awaitCall => exact hunexpected _
  | binary op left right =>
    exact .shared (reticent_applyBinary hE op hfirst hsecond) fun _ _ hh hv => .pure (clear_done (hh.clear ht) hv)
  | logical op left right =>
    cases phase with
    | operands =>
      refine .read (Heap.mild_truthy _) fun truthy _ => .ite (fun _ => .pure (clear_done ht hfirst)) fun _ => ?_
      exact .setOwn (.pure (clear_asking (t := ⟨_, scope, pending, values, .logicalRight, callee, receiver⟩)
        (Heap.clear_expressionTask.mpr (Heap.clear_expressionTask.mp ht)) right))
    | logicalRight => exact .pure (clear_done ht hsecond)
    | callArgs => exact hunexpected _
    | awaitCall => exact hunexpected _
  | unary op operand =>
    exact .shared (reticent_unary hE ht op operand) fun _ _ hh hv => .pure (clear_done (hh.clear ht) hv)
  | _ => exact hunexpected _

theorem reticent_pump (hE : E.Reticent S) (ht : h.Clear t) : OwnReticent S h t (pump E) Heap.Clear := by
  refine .getOwn ?_
  cases t.pending with
  | nil => exact reticent_combine hE ht
  | cons e rest =>
    exact .setOwn (.pure (clear_asking (t := { t with pending := rest })
      (Heap.clear_expressionTask.mpr (Heap.clear_expressionTask.mp ht)) e))

theorem reticent_begin (hE : E.Reticent S) (ht : h.Clear t) : OwnReticent S h t (begin E) Heap.Clear :=
  .modifyOwn (reticent_pump hE (Heap.clear_expressionTask.mpr (Heap.clear_expressionTask.mp ht)))

theorem reticent_start (hE : E.Reticent S) (ht : h.Clear t) : OwnReticent S h t (start E) Heap.Clear := by
  have hs := (Heap.clear_expressionTask.mp ht).1
  refine .getOwn ?_
  cases t.expr with
  | undefined => exact .pure (clear_done ht Heap.clear_undefined)
  | null => exact .pure (clear_done ht Heap.clear_null)
  | bool b => exact .pure (clear_done ht (Heap.clear_bool_value b))
  | number x => exact .pure (clear_done ht (Heap.clear_number x))
  | string text => exact .shared reticent_string fun _ r hh hr => .pure (clear_done (v := .string r) (hh.clear ht) hr)
  | ident name =>
    exact .shared (reticent_lookupName hE t.scope name) fun _ _ hh hv => .pure (clear_done (hh.clear ht) hv)
  | receiver =>
    have hreceiver : Reticent S h (Run.readHeap fun h => h.scopeReceiver t.scope) Heap.Clear :=
      .secure fun hsecure _ => .reads (Heap.mild_scopeReceiver _) fun _ hv => hsecure.scopeReceiver hv
    exact .shared hreceiver fun _ _ hh hv => .pure (clear_done (hh.clear ht) hv)
  | function f =>
    exact .shared (reticent_allocClosure f hs) fun _ o hh ho => .pure (clear_done (v := .object o) (hh.clear ht) ho)
  | unary op operand =>
    cases op with
    | typeOf =>
      cases operand with
      | ident name =>
        refine .shared (reticent_hasBinding _ name) fun h₁ b hh _ => .ite (fun _ => reticent_begin hE (hh.clear ht))
          fun _ => ?_
        exact .shared reticent_string fun _ r hh₂ hr => .pure (clear_done (v := .string r) (hh₂.clear (hh.clear ht)) hr)
      | _ => exact reticent_begin hE ht
    | delete =>
      cases operand with
      | ident name => exact .pure (clear_done ht (Heap.clear_bool_value _))
      | _ => exact reticent_begin hE ht
    | _ => exact reticent_begin hE ht
  | _ => exact reticent_begin hE ht

theorem reticent_resume (hE : E.Reticent S) (ht : h.Clear t) (hr : h.Clear r) :
    OwnReticent S h t (resume E r) Heap.Clear := by
  obtain ⟨hs, hvalues, hcallee, hreceiver⟩ := Heap.clear_expressionTask.mp ht
  refine .ofExcept (fun c hc => ?_) fun e he => by subst he; exact hr
  subst hc
  have hv : h.Clear c.value := Heap.clear_value hr
  refine .getOwn (.ite (fun _ => .pure (clear_done ht hv)) fun _ => .setOwn (reticent_pump hE
    (Heap.clear_expressionTask.mpr ⟨hs, Heap.clear_list.mpr fun u hu => ?_, hcallee, hreceiver⟩)))
  rcases List.mem_append.mp hu with hu | hu
  · exact Heap.clear_list.mp hvalues u hu
  · exact List.mem_singleton.mp hu ▸ hv

end ExpressionTask

end ScriptCore
