import ScriptCore.Task.Statement
import ScriptCore.Task.Statements
import ScriptCore.Proofs.Renaming.References

/-! # Statements go alike

A task that runs hands back how far it came and what it has to remember. Two tasks *came equally far*
when both finished alike or both ask for something alike; and where they ask, they remember a state from
which they can be resumed. For a statement this means that the state goes with the statement.

* `StatementsTask.sim_start`, `StatementsTask.sim_resume`: lists of statements.
* `StatementTask.advanced_start`, `StatementTask.sim_resume`: statements. -/

namespace ScriptCore

variable {M : Mode} {ρ ρ' : Renaming} {E₁ E₂ : Engine} {τ : Type} [Renamable τ]

/-- Two tasks came equally far; where they ask for something, they satisfy `P`. -/
structure Advanced (P : τ → Prop) (ρ : Renaming) (a b : τ × Step) : Prop where
  task : Alike ρ a.1 b.1
  step : Alike ρ a.2 b.2
  waits : ∀ s, a.2 = .suspended s → P a.1

theorem Advanced.mono {P : τ → Prop} {a b : τ × Step} (h : Advanced P ρ a b) (hρ : ρ ≤ ρ') :
    Advanced P ρ' a b :=
  ⟨h.task.mono hρ, h.step.mono hρ, h.waits⟩

theorem Sim.advanced {P : τ → Prop} {a b : τ × Step} (h : Advanced P ρ a b) :
    Sim M ρ (Advanced P) (Pure.pure a : Run (τ × Step)) (Pure.pure b) :=
  .pure_of fun _ hρ => h.mono hρ

/-! ### Completions -/

theorem alike_updateEmpty {c d : Completion} {v w : Option Value} (h : Alike ρ c d)
    (hv : Alike ρ v w) : Alike ρ (c.updateEmpty v) (d.updateEmpty w) := by
  cases h with
  | normal h =>
    cases h with
    | none => exact .normal hv
    | some h => exact .normal (.some h)
  | thrown h => exact .thrown h
  | returned h => exact .returned h
  | broken l h =>
    cases h with
    | none => exact .broken l hv
    | some h => exact .broken l (.some h)
  | continued l h =>
    cases h with
    | none => exact .continued l hv
    | some h => exact .continued l (.some h)

theorem isAbrupt_eq {c d : Completion} (h : Alike ρ c d) : c.isAbrupt = d.isAbrupt := by
  cases h <;> rfl

theorem alike_value? {c d : Completion} (h : Alike ρ c d) : Alike ρ c.value? d.value? := by
  cases h with
  | normal h => exact h
  | thrown h => exact .some h
  | returned h => exact .some h
  | broken _ h => exact h
  | continued _ h => exact h

/-- The outcome of a child, handed on. -/
theorem sim_outcome {o o' : Except Error Completion} (ho : Alike ρ o o') :
    Sim M ρ Alike (liftM o : Run Completion) (liftM o') :=
  .ofExcept ho

/-- The value of a child that has to have ended. -/
theorem sim_childValue {o o' : Except Error Completion} (ho : Alike ρ o o') :
    Sim M ρ Alike (liftM (childValue o) : Run Value) (liftM (childValue o')) :=
  .ofExcept (alike_bind ho fun _ _ h => .ok (alike_value h))

/-! ### Hoisting -/

theorem sim_hoistVariables : ∀ (names : List String) (ρ : Renaming) (s t : ScopeRef)
    (o p : ObjectRef), Alike ρ s t → Alike ρ o p →
    Sim M ρ Alike (hoistVariables s o names) (hoistVariables t p names)
  | [], _, _, _, _, _, _, _ => .pure rfl
  | name :: names, _, s, t, o, p, hs, ho => by
    refine (Heap.sim_keyOfName name).bind fun ρ₁ hρ₁ k l hk => ?_
    have hs := hs.mono hρ₁
    have ho := ho.mono hρ₁
    refine (Sim.reads fun _ hρ _ _ hh => hh.ownCell (ho.mono hρ) (hk.mono hρ)).bind
      fun ρ₂ hρ₂ c d hcd => ?_
    have hs := hs.mono hρ₂
    have ho := ho.mono hρ₂
    cases hcd with
    | some _ => exact sim_hoistVariables names ρ₂ s t o p hs ho
    | none =>
      exact (sim_declare name hs .undefined).discard.bind fun ρ₃ hρ₃ _ _ _ =>
        sim_hoistVariables names ρ₃ s t o p (hs.mono hρ₃) (ho.mono hρ₃)

theorem sim_hoistFunction (f : Function) (name : String) {s t : ScopeRef} {o p : ObjectRef}
    (hs : Alike ρ s t) (ho : Alike ρ o p) :
    Sim M ρ Alike (hoistFunction s o f name) (hoistFunction t p f name) := by
  refine (sim_allocClosure f hs).bind fun ρ₁ hρ₁ x y hx => ?_
  refine (Heap.sim_keyOfName name).onHeap.bind fun ρ₂ hρ₂ k l hk => ?_
  have hle := hρ₁.trans hρ₂
  refine (Sim.readHeap fun _ hρ _ _ hh => hh.ownCell (ho.mono (hle.trans hρ)) (hk.mono hρ)).bind
    fun ρ₃ hρ₃ c d hcd => ?_
  have hx := (hx.mono hρ₂).mono hρ₃
  cases hcd with
  | some hc => exact (Heap.sim_writeCell hc (.object hx)).onHeap
  | none => exact (sim_declare name (hs.mono (hle.trans hρ₃)) (.object hx)).onHeap.discard

theorem sim_hoistFunctions : ∀ (list : List Stmt) (ρ : Renaming) (s t : ScopeRef)
    (o p : ObjectRef), Alike ρ s t → Alike ρ o p →
    Sim M ρ Alike (hoistFunctions s o list) (hoistFunctions t p list)
  | [], _, _, _, _, _, _, _ => .pure rfl
  | stmt :: list, ρ, s, t, o, p, hs, ho => by
    have rest : ∀ {ρ'}, ρ ≤ ρ' →
        Sim M ρ' Alike (hoistFunctions s o list) (hoistFunctions t p list) := fun hρ =>
      sim_hoistFunctions list _ s t o p (hs.mono hρ) (ho.mono hρ)
    cases stmt with
    | function f =>
      simp only [hoistFunctions]
      cases f.name with
      | some name => exact (sim_hoistFunction f name hs ho).bind fun _ hρ _ _ _ => rest hρ
      | none => exact rest le_rfl
    | _ => exact rest le_rfl

/-! ### Lists of statements -/

namespace StatementsTask

variable {t t' : StatementsTask}

theorem alike_iff : Alike ρ t t' ↔ Alike ρ t.scope t'.scope ∧ Alike ρ t.options t'.options ∧
    Alike ρ t.last t'.last ∧ t.kind = t'.kind ∧ t.statements = t'.statements ∧
    t.rest = t'.rest := Iff.rfl

theorem sim_hoist (h : Alike ρ t t') : Sim M ρ Alike t.hoist t'.hoist := by
  obtain ⟨hs, -, -, hkind, hlist, -⟩ := alike_iff.mp h
  refine (Sim.readHeap fun _ hρ _ _ hh => hh.scope? (hs.mono hρ)).bind fun ρ₁ hρ₁ a b hab => ?_
  have ht := Scope.alike_target hab
  have functions : ∀ {ρ₂}, ρ₁ ≤ ρ₂ → Sim M ρ₂ Alike
      (hoistFunctions t.scope a.target t.statements)
      (hoistFunctions t'.scope b.target t.statements) := fun hρ₂ =>
    sim_hoistFunctions _ _ _ _ _ _ (hs.mono (hρ₁.trans hρ₂)) (ht.mono hρ₂)
  rw [← hkind, ← hlist]
  split
  · exact (sim_hoistVariables _ _ _ _ _ _ (hs.mono hρ₁) ht).onHeap.bind fun _ hρ₂ _ _ _ =>
      functions hρ₂
  · exact functions le_rfl

theorem advanced_advance (h : Alike ρ t t') : Advanced (fun _ => True) ρ t.advance t'.advance := by
  obtain ⟨hs, ho, hl, hkind, hlist, hrest⟩ := alike_iff.mp h
  unfold StatementsTask.advance
  rw [← hrest]
  cases t.rest with
  | nil =>
    refine ⟨h, .finished ?_, fun _ _ => trivial⟩
    obtain ⟨-, -, hreturn, -⟩ := ho
    unfold StatementsTask.ending
    rw [← hkind, show t'.options.returnLastValue = t.options.returnLastValue from hreturn.symm]
    split
    · exact .normal .none
    · exact .normal hl
  | cons s rest =>
    exact ⟨⟨hs, ho, hl, hkind, hlist, rfl⟩,
      .suspended (.branch ⟨hs, ⟨.none, .none, rfl, rfl, rfl⟩, rfl, rfl⟩), fun _ _ => trivial⟩

theorem sim_start (h : Alike ρ t t') : Sim M ρ (Advanced fun _ => True) t.start t'.start :=
  (sim_hoist h).bind fun _ hρ _ _ _ => .advanced (advanced_advance (h.mono hρ))

theorem sim_resume {o o' : Except Error Completion} (h : Alike ρ t t') (ho : Alike ρ o o') :
    Sim M ρ (Advanced fun _ => True) (t.resume o) (t'.resume o') := by
  refine (sim_outcome ho).bind fun ρ₁ hρ₁ c d hc => ?_
  have h := h.mono hρ₁
  obtain ⟨hs, hopt, hl, hkind, hlist, hrest⟩ := alike_iff.mp h
  have hcd := alike_updateEmpty hc hl
  dsimp only
  rw [isAbrupt_eq hcd]
  split
  · exact .advanced ⟨h, .finished hcd, fun _ _ => trivial⟩
  · exact .advanced (advanced_advance
      (alike_iff.mpr ⟨hs, hopt, alike_value? hcd, hkind, hlist, hrest⟩))

end StatementsTask

/-! ### Statements -/

/-- The statement waits in a state that goes with it; the declaration whose initial value it waits for
is among its declarations. -/
inductive Stmt.Waits : Stmt → StatementState → Prop where
  | expr (e : Expr) : Waits (.expr e) .operand
  | ret (e : Expr) : Waits (.ret (some e)) .operand
  | throwValue (e : Expr) : Waits (.throwValue e) .operand
  | vars {declarations : List (Pattern × Option Expr)} {i : Nat} (hi : i < declarations.length) :
      Waits (.vars declarations) (.varInit i)
  | ifTest (test : Expr) (consequent : Stmt) (alternate : Option Stmt) :
      Waits (.ifThen test consequent alternate) .ifTest
  | ifBranch (test : Expr) (consequent : Stmt) (alternate : Option Stmt) :
      Waits (.ifThen test consequent alternate) .nested
  | block (list : List Stmt) : Waits (.block list) .nested
  | whileTest (test : Expr) (body : Stmt) : Waits (.whileLoop test body) .whileTest
  | whileBody (test : Expr) (body : Stmt) : Waits (.whileLoop test body) .whileBody
  | tryBlock (list : List Stmt) (param : Option String) (handler : List Stmt) :
      Waits (.tryCatch list param handler) .tryBlock
  | tryHandler (list : List Stmt) (param : Option String) (handler : List Stmt) :
      Waits (.tryCatch list param handler) .tryHandler

/-- The next declaration with an initial value is one of those looked at. -/
theorem nextInitializer_lt : ∀ {l : List (Pattern × Option Expr)} {i j : Nat} {e : Expr},
    nextInitializer i l = some (j, e) → i ≤ j ∧ j < i + l.length
  | (_, some _) :: _, _, _, _, h => by
    cases h
    rw [List.length_cons]
    omega
  | (_, none) :: l, i, j, e, h => by
    have := nextInitializer_lt (l := l) (i := i + 1) (j := j) (e := e) h
    rw [List.length_cons]
    omega

namespace StatementTask

/-- The state goes with the statement. -/
def Resumable (t : StatementTask) : Prop := t.stmt.Waits t.state

variable {t t' : StatementTask}

theorem alike_iff : Alike ρ t t' ↔ Alike ρ t.scope t'.scope ∧ Alike ρ t.last t'.last ∧
    t.stmt = t'.stmt ∧ t.state = t'.state := Iff.rfl

theorem alike_state (h : Alike ρ t t') (state : StatementState) :
    Alike ρ { t with state } { t' with state } :=
  ⟨h.1, h.2.1, h.2.2.1, rfl⟩

theorem advanced_askExpr (h : Alike ρ t t') {state : StatementState} (hw : t.stmt.Waits state)
    (e : Expr) : Advanced Resumable ρ (t.askExpr state e) (t'.askExpr state e) :=
  ⟨alike_state h state, .suspended (.branch (alike_expression e h.1)), fun _ _ => hw⟩

theorem advanced_askStmt (h : Alike ρ t t') {state : StatementState} (hw : t.stmt.Waits state)
    (s : Stmt) : Advanced Resumable ρ (t.askStmt state s) (t'.askStmt state s) :=
  ⟨alike_state h state, .suspended (.branch ⟨h.1, ⟨.none, .none, rfl, rfl, rfl⟩, rfl, rfl⟩),
    fun _ _ => hw⟩

theorem advanced_askBlock (h : Alike ρ t t') {state : StatementState} (hw : t.stmt.Waits state)
    (list : List Stmt) {s s' : ScopeRef} (hs : Alike ρ s s') :
    Advanced Resumable ρ (t.askBlock state list s) (t'.askBlock state list s') :=
  ⟨alike_state h state, .suspended (.branch ⟨hs, ⟨.none, .none, rfl, rfl, rfl⟩, rfl, rfl⟩),
    fun _ _ => hw⟩

theorem advanced_finish (h : Alike ρ t t') {c d : Completion} (hc : Alike ρ c d) :
    Advanced Resumable ρ (t.finish c) (t'.finish d) :=
  ⟨h, .finished hc, fun _ hs => by cases hs⟩

theorem advanced_askInitializer (h : Alike ρ t t') (i : Nat)
    {declarations : List (Pattern × Option Expr)} (hstmt : t.stmt = .vars declarations) :
    Advanced Resumable ρ (t.askInitializer i declarations) (t'.askInitializer i declarations) := by
  unfold askInitializer
  cases hnext : nextInitializer i (declarations.drop i) with
  | none => exact advanced_finish h (.normal .none)
  | some next =>
    obtain ⟨j, e⟩ := next
    obtain ⟨hle, hlt⟩ := nextInitializer_lt hnext
    rw [List.length_drop] at hlt
    exact advanced_askExpr h (by rw [hstmt]; exact .vars (by omega)) e

/-- **Statements start alike.** -/
theorem advanced_start (h : Alike ρ t t') : Advanced Resumable ρ t.start t'.start := by
  obtain ⟨stmt, scope, state, last⟩ := t
  obtain ⟨stmt', scope', state', last'⟩ := t'
  obtain rfl : stmt = stmt' := h.2.2.1
  cases stmt with
  | expr e => exact advanced_askExpr h (.expr e) e
  | throwValue e => exact advanced_askExpr h (.throwValue e) e
  | ret value =>
    cases value with
    | some e => exact advanced_askExpr h (.ret e) e
    | none => exact advanced_finish h (.returned .undefined)
  | vars declarations => exact advanced_askInitializer h 0 rfl
  | function f => exact advanced_finish h (.normal .none)
  | ifThen test consequent alternate => exact advanced_askExpr h (.ifTest ..) test
  | block list => exact advanced_askBlock h (.block list) list h.1
  | whileLoop test body => exact advanced_askExpr h (.whileTest test body) test
  | breakLoop => exact advanced_finish h (.broken none .none)
  | continueLoop => exact advanced_finish h (.continued none .none)
  | tryCatch list param handler => exact advanced_askBlock h (.tryBlock ..) list h.1

theorem isCatchable_eq {e e' : Error} (h : Alike ρ e e') : e.isCatchable = e'.isCatchable := by
  cases h <;> rfl

theorem sim_handle {block : List Stmt} {param : Option String} {handler : List Stmt} {e e' : Error}
    (h : Alike ρ t t') (hstmt : t.stmt = .tryCatch block param handler) (he : Alike ρ e e') :
    Sim M ρ (Advanced Resumable) (t.handle param handler e) (t'.handle param handler e') := by
  unfold handle
  rw [isCatchable_eq he]
  split
  · refine (sim_errorToValue he).bind fun ρ₁ hρ₁ v w hv => ?_
    have h := h.mono hρ₁
    refine (sim_childScope h.1).onHeap.bind fun ρ₂ hρ₂ s s' hs => ?_
    have hw : t.stmt.Waits .tryHandler := by rw [hstmt]; exact .tryHandler ..
    have h := h.mono hρ₂
    cases param with
    | none => exact .advanced (advanced_askBlock h hw handler hs)
    | some name =>
      exact (sim_declare name hs (hv.mono hρ₂)).onHeap.discard.bind fun _ hρ₃ _ _ _ =>
        .advanced (advanced_askBlock (h.mono hρ₃) hw handler (hs.mono hρ₃))
  · exact .fail he

theorem advanced_afterBody {test : Expr} {body : Stmt} {c d : Completion} (h : Alike ρ t t')
    (hstmt : t.stmt = .whileLoop test body) (hc : Alike ρ c d) :
    Advanced Resumable ρ (t.afterBody test c) (t'.afterBody test d) := by
  obtain ⟨hs, hl, hst, hstate⟩ := alike_iff.mp h
  have again : ∀ {v w : Option Value}, Alike ρ v w → Advanced Resumable ρ
      ({ t with last := v.or t.last }.askExpr .whileTest test)
      ({ t' with last := w.or t'.last }.askExpr .whileTest test) := by
    intro v w hv
    have hlast : Alike ρ { t with last := v.or t.last } { t' with last := w.or t'.last } :=
      ⟨hs, alike_or hv hl, hst, hstate⟩
    exact advanced_askExpr hlast (by rw [hstmt]; exact .whileTest test body) test
  cases hc with
  | normal hv => exact again hv
  | thrown hv => exact advanced_finish h (.thrown hv)
  | returned hv => exact advanced_finish h (.returned hv)
  | broken label hv =>
    cases label with
    | none => exact advanced_finish h (.normal (alike_or hv hl))
    | some label => exact advanced_finish h (alike_updateEmpty (.broken (some label) hv) hl)
  | continued label hv =>
    cases label with
    | none => exact again hv
    | some label => exact advanced_finish h (alike_updateEmpty (.continued (some label) hv) hl)

/-- **Statements in a state that goes with them go on alike.** -/
theorem sim_resume (hE : Engine.Sim M E₁ E₂) {o o' : Except Error Completion} (h : Alike ρ t t')
    (hw : t.Resumable) (ho : Alike ρ o o') :
    Sim M ρ (Advanced Resumable) (t.resume E₁ o) (t'.resume E₂ o') := by
  obtain ⟨stmt, scope, state, last⟩ := t
  obtain ⟨stmt', scope', state', last'⟩ := t'
  obtain ⟨hs, hl, hstmt, hstate⟩ := alike_iff.mp h
  obtain rfl : stmt = stmt' := hstmt
  obtain rfl : state = state' := hstate
  have hw : stmt.Waits state := hw
  cases hw with
  | expr e =>
    exact (sim_childValue ho).bind fun _ hρ _ _ hv =>
      .advanced (advanced_finish (h.mono hρ) (.normal (.some hv)))
  | ret e =>
    exact (sim_childValue ho).bind fun _ hρ _ _ hv =>
      .advanced (advanced_finish (h.mono hρ) (.returned hv))
  | throwValue e => exact (sim_childValue ho).bind fun _ _ _ _ hv => .fail (.throw hv)
  | @vars declarations i hi =>
    refine (sim_childValue ho).bind fun ρ₁ hρ₁ v w hv => ?_
    have hd : declarations[i]? = some declarations[i] := List.getElem?_eq_getElem hi
    simp only [hd]
    exact (sim_writePattern hE _ (hs.mono hρ₁) hv).bind fun _ hρ₂ _ _ _ =>
      .advanced (advanced_askInitializer (h.mono (hρ₁.trans hρ₂)) (i + 1) rfl)
  | ifTest test consequent alternate =>
    refine (sim_childValue ho).bind fun ρ₁ hρ₁ v w hv => ?_
    refine (Sim.readHeap fun _ hρ _ _ hh => hh.truthy (hv.mono hρ)).bind fun ρ₂ hρ₂ x y hxy => ?_
    obtain rfl : x = y := hxy
    have h := h.mono (hρ₁.trans hρ₂)
    split
    · exact .advanced (advanced_askStmt h (.ifBranch ..) consequent)
    · cases alternate with
      | some s => exact .advanced (advanced_askStmt h (.ifBranch ..) s)
      | none => exact .advanced (advanced_finish h (.normal (.some .undefined)))
  | ifBranch test consequent alternate =>
    exact (sim_outcome ho).bind fun _ hρ _ _ hc =>
      .advanced (advanced_finish (h.mono hρ) (alike_updateEmpty hc (.some .undefined)))
  | block list =>
    exact (sim_outcome ho).bind fun _ hρ _ _ hc => .advanced (advanced_finish (h.mono hρ) hc)
  | whileTest test body =>
    refine (sim_childValue ho).bind fun ρ₁ hρ₁ v w hv => ?_
    refine (Sim.readHeap fun _ hρ _ _ hh => hh.truthy (hv.mono hρ)).bind fun ρ₂ hρ₂ x y hxy => ?_
    obtain rfl : x = y := hxy
    have h := h.mono (hρ₁.trans hρ₂)
    split
    · exact .advanced (advanced_askStmt h (.whileBody ..) body)
    · exact .advanced (advanced_finish h (.normal (hl.mono (hρ₁.trans hρ₂))))
  | whileBody test body =>
    exact (sim_outcome ho).bind fun _ hρ _ _ hc =>
      .advanced (advanced_afterBody (h.mono hρ) rfl hc)
  | tryBlock list param handler =>
    cases ho with
    | error he => exact sim_handle h rfl he
    | ok hc =>
      cases hc with
      | thrown hv => exact sim_handle h rfl (.throw hv)
      | normal hv => exact .advanced (advanced_finish h (.normal hv))
      | returned hv => exact .advanced (advanced_finish h (.returned hv))
      | broken l hv => exact .advanced (advanced_finish h (.broken l hv))
      | continued l hv => exact .advanced (advanced_finish h (.continued l hv))
  | tryHandler list param handler =>
    exact (sim_outcome ho).bind fun _ hρ _ _ hc => .advanced (advanced_finish (h.mono hρ) hc)

end StatementTask

end ScriptCore
