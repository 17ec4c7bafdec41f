import ScriptCore.Proofs.Drive.Asking
import ScriptCore.Proofs.Object.Edits

/-! # Throws that are delivered as completions

A child that threw may be delivered as the error `throw v` or as the completion `thrown v`. A suspended task that is
waiting for a completion treats both alike: it passes the throw on, or hands it to the handler of its `try`. A task
that is waiting for a value looks at the value of the completion only, so that a throw delivered as a completion is
taken for the value that was thrown, while one delivered as an error ends the task.

* `Task.demand?`: what a suspended task is waiting for.
* `Outcome.counted`: a step that finishes with a throw, counted as a failure.
* `Task.resume_thrown`: **throws are interchangeable where a completion is awaited, and values where a value is.**
* `Task.throw_swallowed`: an operand that threw, and an expression that does not. -/

namespace ScriptCore

variable {m m' : Machine} {v : Value} {e : Error} {E : Engine}

/-! ### What tasks wait for -/

/-- What a suspended task is waiting for. -/
inductive Demand where
  /-- The value of an expression or of a call. -/
  | value
  /-- The way in which statements completed. -/
  | completion
deriving DecidableEq

/-- An expression inside a statement is awaited for its value. The operand of `throw` counts among the completions,
since it is thrown in any case. -/
def StatementTask.demand? (t : StatementTask) : Option Demand :=
  match t.state, t.stmt with
  | .operand, .expr _ | .operand, .ret _ | .varInit _, .vars _ | .ifTest, .ifThen _ _ _ | .whileTest, .whileLoop _ _ =>
    some .value
  | .operand, .throwValue _ | .nested, _ | .whileBody, .whileLoop _ _ | .tryBlock, .tryCatch _ _ _
  | .tryHandler, .tryCatch _ _ _ => some .completion
  | _, _ => none

def InvocationTask.demand? (t : InvocationTask) : Option Demand :=
  match t.state with
  | .paramBinding _ => some .value
  | .bodyEvaluating => some .completion
  | .created | .invoking | .returned | .thrown => none

/-- What a task is waiting for, if it is suspended. -/
def Task.demand? : Task → Option Demand
  | .statements _ => some .completion
  | .statement t => t.demand?
  | .expression _ => some .value
  | .invocation t => t.demand?
  | .settled _ => none

/-! ### Counting throws as failures -/

/-- A step that finishes with a throw completion counts as a failure. -/
def countThrow : Except Error Step → Except Error Step
  | .ok (.finished (.thrown v)) => .error (.throw v)
  | r => r

/-- What became of a task, with a throw completion counted as a failure. -/
def Outcome.counted : Outcome Machine (Except Error Step × Task) → Outcome Machine (Except Error Step × Task)
  | .done (r, t) m => .done (countThrow r, t) m
  | o => o

/-- **The task cannot tell a throw completion from a throw error**: it goes on alike, or ends alike. -/
def Task.Interchanges (E : Engine) (t : Task) (v : Value) (m : Machine) : Prop :=
  (t.resume E (.ok (.thrown v)) m).counted = (t.resume E (.error (.throw v)) m).counted

/-! ### Delivering a throw -/

namespace Task

variable {τ : Type} {t t' : τ} {p : Run (τ × Step)} {step : Step}

theorem keeping_done (hp : p m = .done (t', step) m') : keeping t p m = .done (.ok step, t') m' := by
  show Proc.bind (Proc.attempt p) _ m = _
  simp only [Proc.bind, Proc.attempt, hp]
  rfl

theorem keeping_failed (hp : p m = .failed e m') : keeping t p m = .done (.error e, t) m' := by
  show Proc.bind (Proc.attempt p) _ m = _
  simp only [Proc.bind, Proc.attempt, hp]
  rfl

/-- A task that keeps its state on failure interchanges a throw if it finishes with the one and fails with the other. -/
theorem keeping_interchanges {p q : Run (τ × Step)} (k : τ → Task)
    (hp : p m = .done (t, .finished (.thrown v)) m) (hq : q m = .failed (.throw v) m) :
    Outcome.counted ((do let (r, t) ← keeping t p; return (r, k t) : Run (Except Error Step × Task)) m) =
      Outcome.counted ((do let (r, t) ← keeping t q; return (r, k t) : Run (Except Error Step × Task)) m) := by
  rw [Proc.bind_done (keeping_done hp), Proc.bind_done (keeping_failed hq)]
  rfl

theorem statements_interchanges (t : StatementsTask) : (Task.statements t).Interchanges E v m :=
  keeping_interchanges .statements rfl rfl

/-- A statement that awaits a completion does the same with both forms of a throw, or it finishes with the one and fails
with the other. -/
theorem statement_resume_thrown {t : StatementTask} (ht : t.demand? = some .completion) :
    t.resume E (.ok (.thrown v)) m = t.resume E (.error (.throw v)) m ∨
      t.resume E (.ok (.thrown v)) m = .done (t, .finished (.thrown v)) m ∧
        t.resume E (.error (.throw v)) m = .failed (.throw v) m := by
  obtain ⟨stmt, scope, state, last⟩ := t
  cases state with
  | operand =>
    cases stmt with
    | throwValue e => exact .inl rfl
    | _ => cases ht
  | nested => cases stmt <;> exact .inr ⟨rfl, rfl⟩
  | whileBody =>
    cases stmt with
    | whileLoop test body => exact .inr ⟨rfl, rfl⟩
    | _ => cases ht
  | tryBlock =>
    cases stmt with
    | tryCatch block param handler => exact .inl rfl
    | _ => cases ht
  | tryHandler =>
    cases stmt with
    | tryCatch block param handler => exact .inr ⟨rfl, rfl⟩
    | _ => cases ht
  | start | varInit i | ifTest | whileTest => cases stmt <;> cases ht

/-- Handing the task back looks at nothing but how the procedure ends. -/
theorem keeping_congr {p q : Run (τ × Step)} (h : p m = q m) : keeping t p m = keeping t q m := by
  show Proc.bind (Proc.attempt p) _ m = Proc.bind (Proc.attempt q) _ m
  simp only [Proc.bind, Proc.attempt, h]

theorem bind_congr {α β : Type} {p q : Run α} (h : p m = q m) (f : α → Run β) : (p >>= f) m = (q >>= f) m := by
  show Proc.bind p f m = Proc.bind q f m
  simp only [Proc.bind, h]

theorem statement_interchanges {t : StatementTask} (ht : t.demand? = some .completion) :
    (Task.statement t).Interchanges E v m := by
  obtain hsame | ⟨hdone, hfailed⟩ := statement_resume_thrown (E := E) (v := v) (m := m) ht
  · exact congrArg Outcome.counted (bind_congr (keeping_congr hsame) _)
  · exact keeping_interchanges .statement hdone hfailed

/-- The body of a call completes by throwing, and the call fails. -/
theorem invocation_interchanges {t : InvocationTask} (ht : t.demand? = some .completion) :
    (Task.invocation t).Interchanges E v m := by
  obtain ⟨callee, closure, receiver, args, callerScope, extra, state, scope, strict, argCells⟩ := t
  cases state with
  | bodyEvaluating => rfl
  | _ => cases ht

/-! ### Taking a throw for a value -/

/-- **The task takes a throw completion for a value**, and it fails with a throw error. -/
structure Mistakes (E : Engine) (t : Task) (v : Value) (m : Machine) : Prop where
  completion : t.resume E (.ok (.thrown v)) m = t.resume E (.ok (.ofValue v)) m
  error : ∃ t', t.resume E (.error (.throw v)) m = .done (.error (.throw v), t') m

theorem statement_mistakes {t : StatementTask} (ht : t.demand? = some .value) :
    (Task.statement t).Mistakes E v m := by
  obtain ⟨stmt, scope, state, last⟩ := t
  cases state with
  | operand =>
    cases stmt with
    | expr e => exact ⟨rfl, _, rfl⟩
    | ret e => exact ⟨rfl, _, rfl⟩
    | _ => cases ht
  | varInit i =>
    cases stmt with
    | vars declarations => exact ⟨rfl, _, rfl⟩
    | _ => cases ht
  | ifTest =>
    cases stmt with
    | ifThen test consequent alternate => exact ⟨rfl, _, rfl⟩
    | _ => cases ht
  | whileTest =>
    cases stmt with
    | whileLoop test body => exact ⟨rfl, _, rfl⟩
    | _ => cases ht
  | start | nested | whileBody | tryBlock | tryHandler => cases stmt <;> cases ht

theorem expression_mistakes (t : ExpressionTask) : (Task.expression t).Mistakes E v m := ⟨rfl, _, rfl⟩

/-- The default of a parameter is bound to what its expression throws. -/
theorem invocation_mistakes {t : InvocationTask} (ht : t.demand? = some .value) :
    (Task.invocation t).Mistakes E v m := by
  obtain ⟨callee, closure, receiver, args, callerScope, extra, state, scope, strict, argCells⟩ := t
  cases state with
  | paramBinding index => exact ⟨rfl, _, rfl⟩
  | _ => cases ht

end Task

/-! ### Every suspended state -/

/-- **The task is suspended**: it was started or resumed, and it asked for something. -/
inductive Task.Suspended : Task → Prop where
  | started {t t' : Task} {E : Engine} {m m' : Machine} {c : Suspension} :
      t.start E m = .done (.ok (.suspended c), t') m' → Suspended t'
  | resumed {t t' : Task} {E : Engine} {m m' : Machine} {c : Suspension} {o : Except Error Completion} :
      t.resume E o m = .done (.ok (.suspended c), t') m' → Suspended t'

/-- If the call is suspended, it waits for a default or for its body. -/
def InvocationTask.Demanding (r : InvocationTask × Step) : Prop := ∀ c, r.2 = .suspended c → r.1.demand?.isSome

namespace InvocationTask

variable {t : InvocationTask}

theorem demanding_askBody (t : InvocationTask) (s : ScopeRef) : Proc.Yields Demanding (t.askBody s) :=
  .bind fun _ => .pure fun _ _ => rfl

theorem demanding_bindParams (t : InvocationTask) (s : ScopeRef) : ∀ (params : List Param) (index : Nat),
    Proc.Yields Demanding (bindParams E t s index params)
  | [], _ => demanding_askBody t s
  | .rest name :: _, _ => .bind fun _ => .bind fun _ => demanding_askBody t s
  | .simple name default :: params, index => by
    have ih := demanding_bindParams t s params (index + 1)
    unfold bindParams
    split
    · exact .pure fun _ _ => rfl
    · exact .bind fun _ => ih
  | .pattern target default :: params, index => by
    have ih := demanding_bindParams t s params (index + 1)
    unfold bindParams
    refine .bind fun _ => ?_
    split
    · exact .pure fun _ _ => rfl
    · exact .bind fun _ => ih

theorem demanding_bindDefault (t : InvocationTask) (index : Nat) (v : Value) :
    Proc.Yields Demanding (t.bindDefault E index v) := by
  refine .bind fun s => ?_
  have params := demanding_bindParams (E := E) t s (t.closure.function.params.drop (index + 1)) (index + 1)
  dsimp only
  cases t.argCells[index]?
  case' some c => refine .bind fun _ => ?_
  all_goals
    cases t.closure.function.params[index]? with
    | none => exact .bind fun _ => params
    | some param => cases param <;> exact .bind fun _ => params

/-- Recording how a call ended leaves one that is suspended alone. -/
theorem demanding_settle {p : Run (InvocationTask × Step)} (hp : Proc.Yields Demanding p) (t : InvocationTask) :
    Proc.Yields (fun r => ∀ c, r.1 = .ok (.suspended c) → r.2.demand?.isSome) (t.settle p) := by
  intro m r m' hrun
  change Proc.bind (Proc.attempt p) _ m = _ at hrun
  simp only [Proc.bind, Proc.attempt] at hrun
  cases hcase : p m with
  | done x m₁ =>
    rw [hcase] at hrun
    obtain ⟨t', step⟩ := x
    cases step with
    | finished c => cases hrun; exact fun _ h => by cases h
    | suspended c => cases hrun; exact fun _ _ => hp m _ _ hcase c rfl
  | failed e m₁ => rw [hcase] at hrun; cases hrun; exact fun _ h => by cases h
  | stalled => rw [hcase] at hrun; cases hrun

theorem demanding_start (t : InvocationTask) :
    Proc.Yields (fun r => ∀ c, r.1 = .ok (.suspended c) → r.2.demand?.isSome) (t.start E) :=
  .ite (demanding_settle (.bind fun t' => .bind fun s => demanding_bindParams t' s _ 0) t) (.pure fun _ h => by cases h)

theorem demanding_resume (t : InvocationTask) (o : Except Error Completion) :
    Proc.Yields (fun r => ∀ c, r.1 = .ok (.suspended c) → r.2.demand?.isSome) (t.resume E o) := by
  refine demanding_settle (.bind fun completion => ?_) t
  cases t.state with
  | paramBinding index => exact demanding_bindDefault t index _
  | bodyEvaluating => exact .bind fun _ => .pure fun _ h => by cases h
  | _ => exact .fail _

end InvocationTask

/-- A statement whose state goes with it is waiting for something. -/
theorem StatementTask.Resumable.demands {t : StatementTask} (ht : t.Resumable) : t.demand?.isSome := by
  obtain ⟨stmt, scope, state, last⟩ := t
  cases (ht : stmt.Waits state) <;> rfl

namespace Task

variable {τ : Type}

/-- Handing the task back keeps what is known of a suspended one. -/
theorem yields_keeping {t : τ} {p : Run (τ × Step)} {Q : τ → Prop}
    (hp : Proc.Yields (fun r => ∀ c, r.2 = .suspended c → Q r.1) p) :
    Proc.Yields (fun r => ∀ c, r.1 = .ok (.suspended c) → Q r.2) (keeping t p) := by
  intro m r m' hrun
  cases hcase : p m with
  | done x m₁ =>
    obtain ⟨t', step⟩ := x
    rw [keeping_done hcase] at hrun
    cases hrun
    exact fun c h => hp m _ _ hcase c (by cases h; rfl)
  | failed e m₁ =>
    rw [keeping_failed hcase] at hrun
    cases hrun
    exact fun _ h => by cases h
  | stalled =>
    change Proc.bind (Proc.attempt p) _ m = _ at hrun
    simp only [Proc.bind, Proc.attempt, hcase] at hrun
    cases hrun

/-- **A task that is suspended waits for something.** -/
theorem demands_of_start (t : Task) :
    Proc.Yields (fun r => ∀ c, r.1 = .ok (.suspended c) → r.2.demand?.isSome) (t.start E) := by
  cases t with
  | statements t => exact .bind fun r => .pure fun _ _ => rfl
  | statement t => exact .pure fun c h => StatementTask.Resumable.demands (t.placed_start c (Except.ok.inj h))
  | expression t => exact .bind fun r => .pure fun _ _ => rfl
  | invocation t => exact (InvocationTask.demanding_start t).bind_of fun r hr => .pure hr
  | settled outcome =>
    refine .pure fun c h => ?_
    cases outcome <;> cases h

theorem demands_of_resume (t : Task) (o : Except Error Completion) :
    Proc.Yields (fun r => ∀ c, r.1 = .ok (.suspended c) → r.2.demand?.isSome) (t.resume E o) := by
  cases t with
  | statements t => exact .bind fun r => .pure fun _ _ => rfl
  | statement t =>
    exact (yields_keeping (t.yields_resume o)).bind_of fun r hr =>
      .pure fun c h => StatementTask.Resumable.demands (hr c h)
  | expression t => exact .bind fun r => .pure fun _ _ => rfl
  | invocation t => exact (InvocationTask.demanding_resume t o).bind_of fun r hr => .pure hr
  | settled outcome =>
    refine .pure fun c h => ?_
    cases outcome <;> cases h

theorem Suspended.demands {t : Task} (ht : t.Suspended) : t.demand?.isSome := by
  cases ht with
  | started hrun => exact demands_of_start _ _ _ _ hrun _ rfl
  | resumed hrun => exact demands_of_resume _ _ _ _ _ hrun _ rfl

/-- **A throw completion is as good as a throw error where a completion is awaited**: for every task in every state in
which it can be suspended. Where a value is awaited, the throw completion is taken for a normal one with the value that
was thrown, while the error ends the task. -/
theorem resume_thrown {t : Task} (ht : t.Suspended) (E : Engine) (v : Value) (m : Machine) :
    t.demand? = some .completion ∧ t.Interchanges E v m ∨ t.demand? = some .value ∧ t.Mistakes E v m := by
  obtain ⟨d, hd⟩ := Option.isSome_iff_exists.mp ht.demands
  cases d with
  | completion =>
    refine .inl ⟨hd, ?_⟩
    cases t with
    | statements t => exact statements_interchanges t
    | statement t => exact statement_interchanges hd
    | invocation t => exact invocation_interchanges hd
    | expression t | settled o => cases hd
  | value =>
    refine .inr ⟨hd, ?_⟩
    cases t with
    | statement t => exact statement_mistakes hd
    | expression t => exact expression_mistakes t
    | invocation t => exact invocation_mistakes hd
    | statements t | settled o => cases hd

/-- The task of `void 1`, started. -/
def voiding (s : ScopeRef) : Task :=
  .expression ⟨.unary .void (.number 1), s, [], [], .operands, .undefined, .undefined⟩

theorem voiding_started (s : ScopeRef) (E : Engine) (m : Machine) :
    (ofRequest (.expression (.unary .void (.number 1)) s)).start E m =
      .done (.ok (.ask (.expression (.number 1) s)), voiding s) m := rfl

theorem exists_created : ∃ m, Machine.create .standard {} 0 true = .ok m := by
  have hok : (Machine.create .standard {} 0 true).toOption.isSome = true := by decide +kernel
  cases hm : Machine.create .standard {} 0 true with
  | error e => rw [hm] at hok; cases hok
  | ok m => exact ⟨m, rfl⟩

theorem resume_thrown_block : ∃ (m : Machine) (t : Task), Machine.create .standard {} 0 true = .ok m ∧ t.Suspended ∧
    t.demand? = some .completion ∧ t.Interchanges Edit.refusing .null m := by
  obtain ⟨m, hm⟩ := exists_created
  have hstart : (ofRequest (.statement (.block []) m.realm.globalScope)).start Edit.refusing m =
      .done (.ok (.ask (.block [] m.realm.globalScope)), .statement ⟨.block [], m.realm.globalScope, .nested, none⟩) m :=
    rfl
  refine ⟨m, _, hm, .started hstart, rfl, ?_⟩
  obtain ⟨-, h⟩ | ⟨hvalue, -⟩ := resume_thrown (.started hstart) Edit.refusing .null m
  · exact h
  · cases hvalue

/-- **A throw is turned into a normal value**: an expression that awaits its operand takes the operand's throw
completion for a value, and finishes. -/
theorem throw_swallowed : ∃ (m : Machine) (t t' : Task), Machine.create .standard {} 0 true = .ok m ∧ t.Suspended ∧
    t.resume Edit.refusing (.ok (.thrown .null)) m = .done (.ok (.value .undefined), t') m ∧
    t.resume Edit.refusing (.error (.throw .null)) m = .done (.error (.throw .null), t) m ∧
    ¬t.Interchanges Edit.refusing .null m := by
  obtain ⟨m, hm⟩ := exists_created
  refine ⟨m, voiding m.realm.globalScope, _, hm, .started (voiding_started _ Edit.refusing m), rfl, rfl, fun h => ?_⟩
  cases h

end Task

end ScriptCore
