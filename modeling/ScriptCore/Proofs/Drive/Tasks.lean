import ScriptCore.Proofs.Drive.Routine
import ScriptCore.Proofs.Drive.Turn
import ScriptCore.Proofs.Renaming.Tasks

/-! # Tasks do what running code may do

A task runs a procedure and hands over its result; a failure of the procedure is handed over as a result
too. `Task.doing` is that procedure, and it is a `Routine`.

* `Task.routine_doing`: **a task does what running code may do.**
* `Task.reports_act`: how a task hands over what it did. -/

namespace ScriptCore

open Proc (within)

variable {E : Engine} {α β τ : Type}

/-! ### Procedures with a part of their own -/

/-- A procedure with a part of its own does what running code may do, whatever its part is. -/
def OwnRoutine (P : Engine → Proc (τ × Machine) α) : Prop := ∀ t, Routine fun E => within t (P E)

theorem within_bind (t : τ) (p : Proc (τ × Machine) α) (f : α → Proc (τ × Machine) β) :
    within t (p >>= f) = (within t p >>= fun r => within r.1 (f r.2)) := by
  funext m
  show within t (Proc.bind p f) m = Proc.bind (within t p) _ m
  simp only [within, Proc.bind]
  cases p (t, m) <;> rfl

namespace OwnRoutine

variable {P Q : Engine → Proc (τ × Machine) α} {F : Engine → α → Proc (τ × Machine) β}

theorem pure (a : α) : OwnRoutine fun _ => (Pure.pure a : Proc (τ × Machine) α) := fun t => .pure (t, a)

theorem fail (e : Error) : OwnRoutine fun _ => (throw e : Proc (τ × Machine) α) := fun _ => .fail e

theorem bind (hp : OwnRoutine P) (hf : ∀ a, OwnRoutine fun E => F E a) :
    OwnRoutine fun E => P E >>= F E := by
  intro t
  simp only [within_bind]
  exact .bind (hp t) fun r => hf r.2 r.1

theorem ofExcept (r : Except Error α) :
    OwnRoutine fun _ => (Proc.ofExcept r : Proc (τ × Machine) α) := by
  cases r with
  | ok a => exact pure a
  | error e => exact fail e

theorem ite {c : Prop} [Decidable c] (hp : OwnRoutine P) (hq : OwnRoutine Q) :
    OwnRoutine fun E => if c then P E else Q E := by
  by_cases hc : c
  · simpa only [hc, if_true] using hp
  · simpa only [hc, if_false] using hq

theorem shared {P : Engine → Run α} (hp : Routine P) :
    OwnRoutine fun E => (Proc.shared (P E) : Proc (τ × Machine) α) := by
  intro t
  have hwithin : ∀ p : Run α, within t (Proc.shared p) = (fun a => (t, a)) <$> p := by
    intro p
    rw [map_eq_pure_bind]
    funext m
    show _ = Proc.bind p _ m
    simp only [within, Proc.shared, Proc.bind]
    cases p m <;> rfl
  simp only [hwithin]
  exact hp.map _

theorem own : OwnRoutine fun _ => (Proc.own : Proc (τ × Machine) τ) := fun t => .pure (t, t)

theorem setOwn (u : τ) : OwnRoutine fun _ => (Proc.setOwn u : Proc (τ × Machine) Unit) :=
  fun _ => .pure (u, ())

theorem modifyOwn (f : τ → τ) : OwnRoutine fun _ => (Proc.modifyOwn f : Proc (τ × Machine) Unit) :=
  fun t => .pure (f t, ())

end OwnRoutine

/-! ### Statements -/

theorem routine_hoistFunction (scope : ScopeRef) (target : ObjectRef) (f : Function) (name : String) :
    Routine fun _ => hoistFunction scope target f name := by
  refine .bind (routine_allocClosure f scope) fun closure => .bind .keyOfName fun key =>
    .bind (.readHeap _) fun c => ?_
  cases c with
  | some c => exact .writeCell
  | none => exact .discard .declare

theorem routine_hoistFunctions (scope : ScopeRef) (target : ObjectRef) : ∀ statements : List Stmt,
    Routine fun _ => hoistFunctions scope target statements
  | [] => .pure _
  | s :: rest => by
    have ih := routine_hoistFunctions scope target rest
    cases s with
    | function f =>
      obtain ⟨name, params, body, strict, arrow, quiet⟩ := f
      cases name with
      | some name => exact .bind (routine_hoistFunction scope target _ name) fun _ => ih
      | none => exact ih
    | _ => exact ih

theorem routine_hoistVariables {K : ObjectKind → Prop} (scope : ScopeRef) (target : ObjectRef) :
    ∀ names : List String, Heap.Routine K (hoistVariables scope target names)
  | [] => .pure _
  | name :: rest => by
    have ih := routine_hoistVariables (K := K) scope target rest
    refine .bind (Heap.routine_keyOfName name) fun key => .bind (.reads _) fun c => ?_
    cases c with
    | some c => exact ih
    | none => exact .bind (.discard (Heap.routine_declare scope name _)) fun _ => ih

namespace StatementsTask

theorem routine_start (t : StatementsTask) : Routine fun _ => t.start := by
  refine .bind ?_ fun _ => .pure _
  refine .bind (.readHeap _) fun scope => ?_
  by_cases hprogram : t.kind = .program
  · simp only [hprogram, if_true]
    exact .bind (.onHeap (routine_hoistVariables _ _ _)) fun _ => routine_hoistFunctions _ _ _
  · simp only [hprogram, if_false]
    exact routine_hoistFunctions _ _ _

theorem routine_resume (t : StatementsTask) (o : Except Error Completion) :
    Routine fun _ => t.resume o :=
  .bind (.ofExcept o) fun _ => .ite (.pure _) (.pure _)

end StatementsTask

namespace StatementTask

theorem routine_handle (t : StatementTask) (param : Option String) (handler : List Stmt) (e : Error) :
    Routine fun _ => t.handle param handler e := by
  unfold handle
  refine .ite ?_ (.fail e)
  refine .bind (routine_errorToValue e) fun v => .bind .childScope fun scope => ?_
  cases param with
  | some name => exact .bind (.discard .declare) fun _ => .pure _
  | none => exact .pure _

theorem routine_resume (t : StatementTask) (o : Except Error Completion) :
    Routine fun E => t.resume E o := by
  have value : Routine fun _ => (Proc.ofExcept (childValue o) : Run Value) :=
    .ofExcept _
  have outcome : Routine fun _ => (Proc.ofExcept o : Run Completion) := .ofExcept _
  obtain ⟨stmt, scope, state, last⟩ := t
  cases state with
  | start => exact .fail _
  | operand =>
    cases stmt with
    | expr e => exact .bind value fun v => .pure _
    | ret e => exact .bind value fun v => .pure _
    | throwValue e => exact .bind value fun v => .fail _
    | _ => exact .fail _
  | varInit i =>
    cases stmt with
    | vars declarations =>
      refine .bind value fun v => ?_
      dsimp only
      cases declarations[i]? with
      | some d => exact .bind (routine_writePattern scope d.1 v) fun _ => .pure _
      | none => exact .pure _
    | _ => exact .fail _
  | ifTest =>
    cases stmt with
    | ifThen test consequent alternate =>
      refine .bind value fun v => .bind (.readHeap _) fun truthy => .ite (.pure _) ?_
      cases alternate with
      | some s => exact .pure _
      | none => exact .pure _
    | _ => exact .fail _
  | nested => cases stmt <;> exact .bind outcome fun c => .pure _
  | whileTest =>
    cases stmt with
    | whileLoop test body =>
      exact .bind value fun v => .bind (.readHeap _) fun truthy => .ite (.pure _) (.pure _)
    | _ => exact .fail _
  | whileBody =>
    cases stmt with
    | whileLoop test body => exact .bind outcome fun c => .pure _
    | _ => exact .fail _
  | tryBlock =>
    cases stmt with
    | tryCatch block param handler =>
      cases o with
      | error e => exact routine_handle _ param handler e
      | ok c =>
        cases c with
        | thrown v => exact routine_handle _ param handler (.throw v)
        | _ => exact .pure _
    | _ => exact .fail _
  | tryHandler =>
    cases stmt with
    | tryCatch block param handler => exact .bind outcome fun c => .pure _
    | _ => exact .fail _

end StatementTask

/-! ### Expressions -/

namespace ExpressionTask

theorem routine_memberKey (t : ExpressionTask) (key : MemberKey) :
    Routine fun E => t.memberKey E key := by
  cases key with
  | named name => exact .keyOfName
  | computed e => exact routine_toPropertyKey _

theorem routine_writeLiteral (o : ObjectRef) :
    ∀ (properties : List (String × Expr)) (values : List Value),
      Routine fun E => writeLiteral E o properties values
  | [], _ => by
    unfold writeLiteral
    exact .pure _
  | _ :: _, [] => by
    unfold writeLiteral
    exact .pure _
  | (name, _) :: properties, v :: values => by
    unfold writeLiteral
    exact .bind .keyOfName fun key => .bind (.discard (routine_setProperty o key v true)) fun _ =>
      routine_writeLiteral o properties values

theorem routine_askCall (callee : Expr) :
    OwnRoutine fun _ => askCall callee :=
  .bind .own fun _ => .bind (.shared (.readHeap _)) fun _ => .ite
    (.bind (.shared .isDebug) fun _ => .bind (.setOwn _) fun _ => .pure _) (.fail _)

theorem routine_askArguments (callee : Expr) (args : List Expr) :
    OwnRoutine fun _ => askArguments callee args := by
  cases args with
  | nil => exact routine_askCall callee
  | cons e rest => exact .bind .own fun t => .bind (.setOwn _) fun _ => .pure _

theorem routine_unary (t : ExpressionTask) (op : UnaryOp) (operand : Expr) :
    Routine fun E => t.unary E op operand := by
  cases op with
  | not => exact .bind (.readHeap _) fun b => .pure _
  | neg => exact .bind (routine_toNumber _) fun x => .pure _
  | plus => exact .bind (routine_toNumber _) fun x => .pure _
  | void => exact .pure _
  | typeOf => exact .bind (.readHeap _) fun name => .bind .intern fun s => .pure _
  | delete =>
    cases operand with
    | member base key =>
      refine .bind (routine_memberKey t key) fun k => ?_
      cases t.operand 0 with
      | object o =>
        exact .bind (.readHeap _) fun strict => .bind (routine_deleteProperty o k strict) fun b => .pure _
      | undefined => exact .bind (.readHeap _) fun text => .fail _
      | null => exact .bind (.readHeap _) fun text => .fail _
      | _ => exact .pure _
    | _ => exact .pure _

theorem routine_assignTo (t : ExpressionTask) (target : Pattern)
    (v : Value) : Routine fun E => t.assignTo E target v := by
  cases target with
  | member base key =>
    exact .bind (routine_memberKey t key) fun k => .bind (.readHeap _) fun strict =>
      .discard (routine_setMember _ k v strict)
  | _ => exact routine_writePattern _ _ v

theorem routine_combine :
    OwnRoutine fun E => combine E := by
  refine .bind .own fun t => ?_
  obtain ⟨expr, scope, pending, values, phase, callee, receiver⟩ := t
  cases expr with
  | array elements => exact .bind (.shared (routine_allocArray _)) fun o => .pure _
  | object properties =>
    exact .bind (.shared routine_allocPlainObject) fun o =>
      .bind (.shared (routine_writeLiteral o properties values)) fun _ => .pure _
  | member base key =>
    exact .bind (.shared (routine_memberKey _ key)) fun k =>
      .bind (.shared (routine_getProperty _ k)) fun v => .pure _
  | assign target value =>
    exact .bind (.shared (routine_assignTo _ target _)) fun _ => .pure _
  | call f args =>
    cases phase with
    | operands =>
      cases f with
      | member base key =>
        exact .bind (.shared (routine_memberKey _ key)) fun k =>
          .bind (.shared (routine_getProperty _ k)) fun g =>
            .bind (.setOwn _) fun _ => routine_askArguments _ args
      | _ => exact .bind (.setOwn _) fun _ => routine_askCall _
    | callArgs => exact routine_askCall f
    | logicalRight => exact .fail _
    | awaitCall => exact .fail _
  | binary op left right =>
    exact .bind (.shared (routine_applyBinary op _ _)) fun v => .pure _
  | logical op left right =>
    cases phase with
    | operands =>
      exact .bind (.shared (.readHeap _)) fun truthy =>
        .ite (.pure _) (.bind (.setOwn _) fun _ => .pure _)
    | logicalRight => exact .pure _
    | callArgs => exact .fail _
    | awaitCall => exact .fail _
  | unary op operand => exact .bind (.shared (routine_unary _ op operand)) fun v => .pure _
  | _ => exact .fail _

theorem routine_pump : OwnRoutine fun E => pump E := by
  refine .bind .own fun t => ?_
  cases t.pending with
  | nil => exact routine_combine
  | cons e rest => exact .bind (.setOwn _) fun _ => .pure _

theorem routine_begin : OwnRoutine fun E => begin E :=
  .bind (.modifyOwn _) fun _ => routine_pump

theorem routine_start : OwnRoutine fun E => start E := by
  refine .bind .own fun t => ?_
  cases t.expr with
  | undefined => exact .pure _
  | null => exact .pure _
  | bool b => exact .pure _
  | number x => exact .pure _
  | string s => exact .bind (.shared .intern) fun s => .pure _
  | ident name => exact .bind (.shared (routine_lookupName _ name)) fun v => .pure _
  | receiver => exact .bind (.shared (.readHeap _)) fun v => .pure _
  | function f => exact .bind (.shared (routine_allocClosure f _)) fun o => .pure _
  | unary op operand =>
    cases op with
    | typeOf =>
      cases operand with
      | ident name =>
        exact .bind (.shared (routine_hasBinding _ name)) fun b =>
          .ite routine_begin (.bind (.shared .intern) fun s => .pure _)
      | _ => exact routine_begin
    | delete =>
      cases operand with
      | ident name => exact .pure _
      | _ => exact routine_begin
    | _ => exact routine_begin
  | _ => exact routine_begin

theorem routine_resume (o : Except Error Completion) :
    OwnRoutine fun E => resume E o :=
  .bind (.ofExcept o) fun _ => .bind .own fun _ => .ite (.pure _)
    (.bind (.setOwn _) fun _ => routine_pump)

end ExpressionTask

/-! ### Calls of closures -/

namespace InvocationTask

theorem routine_openScope (t : InvocationTask) : Routine fun _ => t.openScope := by
  unfold openScope
  cases t.closure.boundScope with
  | some bound =>
    refine .bind .childScope fun scope => .bind (.readHeap _) fun sc =>
      .bind (.onHeap (Heap.routine_setScopeWriteTo _ _)) fun _ => ?_
    cases t.closure.receiver with
    | some receiver => exact .pure _
    | none => exact .bind (.readHeap _) fun v => .pure _
  | none => exact .bind .childScope fun scope => .pure _

theorem routine_bodyReceiver (t : InvocationTask) (strict : Bool) (receiver : Value) :
    Routine fun _ => t.bodyReceiver strict receiver :=
  .bind .realm fun _ => .ite (.bind (.readHeap _) fun _ => .pure _) (.pure _)

theorem routine_fillArguments (arguments : ObjectRef) (strict : Bool) :
    ∀ (i : Nat) (vs : List Value),
      Routine fun E => fillArguments E arguments strict i vs
  | _, [] => .pure _
  | i, v :: vs => by
    have ih := routine_fillArguments arguments strict (i + 1) vs
    refine .bind .allocCell fun c => ?_
    cases strict with
    | true =>
      exact .bind (.discard (routine_setProperty arguments _ v true)) fun _ =>
        .bind ih fun cs => .pure _
    | false => exact .bind .installCell fun _ => .bind ih fun cs => .pure _

theorem routine_allocArguments (t : InvocationTask) (strict : Bool) :
    Routine fun E => t.allocArguments E strict := by
  refine .bind .realm fun realm => .bind (.allocObject trivial) fun arguments =>
    .bind (routine_fillArguments arguments strict 0 _) fun cells => ?_
  cases strict with
  | true => exact .bind (.discard .define) fun _ => .pure _
  | false =>
    exact .bind (.discard .define) fun _ => .bind (.discard .define) fun _ => .pure _

theorem routine_declareNames (t : InvocationTask) (scope : ScopeRef) (strict : Bool) :
    Routine fun _ => t.declareNames scope strict := by
  have rest : Routine fun _ => (do
      declareAll scope t.closure.function.vars
      if !strict then declareAll scope (t.closure.function.functions.filterMap (·.name)) : Run Unit) :=
    .bind .declareAll fun _ => .ite .declareAll (.pure _)
  unfold declareNames
  dsimp only
  cases t.closure.function.name with
  | some name => exact .bind (.discard .declare) fun _ => rest
  | none => exact rest

theorem routine_setUp (t : InvocationTask) :
    Routine fun E => t.setUp E := by
  refine .bind (routine_openScope t) fun opened => ?_
  obtain ⟨scope, receiver⟩ := opened
  refine .after_ite .modifyScope ?_
  exact .bind (.readHeap _) fun strict => .bind (routine_bodyReceiver t strict receiver) fun v =>
    .bind .modifyScope fun _ => .bind (routine_declareNames t scope strict) fun _ =>
      .bind (routine_allocArguments t strict) fun built => .bind .names fun names =>
        .bind (.readHeap _) fun sc => .bind (.discard .define) fun _ => .pure _

theorem routine_bindSimple (t : InvocationTask) (scope : ScopeRef) (index : Nat) (name : String)
    (v : Value) : Routine fun _ => t.bindSimple scope index name v := by
  refine .ite (.discard .declare) ?_
  cases t.argCells[index]? with
  | some c => exact .onHeap (Heap.routine_declareCell _ _ _)
  | none => exact .fail _

theorem routine_askBody (t : InvocationTask) (scope : ScopeRef) :
    Routine fun _ => t.askBody scope :=
  .bind .isDebug fun _ => .pure _

theorem routine_bindParams (t : InvocationTask) (scope : ScopeRef) :
    ∀ (index : Nat) (params : List Param),
      Routine fun E => t.bindParams E scope index params
  | _, [] => routine_askBody t scope
  | index, .rest name :: _ =>
    .bind (routine_allocArray _) fun _ => .bind (.discard .declare) fun _ => routine_askBody t scope
  | index, .simple name default :: params => by
    have ih := routine_bindParams t scope (index + 1) params
    unfold bindParams
    cases t.args[index]? with
    | some v => exact .bind (routine_bindSimple t scope index name _) fun _ => ih
    | none =>
      cases default with
      | some e => exact .pure _
      | none => exact .bind (routine_bindSimple t scope index name _) fun _ => ih
  | index, .pattern target default :: params => by
    have ih := routine_bindParams t scope (index + 1) params
    unfold bindParams
    refine .bind .declareAll fun _ => ?_
    cases t.args[index]? with
    | some v => exact .bind (routine_writePattern scope target _) fun _ => ih
    | none =>
      cases default with
      | some e => exact .pure _
      | none => exact .bind (routine_writePattern scope target _) fun _ => ih

theorem routine_bindDefault (t : InvocationTask) (index : Nat) (v : Value) :
    Routine fun E => t.bindDefault E index v := by
  refine .bind (.ofExcept _) fun scope => ?_
  have params := routine_bindParams t scope (index + 1) (t.closure.function.params.drop (index + 1))
  dsimp only
  cases t.argCells[index]?
  case' some c => refine .bind .writeCell fun _ => ?_
  all_goals
    cases t.closure.function.params[index]? with
    | none => exact .bind (.fail _) fun _ => params
    | some param =>
      cases param with
      | simple name default => exact .bind (routine_bindSimple t scope index name v) fun _ => params
      | pattern target default => exact .bind (routine_writePattern scope target v) fun _ => params
      | rest name => exact .bind (.fail _) fun _ => params

theorem routine_begin (t : InvocationTask) : Routine fun E => t.begin E :=
  .bind (routine_setUp _) fun t => .bind (.ofExcept _) fun scope => routine_bindParams t scope 0 _

theorem routine_goOn (t : InvocationTask) (o : Except Error Completion) :
    Routine fun E => t.goOn E o := by
  refine .bind (.ofExcept o) fun completion => ?_
  cases t.state with
  | paramBinding index => exact routine_bindDefault t index _
  | bodyEvaluating => exact .bind (.ofExcept _) fun v => .pure _
  | _ => exact .fail _

end InvocationTask

/-! ### Tasks -/

namespace Task

/-- What a task does when it starts, or after a child, before its end is recorded: it fails if the task
does. -/
def doing (engine : Engine) : Task → Option (Except Error Completion) → Run (Task × Step)
  | .statements t, none => (fun r => (.statements r.1, r.2)) <$> t.start
  | .statements t, some o => (fun r => (.statements r.1, r.2)) <$> t.resume o
  | .statement t, none => pure (.statement t.start.1, t.start.2)
  | .statement t, some o => (fun r => (.statement r.1, r.2)) <$> t.resume engine o
  | .expression t, none => (fun r => (.expression r.1, r.2)) <$> within t (ExpressionTask.start engine)
  | .expression t, some o => (fun r => (.expression r.1, r.2)) <$> within t (ExpressionTask.resume engine o)
  | .invocation t, none =>
    if t.state = .created then (fun r => (.invocation r.1, r.2)) <$> t.begin engine
    else throw (.driverState .startedTwice)
  | .invocation t, some o => (fun r => (.invocation r.1, r.2)) <$> t.goOn engine o
  | .settled o, _ => (fun c => (.settled o, .finished c)) <$> Proc.ofExcept o

/-- **A task does what running code may do.** -/
theorem routine_doing (t : Task) (i : Option (Except Error Completion)) :
    Routine fun E => t.doing E i := by
  cases t with
  | statements t =>
    cases i with
    | none => exact .map t.routine_start _
    | some o => exact .map (t.routine_resume o) _
  | statement t =>
    cases i with
    | none => exact .pure _
    | some o => exact .map (t.routine_resume o) _
  | expression t =>
    cases i with
    | none => exact .map (ExpressionTask.routine_start t) _
    | some o => exact .map (ExpressionTask.routine_resume o t) _
  | invocation t =>
    cases i with
    | none => exact .ite (.map t.routine_begin _) (.fail _)
    | some o => exact .map (t.routine_goOn o) _
  | settled o => exact .map (.ofExcept o) _

theorem reports_map {k : τ → Task} {p : Run (τ × Step)} {m : Machine}
    {r : Outcome Machine (Except Error Step × Task)} (h : Reports k (p m) r) :
    Reports id (((fun r => (k r.1, r.2)) <$> p) m) r := by
  rw [map_eq_pure_bind]
  generalize hp : p m = o at h
  cases h with
  | finished t u c m => rw [Proc.bind_done hp]; exact .finished (k t) u c m
  | suspended t s m => rw [Proc.bind_done hp]; exact .suspended (k t) s m
  | failed u e m => rw [Proc.bind_failed hp]; exact .failed u e m
  | stalled => rw [Proc.bind_stalled hp]; exact .stalled

/-- **How a task hands over what it did**: a task that failed says so in its result. -/
theorem reports_act (f : Frame) (i : Option (Except Error Completion)) (m : Machine) :
    Reports id (f.task.doing E i m) (f.act E i m) := by
  unfold Frame.act
  cases f.task with
  | statements t =>
    cases i with
    | none => exact reports_map (reports_keeping .statements t _ m)
    | some o => exact reports_map (reports_keeping .statements t _ m)
  | statement t =>
    cases i with
    | none => exact reports_pure id _ m
    | some o => exact reports_map (reports_keeping .statement t _ m)
  | expression t =>
    cases i with
    | none => exact reports_map (reports_withOwn .expression t _ m)
    | some o => exact reports_map (reports_withOwn .expression t _ m)
  | invocation t =>
    cases i with
    | none =>
      by_cases hstate : t.state = .created
      · simp only [doing, start, hstate, if_true, InvocationTask.start_eq E hstate]
        exact reports_map (reports_settle t _ m)
      · simp only [doing, start, InvocationTask.start, hstate, if_false]
        exact .failed _ _ m
    | some o => exact reports_map (reports_settle t _ m)
  | settled o =>
    cases o with
    | ok c => cases i <;> exact .finished _ _ c m
    | error e => cases i <;> exact .failed _ e m

end Task

/-! ### Tasks do not fail -/

namespace Proc

variable {σ : Type}

/-- The procedure never fails. -/
def Unfailing (p : Proc σ α) : Prop := ∀ s e s', p s ≠ .failed e s'

theorem unfailing_pure (a : α) : Unfailing (pure a : Proc σ α) := fun _ _ _ h => by cases h

theorem unfailing_attempt (p : Proc σ α) : Unfailing p.attempt := by
  intro s e s' h
  unfold attempt at h
  cases hps : p s <;> rw [hps] at h <;> cases h

theorem Unfailing.bind {p : Proc σ α} {f : α → Proc σ β} (hp : p.Unfailing)
    (hf : ∀ a, (f a).Unfailing) : (p >>= f).Unfailing := by
  intro s e s' h
  cases hps : p s with
  | done a t =>
    rw [bind_done hps] at h
    exact hf a t e s' h
  | failed e t => exact hp s e t hps
  | stalled =>
    rw [bind_stalled hps] at h
    cases h

end Proc

/-- **Running a task never fails**: its result says that it failed. -/
theorem unfailing_act (f : Frame) (i : Option (Except Error Completion)) : (f.act E i).Unfailing := by
  intro m e m' h
  have hreports := Task.reports_act (E := E) f i m
  rw [h] at hreports
  generalize f.task.doing E i m = o at hreports
  cases hreports

end ScriptCore
