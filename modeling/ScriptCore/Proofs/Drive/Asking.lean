import ScriptCore.Proofs.Drive.Forwarding
import ScriptCore.Syntax.Names

/-! # What tasks ask for

A list of statements asks for its statements, and a statement for the statements and expressions inside it, in the
scope that they have themselves; only the handler of a `try` statement gets a scope of its own. A call asks for its
body, and an expression for nothing but expressions and calls. So a branch declares no variable that the task that
asked for it does not declare.

* `BranchNode.Part`: the parts of a branch.
* `Step.Asks`: what holds of the branch that a task asks for.
* `StatementsTask.Asked`, `StatementTask.Asked`, `InvocationTask.Asked`: **what tasks ask for**, and that they are
  still what they were. -/

namespace ScriptCore

open Proc (Yields)

variable {α β σ : Type} {E : Engine} {name : String}

/-- What the first part delivers may be used for the second. -/
theorem Proc.Yields.bind_of {R : β → Prop} {Q : α → Prop} {p : Proc σ β} {f : β → Proc σ α} (hp : Yields R p)
    (hf : ∀ b, R b → Yields Q (f b)) : Yields Q (p >>= f) := by
  intro s a s' h
  cases hrun : p s with
  | done b t =>
    rw [Proc.bind_done hrun] at h
    exact hf b (hp s b t hrun) t a s' h
  | failed e t => rw [Proc.bind_failed hrun] at h; cases h
  | stalled => rw [Proc.bind_stalled hrun] at h; cases h

theorem Proc.Yields.imp {P Q : α → Prop} {p : Proc σ α} (hp : Yields P p) (hPQ : ∀ a, P a → Q a) : Yields Q p :=
  fun s a s' hdone => hPQ a (hp s a s' hdone)

theorem Proc.Yields.map {Q : α → Prop} {p : Proc σ β} {f : β → α} (hp : Yields (fun b => Q (f b)) p) :
    Yields Q (f <$> p) := by
  rw [map_eq_pure_bind]
  exact hp.bind_of fun b hb => .pure hb

/-! ### The variables of a branch -/

/-- The names that a branch declares as variables. -/
def BranchNode.variables : BranchNode → List String
  | .statements list => variablesOfList list
  | .statement s => s.variables
  | .expression _ => []

/-- The statement is a branch of an `if` statement, or the body of a loop. -/
inductive Stmt.HasBranch : Stmt → Stmt → Prop where
  | consequent (test : Expr) (s : Stmt) (alternate : Option Stmt) : HasBranch (.ifThen test s alternate) s
  | alternate (test : Expr) (consequent s : Stmt) : HasBranch (.ifThen test consequent (some s)) s
  | body (test : Expr) (s : Stmt) : HasBranch (.whileLoop test s) s

/-- **The parts of a branch**: the statements of a list, the branches and lists of a statement, and any expression. -/
inductive BranchNode.Part : BranchNode → BranchNode → Prop where
  | expression (node : BranchNode) (e : Expr) : Part node (.expression e)
  | element {list : List Stmt} {s : Stmt} (hs : s ∈ list) : Part (.statements list) (.statement s)
  | branch {a s : Stmt} (hs : a.HasBranch s) : Part (.statement a) (.statement s)
  | block (list : List Stmt) : Part (.statement (.block list)) (.statements list)
  | tryBlock (list : List Stmt) (param : Option String) (handler : List Stmt) :
      Part (.statement (.tryCatch list param handler)) (.statements list)
  | handler (block : List Stmt) (param : Option String) (list : List Stmt) :
      Part (.statement (.tryCatch block param list)) (.statements list)

theorem BranchNode.part_statements {list : List Stmt} {s : Stmt} :
    (statements list).Part (.statement s) ↔ s ∈ list := by
  constructor
  · rintro ⟨⟩
    assumption
  · exact .element

theorem BranchNode.part_statement {a s : Stmt} : (statement a).Part (.statement s) ↔ a.HasBranch s := by
  constructor
  · rintro ⟨⟩
    assumption
  · exact .branch

/-- A list of statements declares what its statements declare. -/
theorem variablesOfList_subset {s : Stmt} : ∀ {list : List Stmt}, s ∈ list → s.variables ⊆ variablesOfList list
  | _ :: _, hs => by
    rw [variablesOfList]
    rcases List.mem_cons.mp hs with rfl | hrest
    · exact List.subset_append_left _ _
    · exact List.subset_append_of_subset_right _ (variablesOfList_subset hrest)

/-- What a part declares is declared by the whole. -/
theorem BranchNode.Part.variables_subset {node part : BranchNode} (hpart : node.Part part) :
    part.variables ⊆ node.variables := by
  cases hpart with
  | expression => exact List.nil_subset _
  | element hs => exact variablesOfList_subset hs
  | branch hs =>
    cases hs with
    | consequent test s alternate => exact List.subset_append_left _ _
    | alternate test consequent s => exact List.subset_append_right _ _
    | body test s => exact List.Subset.refl _
  | block list => exact List.Subset.refl _
  | tryBlock list param handler => exact List.subset_append_left _ _
  | handler block param list => exact List.subset_append_right _ _

/-- The variables of a function are those of its statements. -/
theorem Function.mem_vars {f : Function} {list : List Stmt} (hbody : f.body = .block list)
    (hname : name ∈ variablesOfList list) : name ∈ f.vars := by
  unfold vars
  rw [hbody]
  exact List.mem_eraseDups.mpr hname

/-- If the task asks for a branch, it is one of which `P` holds. -/
def Step.Asks (P : BranchRequest → Prop) (step : Step) : Prop := ∀ q, step = .suspended (.branch q) → P q

namespace Step.Asks

variable {P : BranchRequest → Prop}

theorem ask {q : BranchRequest} (hq : P q) : (Step.ask q).Asks P := fun _ h => by cases h; exact hq

theorem finished (c : Completion) : (Step.finished c).Asks P := fun _ h => by cases h

theorem call (r : CallRequest) : (Step.suspended (.call r)).Asks P := fun _ h => by cases h

end Step.Asks

/-! ### Lists of statements -/

/-- The list is still what it was, and it asks for one of its statements in its own scope. -/
structure StatementsTask.Asked (t : StatementsTask) (r : StatementsTask × Step) : Prop where
  statements : r.1.statements = t.statements
  scope : r.1.scope = t.scope
  rest : r.1.rest <:+ t.statements
  asks : r.2.Asks fun q => q.scope = t.scope ∧ (BranchNode.statements t.statements).Part q.node

namespace StatementsTask

variable {t : StatementsTask}

theorem asked_advance (hrest : t.rest <:+ t.statements) : t.Asked t.advance := by
  unfold advance
  cases h : t.rest with
  | nil => exact ⟨rfl, rfl, hrest, .finished _⟩
  | cons s rest =>
    rw [h] at hrest
    have hmem : s ∈ t.statements := hrest.subset (List.mem_cons_self ..)
    exact ⟨rfl, rfl, (List.suffix_cons s rest).trans hrest, .ask ⟨rfl, .element hmem⟩⟩

theorem yields_start (hrest : t.rest <:+ t.statements) : t.start.Yields t.Asked :=
  .bind fun _ => .pure (asked_advance hrest)

theorem yields_resume (hrest : t.rest <:+ t.statements) (o : Except Error Completion) :
    (t.resume o).Yields t.Asked := by
  refine .bind fun c => .ite (.pure ⟨rfl, rfl, hrest, .finished _⟩) (.pure ?_)
  have hnext := asked_advance (t := { t with last := (c.updateEmpty t.last).value? }) hrest
  exact ⟨hnext.statements, hnext.scope, hnext.rest, hnext.asks⟩

end StatementsTask

/-! ### Statements -/

/-- The statement is still what it was, and it asks for a part of it in its own scope. -/
structure StatementTask.Asked (t : StatementTask) (r : StatementTask × Step) : Prop where
  stmt : r.1.stmt = t.stmt
  scope : r.1.scope = t.scope
  asks : r.2.Asks fun q => q.scope = t.scope ∧ (BranchNode.statement t.stmt).Part q.node

/-- The statement is still what it was, and its handler is running. -/
structure StatementTask.Handles (t : StatementTask) (r : StatementTask × Step) : Prop where
  stmt : r.1.stmt = t.stmt
  scope : r.1.scope = t.scope
  state : r.1.state = .tryHandler
  asks : r.2.Asks fun q => ∃ list, q.node = .statements list ∧
    (BranchNode.statement t.stmt).Part (.statements list)

namespace StatementTask

variable {t : StatementTask}

theorem asked_finish (t : StatementTask) (c : Completion) : t.Asked (t.finish c) := ⟨rfl, rfl, .finished _⟩

theorem asked_askExpr (t : StatementTask) (state : StatementState) (e : Expr) : t.Asked (t.askExpr state e) :=
  ⟨rfl, rfl, .ask ⟨rfl, .expression _ e⟩⟩

theorem asked_askStmt (state : StatementState) {s : Stmt} (hs : t.stmt.HasBranch s) :
    t.Asked (t.askStmt state s) := ⟨rfl, rfl, .ask ⟨rfl, .branch hs⟩⟩

theorem asked_askBlock (state : StatementState) {list : List Stmt}
    (hlist : (BranchNode.statement t.stmt).Part (.statements list)) :
    t.Asked (t.askBlock state list t.scope) := ⟨rfl, rfl, .ask ⟨rfl, hlist⟩⟩

theorem asked_askInitializer (t : StatementTask) (i : Nat) (declarations : List (Pattern × Option Expr)) :
    t.Asked (t.askInitializer i declarations) := by
  unfold askInitializer
  split
  · exact asked_askExpr t _ _
  · exact asked_finish t _

theorem asked_start (t : StatementTask) : t.Asked t.start := by
  obtain ⟨stmt, scope, state, last⟩ := t
  cases stmt with
  | expr e => exact asked_askExpr _ _ e
  | throwValue e => exact asked_askExpr _ _ e
  | ret value => cases value <;> first | exact asked_finish _ _ | exact asked_askExpr _ _ _
  | vars declarations => exact asked_askInitializer _ 0 declarations
  | function f => exact asked_finish _ _
  | ifThen test consequent alternate => exact asked_askExpr _ _ test
  | block list => exact asked_askBlock _ (.block list)
  | whileLoop test body => exact asked_askExpr _ _ test
  | breakLoop => exact asked_finish _ _
  | continueLoop => exact asked_finish _ _
  | tryCatch block param handler => exact asked_askBlock _ (.tryBlock block param handler)

theorem asked_afterBody (t : StatementTask) (test : Expr) (c : Completion) : t.Asked (t.afterBody test c) := by
  have hagain : ∀ last, t.Asked ({ t with last }.askExpr .whileTest test) := fun _ =>
    ⟨rfl, rfl, .ask ⟨rfl, .expression _ test⟩⟩
  unfold afterBody
  split
  · exact asked_finish t _
  · exact hagain _
  · exact hagain _
  · exact asked_finish t _

theorem handles_handle {block : List Stmt} {param : Option String} {handler : List Stmt}
    (hstmt : t.stmt = .tryCatch block param handler) (e : Error) :
    Yields t.Handles (t.handle param handler e) := by
  have hasked : ∀ scope, t.Handles (t.askBlock .tryHandler handler scope) := fun _ =>
    ⟨rfl, rfl, rfl, .ask ⟨handler, rfl, by rw [hstmt]; exact .handler block param handler⟩⟩
  unfold handle
  refine .ite (.bind fun v => .bind fun scope => ?_) (.fail e)
  cases param with
  | some name => exact .bind fun _ => .pure (hasked scope)
  | none => exact .pure (hasked scope)

/-- **A statement goes on in its own scope**, unless a handler is to run. -/
theorem yields_asked (hblock : t.state ≠ .tryBlock) (o : Except Error Completion) :
    Yields t.Asked (t.resume E o) := by
  obtain ⟨stmt, scope, state, last⟩ := t
  cases state with
  | start => exact .fail _
  | operand =>
    cases stmt with
    | expr e => exact .bind fun v => .pure (asked_finish _ _)
    | ret e => exact .bind fun v => .pure (asked_finish _ _)
    | throwValue e => exact .bind fun v => .fail _
    | _ => exact .fail _
  | varInit i =>
    cases stmt with
    | vars declarations =>
      refine .bind fun v => ?_
      dsimp only
      cases declarations[i]? with
      | some d => exact .bind fun _ => .pure (asked_askInitializer _ _ _)
      | none => exact .pure (asked_askInitializer _ _ _)
    | _ => exact .fail _
  | ifTest =>
    cases stmt with
    | ifThen test consequent alternate =>
      refine .bind fun v => .bind fun truthy => .ite (.pure (asked_askStmt _ (.consequent ..))) ?_
      cases alternate with
      | some s => exact .pure (asked_askStmt _ (.alternate ..))
      | none => exact .pure (asked_finish _ _)
    | _ => exact .fail _
  | nested => cases stmt <;> exact .bind fun c => .pure (asked_finish _ _)
  | whileTest =>
    cases stmt with
    | whileLoop test body =>
      exact .bind fun v => .bind fun truthy =>
        .ite (.pure (asked_askStmt _ (.body ..))) (.pure (asked_finish _ _))
    | _ => exact .fail _
  | whileBody =>
    cases stmt with
    | whileLoop test body => exact .bind fun c => .pure (asked_afterBody _ test c)
    | _ => exact .fail _
  | tryBlock => exact absurd rfl hblock
  | tryHandler =>
    cases stmt with
    | tryCatch block param handler => exact .bind fun c => .pure (asked_finish _ _)
    | _ => exact .fail _

end StatementTask

/-! ### Expressions -/

namespace ExpressionTask

/-- The expression asks for no branch but expressions. -/
abbrev Plain : Step → Prop := Step.Asks fun q => ∃ e, q.node = .expression e

theorem plain_ask (t : ExpressionTask) (e : Expr) : Plain (t.ask e) := .ask ⟨e, rfl⟩

theorem plain_askCall (callee : Expr) : Yields Plain (askCall callee) :=
  .bind fun _ => .bind fun _ => .ite (.bind fun _ => .bind fun _ => .pure (.call _)) (.fail _)

theorem plain_askArguments (callee : Expr) (args : List Expr) : Yields Plain (askArguments callee args) := by
  cases args with
  | nil => exact plain_askCall callee
  | cons e rest => exact .bind fun t => .bind fun _ => .pure (t.plain_ask e)

theorem plain_combine : Yields Plain (combine E) := by
  refine .bind fun t => ?_
  obtain ⟨expr, scope, pending, values, phase, callee, receiver⟩ := t
  cases expr with
  | array elements => exact .bind fun _ => .pure (.finished _)
  | object properties => exact .bind fun _ => .bind fun _ => .pure (.finished _)
  | member base key => exact .bind fun _ => .bind fun _ => .pure (.finished _)
  | assign target value => exact .bind fun _ => .pure (.finished _)
  | call f args =>
    cases phase with
    | operands =>
      cases f with
      | member base key => exact .bind fun _ => .bind fun _ => .bind fun _ => plain_askArguments _ args
      | _ => exact .bind fun _ => plain_askCall _
    | callArgs => exact plain_askCall f
    | logicalRight => exact .fail _
    | awaitCall => exact .fail _
  | binary op left right => exact .bind fun _ => .pure (.finished _)
  | logical op left right =>
    cases phase with
    | operands => exact .bind fun _ => .ite (.pure (.finished _)) (.bind fun _ => .pure (plain_ask _ right))
    | logicalRight => exact .pure (.finished _)
    | callArgs => exact .fail _
    | awaitCall => exact .fail _
  | unary op operand => exact .bind fun _ => .pure (.finished _)
  | _ => exact .fail _

theorem plain_pump : Yields Plain (pump E) := by
  refine .bind fun t => ?_
  cases t.pending with
  | nil => exact plain_combine
  | cons e rest => exact .bind fun _ => .pure (plain_ask t e)

theorem plain_begin : Yields Plain (begin E) := .bind fun _ => plain_pump

/-- **An expression asks for expressions and calls only.** -/
theorem plain_start : Yields Plain (start E) := by
  refine .bind fun t => ?_
  cases t.expr with
  | undefined => exact .pure (.finished _)
  | null => exact .pure (.finished _)
  | bool b => exact .pure (.finished _)
  | number x => exact .pure (.finished _)
  | string s => exact .bind fun _ => .pure (.finished _)
  | ident name => exact .bind fun _ => .pure (.finished _)
  | receiver => exact .bind fun _ => .pure (.finished _)
  | function f => exact .bind fun _ => .pure (.finished _)
  | unary op operand =>
    cases op with
    | typeOf =>
      cases operand with
      | ident name => exact .bind fun _ => .ite plain_begin (.bind fun _ => .pure (.finished _))
      | _ => exact plain_begin
    | delete =>
      cases operand with
      | ident name => exact .pure (.finished _)
      | _ => exact plain_begin
    | _ => exact plain_begin
  | _ => exact plain_begin

theorem plain_resume (o : Except Error Completion) : Yields Plain (resume E o) :=
  .bind fun _ => .bind fun _ => .ite (.pure (.finished _)) (.bind fun _ => plain_pump)

end ExpressionTask

/-! ### Calls -/

/-- The call is still what it was, and it asks for an expression, or for its body in its own scope. -/
structure InvocationTask.Asked (t : InvocationTask) (r : InvocationTask × Step) : Prop where
  closure : r.1.closure = t.closure
  scope : r.1.scope = t.scope
  asks : r.2.Asks fun q => (∃ e, q.node = .expression e) ∨
    r.1.state = .bodyEvaluating ∧ t.scope = some q.scope ∧
      ∃ list, t.closure.function.body = .block list ∧ q.node = .statements list

namespace InvocationTask

variable {t : InvocationTask} {s : ScopeRef}

theorem asked_askBody (hs : t.scope = some s) : Yields t.Asked (t.askBody s) := by
  refine .bind fun debug => .pure ⟨rfl, rfl, .ask ?_⟩
  cases t.closure.function.body with
  | block list => exact .inr ⟨rfl, hs, list, rfl, rfl⟩
  | expression e => exact .inl ⟨e, rfl⟩

theorem asked_askDefault (t : InvocationTask) (s : ScopeRef) (index : Nat) (e : Expr) :
    t.Asked (t.askDefault s index e) := ⟨rfl, rfl, .ask (.inl ⟨e, rfl⟩)⟩

theorem asked_bindParams (hs : t.scope = some s) : ∀ (params : List Param) (index : Nat),
    Yields t.Asked (bindParams E t s index params)
  | [], _ => by
    unfold bindParams
    exact asked_askBody hs
  | .rest name :: _, _ => by
    unfold bindParams
    exact .bind fun _ => .bind fun _ => asked_askBody hs
  | .simple name default :: params, index => by
    have ih := asked_bindParams hs params (index + 1)
    unfold bindParams
    split
    · exact .pure (asked_askDefault t s index _)
    · exact .bind fun _ => ih
  | .pattern target default :: params, index => by
    have ih := asked_bindParams hs params (index + 1)
    unfold bindParams
    refine .bind fun _ => ?_
    split
    · exact .pure (asked_askDefault t s index _)
    · exact .bind fun _ => ih

theorem yields_callScope (t : InvocationTask) :
    Yields (fun s => t.scope = some s) (Proc.ofExcept t.callScope : Run ScopeRef) := by
  unfold callScope
  cases t.scope with
  | none => exact .fail _
  | some s => exact .pure rfl

/-- **A call that starts** asks for an expression or for its body once its scope is set up. -/
theorem yields_begin (t : InvocationTask) : Yields (fun r => ∃ t' : InvocationTask, t'.Asked r) (t.begin E) :=
  .bind fun t' => t'.yields_callScope.bind_of fun _ hs => (asked_bindParams hs _ _).imp fun _ hr => ⟨t', hr⟩

theorem asked_bindDefault (t : InvocationTask) (index : Nat) (v : Value) :
    Yields t.Asked (t.bindDefault E index v) := by
  refine t.yields_callScope.bind_of fun s hs => ?_
  have params := asked_bindParams (E := E) hs (t.closure.function.params.drop (index + 1)) (index + 1)
  dsimp only
  cases t.argCells[index]?
  case' some c => refine .bind fun _ => ?_
  all_goals
    cases t.closure.function.params[index]? with
    | none => exact .bind fun _ => params
    | some param => cases param <;> exact .bind fun _ => params

/-- **A call that goes on** asks for an expression or for its body. -/
theorem yields_goOn (t : InvocationTask) (o : Except Error Completion) : Yields t.Asked (t.goOn E o) := by
  refine .bind fun c => ?_
  cases t.state with
  | paramBinding index => exact asked_bindDefault t index _
  | bodyEvaluating => exact .bind fun v => .pure ⟨rfl, rfl, .finished _⟩
  | _ => exact .fail _

end InvocationTask

end ScriptCore
