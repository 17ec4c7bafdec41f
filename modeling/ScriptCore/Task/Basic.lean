import ScriptCore.Branch
import ScriptCore.Heap.Collection

/-! # Tasks: resumable units of evaluation

A task runs until it finishes or needs a child: a branch or a call. What it has to remember until
then is its state, and `Task.handles` are the handles that keep its values alive meanwhile. There is
one task for a list of statements, one for a statement, one for an expression, one for a call of a
closure, and one whose outcome is fixed beforehand. -/

namespace ScriptCore

/-! ### Lists of statements -/

/-- A program, a function body or a block. -/
structure StatementsTask where
  kind : BranchKind
  statements : List Stmt
  scope : ScopeRef
  options : BranchOptions
  /-- The statements that are still to run. -/
  rest : List Stmt
  /-- The value of the last statement that had one. -/
  last : Option Value

/-! ### Statements -/

/-- What a statement is waiting for. -/
inductive StatementState where
  | start
  | varInit (index : Nat)
  | operand
  | ifTest
  | nested
  | whileTest
  | whileBody
  | tryBlock
  | tryHandler
deriving DecidableEq, Inhabited

def StatementState.name : StatementState → String
  | .start => "Start"
  | .varInit index => "VarInit \x7b index: " ++ toString index ++ " \x7d"
  | .operand => "Operand"
  | .ifTest => "IfTest"
  | .nested => "Nested"
  | .whileTest => "WhileTest"
  | .whileBody => "WhileBody"
  | .tryBlock => "TryBlock"
  | .tryHandler => "TryHandler"

structure StatementTask where
  stmt : Stmt
  scope : ScopeRef
  state : StatementState
  /-- The last value that an iteration of a loop had. -/
  last : Option Value

/-! ### Expressions -/

/-- What an expression does once its queued operands are evaluated. -/
inductive ExpressionPhase where
  | operands
  /-- The callee of a member call is known, its arguments are pending. -/
  | callArgs
  | logicalRight
  | awaitCall
deriving DecidableEq, Inhabited

def ExpressionPhase.name : ExpressionPhase → String
  | .operands => "Operands"
  | .callArgs => "CallArgs"
  | .logicalRight => "LogicalRight"
  | .awaitCall => "AwaitCall"

structure ExpressionTask where
  expr : Expr
  scope : ScopeRef
  /-- The operands still to be evaluated, the next one in front. -/
  pending : List Expr
  /-- The values of the operands evaluated so far, in order. -/
  values : List Value
  phase : ExpressionPhase
  callee : Value
  receiver : Value

/-! ### Calls of closures -/

inductive InvocationState where
  | created
  | invoking
  /-- Waiting for the default of a parameter. -/
  | paramBinding (index : Nat)
  | bodyEvaluating
  | returned
  | thrown
deriving DecidableEq, Inhabited

def InvocationState.name : InvocationState → String
  | .created => "Created"
  | .invoking => "Invoking"
  | .paramBinding index => "ParamBinding \x7b index: " ++ toString index ++ " \x7d"
  | .bodyEvaluating => "BodyEvaluating"
  | .returned => "Returned"
  | .thrown => "Thrown"

/-- A call of a closure in progress. -/
structure InvocationTask where
  callee : ObjectRef
  closure : Closure
  receiver : Value
  args : List Value
  callerScope : ScopeRef
  extra : CallExtra
  state : InvocationState
  /-- The scope of the call, once it is set up. -/
  scope : Option ScopeRef
  strict : Bool
  /-- The cells of the arguments, missing ones included. -/
  argCells : List CellRef

/-! ### Tasks -/

inductive Task where
  | statements (t : StatementsTask)
  | statement (t : StatementTask)
  | expression (t : ExpressionTask)
  | invocation (t : InvocationTask)
  /-- Ends at once with a fixed outcome. -/
  | settled (outcome : Except Error Completion)

namespace Task

/-- The task that evaluates a branch. -/
def ofRequest (r : BranchRequest) : Task :=
  match r.node with
  | .statements list => .statements ⟨r.kind, list, r.scope, r.options, list, none⟩
  | .statement s => .statement ⟨s, r.scope, .start, none⟩
  | .expression e => .expression ⟨e, r.scope, [], [], .operands, .undefined, .undefined⟩

end Task

/-! ### What tasks keep alive -/

def handlesOfOption (v : Option Value) : List Handle :=
  match v with
  | some v => v.handles
  | none => []

def StatementsTask.handles (t : StatementsTask) : List Handle :=
  t.scope.handle :: (t.options.handles ++ handlesOfOption t.last)

def StatementTask.handles (t : StatementTask) : List Handle :=
  t.scope.handle :: handlesOfOption t.last

def ExpressionTask.handles (t : ExpressionTask) : List Handle :=
  t.scope.handle :: (t.values.flatMap Value.handles ++ t.callee.handles ++ t.receiver.handles)

def InvocationTask.handles (t : InvocationTask) : List Handle :=
  t.callee.handle :: (t.closure.handles ++ t.receiver.handles ++ t.args.flatMap Value.handles ++
    [t.callerScope.handle] ++ handlesOfOption t.extra.callee ++
    (match t.scope with
      | some s => [s.handle]
      | none => []) ++
    t.argCells.map (·.handle))

/-- The handles that a suspended task keeps alive. -/
def Task.handles : Task → List Handle
  | .statements t => t.handles
  | .statement t => t.handles
  | .expression t => t.handles
  | .invocation t => t.handles
  | .settled _ => []

end ScriptCore
