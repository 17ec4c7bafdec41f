import ScriptCore.Callable
import ScriptCore.Reference

/-! # Running statements

Each statement asks for the expressions and statements inside it and says how their outcomes
combine. Only a `try` statement whose block is running intercepts errors, and only those that the
program may see. -/

namespace ScriptCore

/-- The value of a child that has to have ended. -/
def childValue (outcome : Except Error Completion) : Except Error Value :=
  return (← outcome).value

/-- The first declaration with an initial value, from position `i` on. -/
def nextInitializer : Nat → List (Pattern × Option Expr) → Option (Nat × Expr)
  | _, [] => none
  | i, (_, some e) :: _ => some (i, e)
  | i, (_, none) :: rest => nextInitializer (i + 1) rest

namespace StatementTask

/-- Asks for an expression. -/
def askExpr (t : StatementTask) (state : StatementState) (e : Expr) : StatementTask × Step :=
  ({ t with state }, .ask (.expression e t.scope))

/-- Asks for a statement. -/
def askStmt (t : StatementTask) (state : StatementState) (s : Stmt) : StatementTask × Step :=
  ({ t with state }, .ask (.statement s t.scope))

/-- Asks for a list of statements in a scope. -/
def askBlock (t : StatementTask) (state : StatementState) (list : List Stmt) (scope : ScopeRef) :
    StatementTask × Step :=
  ({ t with state }, .ask (.block list scope))

/-- The statement ends. -/
def finish (t : StatementTask) (c : Completion) : StatementTask × Step := (t, .finished c)

/-- Asks for the next initial value of a declaration, from position `i` on. -/
def askInitializer (t : StatementTask) (i : Nat) (declarations : List (Pattern × Option Expr)) :
    StatementTask × Step :=
  match nextInitializer i (declarations.drop i) with
  | some (j, e) => t.askExpr (.varInit j) e
  | none => t.finish .empty

def start (t : StatementTask) : StatementTask × Step :=
  match t.stmt with
  | .expr e | .throwValue e | .ret (some e) => t.askExpr .operand e
  | .ret none => t.finish (.returned .undefined)
  | .vars declarations => t.askInitializer 0 declarations
  | .function _ => t.finish .empty
  | .ifThen test _ _ => t.askExpr .ifTest test
  | .block list => t.askBlock .nested list t.scope
  | .whileLoop test _ => t.askExpr .whileTest test
  | .breakLoop => t.finish (.broken none none)
  | .continueLoop => t.finish (.continued none none)
  | .tryCatch block _ _ => t.askBlock .tryBlock block t.scope

/-- Runs the handler of a `try` statement, if the program may see the error. -/
def handle (t : StatementTask) (param : Option String) (handler : List Stmt) (e : Error) :
    Run (StatementTask × Step) := do
  if e.isCatchable then
    let v ← errorToValue e
    let scope ← childScope t.scope
    match param with
    | some name => discard (declare scope name v)
    | none => pure ()
    return t.askBlock .tryHandler handler scope
  else throw e

/-- Goes on after an iteration of a loop. -/
def afterBody (t : StatementTask) (test : Expr) (c : Completion) : StatementTask × Step :=
  match c with
  | .broken none v => t.finish (.normal (v.or t.last))
  | .normal v | .continued none v => { t with last := v.or t.last }.askExpr .whileTest test
  | other => t.finish (other.updateEmpty t.last)

/-- Goes on after a child. -/
def resume (engine : Engine) (t : StatementTask) (outcome : Except Error Completion) :
    Run (StatementTask × Step) :=
  match t.state, t.stmt with
  | .operand, .expr _ => return t.finish (.ofValue (← childValue outcome))
  | .operand, .ret _ => return t.finish (.returned (← childValue outcome))
  | .operand, .throwValue _ => do
    let v ← childValue outcome
    throw (.throw v)
  | .varInit i, .vars declarations => do
    let v ← childValue outcome
    match declarations[i]? with
    | some (target, _) => writePattern engine t.scope target v
    | none => pure ()
    return t.askInitializer (i + 1) declarations
  | .ifTest, .ifThen _ consequent alternate => do
    let v ← childValue outcome
    if ← Run.readHeap fun h => h.truthy v then return t.askStmt .nested consequent
    else
      match alternate with
      | some s => return t.askStmt .nested s
      | none => return t.finish (.ofValue .undefined)
  | .nested, .ifThen _ _ _ => return t.finish ((← outcome).updateEmpty (some .undefined))
  | .nested, _ => return t.finish (← outcome)
  | .whileTest, .whileLoop _ body => do
    let v ← childValue outcome
    if ← Run.readHeap fun h => h.truthy v then return t.askStmt .whileBody body
    else return t.finish (.normal t.last)
  | .whileBody, .whileLoop test _ => return t.afterBody test (← outcome)
  | .tryBlock, .tryCatch _ param handler =>
    match outcome with
    | .ok (.thrown v) => t.handle param handler (.throw v)
    | .ok c => return t.finish c
    | .error e => t.handle param handler e
  | .tryHandler, .tryCatch _ _ _ => return t.finish (← outcome)
  | state, _ => throw (.driverState (.statementResumed state.name))

end StatementTask

end ScriptCore
