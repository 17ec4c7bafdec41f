import ScriptCore.Task.Expression
import ScriptCore.Task.Invocation
import ScriptCore.Task.Statement
import ScriptCore.Task.Statements

/-! # Running tasks

`Task.start` runs a task to its first suspension, `Task.resume` from one suspension to the next. The
task is handed back with its result, also when it failed, so that it may be driven on. -/

namespace ScriptCore.Task

/-- The result of a procedure that hands its task back on success only: a failure leaves the task as
it was. -/
def keeping {τ : Type} (t : τ) (p : Run (τ × Step)) : Run (Except Error Step × τ) := do
  match ← p.attempt with
  | .ok (t, step) => return (.ok step, t)
  | .error e => return (.error e, t)

/-- Runs a task up to its first suspension. -/
def start (engine : Engine) : Task → Run (Except Error Step × Task)
  | .statements t => do
    let (r, t) ← keeping t t.start
    return (r, .statements t)
  | .statement t => do
    let (t, step) := t.start
    return (.ok step, .statement t)
  | .expression t => do
    let (r, t) ← Proc.withOwn t (ExpressionTask.start engine)
    return (r, .expression t)
  | .invocation t => do
    let (r, t) ← t.start engine
    return (r, .invocation t)
  | .settled outcome => return (outcome.map .finished, .settled outcome)

/-- Runs a task from the outcome of its child to the next suspension. -/
def resume (engine : Engine) (outcome : Except Error Completion) :
    Task → Run (Except Error Step × Task)
  | .statements t => do
    let (r, t) ← keeping t (t.resume outcome)
    return (r, .statements t)
  | .statement t => do
    let (r, t) ← keeping t (t.resume engine outcome)
    return (r, .statement t)
  | .expression t => do
    let (r, t) ← Proc.withOwn t (ExpressionTask.resume engine outcome)
    return (r, .expression t)
  | .invocation t => do
    let (r, t) ← t.resume engine outcome
    return (r, .invocation t)
  | .settled fixed => return (fixed.map .finished, .settled fixed)

end ScriptCore.Task
