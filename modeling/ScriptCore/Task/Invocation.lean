import ScriptCore.Callable
import ScriptCore.Reference

/-! # Running calls of closures

A call sets up its scope, declares the closure's own name, the variables and, in sloppy code, the
names of nested functions, builds the arguments object, binds the parameters, and evaluates the body.
It waits for the default of a parameter whose argument is missing.

In sloppy code a simple parameter and its argument share one cell, so writing either writes both; in
strict code they are separate. -/

namespace ScriptCore

namespace InvocationTask

/-- A call of a closure that has not started. -/
def prepare (f : ObjectRef) (receiver : Value) (args : List Value) (callerScope : ScopeRef)
    (extra : CallExtra) : Run InvocationTask := do
  let closure ← Run.readHeap fun h => h.closure f
  discard (Run.readHeap fun h => h.scope callerScope)
  return {
    callee := f, closure, receiver, args, callerScope, extra, state := .created, scope := none,
    strict := false, argCells := [] }

/-! ### Setting up -/

/-- The scope of the call, and the receiver before a missing one is replaced. -/
def openScope (t : InvocationTask) : Run (ScopeRef × Value) := do
  match t.closure.boundScope with
  | some bound =>
    let scope ← childScope bound
    let object := (← Run.readHeap fun h => h.scope bound).object
    setScopeWriteTo scope (some object)
    match t.closure.receiver with
    | some receiver => return (scope, receiver)
    | none => return (scope, ← Run.readHeap fun h => h.scopeReceiver bound)
  | none =>
    let scope ← childScope t.closure.scope
    return (scope, t.closure.receiver.getD t.receiver)

/-- The receiver that the body sees: sloppy code sees the global object for a missing one, if the
realm says so. -/
def bodyReceiver (t : InvocationTask) (strict : Bool) (receiver : Value) : Run Value := do
  let realm ← Run.realm
  if !strict && receiver.isNullish && realm.sloppyThisIsGlobal then
    return .object (← Run.readHeap fun h => h.outermostObject t.callerScope)
  else return receiver

/-- Makes a cell for each argument from position `i` on, and an element of the arguments object: the
cell itself in sloppy code, a copy in strict code. -/
def fillArguments (engine : Engine) (arguments : ObjectRef) (strict : Bool) :
    Nat → List Value → Run (List CellRef)
  | _, [] => return []
  | i, v :: vs => do
    let c ← Heap.allocCell (.data v)
    let key := PropertyKey.index i.toUInt32
    if strict then discard (setProperty engine arguments key v true)
    else Heap.installCell arguments key c
    return c :: (← fillArguments engine arguments strict (i + 1) vs)

/-- The arguments, with `undefined` for the parameters that have none. -/
def paddedArgs (t : InvocationTask) : List Value :=
  t.args ++ List.replicate (t.closure.function.params.length - t.args.length) .undefined

/-- The arguments object and the cells of the arguments. -/
def allocArguments (engine : Engine) (t : InvocationTask) (strict : Bool) :
    Run (ObjectRef × List CellRef) := do
  let realm ← Run.realm
  let arguments ← Heap.allocObject (some realm.objectPrototype) .arguments .ordinary
  let cells ← fillArguments engine arguments strict 0 t.paddedArgs
  if !strict then
    discard (Heap.define arguments realm.names.callee (.hidden (.object t.callee)))
  discard (Heap.define arguments realm.names.length (.hidden (.ofCount t.args.length)))
  return (arguments, cells)

/-- Declares the closure's own name, its variables and, in sloppy code, the names of the functions
declared in it. -/
def declareNames (t : InvocationTask) (scope : ScopeRef) (strict : Bool) : Run Unit := do
  let f := t.closure.function
  match f.name with
  | some name => discard (declare scope name (.object t.callee))
  | none => pure ()
  declareAll scope f.vars
  if !strict then declareAll scope (f.functions.filterMap (·.name))

/-- Sets up the scope of the call. -/
def setUp (engine : Engine) (t : InvocationTask) : Run InvocationTask := do
  let (scope, receiver) ← t.openScope
  if t.closure.function.strict then setScopeStrict scope true
  let strict ← Run.readHeap fun h => h.scopeIsStrict scope
  let receiver ← t.bodyReceiver strict receiver
  setScopeReceiver scope receiver
  t.declareNames scope strict
  let (arguments, argCells) ← t.allocArguments engine strict
  let names ← Run.names
  let target := (← Run.readHeap fun h => h.scope scope).target
  discard (Heap.define target names.arguments (.declared (.object arguments)))
  return { t with scope := some scope, strict, argCells }

/-! ### Parameters and body -/

/-- The scope of the call, which has to be set up. -/
def callScope (t : InvocationTask) : Except Error ScopeRef :=
  match t.scope with
  | some s => .ok s
  | none => .error (.driverState .scopeNotSetUp)

/-- Binds a simple parameter: to the cell of its argument in sloppy code, to a cell of its own in
strict code. -/
def bindSimple (t : InvocationTask) (scope : ScopeRef) (index : Nat) (name : String) (v : Value) :
    Run Unit :=
  if t.strict then discard (declare scope name v)
  else
    match t.argCells[index]? with
    | some c => declareCell scope name c
    | none => throw (.invocation s!"missing argument slot {index}")

/-- Asks for the body. -/
def askBody (t : InvocationTask) (scope : ScopeRef) : Run (InvocationTask × Step) := do
  let f := t.closure.function
  let node := match f.body with
    | .block statements => BranchNode.statements statements
    | .expression e => BranchNode.expression e
  let debug ← Run.isDebug
  let options : BranchOptions :=
    { returnLastValue := t.closure.returnLastValue
      creator := some t.callee
      profileName := if debug then t.extra.profileName else none
      callee := t.extra.callee
      yieldPower := if f.quiet then some (-1) else none }
  return ({ t with state := .bodyEvaluating }, .ask { kind := .function, node, scope, options })

/-- Asks for the default of a parameter. -/
def askDefault (t : InvocationTask) (scope : ScopeRef) (index : Nat) (e : Expr) :
    InvocationTask × Step :=
  ({ t with state := .paramBinding index }, .ask (.expression e scope))

/-- Binds parameters from position `index` on, as far as no default has to be evaluated. A rest
parameter takes all arguments that are left, and what follows it is not bound. -/
def bindParams (engine : Engine) (t : InvocationTask) (scope : ScopeRef) :
    Nat → List Param → Run (InvocationTask × Step)
  | _, [] => t.askBody scope
  | index, .rest name :: _ => do
    let rest ← allocArray (t.args.drop index)
    discard (declare scope name (.object rest))
    t.askBody scope
  | index, .simple name default :: params => do
    match t.args[index]?, default with
    | none, some e => return t.askDefault scope index e
    | v, _ =>
      t.bindSimple scope index name (v.getD .undefined)
      bindParams engine t scope (index + 1) params
  | index, .pattern target default :: params => do
    declareAll scope target.boundNames
    match t.args[index]?, default with
    | none, some e => return t.askDefault scope index e
    | v, _ =>
      writePattern engine scope target (v.getD .undefined)
      bindParams engine t scope (index + 1) params

/-- Binds a parameter to its default and goes on with those after it. -/
def bindDefault (engine : Engine) (t : InvocationTask) (index : Nat) (v : Value) :
    Run (InvocationTask × Step) := do
  let scope ← t.callScope
  match t.argCells[index]? with
  | some c => Heap.writeCell c v
  | none => pure ()
  let params := t.closure.function.params
  match params[index]? with
  | some (.simple name _) => t.bindSimple scope index name v
  | some (.pattern target _) => writePattern engine scope target v
  | some (.rest _) | none => throw (.invocation s!"parameter {index} has no default")
  bindParams engine t scope (index + 1) (params.drop (index + 1))

/-- The value that the completion of the body gives the call. -/
def bodyValue : Completion → Except Error Value
  | .returned v => .ok v
  | .normal v => .ok (v.getD .undefined)
  | .thrown v => .error (.throw v)
  | .broken _ _ => .error (.invocation "break escaped a function body")
  | .continued _ _ => .error (.invocation "continue escaped a function body")

/-! ### Start and resume -/

/-- Records how the call ended, if it did. -/
def settle (t : InvocationTask) (p : Run (InvocationTask × Step)) :
    Run (Except Error Step × InvocationTask) := do
  match ← p.attempt with
  | .error e => return (.error e, { t with state := .thrown })
  | .ok (t, .finished c) => return (.ok (.finished c), { t with state := .returned })
  | .ok (t, step) => return (.ok step, t)

def start (engine : Engine) (t : InvocationTask) : Run (Except Error Step × InvocationTask) :=
  if t.state = .created then
    settle t do
      let t ← { t with state := .invoking }.setUp engine
      let scope ← t.callScope
      bindParams engine t scope 0 t.closure.function.params
  else return (.error (.driverState .startedTwice), t)

/-- Goes on after the default of a parameter or after the body. -/
def resume (engine : Engine) (t : InvocationTask) (outcome : Except Error Completion) :
    Run (Except Error Step × InvocationTask) :=
  settle t do
    let completion ← outcome
    match t.state with
    | .paramBinding index => bindDefault engine t index completion.value
    | .bodyEvaluating => return (t, .value (← bodyValue completion))
    | state => throw (.driverState (.invocationResumed state.name))

end InvocationTask

end ScriptCore
