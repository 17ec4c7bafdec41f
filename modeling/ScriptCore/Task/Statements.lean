import ScriptCore.Callable
import ScriptCore.Reference

/-! # Running lists of statements

Before its first statement a list hoists: a program declares its variables, unless they are bound
already, and every list binds the closures of its own function declarations. The statements then run
in order until one completes abruptly; the list ends with the last value that a statement had. -/

namespace ScriptCore

/-- Declares variables that the target does not bind yet. -/
def hoistVariables (scope : ScopeRef) (target : ObjectRef) : List String → Proc Heap Unit
  | [] => pure ()
  | name :: rest => do
    let key ← Heap.keyOfName name
    match ← Proc.reads fun h => h.ownCell target key with
    | some _ => pure ()
    | none => discard (declare scope name .undefined)
    hoistVariables scope target rest

/-- Binds the closure of a declared function: in the cell of its name, or in a new one. -/
def hoistFunction (scope : ScopeRef) (target : ObjectRef) (f : Function) (name : String) :
    Run Unit := do
  let closure ← allocClosure f scope
  let key ← Heap.keyOfName name
  match ← Run.readHeap fun h => h.ownCell target key with
  | some c => Heap.writeCell c (.object closure)
  | none => discard (declare scope name (.object closure))

/-- Binds the closures of the functions that the statements themselves declare. -/
def hoistFunctions (scope : ScopeRef) (target : ObjectRef) : List Stmt → Run Unit
  | [] => pure ()
  | .function f :: rest => do
    match f.name with
    | some name => hoistFunction scope target f name
    | none => pure ()
    hoistFunctions scope target rest
  | _ :: rest => hoistFunctions scope target rest

namespace StatementsTask

/-- What happens before the first statement. -/
def hoist (t : StatementsTask) : Run Unit := do
  let target := (← Run.readHeap fun h => h.scope t.scope).target
  if t.kind = .program then hoistVariables t.scope target (variableNames t.statements)
  hoistFunctions t.scope target t.statements

/-- How the list ends when no statement was abrupt. A function body has no value of its own, unless
it was asked for. -/
def ending (t : StatementsTask) : Completion :=
  if t.kind = .function && !t.options.returnLastValue then .empty else .normal t.last

/-- Asks for the next statement, or ends. -/
def advance (t : StatementsTask) : StatementsTask × Step :=
  match t.rest with
  | s :: rest => ({ t with rest }, .ask (.statement s t.scope))
  | [] => (t, .finished t.ending)

def start (t : StatementsTask) : Run (StatementsTask × Step) := do
  t.hoist
  return t.advance

/-- Goes on after a statement. -/
def resume (t : StatementsTask) (outcome : Except Error Completion) :
    Run (StatementsTask × Step) := do
  let completion := (← outcome).updateEmpty t.last
  if completion.isAbrupt then return (t, .finished completion)
  else return { t with last := completion.value? }.advance

end StatementsTask

end ScriptCore
