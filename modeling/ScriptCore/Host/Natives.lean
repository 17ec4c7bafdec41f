import ScriptCore.Drive
import ScriptCore.Object.Keys

/-! # Native functions

The functions of the host that a program can be given: printing, conversions, reflection on objects,
and control of the machine itself. Missing arguments are `undefined`. -/

namespace ScriptCore.Natives

/-- The argument at a position. -/
def arg (args : List Value) (i : Nat) : Value := (args[i]?).getD .undefined

/-- The object that an argument has to be. -/
def requireObject (v : Value) : Run ObjectRef :=
  match v with
  | .object o => return o
  | _ => throw (.typeError "object expected")

/-! ### Output -/

/-- Writes a line to the console: its arguments as they look now. -/
def print (args : List Value) : Run Value := do
  modify fun m =>
    let line := args.map (m.heap.picture m.realm 0)
    { m with console := m.console.push line }
  return .undefined

/-- The active calls as text. -/
def trace : Run Value := do
  let text := formatTrace (← get).monitor.trace
  return .string (← Heap.internString text)

/-! ### Calls and errors -/

/-- Calls the first argument with the second as receiver and the others as arguments. -/
def apply (engine : Engine) (args : List Value) : Run Value :=
  engine.call (arg args 0) (arg args 1) (args.drop 2)

/-- Like `apply`, but an error becomes the value by which the program sees it. -/
def tryApply (engine : Engine) (args : List Value) : Run Value := do
  match ← (apply engine args).attempt with
  | .ok v => return v
  | .error e => errorToValue e

/-- Fails with an error of a given kind. -/
def fail (engine : Engine) (args : List Value) : Run Value := do
  let kind ← toLossyString engine (arg args 0)
  let text ← toLossyString engine (arg args 1)
  throw ((Error.ofKind? kind text (arg args 1)).getD (.typeError text))

/-! ### Control of the machine -/

/-- Opens an empty program as the root branch. -/
def start (engine : Engine) : Run Value := do
  let scope := (← Run.realm).globalScope
  engine.start (.program [] scope)
  return .undefined

/-- Makes the innermost frame fail with a type error. -/
def abortWith (engine : Engine) (args : List Value) : Run Value := do
  let text ← toLossyString engine (arg args 0)
  abort (.typeError text)
  return .bool true

/-- Asks for the run to stop. -/
def interrupt : Run Value := do
  modify fun m => { m with monitor := { m.monitor with interrupted := true } }
  return .undefined

/-- Runs a stored program. -/
def execute (stash : List (String × List Stmt)) (engine : Engine) (args : List Value) :
    Run Value := do
  let name ← toLossyString engine (arg args 0)
  match stash.lookup name with
  | some program => engine.execute program
  | none => throw (.typeError "no stashed program")

/-! ### Reflection -/

/-- The string forms of keys. -/
def keyStrings : List PropertyKey → Proc Heap (List Value)
  | [] => return []
  | key :: keys => do
    let s ← Heap.keyToString key
    return .string s :: (← keyStrings keys)

/-- An array of the observable keys of a value. -/
def keys (inherited : Bool) (args : List Value) : Run Value := do
  let realm ← Run.realm
  let keys ← Run.readHeap fun h => h.observableKeys realm (arg args 0) inherited
  let strings ← keyStrings keys
  return .object (← allocArray strings)

/-- A field of a descriptor object, if it has it. -/
def field (engine : Engine) (desc : Value) (name : String) : Run (Option Value) := do
  let key ← Heap.keyOfName name
  if ← hasProperty desc key then return some (← getProperty engine desc key)
  else return none

/-- A field of a descriptor object as a truth value. -/
def flag (engine : Engine) (desc : Value) (name : String) : Run (Option Bool) := do
  match ← field engine desc name with
  | some v => return some (← Run.readHeap fun h => h.truthy v)
  | none => return none

/-- The patch that a descriptor object writes. -/
def readPatch (engine : Engine) (desc : Value) : Run Patch := do
  let enumerable ← flag engine desc "enumerable"
  let configurable ← flag engine desc "configurable"
  let value ← field engine desc "value"
  let writable ← flag engine desc "writable"
  let get ← field engine desc "get"
  let set ← field engine desc "set"
  return { enumerable, configurable, value, writable, get, set }

/-- Defines a property by a descriptor object. -/
def define (engine : Engine) (args : List Value) : Run Value := do
  let o ← requireObject (arg args 0)
  let key ← toPropertyKey engine (arg args 1)
  let patch ← readPatch engine (arg args 2)
  return .bool (← defineProperty o key patch)

/-- The prototype of an object, `null` if it has none. -/
def proto (args : List Value) : Run Value := do
  let o ← requireObject (arg args 0)
  match ← Run.readHeap fun h => h.prototype o with
  | some p => return .object p
  | none => return .null

/-- Sets the prototype of an object; what is no object counts as none. -/
def setProto (args : List Value) : Run Value := do
  let o ← requireObject (arg args 0)
  Heap.setPrototype o (arg args 1).asObject?
  return .object o

/-- Makes an object refuse new properties. -/
def sealObject (args : List Value) : Run Value := do
  let o ← requireObject (arg args 0)
  Heap.preventExtensions o
  return .object o

/-- Binds a receiver to a closure. -/
def bind (args : List Value) : Run Value := do
  let f ← requireObject (arg args 0)
  return .object (← bindClosure f (some (arg args 1)) none)

/-! ### The table -/

/-- The native function with the given entry name; `stash` holds the programs it may run. -/
def run (stash : List (String × List Stmt)) (entry : String) (engine : Engine) (receiver : Value)
    (args : List Value) : Run Value :=
  match entry with
  | "print" => print args
  | "self" => return receiver
  | "first" => return arg args 0
  | "argc" => return .ofCount args.length
  | "str" => return .string (← toStringRef engine (arg args 0))
  | "num" => return .number (← toNumber engine (arg args 0))
  | "trace" => trace
  | "apply" => apply engine args
  | "tryApply" => tryApply engine args
  | "fail" => fail engine args
  | "gc" => do collectGarbage; return .undefined
  | "step" => do discard engine.step; return .undefined
  | "run" => do discard engine.run; return .undefined
  | "start" => start engine
  | "abort" => abortWith engine args
  | "cancel" => do cancel; return .bool true
  | "interrupt" => interrupt
  | "frames" => return .ofCount (← get).frames.size
  | "depth" => return .ofCount (← get).monitor.depth
  | "exec" => execute stash engine args
  | "keys" => keys false args
  | "keysIn" => keys true args
  | "define" => define engine args
  | "proto" => proto args
  | "setProto" => setProto args
  | "seal" => sealObject args
  | "bind" => bind args
  | other => throw (.notCallable other)

end ScriptCore.Natives
