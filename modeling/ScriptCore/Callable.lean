import ScriptCore.ScopeChain

/-! # Making functions, and errors as values

A closure is an object with a prototype object for what it may construct, a name and a length; a
native function has a name and a length. Errors that the program sees, and that it did not throw
itself, become error objects with a name and a message. -/

namespace ScriptCore

/-- Defines the name and the length of a function, which can be reconfigured but not written. -/
def defineFunctionNames (f : ObjectRef) (name : String) (arity : Nat) : Run Unit := do
  let s ← Heap.internString name
  let names ← Run.names
  discard (Heap.define f names.name (Descriptor.hidden (.string s)).readonly)
  discard (Heap.define f names.length (Descriptor.hidden (.ofCount arity)).readonly)

/-- A new closure object. -/
def allocClosureObject (c : Closure) : Run ObjectRef := do
  let realm ← Run.realm
  let f ← Heap.allocObject (some realm.functionPrototype) .function (.closure c)
  let prototype ← allocPlainObject
  discard (Heap.define f realm.names.prototype
    (Descriptor.hidden (.object prototype)).nonConfigurable)
  defineFunctionNames f (c.function.name.getD "") c.function.params.length
  return f

/-- The body is one expression. -/
def Function.isExpression (f : Function) : Bool :=
  match f.body with
  | .block _ => false
  | .expression _ => true

/-- A closure over a function, made in a scope. An arrow function takes the scope's receiver. -/
def allocClosure (f : Function) (s : ScopeRef) : Run ObjectRef := do
  let receiver ← if f.arrow then some <$> Run.readHeap fun h => h.scopeReceiver s else pure none
  allocClosureObject
    { function := f, scope := s, boundScope := none, receiver, returnLastValue := f.isExpression }

/-- A closure over the same function with a receiver or a scope bound to it; what is not given stays
as it was. -/
def bindClosure (f : ObjectRef) (receiver : Option Value) (scope : Option ScopeRef) :
    Run ObjectRef := do
  let c ← Run.readHeap fun h => h.closure f
  allocClosureObject
    { c with receiver := receiver.or c.receiver, boundScope := scope.or c.boundScope }

/-- A function of the host. -/
def allocNative (n : Native) : Run ObjectRef := do
  let realm ← Run.realm
  let f ← Heap.allocObject (some realm.functionPrototype) .function (.native n)
  defineFunctionNames f n.name n.arity
  return f

/-- The name of a function; other objects have none. -/
def Heap.functionName (h : Heap) (f : ObjectRef) : Except Error (Option String) := do
  match (← h.object f).kind with
  | .closure c => return c.function.name
  | .native n => return some n.name
  | .ordinary | .array => return none

/-- The value by which the program sees an error. -/
def errorToValue (e : Error) : Run Value :=
  match e with
  | .throw v => return v
  | e => do
    let realm ← Run.realm
    let o ← Heap.allocObject (some realm.errorPrototype) .error .ordinary
    let name ← Heap.internString e.surfaceName
    let message ← Heap.internString e.message
    discard (Heap.define o realm.names.name (.hidden (.string name)))
    discard (Heap.define o realm.names.message (.hidden (.string message)))
    return .object o

end ScriptCore
