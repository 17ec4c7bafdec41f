import ScriptCore.Object.Write

/-! # Scopes

The bindings of a scope are the own properties of its binding object; what that object inherits is
not consulted. A name is looked up from the innermost scope outwards. Assigning a name that no scope
binds makes a property of the outermost object in sloppy code and fails in strict code. -/

namespace ScriptCore

/-- A new scope inside `parent`, with a binding object of its own and the parent's receiver and
strictness. -/
def childScope (parent : ScopeRef) : Proc Heap ScopeRef := do
  let outer ← Proc.reads fun h => h.scope parent
  let object ← Heap.allocObject none .object .ordinary
  Heap.allocScope
    { object, parent := some parent, receiver := outer.receiver, writeTo := none,
      strict := outer.strict }

def setScopeReceiver (s : ScopeRef) (v : Value) : Proc Heap Unit :=
  Heap.modifyScope s fun sc => { sc with receiver := v }

def setScopeStrict (s : ScopeRef) (strict : Bool) : Proc Heap Unit :=
  Heap.modifyScope s fun sc => { sc with strict }

/-- Sends the declarations of a scope to another object, which has to be live. -/
def setScopeWriteTo (s : ScopeRef) (target : Option ObjectRef) : Proc Heap Unit := do
  match target with
  | some o => discard (Proc.reads fun h => h.object o)
  | none => pure ()
  Heap.modifyScope s fun sc => { sc with writeTo := target }

namespace Heap

def scopeReceiver (h : Heap) (s : ScopeRef) : Except Error Value := return (← h.scope s).receiver

def scopeIsStrict (h : Heap) (s : ScopeRef) : Except Error Bool := return (← h.scope s).strict

/-- A chain of scopes has no more members than the heap has slots. -/
def chainBound (h : Heap) : Nat := h.slots.size + 1

/-- The binding object of the outermost scope of a chain of at most `bound` scopes. -/
def outermostWithin (h : Heap) : Nat → ScopeRef → Except Error ObjectRef
  | 0, _ => .error .invalidHandle
  | bound + 1, s =>
    match h.scope s with
    | .ok sc =>
      match sc.parent with
      | some p => outermostWithin h bound p
      | none => .ok sc.object
    | .error e => .error e

/-- The binding object of the outermost scope. -/
def outermostObject (h : Heap) (s : ScopeRef) : Except Error ObjectRef :=
  h.outermostWithin h.chainBound s

/-- The binding object that holds a key, innermost first, among at most `bound` scopes. -/
def bindingWithin (h : Heap) (key : PropertyKey) :
    Nat → Option ScopeRef → Except Error (Option ObjectRef)
  | _, none => .ok none
  | 0, some _ => .error .invalidHandle
  | bound + 1, some s =>
    match h.scope s with
    | .ok sc =>
      match h.ownCell sc.object key with
      | .ok (some _) => .ok (some sc.object)
      | .ok none => bindingWithin h key bound sc.parent
      | .error e => .error e
    | .error e => .error e

/-- The binding object that holds a key, innermost first. -/
def binding (h : Heap) (s : ScopeRef) (key : PropertyKey) : Except Error (Option ObjectRef) :=
  h.bindingWithin key h.chainBound (some s)

end Heap

/-- Declares a name in a scope with a cell of its own. -/
def declare (s : ScopeRef) (name : String) (v : Value) : Proc Heap CellRef := do
  let target := (← Proc.reads fun h => h.scope s).target
  let key ← Heap.keyOfName name
  Heap.define target key (.declared v)

/-- Declares names one after the other, all `undefined`. -/
def declareAll (s : ScopeRef) : List String → Proc Heap Unit
  | [] => pure ()
  | name :: rest => do
    discard (declare s name .undefined)
    declareAll s rest

/-- Declares a name in a scope with an existing cell. -/
def declareCell (s : ScopeRef) (name : String) (c : CellRef) : Proc Heap Unit := do
  let target := (← Proc.reads fun h => h.scope s).target
  let key ← Heap.keyOfName name
  Heap.installCell target key c

/-- The value of a name. A getter is called with the binding object as the receiver. -/
def lookupName (engine : Engine) (s : ScopeRef) (name : String) : Run Value := do
  let key ← Heap.keyOfName name
  match ← Run.readHeap fun h => h.binding s key with
  | none => throw (.unresolvedReference name)
  | some holder =>
    match ← Run.readHeap fun h => h.ownProperty holder key with
    | none => throw (.unresolvedReference name)
    | some d => readDescriptor engine d (.object holder)

/-- Whether a scope of the chain binds a name. -/
def hasBinding (s : ScopeRef) (name : String) : Run Bool := do
  let key ← Heap.keyOfName name
  return (← Run.readHeap fun h => h.binding s key).isSome

/-- Assigns a value to a name. -/
def assignName (engine : Engine) (s : ScopeRef) (name : String) (v : Value) : Run Unit := do
  let key ← Heap.keyOfName name
  let strict ← Run.readHeap fun h => h.scopeIsStrict s
  match ← Run.readHeap fun h => h.binding s key with
  | some holder => discard (setProperty engine holder key v strict)
  | none =>
    if strict then throw (.unresolvedReference name)
    else
      let outermost ← Run.readHeap fun h => h.outermostObject s
      discard (setProperty engine outermost key v false)

end ScriptCore
