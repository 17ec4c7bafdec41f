import ScriptCore.Heap.Strings

/-! # Objects and property cells on the heap

These operations look at own properties and prototypes and never run code of the program. An object
maps keys to cells; several maps may share a cell.

* `Heap.setPrototype` refuses a prototype whose chain contains the object or is longer than
  `maxPrototypeChain`.
* `Heap.findProperty` walks a chain of at most `maxPrototypeChain` objects, the object included. -/

namespace ScriptCore

/-- No walk along prototypes follows more objects than this. -/
def maxPrototypeChain : Nat := 10000

namespace Heap

/-! ### Cells -/

def allocCell (d : Descriptor) : Proc Heap CellRef := CellRef.mk <$> alloc (.cell d)

/-- Overwrites what a cell holds; every map that shares the cell sees it. -/
def putCell (c : CellRef) (d : Descriptor) : Proc Heap Unit := modifyCell c fun _ => .ok d

/-- Overwrites the value a cell holds. A cell with accessors has none. -/
def writeCell (c : CellRef) (v : Value) : Proc Heap Unit :=
  modifyCell c fun d =>
    match d.content with
    | .data _ w => .ok { d with content := .data v w }
    | .accessor _ _ => .error .invalidHandle

/-! ### Objects -/

/-- A new object without properties. Its prototype has to be live. -/
def allocObject (prototype : Option ObjectRef) (tag : ClassTag) (kind : ObjectKind) :
    Proc Heap ObjectRef := do
  match prototype with
  | some p => discard (Proc.reads fun h => h.object p)
  | none => pure ()
  return ⟨← alloc (.object ⟨prototype, tag, true, .empty, kind⟩)⟩

def isValidObject (h : Heap) (o : ObjectRef) : Bool := (h.object o).isOk

def tag (h : Heap) (o : ObjectRef) : Except Error ClassTag := return (← h.object o).tag

def isArray (h : Heap) (o : ObjectRef) : Except Error Bool := do
  match (← h.object o).kind with
  | .array => return true
  | _ => return false

def prototype (h : Heap) (o : ObjectRef) : Except Error (Option ObjectRef) :=
  return (← h.object o).prototype

def isExtensible (h : Heap) (o : ObjectRef) : Except Error Bool :=
  return (← h.object o).extensible

def preventExtensions (o : ObjectRef) : Proc Heap Unit :=
  modifyObject o fun obj => { obj with extensible := false }

/-- The chain that starts at `p` is live, does not meet `o` and has at most `bound` members. -/
def checkPrototype (h : Heap) (o : ObjectRef) : Nat → Option ObjectRef → Except Error Unit
  | _, none => .ok ()
  | 0, some _ => .error .prototypeChainTooDeep
  | bound + 1, some p =>
    if p = o then .error .prototypeCycle
    else
      match h.object p with
      | .ok obj => checkPrototype h o bound obj.prototype
      | .error e => .error e

/-- Sets the prototype of an object. -/
def setPrototype (o : ObjectRef) (p : Option ObjectRef) : Proc Heap Unit := do
  discard (Proc.reads fun h => h.object o)
  Proc.reads fun h => h.checkPrototype o maxPrototypeChain p
  modifyObject o fun obj => { obj with prototype := p }

/-! ### Own properties -/

/-- The cell of an own property, if there is one. -/
def ownCell (h : Heap) (o : ObjectRef) (key : PropertyKey) : Except Error (Option CellRef) :=
  return (← h.object o).properties.find? key

/-- An own property, if there is one. -/
def ownProperty (h : Heap) (o : ObjectRef) (key : PropertyKey) :
    Except Error (Option Descriptor) := do
  match ← h.ownCell o key with
  | some c => return some (← h.cell c)
  | none => return none

/-- Whether there is memory for one more property of an object. -/
class Memory where
  grants : Heap → ObjectRef → Bool

/-- Memory never runs short. Code runs so unless another memory is given. -/
instance Memory.ample : Memory where
  grants _ _ := true

/-- Binding a key that the object does not have yet takes memory. -/
def reserve [Memory] (h : Heap) (o : ObjectRef) (key : PropertyKey) : Except Error Unit := do
  let obj ← h.object o
  if (obj.properties.find? key).isNone && !Memory.grants h o then throw .outOfMemory

/-- Binds a key of an object to an existing cell. -/
def installCell [Memory] (o : ObjectRef) (key : PropertyKey) (c : CellRef) : Proc Heap Unit := do
  discard (Proc.reads fun h => h.cell c)
  Proc.reads fun h => h.reserve o key
  modifyObject o fun obj => { obj with properties := obj.properties.insert key c }

/-- Binds a key of an object to a new cell, whatever the object's attributes say. If there is no memory for the key,
the cell is left without a property. -/
def define [Memory] (o : ObjectRef) (key : PropertyKey) (d : Descriptor) : Proc Heap CellRef := do
  discard (Proc.reads fun h => h.object o)
  let c ← allocCell d
  installCell o key c
  return c

/-- Removes a key of an object; `false` if it was not there. The cell stays for others that share
it. -/
def remove (o : ObjectRef) (key : PropertyKey) : Proc Heap Bool := do
  match ← Proc.reads fun h => h.ownCell o key with
  | some _ =>
    modifyObject o fun obj => { obj with properties := obj.properties.erase key }
    return true
  | none => return false

/-- Removes the keys of an object that do not satisfy `p`. -/
def retainKeys (o : ObjectRef) (p : PropertyKey → Bool) : Proc Heap Unit :=
  modifyObject o fun obj => { obj with properties := obj.properties.filter p }

/-- The own keys in order of insertion. -/
def ownKeys (h : Heap) (o : ObjectRef) : Except Error (List PropertyKey) :=
  return (← h.object o).properties.keys

/-- The entry at a position of the own properties. -/
def ownEntry (h : Heap) (o : ObjectRef) (i : Nat) : Except Error (Option (PropertyKey × CellRef)) :=
  return (← h.object o).properties.entry? i

/-! ### Inherited properties -/

/-- The nearest object with the key on the chain from `o`, and its cell, among `bound` objects. -/
def findWithin (h : Heap) (key : PropertyKey) :
    Nat → Option ObjectRef → Except Error (Option (ObjectRef × CellRef))
  | _, none => .ok none
  | 0, some _ => .error .prototypeChainTooDeep
  | bound + 1, some o =>
    match h.object o with
    | .ok obj =>
      match obj.properties.find? key with
      | some c => .ok (some (o, c))
      | none => findWithin h key bound obj.prototype
    | .error e => .error e

/-- The nearest object with the key on the chain from `o`, and its cell. -/
def findProperty (h : Heap) (o : ObjectRef) (key : PropertyKey) :
    Except Error (Option (ObjectRef × CellRef)) :=
  h.findWithin key maxPrototypeChain (some o)

/-- The nearest property with the key on the chain from `o`. -/
def property (h : Heap) (o : ObjectRef) (key : PropertyKey) : Except Error (Option Descriptor) := do
  match ← h.findProperty o key with
  | some (_, c) => return some (← h.cell c)
  | none => return none

/-! ### Functions and scopes -/

/-- The closure that an object is. -/
def closure (h : Heap) (o : ObjectRef) : Except Error Closure := do
  match (← h.object o).kind with
  | .closure c => return c
  | _ => throw .invalidHandle

/-- The value can be called. -/
def isCallable (h : Heap) : Value → Except Error Bool
  | .object o => do
    match (← h.object o).kind with
    | .closure _ | .native _ => return true
    | .ordinary | .array => return false
  | _ => return false

/-- A new scope. Its binding object has to be live. -/
def allocScope (s : Scope) : Proc Heap ScopeRef := do
  discard (Proc.reads fun h => h.object s.object)
  return ⟨← alloc (.scope s)⟩

/-! ### Looking at a value without running code -/

/-- Whether a value counts as true. -/
def truthy (h : Heap) : Value → Except Error Bool
  | .undefined | .null => return false
  | .bool b => return b
  | .number x => return !(x == 0.0) && !x.isNaN
  | .string s => return !(← h.text s).isEmpty
  | .object _ => return true

/-- The name of a value's type. -/
def typeName (h : Heap) : Value → Except Error String
  | .undefined => return "undefined"
  | .null => return "object"
  | .bool _ => return "boolean"
  | .number _ => return "number"
  | .string _ => return "string"
  | .object o => return if ← h.isCallable (.object o) then "function" else "object"

/-- A value as it appears in messages; an object appears by its class. -/
def describe [Number.Printer] (h : Heap) : Value → Except Error String
  | .undefined => return "undefined"
  | .null => return "null"
  | .bool b => return if b then "true" else "false"
  | .number x => return Number.toString x
  | .string s => return (← h.text s).lossy
  | .object o => return "[object " ++ (← h.tag o).name ++ "]"

end Heap

end ScriptCore
