import ScriptCore.Engine

/-! # Reading properties

A property is read from a value or from what the value inherits; a string has its units and its
length as properties of its own. A getter is called with the value itself as the receiver. Asking
whether a property is there never runs code. -/

namespace ScriptCore

/-- Where the properties of a base are looked up. -/
inductive Lookup where
  /-- Nothing can be looked up. -/
  | refused
  /-- The answer is the value itself. -/
  | found (v : Value)
  /-- One unit of a string, which has to be interned. -/
  | unit (u : UInt16)
  /-- A position of a string without a unit. -/
  | missing
  /-- The chain from an object. -/
  | chain (o : ObjectRef)

/-- Where the property `key` of `base` is looked up. -/
def Heap.lookup (h : Heap) (realm : Realm) (base : Value) (key : PropertyKey) :
    Except Error Lookup :=
  match base with
  | .undefined | .null => return .refused
  | .string s =>
    match key with
    | .index i => do
      match (← h.text s).unitAt? i.toNat with
      | some u => return .unit u
      | none => return .missing
    | .string _ =>
      if key = realm.names.length then do return .found (.ofCount (← h.text s).length)
      else return .chain realm.stringPrototype
  | .number _ => return .chain realm.numberPrototype
  | .bool _ => return .chain realm.booleanPrototype
  | .object o => return .chain o

/-- A refusal to use a property of a base that has none. -/
def Heap.baseError (h : Heap) (what : String) (base : Value) (key : PropertyKey) :
    Except Error Error := do
  let name ← h.keyText key
  let value ← h.describe base
  return .typeError s!"cannot {what} property '{name}' of {value}"

/-- Fails because the base has no properties. -/
def refuseBase {α : Type} (what : String) (base : Value) (key : PropertyKey) : Run α := do
  let e ← Run.readHeap fun h => h.baseError what base key
  throw e

/-- The value of a property that was found; a getter is called with the given receiver. -/
def readDescriptor (engine : Engine) (d : Descriptor) (receiver : Value) : Run Value :=
  match d.content with
  | .data v _ => return v
  | .accessor getter _ => do
    if ← Run.readHeap fun h => h.isCallable getter then engine.call getter receiver []
    else return .undefined

/-- Reads the property `key` of `base`. -/
def getProperty (engine : Engine) (base : Value) (key : PropertyKey) : Run Value := do
  let realm ← Run.realm
  match ← Run.readHeap fun h => h.lookup realm base key with
  | .refused => refuseBase "read" base key
  | .found v => return v
  | .unit u => return .string (← Heap.intern ⟨#[u]⟩)
  | .missing => return .undefined
  | .chain o =>
    match ← Run.readHeap fun h => h.property o key with
    | some d => readDescriptor engine d base
    | none => return .undefined

/-- Reads the property that a name is. -/
def getNamed (engine : Engine) (base : Value) (name : String) : Run Value := do
  let key ← Heap.keyOfName name
  getProperty engine base key

/-- Whether the property `key` is visible on `base`; `none` if the base has no properties. -/
def Heap.hasOn (h : Heap) (realm : Realm) (base : Value) (key : PropertyKey) :
    Except Error (Option Bool) :=
  match base with
  | .undefined | .null => return none
  | .string s => do
    let length := (← h.text s).length
    let own : Bool := match key with
      | .index i => i.toNat < length
      | .string _ => key == realm.names.length
    if own then return some true
    else return some (← h.findProperty realm.stringPrototype key).isSome
  | .number _ => return some (← h.findProperty realm.numberPrototype key).isSome
  | .bool _ => return some (← h.findProperty realm.booleanPrototype key).isSome
  | .object o => return some (← h.findProperty o key).isSome

/-- Whether the property `key` is visible on `base`, its own or inherited. -/
def hasProperty (base : Value) (key : PropertyKey) : Run Bool := do
  let realm ← Run.realm
  match ← Run.readHeap fun h => h.hasOn realm base key with
  | some b => return b
  | none => refuseBase "check" base key

end ScriptCore
