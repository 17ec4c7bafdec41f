import ScriptCore.Heap.Objects

/-! # The realm: the global object, its scope and the prototypes

A realm is built on an empty heap in a fixed order, so that the slots of its parts are known. Names
that are looked up often are interned once. -/

namespace ScriptCore

/-- Property keys that are looked up often. -/
structure CommonNames where
  length : PropertyKey
  prototype : PropertyKey
  name : PropertyKey
  message : PropertyKey
  callee : PropertyKey
  arguments : PropertyKey
  valueOf : PropertyKey
  toString : PropertyKey

/-- The global object, its scope and the prototypes of the built-in kinds. -/
structure Realm where
  /-- A missing receiver of sloppy code is the global object. -/
  sloppyThisIsGlobal : Bool
  globalObject : ObjectRef
  globalScope : ScopeRef
  objectPrototype : ObjectRef
  functionPrototype : ObjectRef
  arrayPrototype : ObjectRef
  stringPrototype : ObjectRef
  numberPrototype : ObjectRef
  booleanPrototype : ObjectRef
  errorPrototype : ObjectRef
  names : CommonNames

def CommonNames.intern : Proc Heap CommonNames := do
  return {
    length := ← Heap.keyOfName "length"
    prototype := ← Heap.keyOfName "prototype"
    name := ← Heap.keyOfName "name"
    message := ← Heap.keyOfName "message"
    callee := ← Heap.keyOfName "callee"
    arguments := ← Heap.keyOfName "arguments"
    valueOf := ← Heap.keyOfName "valueOf"
    toString := ← Heap.keyOfName "toString" }

namespace Realm

/-- Defines a global that can neither be written nor reconfigured. -/
def defineConstant (global : ObjectRef) (name : String) (v : Value) : Proc Heap Unit := do
  let key ← Heap.keyOfName name
  discard (Heap.define global key (Descriptor.hidden v).readonly.nonConfigurable)

/-- Builds a realm on a heap. -/
def create (sloppyThisIsGlobal : Bool) : Proc Heap Realm := do
  let names ← CommonNames.intern
  let objectPrototype ← Heap.allocObject none .object .ordinary
  let inheriting (tag : ClassTag) := Heap.allocObject (some objectPrototype) tag .ordinary
  let functionPrototype ← inheriting .function
  let arrayPrototype ← inheriting .array
  let stringPrototype ← inheriting (.custom "String")
  let numberPrototype ← inheriting (.custom "Number")
  let booleanPrototype ← inheriting (.custom "Boolean")
  let errorPrototype ← inheriting .error
  let arrayLength ← Heap.allocCell (Descriptor.hidden (.number 0.0)).nonConfigurable
  Heap.installCell arrayPrototype names.length arrayLength
  let errorName ← Heap.internString "Error"
  discard (Heap.define errorPrototype names.name (.hidden (.string errorName)))
  let noText ← Heap.internString ""
  discard (Heap.define errorPrototype names.message (.hidden (.string noText)))
  let globalObject ← inheriting .object
  let globalThis ← Heap.keyOfName "globalThis"
  discard (Heap.define globalObject globalThis (.hidden (.object globalObject)))
  defineConstant globalObject "undefined" .undefined
  defineConstant globalObject "NaN" (.number Number.nan)
  defineConstant globalObject "Infinity" (.number Number.infinity)
  let globalScope ← Heap.allocScope
    { object := globalObject, parent := none, receiver := .object globalObject, writeTo := none,
      strict := false }
  return {
    sloppyThisIsGlobal, globalObject, globalScope, objectPrototype, functionPrototype,
    arrayPrototype, stringPrototype, numberPrototype, booleanPrototype, errorPrototype, names }

/-- The handles that the realm keeps alive. -/
def handles (r : Realm) : List Handle :=
  let n := r.names
  let objects := [r.globalObject, r.objectPrototype, r.functionPrototype, r.arrayPrototype,
    r.stringPrototype, r.numberPrototype, r.booleanPrototype, r.errorPrototype]
  let keys := [n.length, n.prototype, n.name, n.message, n.callee, n.arguments, n.valueOf,
    n.toString]
  r.globalScope.handle :: (objects.map (·.handle) ++ keys.flatMap PropertyKey.handles)

/-- The objects of the realm that have a name of their own. -/
def wellKnown (r : Realm) : List (String × ObjectRef) :=
  [("global", r.globalObject),
    ("Object.prototype", r.objectPrototype),
    ("Function.prototype", r.functionPrototype),
    ("Array.prototype", r.arrayPrototype),
    ("String.prototype", r.stringPrototype),
    ("Number.prototype", r.numberPrototype),
    ("Boolean.prototype", r.booleanPrototype),
    ("Error.prototype", r.errorPrototype)]

/-- The name of an object of the realm. -/
def nameOf? (r : Realm) (o : ObjectRef) : Option String :=
  (r.wellKnown.find? (·.2 == o)).map (·.1)

end Realm

end ScriptCore
