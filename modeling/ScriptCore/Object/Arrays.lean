import ScriptCore.Coercion

/-! # Plain objects and arrays

An array keeps a property `length`, which is neither enumerated nor deleted: writing an element at or
beyond it moves it past the element, and writing a smaller length removes the elements from there
on. -/

namespace ScriptCore

/-- A new object that inherits from the realm's object prototype. -/
def allocPlainObject : Run ObjectRef := do
  let realm ← Run.realm
  Heap.allocObject (some realm.objectPrototype) .object .ordinary

/-- The length property of an array. -/
def lengthDescriptor (n : Nat) : Descriptor := (Descriptor.hidden (.ofCount n)).nonConfigurable

/-- Defines elements from position `i` on. -/
def defineElements (a : ObjectRef) : Nat → List Value → Proc Heap Unit
  | _, [] => pure ()
  | i, v :: vs => do
    discard (Heap.define a (.index i.toUInt32) (.data v))
    defineElements a (i + 1) vs

/-- A new array with the given elements. -/
def allocArray (values : List Value) : Run ObjectRef := do
  let realm ← Run.realm
  let a ← Heap.allocObject (some realm.arrayPrototype) .array .array
  discard (Heap.define a realm.names.length (lengthDescriptor values.length))
  defineElements a 0 values
  return a

/-- The length that an own property holds: a number cut to a 32-bit word, zero if there is none. -/
def Heap.lengthOf (h : Heap) (names : CommonNames) (a : ObjectRef) : Except Error UInt32 := do
  match ← h.ownProperty a names.length with
  | some d =>
    match d.value? with
    | some (.number x) => return x.toUInt32
    | _ => return 0
  | none => return 0

/-- The length of an array. -/
def arrayLength (a : ObjectRef) : Run UInt32 := do
  let names ← Run.names
  Run.readHeap fun h => h.lengthOf names a

/-- Overwrites the length of an array. -/
def writeLength [Heap.Memory] (a : ObjectRef) (n : UInt32) : Run Unit := do
  let names ← Run.names
  match ← Run.readHeap fun h => h.ownCell a names.length with
  | some c => Heap.writeCell c (.ofCount n.toNat)
  | none => discard (Heap.define a names.length (lengthDescriptor n.toNat))

/-- Keeps the length of an array in step after element `i` was written. -/
def noteIndex [Heap.Memory] (a : ObjectRef) (i : UInt32) : Run Unit := do
  if (← arrayLength a) ≤ i then writeLength a (i + 1)

/-- Keeps the length in step if the object is an array and the key an index. -/
def noteKey [Heap.Memory] (o : ObjectRef) (key : PropertyKey) : Run Unit :=
  match key with
  | .index i => do if ← Run.readHeap fun h => h.isArray o then noteIndex o i
  | .string _ => pure ()

/-- The key is an element at or beyond a length. -/
def PropertyKey.isBeyond (n : UInt32) : PropertyKey → Bool
  | .index i => n ≤ i
  | .string _ => false

/-- Sets the length of an array from a value and removes the elements from there on. -/
def setLength [Heap.Memory] (engine : Engine) (a : ObjectRef) (v : Value) : Run Unit := do
  let x ← toNumber engine v
  match Number.wholeBelow? UInt32.size x with
  | some n =>
    let n := n.toUInt32
    Heap.retainKeys a fun key => !key.isBeyond n
    writeLength a n
  | none =>
    let text ← Run.readHeap fun h => h.describe v
    throw (.typeError s!"invalid array length {text}")

end ScriptCore
