import ScriptCore.Object.Arrays

/-! # Writing, defining and deleting properties

A write goes to an own property in place, to a setter, or makes a new own property; a property that
is read-only, wherever it is found, refuses it. A refused write or deletion is silent in sloppy code
and an error in strict code. Defining is stricter about attributes and runs no code. -/

namespace ScriptCore

/-- The answer to a refused write: an error in strict code only. -/
def refuseWrite (key : PropertyKey) (strict : Bool) : Run Bool := do
  if strict then
    let name ← Run.readHeap fun h => h.keyText key
    throw (.propertyAccess name)
  else return false

/-- Makes a new own property, if the object takes any. -/
def createOwn [Heap.Memory] (o : ObjectRef) (key : PropertyKey) (v : Value) (strict : Bool) : Run Bool := do
  if ← Run.readHeap fun h => h.isExtensible o then
    discard (Heap.define o key (.data v))
    noteKey o key
    return true
  else refuseWrite key strict

/-- The own property with the key may be written; a missing one may. -/
def Heap.ownWritable (h : Heap) (o : ObjectRef) (key : PropertyKey) : Except Error Bool := do
  match ← h.ownProperty o key with
  | some d => return d.isWritable
  | none => return true

/-- Writes a property of an object that is not the length of an array. -/
def setOrdinary [Heap.Memory] (engine : Engine) (o : ObjectRef) (key : PropertyKey) (v : Value) (strict : Bool) :
    Run Bool := do
  match ← Run.readHeap fun h => h.findProperty o key with
  | none => createOwn o key v strict
  | some (holder, c) =>
    let d ← Run.readHeap fun h => h.cell c
    match d.content with
    | .data _ false => refuseWrite key strict
    | .data _ true =>
      if holder = o then
        Heap.writeCell c v
        return true
      else createOwn o key v strict
    | .accessor _ setter =>
      if ← Run.readHeap fun h => h.isCallable setter then
        discard (engine.call setter (.object o) [v])
        return true
      else refuseWrite key strict

/-- Writes a property of an object; the answer is whether the write took effect. -/
def setProperty [Heap.Memory] (engine : Engine) (o : ObjectRef) (key : PropertyKey) (v : Value) (strict : Bool) :
    Run Bool := do
  let names ← Run.names
  if (← Run.readHeap fun h => h.isArray o) && key = names.length then
    if ← Run.readHeap fun h => h.ownWritable o key then
      setLength engine o v
      return true
    else refuseWrite key strict
  else setOrdinary engine o key v strict

/-- Writes a property of any value. -/
def setMember [Heap.Memory] (engine : Engine) (base : Value) (key : PropertyKey) (v : Value) (strict : Bool) :
    Run Bool :=
  match base with
  | .object o => setProperty engine o key v strict
  | .undefined | .null => refuseBase "set" base key
  | .bool _ | .number _ | .string _ => refuseWrite key strict

/-- Defines or reconfigures an own property; `false` if the object or the property refuses. -/
def defineProperty [Heap.Memory] (o : ObjectRef) (key : PropertyKey) (p : Patch) : Run Bool := do
  p.validate
  match ← Run.readHeap fun h => h.ownCell o key with
  | some c =>
    let d ← Run.readHeap fun h => h.cell c
    if !d.configurable && p.conflicts d then return false
    else
      Heap.putCell c (p.applyTo d)
      noteKey o key
      return true
  | none =>
    if ← Run.readHeap fun h => h.isExtensible o then
      discard (Heap.define o key p.toDescriptor)
      noteKey o key
      return true
    else return false

/-- Deletes an own property, unless it is not configurable or a variable. -/
def deleteProperty (o : ObjectRef) (key : PropertyKey) (strict : Bool) : Run Bool := do
  match ← Run.readHeap fun h => h.ownProperty o key with
  | none => return true
  | some d =>
    if !d.configurable || d.isVariable then refuseWrite key strict
    else
      discard (Heap.remove o key)
      return true

end ScriptCore
