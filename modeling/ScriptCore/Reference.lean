import ScriptCore.ScopeChain

/-! # Assignable references

A reference is a place that a value can be written to: a name, a property of a base that is already
evaluated, or a pattern of such places. Resolving a pattern evaluates the bases and computed keys of
its member targets in source order; writing then takes the value apart. -/

namespace ScriptCore

/-- A place that a value can be written to. -/
inductive Reference where
  | binding (scope : ScopeRef) (name : String)
  | property (base : Value) (key : PropertyKey) (strict : Bool)
  | object (properties : List (PropertyKey × Reference))
  | array (elements : List (Option Reference))

/-! ### Writing -/

/-- Array patterns do not match `undefined` and `null`. -/
def requireIterable (v : Value) : Run Unit := do
  if v.isNullish then
    let text ← Run.readHeap fun h => h.describe v
    throw (.typeError s!"{text} is not iterable")

mutual

/-- Writes a value to a reference. -/
def Reference.write (engine : Engine) (v : Value) : Reference → Run Unit
  | .binding scope name => assignName engine scope name v
  | .property base key strict => discard (setMember engine base key v strict)
  | .object properties => writeProperties engine v properties
  | .array elements => do
    requireIterable v
    writeElements engine v 0 elements

/-- Writes the properties of a value to the targets of an object pattern. -/
def writeProperties (engine : Engine) (v : Value) : List (PropertyKey × Reference) → Run Unit
  | [] => pure ()
  | (key, target) :: rest => do
    let item ← getProperty engine v key
    target.write engine item
    writeProperties engine v rest

/-- Writes the elements of a value from position `i` on to the targets of an array pattern. -/
def writeElements (engine : Engine) (v : Value) (i : Nat) : List (Option Reference) → Run Unit
  | [] => pure ()
  | none :: rest => writeElements engine v (i + 1) rest
  | some target :: rest => do
    let item ← getProperty engine v (.index i.toUInt32)
    target.write engine item
    writeElements engine v (i + 1) rest

end

/-! ### Resolving -/

/-- The key of a member target. -/
def resolveKey (engine : Engine) (scope : ScopeRef) : MemberKey → Run PropertyKey
  | .named name => Heap.keyOfName name
  | .computed e => do
    let v := (← engine.evaluate (.expression e scope)).value
    toPropertyKey engine v

mutual

/-- The reference that a pattern is in a scope. -/
def resolvePattern (engine : Engine) (scope : ScopeRef) : Pattern → Run Reference
  | .ident name => return .binding scope name
  | .member base key => do
    let v := (← engine.evaluate (.expression base scope)).value
    let k ← resolveKey engine scope key
    return .property v k (← Run.readHeap fun h => h.scopeIsStrict scope)
  | .object properties => return .object (← resolveProperties engine scope properties)
  | .array elements => return .array (← resolveElements engine scope elements)

/-- The targets of an object pattern with their keys. -/
def resolveProperties (engine : Engine) (scope : ScopeRef) :
    List (String × Pattern) → Run (List (PropertyKey × Reference))
  | [] => return []
  | (name, target) :: rest => do
    let key ← Heap.keyOfName name
    let r ← resolvePattern engine scope target
    return (key, r) :: (← resolveProperties engine scope rest)

/-- The targets of an array pattern. -/
def resolveElements (engine : Engine) (scope : ScopeRef) :
    List (Option Pattern) → Run (List (Option Reference))
  | [] => return []
  | none :: rest => return none :: (← resolveElements engine scope rest)
  | some target :: rest => do
    let r ← resolvePattern engine scope target
    return some r :: (← resolveElements engine scope rest)

end

/-- Resolves a pattern and writes a value to it. -/
def writePattern (engine : Engine) (scope : ScopeRef) (target : Pattern) (v : Value) : Run Unit := do
  let r ← resolvePattern engine scope target
  r.write engine v

end ScriptCore
