import ScriptCore.Number.Binary

/-! # Values and the handles they hold

A handle names an allocation by its slot and by the slot's generation when the allocation was made.
Freeing a slot moves its generation on, so a handle that outlived its allocation can be told from
one to whatever took its place. Four kinds of handle keep the kinds of allocation apart.

A value is one of six kinds; strings and objects are held by handle. Strings are interned, so two
values are the same string exactly when their handles agree. -/

namespace ScriptCore

/-- The slot of an allocation and the slot's generation when it was made. -/
structure Handle where
  index : Nat
  generation : UInt32
deriving DecidableEq, Hashable, Inhabited, Repr

/-- The diagnostic form of a handle. -/
def Handle.describe (h : Handle) : String :=
  "HeapId \x7b index: " ++ toString h.index ++ ", generation: " ++ toString h.generation.toNat ++ " \x7d"

/-- A string's handle. -/
structure StringRef where
  handle : Handle
deriving DecidableEq, Hashable, Inhabited, Repr

/-- The handle of an object: plain, array, arguments, closure or native function. -/
structure ObjectRef where
  handle : Handle
deriving DecidableEq, Hashable, Inhabited, Repr

/-- A lexical scope's handle. -/
structure ScopeRef where
  handle : Handle
deriving DecidableEq, Hashable, Inhabited, Repr

/-- The handle of a property cell. Property maps hold cells by handle, so one cell can back an
entry of two maps. -/
structure CellRef where
  handle : Handle
deriving DecidableEq, Hashable, Inhabited, Repr

/-- A language value. -/
inductive Value where
  | undefined
  | null
  | bool (b : Bool)
  | number (x : Float)
  | string (s : StringRef)
  | object (o : ObjectRef)
deriving DecidableEq, Inhabited

namespace Value

/-- Equality without conversion. Values of different kinds are never equal, numbers compare as
doubles (not-a-number differs from itself, the two zeros agree), objects by identity. -/
def strictEquals : Value → Value → Bool
  | undefined, undefined => true
  | null, null => true
  | bool a, bool b => a == b
  | number a, number b => a == b
  | string a, string b => a == b
  | object a, object b => a == b
  | _, _ => false

/-- Indistinguishability: like `strictEquals`, but not-a-number is the same as itself and the two
zeros differ. -/
def sameValue : Value → Value → Bool
  | number a, number b =>
    if a.isNaN && b.isNaN then true
    else if a == 0.0 && b == 0.0 then a.toBits == b.toBits
    else a == b
  | a, b => a.strictEquals b

/-- `undefined` or `null`. -/
def isNullish : Value → Bool
  | undefined | null => true
  | _ => false

def isObject : Value → Bool
  | object _ => true
  | _ => false

def asObject? : Value → Option ObjectRef
  | object o => some o
  | _ => none

def asNumber? : Value → Option Float
  | number x => some x
  | _ => none

/-- The count `n` as a number value. -/
def ofCount (n : Nat) : Value := number (Number.ofCount n)

/-- The handle that a value keeps alive, if any. -/
def handles : Value → List Handle
  | string s => [s.handle]
  | object o => [o.handle]
  | _ => []

end Value

end ScriptCore
