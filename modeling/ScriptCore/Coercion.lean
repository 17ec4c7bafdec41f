import ScriptCore.Number.Literal
import ScriptCore.Object.Read

/-! # Conversion of values

An object is converted by its own methods: the value method first, the text method second, the other
way round where text is preferred. The first that can be called and gives a primitive decides; an
object with neither is converted to its description. From a primitive the rest is a table. -/

namespace ScriptCore

/-- Which primitive a conversion prefers. -/
inductive Hint where
  | default
  | number
  | string
deriving DecidableEq, Inhabited, Repr

/-- Tries the methods under the keys in turn; `tried` says that one could be called before. -/
def convertBy [Number.Printer] (engine : Engine) (v : Value) : List PropertyKey → (tried : Bool) → Run Value
  | [], tried => do
    let text ← Run.readHeap fun h => h.describe v
    if tried then throw (.typeCoercion text)
    else return .string (← Heap.internString text)
  | key :: keys, tried => do
    let method ← getProperty engine v key
    if ← Run.readHeap fun h => h.isCallable method then
      let result ← engine.call method v []
      if result.isObject then convertBy engine v keys true else return result
    else convertBy engine v keys tried

/-- The primitive that a value converts to. -/
def toPrimitive [Number.Printer] (engine : Engine) (v : Value) (hint : Hint) : Run Value :=
  match v with
  | .object _ => do
    let names ← Run.names
    let order := match hint with
      | .string => [names.toString, names.valueOf]
      | .default | .number => [names.valueOf, names.toString]
    convertBy engine v order false
  | v => return v

/-- The number of a primitive. -/
def Heap.numberOf (h : Heap) : Value → Except Error Float
  | .undefined => return Number.nan
  | .null => return 0.0
  | .bool b => return if b then 1.0 else 0.0
  | .number x => return x
  | .string s => return Number.ofString (← h.text s).lossy
  | .object _ => return Number.nan

/-- The number that a value converts to. -/
def toNumber (engine : Engine) (v : Value) : Run Float :=
  match v with
  | .object _ => do
    let p ← toPrimitive engine v .number
    Run.readHeap fun h => h.numberOf p
  | v => Run.readHeap fun h => h.numberOf v

/-- The string of a primitive. -/
def Heap.stringOf [Number.Printer] : Value → Proc Heap StringRef
  | .undefined => internString "undefined"
  | .null => internString "null"
  | .bool true => internString "true"
  | .bool false => internString "false"
  | .number x => internString (Number.toString x)
  | .string s => pure s
  | .object _ => throw .invalidHandle

/-- The string that a value converts to. -/
def toStringRef [Number.Printer] (engine : Engine) (v : Value) : Run StringRef :=
  match v with
  | .object _ => do
    let p ← toPrimitive engine v .string
    Heap.stringOf p
  | v => Heap.stringOf v

/-- The text that a value converts to, unpaired surrogates replaced. -/
def toLossyString (engine : Engine) (v : Value) : Run String := do
  let s ← toStringRef engine v
  return (← Run.readHeap fun h => h.text s).lossy

/-- The property key that a value converts to. A number that is an index becomes it directly. -/
def toPropertyKey [Number.Printer] (engine : Engine) (v : Value) : Run PropertyKey :=
  match v with
  | .number x =>
    match arrayIndexOfNumber? x with
    | some i => return .index i
    | none => do
      let s ← Heap.internString (Number.toString x)
      Run.readHeap fun h => h.keyOfString s
  | .string s => Run.readHeap fun h => h.keyOfString s
  | v => do
    let s ← toStringRef engine v
    Run.readHeap fun h => h.keyOfString s

end ScriptCore
