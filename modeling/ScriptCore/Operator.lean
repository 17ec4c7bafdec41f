import ScriptCore.Coercion
import ScriptCore.Syntax.Basic

/-! # Operators on evaluated operands

Equality with conversion, addition, comparison and the other binary operators. Operands are
converted in the order that each operator states; `>` and `<=` are comparisons with the operands
exchanged, so they convert the right operand first. -/

namespace ScriptCore

/-! ### Equality with conversion -/

/-- Rounds of loose equality. Each one answers or converts one operand to a simpler kind. -/
def looseRounds (engine : Engine) : Nat → Value → Value → Run Bool
  | 0, _, _ => return false
  | rounds + 1, a, b =>
    match a, b with
    | .undefined, .undefined | .null, .null => return true
    | .bool x, .bool y => return x == y
    | .number x, .number y => return x == y
    | .string x, .string y => return x == y
    | .object x, .object y => return x == y
    | .undefined, .null | .null, .undefined => return true
    | .number _, .string _ => do looseRounds engine rounds a (.number (← toNumber engine b))
    | .string _, .number _ => do looseRounds engine rounds (.number (← toNumber engine a)) b
    | .bool _, _ => do looseRounds engine rounds (.number (← toNumber engine a)) b
    | _, .bool _ => do looseRounds engine rounds a (.number (← toNumber engine b))
    | .object _, .string y => do
      match ← toPrimitive engine a .string with
      | .string x => return x == y
      | p => looseRounds engine rounds p b
    | .string x, .object _ => do
      match ← toPrimitive engine b .string with
      | .string y => return x == y
      | p => looseRounds engine rounds a p
    | .object _, .number _ => do looseRounds engine rounds (← toPrimitive engine a .default) b
    | .number _, .object _ => do looseRounds engine rounds a (← toPrimitive engine b .default)
    | _, _ => return false

/-- Equality with conversion. Four rounds are always enough. -/
def looseEquals (engine : Engine) (a b : Value) : Run Bool := looseRounds engine 4 a b

/-! ### Addition -/

/-- The string with the contents of two strings, one after the other. -/
def concat (a b : StringRef) : Run StringRef := do
  let x ← Run.readHeap fun h => h.text a
  let y ← Run.readHeap fun h => h.text b
  Heap.intern (x ++ y)

/-- A string followed by any value as text. -/
def stringAdd (engine : Engine) (s : StringRef) (v : Value) : Run StringRef := do
  let p ← toPrimitive engine v .string
  let t ← toStringRef engine p
  concat s t

/-- Addition: of text if either primitive is a string, of numbers otherwise. -/
def addValues (engine : Engine) (a b : Value) : Run Value := do
  let a ← toPrimitive engine a .default
  let b ← toPrimitive engine b .default
  match a, b with
  | .string s, other => return .string (← stringAdd engine s other)
  | other, .string s => do
    let t ← toStringRef engine other
    return .string (← concat t s)
  | a, b => do
    let x ← toNumber engine a
    let y ← toNumber engine b
    return .number (x + y)

/-! ### Comparison -/

/-- Whether `a` is below `b`; `none` if either is not-a-number. Two strings compare by unit. -/
def lessThan (engine : Engine) (a b : Value) : Run (Option Bool) := do
  let a ← toPrimitive engine a .number
  let b ← toPrimitive engine b .number
  match a, b with
  | .string s, .string t => do
    let x ← Run.readHeap fun h => h.text s
    let y ← Run.readHeap fun h => h.text t
    return some (x.lt y)
  | a, b => do
    let x ← toNumber engine a
    let y ← toNumber engine b
    if x.isNaN || y.isNaN then return none else return some (x < y)

/-- A numeric operator: the left operand is converted first. -/
def arithmetic (engine : Engine) (f : Float → Float → Float) (a b : Value) : Run Value := do
  let x ← toNumber engine a
  let y ← toNumber engine b
  return .number (f x y)

/-- Applies a binary operator. -/
def applyBinary (engine : Engine) (op : BinaryOp) (a b : Value) : Run Value :=
  match op with
  | .add => addValues engine a b
  | .sub => arithmetic engine (· - ·) a b
  | .mul => arithmetic engine (· * ·) a b
  | .div => arithmetic engine (· / ·) a b
  | .rem => arithmetic engine Number.remainder a b
  | .looseEq => return .bool (← looseEquals engine a b)
  | .looseNotEq => return .bool !(← looseEquals engine a b)
  | .strictEq => return .bool (a.strictEquals b)
  | .strictNotEq => return .bool !(a.strictEquals b)
  | .lt => return .bool ((← lessThan engine a b) == some true)
  | .gt => return .bool ((← lessThan engine b a) == some true)
  | .ltEq => return .bool ((← lessThan engine b a) == some false)
  | .gtEq => return .bool ((← lessThan engine a b) == some false)
  | .isIn => do
    let key ← toPropertyKey engine a
    if b.isObject then return .bool (← hasProperty b key)
    else
      let text ← Run.readHeap fun h => h.describe b
      throw (.typeError s!"cannot use 'in' to search for a key in {text}")

end ScriptCore
