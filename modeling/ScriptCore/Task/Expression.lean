import ScriptCore.Callable
import ScriptCore.Operator
import ScriptCore.Reference

/-! # Running expressions

An expression queues its operands in source order, asks for them one after the other, and combines
their values when none is left. A member call looks its callee up before it asks for arguments; the
right side of a logical operator is asked for only if the left side does not decide.

The task's own state is kept also when combining fails: values already delivered stay. -/

namespace ScriptCore

namespace Expr

/-- The operands of a member access: the object, and the key if it is computed. -/
def memberOperands (base : Expr) : MemberKey → List Expr
  | .named _ => [base]
  | .computed key => [base, key]

/-- The operands that an expression asks for first. -/
def operands : Expr → List Expr
  | .array elements => elements
  | .object properties => properties.map (·.2)
  | .member base key => memberOperands base key
  | .assign (.member base key) value => memberOperands base key ++ [value]
  | .assign _ value => [value]
  | .call (.member base key) _ => memberOperands base key
  | .call callee args => callee :: args
  | .binary _ left right => [left, right]
  | .logical _ left _ => [left]
  | .unary .delete (.member base key) => memberOperands base key
  | .unary _ operand => [operand]
  | _ => []

end Expr

namespace ExpressionTask

/-- A procedure over the machine and the state of an expression. -/
abbrev ExprRun (α : Type) : Type := Proc (ExpressionTask × Machine) α

/-- The value of an operand, `undefined` if it has none yet. -/
def operand (t : ExpressionTask) (i : Nat) : Value := (t.values[i]?).getD .undefined

/-- Asks for an operand. -/
def ask (t : ExpressionTask) (e : Expr) : Step := .ask (.expression e t.scope)

/-- The key of a member access whose operands have their values. -/
def memberKey (engine : Engine) (t : ExpressionTask) : MemberKey → Run PropertyKey
  | .named name => Heap.keyOfName name
  | .computed _ => toPropertyKey engine (t.operand 1)

/-- Writes the properties of an object literal. -/
def writeLiteral (engine : Engine) (o : ObjectRef) : List (String × Expr) → List Value → Run Unit
  | (name, _) :: properties, v :: values => do
    let key ← Heap.keyOfName name
    discard (setProperty engine o key v true)
    writeLiteral engine o properties values
  | _, _ => pure ()

/-- Asks for the call itself; the values are the arguments. -/
def askCall (callee : Expr) : ExprRun Step := do
  let t ← Proc.own
  if ← Run.readHeap fun h => h.isCallable t.callee then
    let debug ← Run.isDebug
    Proc.setOwn { t with phase := .awaitCall, values := [] }
    return .suspended (.call
      { callee := t.callee
        receiver := t.receiver
        args := t.values
        scope := t.scope
        extra := {
          profileName := if debug then callee.sourceName else none
          callee := some t.callee } })
  else throw (.notCallable (callee.sourceName.getD "expression"))

/-- The callee and the receiver of a call are known, and the values are dropped; asks for the first
argument, or for the call if there is none. -/
def askArguments (callee : Expr) (args : List Expr) : ExprRun Step := do
  match args with
  | [] => askCall callee
  | e :: rest =>
    let t ← Proc.own
    Proc.setOwn { t with pending := rest }
    return t.ask e

/-- Applies a unary operator to the value of its operand. -/
def unary (engine : Engine) (t : ExpressionTask) (op : UnaryOp) (operand : Expr) : Run Value := do
  let v := t.operand 0
  match op with
  | .not => return .bool !(← Run.readHeap fun h => h.truthy v)
  | .neg => return .number (-(← toNumber engine v))
  | .plus => return .number (← toNumber engine v)
  | .void => return .undefined
  | .typeOf =>
    let name ← Run.readHeap fun h => h.typeName v
    return .string (← Heap.internString name)
  | .delete =>
    match operand with
    | .member _ key =>
      let key ← memberKey engine t key
      match v with
      | .object o =>
        let strict ← Run.readHeap fun h => h.scopeIsStrict t.scope
        return .bool (← deleteProperty o key strict)
      | .undefined | .null =>
        let text ← Run.readHeap fun h => h.describe v
        throw (.typeError s!"cannot delete property of {text}")
      | _ => return .bool true
    | _ => return .bool true

/-- Writes the value of an assignment to its target. -/
def assignTo (engine : Engine) (t : ExpressionTask) (target : Pattern) (v : Value) : Run Unit := do
  match target with
  | .member _ key =>
    let key ← memberKey engine t key
    let strict ← Run.readHeap fun h => h.scopeIsStrict t.scope
    discard (setMember engine (t.operand 0) key v strict)
  | target => writePattern engine t.scope target v

/-- Combines the values of the operands; none is pending. -/
def combine (engine : Engine) : ExprRun Step := do
  let t ← Proc.own
  match t.expr, t.phase with
  | .array _, _ => return .value (.object (← allocArray t.values))
  | .object properties, _ => do
    let o ← allocPlainObject
    writeLiteral engine o properties t.values
    return .value (.object o)
  | .member _ key, _ => do
    let key ← memberKey engine t key
    return .value (← getProperty engine (t.operand 0) key)
  | .assign target _, _ => do
    let v := t.values.getLast?.getD .undefined
    assignTo engine t target v
    return .value v
  | .call callee args, .operands =>
    match callee with
    | .member _ key => do
      let key ← memberKey engine t key
      let receiver := t.operand 0
      let f ← getProperty engine receiver key
      Proc.setOwn { t with receiver, callee := f, values := [], phase := .callArgs }
      askArguments callee args
    | _ => do
      Proc.setOwn { t with callee := t.operand 0, values := t.values.tail }
      askCall callee
  | .call callee _, .callArgs => askCall callee
  | .binary op _ _, _ => return .value (← applyBinary engine op (t.operand 0) (t.operand 1))
  | .logical op _ right, .operands => do
    let left := t.operand 0
    let truthy ← Run.readHeap fun h => h.truthy left
    let decided := match op with
      | .and => !truthy
      | .or => truthy
    if decided then return .value left
    else
      Proc.setOwn { t with phase := .logicalRight }
      return t.ask right
  | .logical _ _ _, .logicalRight => return .value (t.operand 1)
  | .unary op operand, _ => return .value (← unary engine t op operand)
  | _, phase => throw (.driverState (.expressionFinished phase.name))

/-- Asks for the next operand, or combines if none is pending. -/
def pump (engine : Engine) : ExprRun Step := do
  let t ← Proc.own
  match t.pending with
  | e :: rest =>
    Proc.setOwn { t with pending := rest }
    return t.ask e
  | [] => combine engine

/-- Queues the operands and asks for the first. -/
def begin (engine : Engine) : ExprRun Step := do
  Proc.modifyOwn fun t => { t with pending := t.pending ++ t.expr.operands }
  pump engine

/-- Starts an expression. -/
def start (engine : Engine) : ExprRun Step := do
  let t ← Proc.own
  match t.expr with
  | .undefined => return .value .undefined
  | .null => return .value .null
  | .bool b => return .value (.bool b)
  | .number x => return .value (.number x)
  | .string s => return .value (.string (← Heap.internString s))
  | .ident name => return .value (← lookupName engine t.scope name)
  | .receiver => return .value (← Run.readHeap fun h => h.scopeReceiver t.scope)
  | .function f => return .value (.object (← allocClosure f t.scope))
  | .unary .typeOf (.ident name) => do
    if ← hasBinding t.scope name then begin engine
    else return .value (.string (← Heap.internString "undefined"))
  | .unary .delete (.ident _) => return .value (.bool false)
  | _ => begin engine

/-- Goes on after an operand or after the call. -/
def resume (engine : Engine) (outcome : Except Error Completion) : ExprRun Step := do
  let v := (← outcome).value
  let t ← Proc.own
  if t.phase = .awaitCall then return .value v
  else
    Proc.setOwn { t with values := t.values ++ [v] }
    pump engine

end ExpressionTask

end ScriptCore
