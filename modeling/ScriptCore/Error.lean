import ScriptCore.Value

/-! # What can go wrong

An `Error` is a cause. Its wording is `message`; whether a handler of the program may intercept it
is `isCatchable`; and `surfaceName` is the name under which the program sees it. Terminations carry
the calls that were active when they were raised. -/

namespace ScriptCore

/-! ### Active calls -/

/-- One active call: the callee's name if it has one, and how many calls are active up to it. -/
structure CallEntry where
  function : Option String
  depth : Nat
deriving DecidableEq, Inhabited, Repr

/-- One line of a trace. -/
def CallEntry.describe (c : CallEntry) : String :=
  match c.function with
  | some name => "at " ++ name
  | none => "at <anonymous>"

/-- A trace of active calls given outermost first, one line each, the innermost call on top. -/
def formatTrace (calls : List CallEntry) : String :=
  "\n".intercalate (calls.reverse.map CallEntry.describe)

/-! ### Causes -/

/-- Why execution was stopped for good. -/
inductive StopReason where
  | outOfFuel
  | deadlineExceeded
  | interrupted
  | stackOverflow
  | cancelled
deriving DecidableEq, Inhabited, Repr

def StopReason.message : StopReason → String
  | .outOfFuel => "execution terminated: out of fuel"
  | .deadlineExceeded => "execution terminated: deadline exceeded"
  | .interrupted => "execution terminated: interrupted"
  | .stackOverflow => "execution terminated: stack overflow"
  | .cancelled => "execution terminated: cancelled by host"

def StopReason.name : StopReason → String
  | .outOfFuel => "OutOfFuel"
  | .deadlineExceeded => "DeadlineExceeded"
  | .interrupted => "Interrupted"
  | .stackOverflow => "StackOverflow"
  | .cancelled => "Cancelled"

/-- Where a frame, task or branch was driven out of order. -/
inductive Misuse where
  | collectInsideTask
  | alreadyRunning
  | notRunning
  | drivenFromInside
  | noFrame
  | childUnfinished
  | startedTwice
  | invocationResumed (state : String)
  | statementResumed (state : String)
  | expressionFinished (phase : String)
  | scopeNotSetUp
  | other (text : String)
deriving DecidableEq, Inhabited, Repr

def Misuse.message : Misuse → String
  | .collectInsideTask => "garbage cannot be collected from inside a task"
  | .alreadyRunning => "a branch is already running"
  | .notRunning => "no branch is running"
  | .drivenFromInside => "the root branch cannot be driven from inside a task"
  | .noFrame => "no frame to advance"
  | .childUnfinished => "frame resumed before its child finished"
  | .startedTwice => "invocation started twice"
  | .invocationResumed state => s!"invocation resumed in state {state}"
  | .statementResumed state => s!"statement resumed in state {state}"
  | .expressionFinished phase => s!"expression finished in phase {phase}"
  | .scopeNotSetUp => "invocation scope is not set up"
  | .other text => text

/-- A cause of failure. -/
inductive Error where
  /-- The heap has as many live allocations as it may have. -/
  | outOfMemory
  /-- A handle that does not name a live allocation of its kind. -/
  | invalidHandle
  /-- A prototype that would make an object inherit from itself. -/
  | prototypeCycle
  /-- A prototype chain longer than any walk follows. -/
  | prototypeChainTooDeep
  /-- A descriptor patch that speaks of a value and of accessors at once. -/
  | mixedPatch
  /-- An object none of whose conversion methods gave a primitive. -/
  | typeCoercion (what : String)
  /-- A name that no scope of the chain binds. -/
  | unresolvedReference (name : String)
  /-- A write or a deletion refused in strict code. -/
  | propertyAccess (key : String)
  /-- An operation on a value of the wrong kind. -/
  | typeError (text : String)
  /-- A call of something that cannot be called. -/
  | notCallable (what : String)
  /-- A call that cannot go on. -/
  | invocation (text : String)
  /-- The frame stack was driven out of order. -/
  | driverState (misuse : Misuse)
  /-- A value thrown by the program. -/
  | throw (value : Value)
  /-- Execution was stopped; the calls active then are given outermost first. -/
  | termination (reason : StopReason) (calls : List CallEntry)
deriving DecidableEq, Inhabited

namespace Error

/-- The wording of an error. -/
def message : Error → String
  | outOfMemory => "out of memory"
  | invalidHandle => "invalid handle"
  | prototypeCycle => "prototype cycle"
  | prototypeChainTooDeep => "prototype chain too deep"
  | mixedPatch => "invalid property descriptor patch: cannot mix data and accessor fields"
  | typeCoercion what => s!"cannot convert {what} to a primitive value"
  | unresolvedReference name => s!"{name} is not defined"
  | propertyAccess key => s!"cannot modify property '{key}'"
  | typeError text => s!"type error: {text}"
  | notCallable what => s!"{what} is not a function"
  | invocation text => s!"invalid invocation: {text}"
  | driverState misuse => "driver misuse: " ++ misuse.message
  | throw _ => "uncaught exception"
  | termination reason _ => reason.message

/-- A handler of the program may intercept the error. Terminations, misuse of the driver and
failures of the heap always unwind to the host. -/
def isCatchable : Error → Bool
  | typeCoercion _ | unresolvedReference _ | propertyAccess _ | typeError _ | notCallable _
  | invocation _ | throw _ => true
  | _ => false

/-- The name under which the program sees the error. -/
def surfaceName : Error → String
  | unresolvedReference _ => "ReferenceError"
  | typeCoercion _ | propertyAccess _ | typeError _ | notCallable _ => "TypeError"
  | _ => "Error"

/-- The handles an error keeps alive: those of a thrown value. -/
def handles : Error → List Handle
  | throw v => v.handles
  | _ => []

/-- The name of the kind of an error. -/
def kind : Error → String
  | outOfMemory => "OutOfMemory"
  | invalidHandle => "InvalidHandle"
  | prototypeCycle => "PrototypeCycle"
  | prototypeChainTooDeep => "PrototypeChainTooDeep"
  | mixedPatch => "InvalidPropertyDescriptorPatch"
  | typeCoercion _ => "TypeCoercion"
  | unresolvedReference _ => "UnresolvedReference"
  | propertyAccess _ => "PropertyAccess"
  | typeError _ => "TypeError"
  | notCallable _ => "NotCallable"
  | invocation _ => "Invocation"
  | driverState _ => "DriverState"
  | throw _ => "Throw"
  | termination _ _ => "Termination"

/-- The error of a kind given by name, with the text and the thrown value that the kind needs. -/
def ofKind? (kind text : String) (thrown : Value) : Option Error :=
  match kind with
  | "OutOfMemory" => some outOfMemory
  | "InvalidHandle" => some invalidHandle
  | "PrototypeCycle" => some prototypeCycle
  | "PrototypeChainTooDeep" => some prototypeChainTooDeep
  | "InvalidPropertyDescriptorPatch" => some mixedPatch
  | "TypeCoercion" => some (typeCoercion text)
  | "UnresolvedReference" => some (unresolvedReference text)
  | "PropertyAccess" => some (propertyAccess text)
  | "TypeError" => some (typeError text)
  | "NotCallable" => some (notCallable text)
  | "Invocation" => some (invocation text)
  | "DriverState" => some (driverState (.other text))
  | "Throw" => some (throw thrown)
  | "OutOfFuel" => some (termination .outOfFuel [])
  | "DeadlineExceeded" => some (termination .deadlineExceeded [])
  | "Interrupted" => some (termination .interrupted [])
  | "StackOverflow" => some (termination .stackOverflow [])
  | "Cancelled" => some (termination .cancelled [])
  | _ => none

end Error

end ScriptCore
