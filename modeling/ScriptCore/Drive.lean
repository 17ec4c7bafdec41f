import ScriptCore.Task.Run

/-! # Driving the frames

The machine is driven one boundary at a time: the innermost frame is taken off the stack, its task
runs to its next suspension, and either the frame goes back with a child opened above it, or it
closes and its outcome is delivered to the frame below. Garbage is collected only at boundaries that
the host drives, where every handle in use is held by a frame, by the realm or by a root.

A `Host` supplies the tasks for branches and the code of native functions. `Host.engine` closes the
loop: with a bound on nested runs and on their steps, it gives running code the ways to run more
code. -/

namespace ScriptCore

/-- What the surroundings supply: a task for each branch, and the code of native functions. -/
structure Host where
  branch : BranchRequest → Except Error Task
  native : (entry : String) → Engine → (receiver : Value) → (args : List Value) → Run Value

/-- What driving one frame came to. -/
inductive Advance where
  /-- There is more to drive. -/
  | going
  /-- The frame at the base closed. -/
  | finished (outcome : Except Error Completion)

/-! ### Frames -/

namespace Machine

/-- Shows an event to the observer, if one is installed. -/
def record (m : Machine) (e : Event) : Machine :=
  { m with observed := m.observed.map (·.push e) }

/-- Opens a frame on top of the stack. It is quiet if its surroundings are or if it says so. -/
def openFrame (m : Machine) (task : Task) (info : BranchInfo) (depth : Nat) (quiet isCall : Bool) :
    Machine :=
  let quiet := quiet || info.options.isQuiet
  let m := if quiet then m else m.record (.enter depth info)
  { m with frames := m.frames.push { task, info, depth, quiet, isCall, input := .start } }

/-- Hands an outcome to the innermost frame. -/
def deliver (m : Machine) (outcome : Except Error Completion) : Machine :=
  { m with frames := m.frames.modifyTop fun f => { f with input := .deliver outcome } }

/-- Closes a frame that is off the stack: it has finished if nothing above `base` is left. -/
def close (m : Machine) (f : Frame) (outcome : Except Error Completion) (base : Nat) :
    Advance × Machine :=
  let m := if f.isCall then { m with monitor := m.monitor.popCall } else m
  let m := if f.quiet then m else m.record (.exit f.depth f.info.kind outcome)
  if m.frames.size = base then (.finished outcome, m) else (.going, m.deliver outcome)

/-- Depth and quietness of what is opened inside the running task. -/
def childContext (m : Machine) : Nat × Bool :=
  match m.active with
  | some a => (a.depth + 1, a.quiet)
  | none => (0, false)

end Machine

/-- Sets which frame's task is running and hands over which one was. -/
def swapActive (a : Option Active) : Run (Option Active) := fun m =>
  .done m.active { m with active := a }

/-- Collects garbage. Only the host may: what a running task holds is not known. -/
def collectGarbage : Run Unit := fun m =>
  if m.active.isSome then .failed (.driverState .collectInsideTask) m
  else
    let reported := m.handles
    .done () { m with heap := m.heap.collect reported }

/-- Collects garbage if the host drives and enough was allocated. -/
def collectIfDue : Run Unit := fun m =>
  if m.active.isNone && m.heap.needsCollection then collectGarbage m else .done () m

/-- The input that makes a frame fail instead: before it starts, or in the place of an outcome. -/
def Input.aborted (e : Error) : Input → Input
  | .start | .fail _ => .fail e
  | .deliver _ | .waiting => .deliver (.error e)

/-- Makes the innermost frame fail when it is reached next. -/
def abort (e : Error) : Run Unit := fun m =>
  if m.frames.isEmpty then .failed (.driverState .notRunning) m
  else .done () { m with frames := m.frames.modifyTop fun f => { f with input := f.input.aborted e } }

/-- Makes the innermost frame fail with a cancellation, which nothing intercepts. -/
def cancel : Run Unit := fun m => abort (m.monitor.stop .cancelled) m

/-! ### Calls -/

/-- The value that a completion gives a finished call or program. -/
def completionValue : Completion → Except Error Value
  | .normal v => .ok (v.getD .undefined)
  | .returned v => .ok v
  | .thrown v => .error (.throw v)
  | .broken _ _ | .continued _ _ =>
    .error (.invocation "break or continue escaped its enclosing branch")

/-- Records a call among the active ones. -/
def enterCall (function : Option String) : Run Unit := do
  let depth := (← get).monitor.depth + 1
  Monitor.pushCall { function, depth }

/-- Runs a native function among the active calls. -/
def callNative (host : Host) (engine : Engine) (n : Native) (receiver : Value) (args : List Value) :
    Run Value := do
  enterCall (some n.name)
  let result ← (host.native n.entry engine receiver args).attempt
  modify fun m => { m with monitor := m.monitor.popCall }
  result

/-- Opens the frame of a call of a closure. -/
def openClosure (f : ObjectRef) (r : CallRequest) (depth : Nat) (quiet : Bool) : Run Unit := do
  let debug ← Run.isDebug
  let profileName := if debug then r.extra.profileName else none
  let name ← match profileName with
    | some name => pure (some name)
    | none => Run.readHeap fun h => h.functionName f
  let options : BranchOptions :=
    { profileName, callee := some (r.extra.callee.getD r.callee) }
  let task ← InvocationTask.prepare f r.receiver r.args r.scope r.extra
  enterCall name
  modify fun m => m.openFrame (.invocation task) ⟨.call, options⟩ depth quiet true

/-- Opens a call. A native function answers at once; a closure gets a frame. -/
def openCall (host : Host) (engine : Engine) (r : CallRequest) (depth : Nat) (quiet : Bool) :
    Run (Option Value) := do
  let notCallable : Run (Option Value) := do
    let text ← Run.readHeap fun h => h.describe r.callee
    throw (.notCallable text)
  match r.callee with
  | .object f =>
    match (← Run.readHeap fun h => h.object f).kind with
    | .native n => return some (← callNative host engine n r.receiver r.args)
    | .closure _ =>
      openClosure f r depth quiet
      return none
    | .ordinary | .array => notCallable
  | _ => notCallable

/-- Opens what the innermost frame asks for, or delivers to it what is known at once. -/
def openChild (host : Host) (engine : Engine) (s : Suspension) (depth : Nat) (quiet : Bool) :
    Run Unit := do
  match s with
  | .branch r =>
    match host.branch r with
    | .ok task => modify fun m => m.openFrame task r.info depth quiet false
    | .error e => modify fun m => m.deliver (.error e)
  | .call r =>
    match ← (openCall host engine r depth quiet).attempt with
    | .ok none => pure ()
    | .ok (some v) => modify fun m => m.deliver (.ok (.ofValue v))
    | .error e => modify fun m => m.deliver (.error e)

/-! ### One boundary -/

/-- Accounts for the boundary before a task runs. A failure that is handed on costs nothing, so a
termination keeps the calls it was raised with. -/
def tickUnlessFailed : Option (Except Error Completion) → Run (Except Error Unit)
  | some (.error _) => return .ok ()
  | _ => Proc.attempt (Run.onMonitor Monitor.tick)

/-- Runs the task of a frame that is off the stack. -/
def runTask (engine : Engine) (f : Frame) (outcome : Option (Except Error Completion)) :
    Run (Except Error Step × Frame) := do
  match ← tickUnlessFailed outcome with
  | .error e => return (.error e, f)
  | .ok () =>
    let saved ← swapActive (some ⟨f.depth, f.quiet⟩)
    let (result, task) ← match outcome with
      | none => f.task.start engine
      | some o => f.task.resume engine o
    discard (swapActive saved)
    return (result, { f with task })

/-- Gives a frame what it waits for. -/
def feed (engine : Engine) (f : Frame) : Run (Except Error Step × Frame) :=
  match f.input with
  | .fail e => return (.error e, f)
  | .waiting => return (.error (.driverState .childUnfinished), f)
  | .start => runTask engine { f with input := .waiting } none
  | .deliver outcome => runTask engine { f with input := .waiting } (some outcome)

/-- Puts a suspended frame back and opens its child; while it is opened the frame counts as
running. -/
def suspend (host : Host) (engine : Engine) (f : Frame) (s : Suspension) : Run Unit := do
  modify fun m => { m with frames := m.frames.push f }
  let saved ← swapActive (some ⟨f.depth, f.quiet⟩)
  openChild host engine s (f.depth + 1) f.quiet
  discard (swapActive saved)

/-- Closes a frame. -/
def closeFrame (f : Frame) (outcome : Except Error Completion) (base : Nat) : Run Advance :=
  modifyGet fun m => m.close f outcome base

/-- Takes the innermost frame off the stack. -/
def popFrame : Run (Option Frame) := modifyGet fun m =>
  (m.frames.top?, { m with frames := m.frames.pop })

/-- Drives the innermost frame above `base` over one boundary. -/
def advance (host : Host) (engine : Engine) (base : Nat) : Run Advance := do
  if (← get).frames.size ≤ base then throw (.driverState .noFrame)
  collectIfDue
  match ← popFrame with
  | none => throw (.driverState .noFrame)
  | some f =>
    match ← feed engine f with
    | (.ok (.suspended s), f) =>
      suspend host engine f s
      return .going
    | (.ok (.finished c), f) => closeFrame f (.ok c) base
    | (.error e, f) => closeFrame f (.error e) base

/-! ### Many boundaries -/

/-- The outcome of a finished frame as the outcome of a procedure. -/
def ending {α : Type} (f : Completion → α) (outcome : Except Error Completion) (m : Machine) :
    Outcome Machine α :=
  match outcome with
  | .ok c => .done (f c) m
  | .error e => .failed e m

/-- Drives the frames above `base` until the lowest of them closes, over at most `bound`
boundaries. -/
def drive (host : Host) (engine : Engine) (base : Nat) :
    (bound : Nat) → Machine → Outcome Machine Completion
  | 0, _ => .stalled
  | bound + 1, m =>
    match advance host engine base m with
    | .done (.finished outcome) m => ending id outcome m
    | .done .going m => drive host engine base bound m
    | .failed e m => .failed e m
    | .stalled => .stalled

/-- The innermost frame is quiet. -/
def Machine.isQuiet (m : Machine) : Bool :=
  match m.frames.top? with
  | some f => f.quiet
  | none => false

/-- Drives the root branch to its next visible boundary, over at most `bound` boundaries. -/
def driveVisible (host : Host) (engine : Engine) :
    (bound : Nat) → Machine → Outcome Machine (Option Completion)
  | 0, _ => .stalled
  | bound + 1, m =>
    match advance host engine 0 m with
    | .done (.finished outcome) m => ending some outcome m
    | .done .going m => if m.isQuiet then driveVisible host engine bound m else .done none m
    | .failed e m => .failed e m
    | .stalled => .stalled

/-- The host may drive the root branch: there is one, and no task is running. -/
def requireControl : Run Unit := do
  let m ← get
  if m.active.isSome then throw (.driverState .drivenFromInside)
  else if m.frames.isEmpty then throw (.driverState .notRunning)

/-! ### The ways to run code -/

namespace Host

/-- Opens the root branch. Nothing runs yet. -/
def startRoot (host : Host) (r : BranchRequest) : Run Unit := do
  let m ← get
  if !m.frames.isEmpty || m.active.isSome then throw (.driverState .alreadyRunning)
  else
    let task ← host.branch r
    modify fun m => m.openFrame task r.info 0 false false

/-- Evaluates a branch on top of the open frames. -/
def evaluateOn (host : Host) (engine : Engine) (bound : Nat) (r : BranchRequest) :
    Run Completion := do
  let base := (← get).frames.size
  let (depth, quiet) := (← get).childContext
  let task ← host.branch r
  modify fun m => m.openFrame task r.info depth quiet false
  drive host engine base bound

/-- Calls a value on top of the open frames, as from the global scope. -/
def callOn (host : Host) (engine : Engine) (bound : Nat) (callee receiver : Value)
    (args : List Value) : Run Value := do
  let base := (← get).frames.size
  let (depth, quiet) := (← get).childContext
  let scope := (← Run.realm).globalScope
  match ← openCall host engine { callee, receiver, args, scope, extra := {} } depth quiet with
  | some v => return v
  | none =>
    let c ← drive host engine base bound
    completionValue c

/-- Runs a program in the global scope: on top of the running task, or as the root branch. -/
def executeOn (host : Host) (engine : Engine) (bound : Nat) (body : List Stmt) : Run Value := do
  let scope := (← Run.realm).globalScope
  let r := { BranchRequest.program body scope with options := { returnLastValue := true } }
  if (← get).active.isSome then
    let c ← host.evaluateOn engine bound r
    completionValue c
  else
    host.startRoot r
    let c ← drive host engine 0 bound
    completionValue c

/-- The engine of a host. Code nested deeper than `bound`, or running longer, stalls. -/
def engine (host : Host) : (bound : Nat) → Engine
  | 0 =>
    { evaluate := fun _ => Proc.stall
      call := fun _ _ _ => Proc.stall
      start := host.startRoot
      step := Proc.stall
      run := Proc.stall
      execute := fun _ => Proc.stall }
  | bound + 1 =>
    { evaluate := fun r => host.evaluateOn (host.engine bound) bound r
      call := fun f receiver args => host.callOn (host.engine bound) bound f receiver args
      start := host.startRoot
      step := fun m =>
        match requireControl m with
        | .done _ m => driveVisible host (host.engine bound) bound m
        | .failed e m => .failed e m
        | .stalled => .stalled
      run := fun m =>
        match requireControl m with
        | .done _ m => drive host (host.engine bound) 0 bound m
        | .failed e m => .failed e m
        | .stalled => .stalled
      execute := fun body => host.executeOn (host.engine bound) bound body }

end Host

end ScriptCore
