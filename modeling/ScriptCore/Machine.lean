import ScriptCore.Monitor
import ScriptCore.Picture
import ScriptCore.Task.Basic

/-! # The machine: heap, realm, limits and the stack of frames

Evaluation is a stack of frames, one for each open branch or call; the innermost is driven. While a
frame's task runs the frame is off the stack and `active` says where it stood; nothing else is
driven, started or collected then. `Run` is a procedure over a machine; procedures over the heap or
over the monitor run on the machine's. -/

namespace ScriptCore

/-- What a frame is given when it is reached next. -/
inductive Input where
  | start
  | deliver (outcome : Except Error Completion)
  /-- The frame was aborted before it started. -/
  | fail (e : Error)
  /-- The frame is suspended on a child. -/
  | waiting

/-- An open branch or call. -/
structure Frame where
  task : Task
  info : BranchInfo
  depth : Nat
  /-- The host neither sees the frame nor gets control in it. -/
  quiet : Bool
  /-- The frame has an entry among the active calls. -/
  isCall : Bool
  input : Input

def Input.handles : Input → List Handle
  | .deliver (.ok c) => c.handles
  | .deliver (.error e) => e.handles
  | .fail e => e.handles
  | .start | .waiting => []

/-- The handles that a frame keeps alive. -/
def Frame.handles (f : Frame) : List Handle :=
  f.task.handles ++ f.info.options.handles ++ f.input.handles

/-- Where the frame stood whose task is running. -/
structure Active where
  depth : Nat
  quiet : Bool
deriving DecidableEq, Inhabited, Repr

/-- The whole state of an execution. -/
structure Machine where
  heap : Heap
  realm : Realm
  monitor : Monitor
  /-- The open frames, the innermost on top. -/
  frames : Stack Frame
  active : Option Active
  /-- The boundaries seen by the observer, if one is installed. -/
  observed : Option (Array Event)
  /-- The lines written by the program. -/
  console : Array (List Picture)

/-- A procedure over a machine. -/
abbrev Run (α : Type) : Type := Proc Machine α

namespace Run

variable {α : Type}

/-- Runs a procedure over the heap. -/
@[inline] def onHeap (p : Proc Heap α) : Run α := fun m =>
  let { heap, realm, monitor, frames, active, observed, console } := m
  match p heap with
  | .done a heap => .done a { heap, realm, monitor, frames, active, observed, console }
  | .failed e heap => .failed e { heap, realm, monitor, frames, active, observed, console }
  | .stalled => .stalled

/-- Runs a procedure over the monitor. -/
@[inline] def onMonitor (p : Proc Monitor α) : Run α := fun m =>
  match p m.monitor with
  | .done a monitor => .done a { m with monitor }
  | .failed e monitor => .failed e { m with monitor }
  | .stalled => .stalled

instance : MonadLift (Proc Heap) (Proc Machine) := ⟨onHeap⟩

instance : MonadLift (Proc Monitor) (Proc Machine) := ⟨onMonitor⟩

/-- Reads the heap. -/
@[inline] def readHeap (f : Heap → Except Error α) : Run α := Proc.reads fun m => f m.heap

/-- The realm. -/
@[inline] def realm : Run Realm := fun m => .done m.realm m

/-- The names that are looked up often. -/
@[inline] def names : Run CommonNames := fun m => .done m.realm.names m

/-- Calls are named after their call site. -/
@[inline] def isDebug : Run Bool := fun m => .done m.monitor.options.debug m

end Run

namespace Machine

/-- A machine on a new heap; it fails when the heap has no room for the realm. Building a realm never
stalls. -/
def create (limits : HeapLimits) (options : MonitorOptions) (now : Nat)
    (sloppyThisIsGlobal : Bool) : Except Error Machine :=
  match Realm.create sloppyThisIsGlobal (Heap.empty limits) with
  | .done realm heap =>
    .ok { heap, realm, monitor := .ofOptions options now, frames := .empty, active := none,
          observed := none, console := #[] }
  | .failed e _ => .error e
  | .stalled => .error .outOfMemory

/-- The handles that the realm and the open frames keep alive. -/
def handles (m : Machine) : List Handle := m.realm.handles ++ m.frames.items.flatMap Frame.handles

end Machine

end ScriptCore
