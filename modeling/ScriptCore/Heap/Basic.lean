import ScriptCore.Proc
import ScriptCore.Property.Descriptor
import ScriptCore.Property.Map
import ScriptCore.Syntax.Basic
import ScriptCore.Text.Table

/-! # The heap: slots with generations

Strings, objects, scopes and property cells live in the slots of one array. Freeing a slot moves
its generation on and puts it on the list of free slots, from which the last one freed is reused
first. A handle resolves (`Heap.block?`) when its slot is occupied and its generation is the slot's;
otherwise it is stale, foreign or of another kind, and every reader answers `invalidHandle`.

* `Heap.alloc` fills a free slot or appends one, and fails when the heap is full.
* `Heap.needsCollection` turns true once the live count reaches a mark that every collection moves. -/

namespace ScriptCore

/-! ### What a slot can hold -/

/-- What an object is called when it is described. -/
inductive ClassTag where
  | object
  | array
  | function
  | arguments
  | error
  | custom (name : String)
deriving DecidableEq, Inhabited, Repr

def ClassTag.name : ClassTag → String
  | .object => "Object"
  | .array => "Array"
  | .function => "Function"
  | .arguments => "Arguments"
  | .error => "Error"
  | .custom name => name

/-- The tag with a given name; names that are not built in are custom. -/
def ClassTag.ofName : String → ClassTag
  | "Object" => .object
  | "Array" => .array
  | "Function" => .function
  | "Arguments" => .arguments
  | "Error" => .error
  | name => .custom name

/-- The state of a closure: its function, the scope it was made in, and what was bound to it. -/
structure Closure where
  function : Function
  /-- The scope in which the closure was made. -/
  scope : ScopeRef
  /-- A scope to run in instead of the captured one. -/
  boundScope : Option ScopeRef
  /-- A receiver to use instead of the caller's. -/
  receiver : Option Value
  returnLastValue : Bool

/-- A function of the host: `entry` names the code that the host runs for it. -/
structure Native where
  name : String
  arity : Nat
  entry : String
deriving DecidableEq, Inhabited, Repr

/-- The diagnostic form of a native function. -/
def Native.describe (n : Native) : String :=
  "NativeFunction \x7b name: " ++ Text.quoted n.name ++ ", length: " ++ toString n.arity ++ ", .. \x7d"

/-- What an object is beyond its properties. -/
inductive ObjectKind where
  | ordinary
  | array
  | closure (c : Closure)
  | native (n : Native)

/-- An object. Its properties are cells. -/
structure Object where
  prototype : Option ObjectRef
  tag : ClassTag
  extensible : Bool
  properties : PropertyMap
  kind : ObjectKind

/-- A lexical environment: its bindings are the properties of `object`. -/
structure Scope where
  object : ObjectRef
  parent : Option ScopeRef
  receiver : Value
  /-- Declarations go to this object, when given, instead of `object`. -/
  writeTo : Option ObjectRef
  strict : Bool

/-- The object that declarations are written to. -/
def Scope.target (s : Scope) : ObjectRef := s.writeTo.getD s.object

/-- The contents of an occupied slot. -/
inductive Block where
  | string (t : Text)
  | object (o : Object)
  | scope (s : Scope)
  | cell (d : Descriptor)

/-- A slot and how often it has been freed. -/
structure Slot where
  generation : UInt32
  content : Option Block

/-! ### Limits -/

/-- How many allocations may be live, and from how many on garbage is collected first. -/
structure HeapLimits where
  maxSlots : Nat
  gcThreshold : Nat
deriving DecidableEq, Inhabited, Repr

namespace HeapLimits

/-- Collection starts at half of the maximum. -/
def ofMax (maxSlots : Nat) : HeapLimits := ⟨maxSlots, maxSlots / 2⟩

def standard : HeapLimits := ofMax (Nat.pow 2 24)

/-- The highest live count at which a collection is due: a quarter stays free for what a single step
allocates. -/
def ceiling (l : HeapLimits) : Nat := l.maxSlots - l.maxSlots / 4

/-- The live count at which the first collection is due. -/
def firstCollection (l : HeapLimits) : Nat := min l.ceiling l.gcThreshold

/-- The live count at which the next collection is due when `live` allocations survived one. -/
def nextCollection (l : HeapLimits) (live : Nat) : Nat :=
  min (max (2 * live) (min l.gcThreshold l.ceiling)) l.ceiling

end HeapLimits

/-! ### The heap -/

/-- A heap of slots, with the table of interned strings and the values the host keeps alive. -/
structure Heap where
  limits : HeapLimits
  slots : Array Slot
  /-- The marks of a collection, one for each slot, all clear outside it. -/
  marks : Array Bool
  /-- The vacant slots, the one freed last in front. -/
  free : List Nat
  /-- How many slots are occupied. -/
  live : Nat
  /-- The live count at which a collection is due. -/
  collectAt : Nat
  /-- How many collections have run. -/
  collections : Nat
  /-- The live string with given contents. -/
  interned : TextTable StringRef
  /-- The values the host keeps alive; a removed one leaves a hole. -/
  roots : Array (Option Value)
  /-- The holes of `roots`, the last one made in front. -/
  freeRoots : List Nat

namespace Heap

/-- A heap without allocations. -/
def empty (limits : HeapLimits) : Heap :=
  { limits
    slots := #[]
    marks := #[]
    free := []
    live := 0
    collectAt := limits.firstCollection
    collections := 0
    interned := .empty
    roots := #[]
    freeRoots := [] }

/-- Enough was allocated since the last collection to run another. -/
def needsCollection (h : Heap) : Bool := h.collectAt ≤ h.live

/-! ### Handles -/

/-- What a handle names in an array of slots, if it resolves. -/
def resolve (slots : Array Slot) (id : Handle) : Option Block :=
  match slots[id.index]? with
  | some slot => if slot.generation = id.generation then slot.content else none
  | none => none

/-- What a handle names, if it resolves. -/
def block? (h : Heap) (id : Handle) : Option Block := resolve h.slots id

def text (h : Heap) (s : StringRef) : Except Error Text :=
  match h.block? s.handle with
  | some (.string t) => .ok t
  | _ => .error .invalidHandle

def object (h : Heap) (o : ObjectRef) : Except Error Object :=
  match h.block? o.handle with
  | some (.object obj) => .ok obj
  | _ => .error .invalidHandle

def scope (h : Heap) (s : ScopeRef) : Except Error Scope :=
  match h.block? s.handle with
  | some (.scope sc) => .ok sc
  | _ => .error .invalidHandle

def cell (h : Heap) (c : CellRef) : Except Error Descriptor :=
  match h.block? c.handle with
  | some (.cell d) => .ok d
  | _ => .error .invalidHandle

/-! ### Allocation and overwriting -/

/-- Slots are numbered by 32-bit words, and one word is kept back. -/
def slotBound : Nat := UInt32.size - 1

/-- Puts a block into a vacant slot, the last one freed if there is one. -/
def alloc (b : Block) : Proc Heap Handle := fun h =>
  if h.limits.maxSlots ≤ h.live then .failed .outOfMemory h
  else
    match h.free with
    | i :: free =>
      match h.slots[i]? with
      | some slot =>
        .done ⟨i, slot.generation⟩
          { h with
            slots := h.slots.setIfInBounds i ⟨slot.generation, some b⟩
            free
            live := h.live + 1 }
      | none => .failed .invalidHandle { h with free }
    | [] =>
      if slotBound ≤ h.slots.size then .failed .outOfMemory h
      else
        .done ⟨h.slots.size, 0⟩
          { h with
            slots := h.slots.push ⟨0, some b⟩
            marks := h.marks.push false
            live := h.live + 1 }

/-- Overwrites the block of an occupied slot. -/
def put (h : Heap) (id : Handle) (b : Block) : Heap :=
  { h with slots := h.slots.setIfInBounds id.index ⟨id.generation, some b⟩ }

/-- Changes an object. -/
def modifyObject (o : ObjectRef) (f : Object → Object) : Proc Heap Unit := fun h =>
  match h.object o with
  | .ok obj => .done () (h.put o.handle (.object (f obj)))
  | .error e => .failed e h

/-- Changes a scope. -/
def modifyScope (s : ScopeRef) (f : Scope → Scope) : Proc Heap Unit := fun h =>
  match h.scope s with
  | .ok sc => .done () (h.put s.handle (.scope (f sc)))
  | .error e => .failed e h

/-- Changes what a cell holds, by a function that may refuse. -/
def modifyCell (c : CellRef) (f : Descriptor → Except Error Descriptor) : Proc Heap Unit := fun h =>
  match h.cell c with
  | .ok d =>
    match f d with
    | .ok d => .done () (h.put c.handle (.cell d))
    | .error e => .failed e h
  | .error e => .failed e h

end Heap

end ScriptCore
