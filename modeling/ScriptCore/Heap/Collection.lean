import ScriptCore.Heap.Basic

/-! # Collecting garbage, and the values the host keeps alive

A collection marks every block that can be reached from the host's roots and from the handles it is
given, and frees every other occupied slot, in ascending order. Handles that do not resolve reach
nothing. Interned strings that are freed leave the table.

* `Heap.mark` follows handles with a worklist; each round marks one slot.
* `Heap.collect` is one collection. -/

namespace ScriptCore

/-! ### What a block refers to -/

def Closure.handles (c : Closure) : List Handle :=
  c.scope.handle ::
    ((match c.boundScope with
      | some s => [s.handle]
      | none => []) ++
    (match c.receiver with
      | some v => v.handles
      | none => []))

def Object.handles (o : Object) : List Handle :=
  (match o.prototype with
    | some p => [p.handle]
    | none => []) ++
  o.properties.recent.flatMap (fun e => e.1.handles ++ [e.2.handle]) ++
  (match o.kind with
    | .closure c => c.handles
    | _ => [])

def Scope.handles (s : Scope) : List Handle :=
  s.object.handle ::
    ((match s.parent with
      | some p => [p.handle]
      | none => []) ++
    s.receiver.handles ++
    (match s.writeTo with
      | some o => [o.handle]
      | none => []))

/-- The handles a block refers to. -/
def Block.handles : Block → List Handle
  | .string _ => []
  | .object o => o.handles
  | .scope s => s.handles
  | .cell d => d.handles

namespace Heap

/-! ### Marking -/

/-- The handle resolves, and what it names is not marked yet. -/
def isFresh (slots : Array Slot) (marks : Array Bool) (id : Handle) : Bool :=
  (resolve slots id).isSome && marks[id.index]? == some false

/-- The handles that what a handle names refers to. -/
def successors (slots : Array Slot) (id : Handle) : List Handle :=
  match resolve slots id with
  | some block => block.handles
  | none => []

/-- Marks what the handles reach through blocks not marked yet. A round marks one slot, so as many
rounds as there are slots reach everything. -/
def mark (slots : Array Slot) : (rounds : Nat) → List Handle → Array Bool → Array Bool
  | 0, _, marks => marks
  | rounds + 1, work, marks =>
    match work.dropWhile fun id => !isFresh slots marks id with
    | [] => marks
    | id :: work =>
      mark slots rounds (successors slots id ++ work) (marks.setIfInBounds id.index true)

/-! ### Sweeping -/

/-- Forgets an interned string whose block is freed. -/
def forget (interned : TextTable StringRef) : Block → TextTable StringRef
  | .string t => interned.erase t
  | _ => interned

/-- Clears the mark of a slot, or frees the slot if it is occupied and has none. -/
def sweepSlot (h : Heap) (i : Nat) : Heap :=
  if h.marks[i]? = some true then { h with marks := h.marks.setIfInBounds i false }
  else
    match h.slots[i]? with
    | some ⟨generation, some block⟩ =>
      { h with
        slots := h.slots.setIfInBounds i ⟨generation + 1, none⟩
        free := i :: h.free
        live := h.live - 1
        interned := forget h.interned block }
    | _ => h

/-- Clears all marks and frees every occupied slot without one. -/
def sweep (h : Heap) : Heap := (List.range h.slots.size).foldl sweepSlot h

/-- The values that the host keeps alive, as handles. -/
def rootHandles (h : Heap) : List Handle :=
  h.roots.toList.flatMap fun r =>
    match r with
    | some v => v.handles
    | none => []

/-- One collection: what neither the host's roots nor the given handles reach is freed. -/
def collect (h : Heap) (reported : List Handle) : Heap :=
  let marks := mark h.slots h.slots.size (h.rootHandles ++ reported) h.marks
  let h := sweep { h with marks, collections := h.collections + 1 }
  { h with collectAt := h.limits.nextCollection h.live }

/-! ### Roots -/

/-- Keeps a value alive until the root is removed; the answer names the root. -/
def addRoot (h : Heap) (v : Value) : Nat × Heap :=
  match h.freeRoots with
  | i :: rest => (i, { h with roots := h.roots.setIfInBounds i (some v), freeRoots := rest })
  | [] => (h.roots.size, { h with roots := h.roots.push (some v) })

/-- The value of a root, unless it was removed. -/
def root? (h : Heap) (i : Nat) : Option Value := (h.roots[i]?).join

/-- Removes a root; removing it again changes nothing. -/
def removeRoot (h : Heap) (i : Nat) : Heap :=
  match h.root? i with
  | some _ => { h with roots := h.roots.setIfInBounds i none, freeRoots := i :: h.freeRoots }
  | none => h

end Heap

end ScriptCore
