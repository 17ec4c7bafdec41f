import Std.Data.TreeSet.Basic
import ScriptCore.Machine

/-! # Enumerating keys

A cursor lists the keys of a value that can be observed: enumerable and not variables, own keys first
and in order of insertion, then, if asked for, those of the prototypes. A key met on a closer object
hides the same key further out, whether it was listed or not. The cursor remembers a bare position,
and the heap may change between two of its moves. -/

namespace ScriptCore

/-- Where a cursor stands. -/
inductive KeySource where
  /-- At a unit of a string of the given length; the prototype follows. -/
  | units (next length : Nat) (proto : ObjectRef)
  /-- At a position of an object's own properties. -/
  | entries (o : ObjectRef) (position : Nat)
  | done

/-- A cursor over the keys of a value. -/
structure KeyCursor where
  source : KeySource
  inherited : Bool
  /-- The value has no own keys, and the first object is already its prototype. -/
  ownIsProto : Bool
  /-- The keys met so far. -/
  seen : Std.TreeSet PropertyKey PropertyKey.compare

/-- What a single move of a cursor came to. -/
inductive KeyMove where
  | listed (key : PropertyKey)
  | skipped
  | exhausted

/-- A cursor at the first key of a value. -/
def Heap.cursor (h : Heap) (realm : Realm) (base : Value) (inherited : Bool) :
    Except Error KeyCursor := do
  let source ← match base with
    | .undefined | .null => pure .done
    | .string s => pure (.units 0 (← h.text s).length realm.stringPrototype)
    | .number _ => pure (.entries realm.numberPrototype 0)
    | .bool _ => pure (.entries realm.booleanPrototype 0)
    | .object o => pure (.entries o 0)
  let ownIsProto := match base with
    | .number _ | .bool _ => true
    | _ => false
  return { source, inherited, ownIsProto, seen := ∅ }

namespace KeyCursor

/-- The place after the last own key of `o`. -/
def beyond (h : Heap) (c : KeyCursor) (o : ObjectRef) : Except Error KeySource := do
  if c.inherited then
    match ← h.prototype o with
    | some p => return .entries p 0
    | none => return .done
  else return .done

/-- The cursor past an own entry, which is listed if it can be observed and was not met before. -/
def meet (h : Heap) (c : KeyCursor) (key : PropertyKey) (cell : CellRef) :
    Except Error KeyMove × KeyCursor :=
  match h.cell cell with
  | .error e => (.error e, c)
  | .ok d =>
    if key ∈ c.seen then (.ok .skipped, c)
    else
      let c := { c with seen := c.seen.insert key }
      (.ok (if d.enumerable && !d.isVariable then .listed key else .skipped), c)

/-- Moves a cursor by one entry. It stays where it came to also when the heap refuses. -/
def move (h : Heap) (c : KeyCursor) : Except Error KeyMove × KeyCursor :=
  match c.source with
  | .done => (.ok .exhausted, c)
  | .units next length proto =>
    if next < length then
      let key := PropertyKey.index next.toUInt32
      (.ok (.listed key), { c with source := .units (next + 1) length proto, seen := c.seen.insert key })
    else (.ok .skipped, { c with source := if c.inherited then .entries proto 0 else .done })
  | .entries o position =>
    if c.ownIsProto && !c.inherited then (.ok .skipped, { c with source := .done })
    else
      match h.ownEntry o position with
      | .error e => (.error e, c)
      | .ok (some (key, cell)) => { c with source := .entries o (position + 1) }.meet h key cell
      | .ok none =>
        match c.beyond h o with
        | .error e => (.error e, c)
        | .ok source => (.ok .skipped, { c with source })

/-- Moves until a key is listed or none is left, at most `bound` times. -/
def nextWithin (h : Heap) : Nat → KeyCursor → Except Error (Option PropertyKey) × KeyCursor
  | 0, c => (.ok none, c)
  | bound + 1, c =>
    match c.move h with
    | (.error e, c) => (.error e, c)
    | (.ok (.listed key), c) => (.ok (some key), c)
    | (.ok .exhausted, c) => (.ok none, c)
    | (.ok .skipped, c) => nextWithin h bound c

end KeyCursor

/-- How often a cursor can move on a heap: once for each property and each object, and a few times
more. -/
def Heap.cursorMoves (h : Heap) : Nat :=
  h.slots.foldl (fun n slot =>
    match slot.content with
    | some (.object o) => n + o.properties.size + 1
    | _ => n) 3

namespace KeyCursor

/-- The next key, and the cursor past it. -/
def next (h : Heap) (c : KeyCursor) : Except Error (Option PropertyKey) × KeyCursor :=
  c.nextWithin h h.cursorMoves

/-- All keys from the cursor on, at most `bound`, with at most `moves` moves for each. -/
def collectWithin (h : Heap) (moves : Nat) : Nat → KeyCursor → Except Error (List PropertyKey)
  | 0, _ => .ok []
  | bound + 1, c =>
    match c.nextWithin h moves with
    | (.error e, _) => .error e
    | (.ok none, _) => .ok []
    | (.ok (some key), c) => return key :: (← collectWithin h moves bound c)

end KeyCursor

/-- All observable keys of a value. -/
def Heap.observableKeys (h : Heap) (realm : Realm) (base : Value) (inherited : Bool) :
    Except Error (List PropertyKey) := do
  let c ← h.cursor realm base inherited
  let units := match c.source with
    | .units _ length _ => length
    | _ => 0
  let moves := h.cursorMoves
  c.collectWithin h moves (units + moves)

end ScriptCore
