import ScriptCore.Realm

/-! # Pictures: values as they look from outside

A picture shows a value to a given depth without running code and without allocating. An object is
shown by its handle and class, and, while there is depth left, by its own properties in order. In one
picture every object is expanded at most once, at the place where it is met first. -/

namespace ScriptCore

/-- A property key as it looks from outside. -/
inductive KeyPicture where
  | index (i : UInt32)
  | text (t : Text)
  | stale

mutual

/-- A value as it looks from outside. -/
inductive Picture where
  | undefined
  | null
  | bool (b : Bool)
  | number (x : Float)
  | text (t : Text)
  | staleString
  | staleObject
  | wellKnown (name : String)
  | closure (o : ObjectRef) (name : Option String)
  | native (o : ObjectRef) (name : String)
  | object (o : ObjectRef) (tag : String) (properties : Option (List PropertyPicture))

/-- A property as it looks from outside. -/
inductive PropertyPicture where
  | mk (key : KeyPicture) (cell : CellPicture)

/-- What a cell holds, as it looks from outside. -/
inductive CellPicture where
  | stale
  | data (value : Picture) (flags : String)
  | accessor (get set : Picture) (flags : String)

end

/-- The attributes of a property, one letter each: writable or accessor, enumerable, configurable,
variable. -/
def Descriptor.flags (d : Descriptor) : String :=
  let first := match d.content with
    | .data _ true => 'w'
    | .data _ false => '-'
    | .accessor _ _ => 'a'
  let letter (b : Bool) (c : Char) : Char := if b then c else '-'
  String.ofList [first, letter d.enumerable 'e', letter d.configurable 'c', letter d.isVariable 'v']

namespace Heap

def pictureKey (h : Heap) : PropertyKey → KeyPicture
  | .index i => .index i
  | .string s =>
    match h.text s with
    | .ok t => .text t
    | .error _ => .stale

/-- The objects expanded so far in a picture. -/
abbrev Seen := List ObjectRef

/-- A state function over the objects expanded so far, applied along a list. -/
def eachSeen {α β : Type} (f : α → Seen → β × Seen) : List α → Seen → List β × Seen
  | [], seen => ([], seen)
  | a :: as, seen =>
    let (b, seen) := f a seen
    let (bs, seen) := eachSeen f as seen
    (b :: bs, seen)

/-- What a cell holds, its values pictured by `value`. -/
def pictureCell (value : Value → Seen → Picture × Seen) (d : Descriptor) (seen : Seen) :
    CellPicture × Seen :=
  match d.content with
  | .data v _ =>
    let (p, seen) := value v seen
    (.data p d.flags, seen)
  | .accessor g s =>
    let (get, seen) := value g seen
    let (set, seen) := value s seen
    (.accessor get set d.flags, seen)

/-- One own property, its values pictured by `value`. -/
def pictureProperty (h : Heap) (value : Value → Seen → Picture × Seen) (e : PropertyKey × CellRef)
    (seen : Seen) : PropertyPicture × Seen :=
  match h.cell e.2 with
  | .ok d =>
    let (c, seen) := pictureCell value d seen
    (.mk (h.pictureKey e.1) c, seen)
  | .error _ => (.mk (h.pictureKey e.1) .stale, seen)

/-- A value that is not an object, or an object that is never expanded. -/
def pictureLeaf (h : Heap) (realm : Realm) : Value → Picture ⊕ ObjectRef × Object
  | .undefined => .inl .undefined
  | .null => .inl .null
  | .bool b => .inl (.bool b)
  | .number x => .inl (.number x)
  | .string s =>
    match h.text s with
    | .ok t => .inl (.text t)
    | .error _ => .inl .staleString
  | .object o =>
    match h.object o with
    | .error _ => .inl .staleObject
    | .ok obj =>
      match realm.nameOf? o with
      | some name => .inl (.wellKnown name)
      | none =>
        match obj.kind with
        | .closure c => .inl (.closure o c.function.name)
        | .native n => .inl (.native o n.name)
        | .ordinary | .array => .inr (o, obj)

/-- The picture of a value to a depth, given the objects expanded already. -/
def pictureAt (h : Heap) (realm : Realm) : Nat → Value → Seen → Picture × Seen
  | 0, v, seen =>
    match h.pictureLeaf realm v with
    | .inl p => (p, seen)
    | .inr (o, obj) => (.object o obj.tag.name none, seen)
  | depth + 1, v, seen =>
    match h.pictureLeaf realm v with
    | .inl p => (p, seen)
    | .inr (o, obj) =>
      if o ∈ seen then (.object o obj.tag.name none, seen)
      else
        let (ps, seen) :=
          eachSeen (h.pictureProperty (h.pictureAt realm depth)) obj.properties.toList (o :: seen)
        (.object o obj.tag.name (some ps), seen)

/-- The picture of a value to a depth. -/
def picture (h : Heap) (realm : Realm) (depth : Nat) (v : Value) : Picture :=
  (h.pictureAt realm depth v []).1

/-- The own properties of an object, which counts as expanded already. -/
def pictureProperties (h : Heap) (realm : Realm) (depth : Nat) (o : ObjectRef) :
    Except Error (List PropertyPicture) := do
  let obj ← h.object o
  return (eachSeen (h.pictureProperty (h.pictureAt realm depth)) obj.properties.toList [o]).1

/-- The picture of what a cell holds. -/
def pictureDescriptor (h : Heap) (realm : Realm) (depth : Nat) (d : Descriptor) : CellPicture :=
  (pictureCell (h.pictureAt realm depth) d []).1

end Heap

end ScriptCore
