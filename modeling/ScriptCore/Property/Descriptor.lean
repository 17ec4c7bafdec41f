import ScriptCore.Error

/-! # Property descriptors and patches

A descriptor is what a property cell holds: the attributes and either a value or a pair of
accessors. A patch is a partial descriptor: `Patch.toDescriptor` completes it with the weakest
attributes, `Patch.applyTo` merges it into an existing descriptor, and `Patch.conflicts` says when a
property that cannot be reconfigured refuses it. -/

namespace ScriptCore

/-- A stored value or a pair of accessors; `undefined` stands for an accessor that is missing. -/
inductive Slotted where
  | data (value : Value) (writable : Bool)
  | accessor (get set : Value)
deriving DecidableEq, Inhabited

/-- A property: its attributes and what it holds. A *variable* was made by a declaration rather than
by an assignment; it is neither deleted nor enumerated. -/
structure Descriptor where
  enumerable : Bool
  configurable : Bool
  isVariable : Bool
  content : Slotted
deriving DecidableEq, Inhabited

namespace Descriptor

/-- A writable, enumerable, configurable value. -/
def data (v : Value) : Descriptor := ⟨true, true, false, .data v true⟩

/-- A writable, configurable value that is not enumerated. -/
def hidden (v : Value) : Descriptor := { data v with enumerable := false }

/-- A binding made by a declaration: writable and enumerable, not configurable. -/
def declared (v : Value) : Descriptor := ⟨true, false, true, .data v true⟩

/-- An enumerable, configurable pair of accessors. -/
def accessor (get set : Value) : Descriptor := ⟨true, true, false, .accessor get set⟩

/-- The property made read-only, if it holds a value. -/
def readonly (d : Descriptor) : Descriptor :=
  match d.content with
  | .data v _ => { d with content := .data v false }
  | .accessor _ _ => d

def nonConfigurable (d : Descriptor) : Descriptor := { d with configurable := false }

def nonEnumerable (d : Descriptor) : Descriptor := { d with enumerable := false }

def isAccessor (d : Descriptor) : Bool :=
  match d.content with
  | .data _ _ => false
  | .accessor _ _ => true

/-- The stored value; accessors store none. -/
def value? (d : Descriptor) : Option Value :=
  match d.content with
  | .data v _ => some v
  | .accessor _ _ => none

/-- The property holds a value that may be overwritten. -/
def isWritable (d : Descriptor) : Bool :=
  match d.content with
  | .data _ w => w
  | .accessor _ _ => false

/-- The handles a property keeps alive. -/
def handles (d : Descriptor) : List Handle :=
  match d.content with
  | .data v _ => v.handles
  | .accessor g s => g.handles ++ s.handles

end Descriptor

/-- A partial descriptor. -/
structure Patch where
  enumerable : Option Bool := none
  configurable : Option Bool := none
  value : Option Value := none
  writable : Option Bool := none
  get : Option Value := none
  set : Option Value := none
deriving DecidableEq, Inhabited

namespace Patch

/-- The patch speaks of a stored value. -/
def isData (p : Patch) : Bool := p.value.isSome || p.writable.isSome

/-- The patch speaks of accessors. -/
def isAccessor (p : Patch) : Bool := p.get.isSome || p.set.isSome

/-- A patch speaks of a value or of accessors, not of both. -/
def validate (p : Patch) : Except Error Unit :=
  if p.isData && p.isAccessor then .error .mixedPatch else .ok ()

/-- What the patch says a property holds, missing parts `undefined` or refused. -/
def toContent (p : Patch) : Slotted :=
  if p.isAccessor then .accessor (p.get.getD .undefined) (p.set.getD .undefined)
  else .data (p.value.getD .undefined) (p.writable.getD false)

/-- The property that a patch makes where there was none. -/
def toDescriptor (p : Patch) : Descriptor :=
  ⟨p.enumerable.getD false, p.configurable.getD false, false, p.toContent⟩

/-- The patch merged into an existing property. Going from a value to accessors or back drops what
was held before. -/
def applyTo (p : Patch) (d : Descriptor) : Descriptor :=
  let content :=
    match d.content with
    | .data v w => if p.isAccessor then p.toContent else .data (p.value.getD v) (p.writable.getD w)
    | .accessor g s => if p.isData then p.toContent else .accessor (p.get.getD g) (p.set.getD s)
  ⟨p.enumerable.getD d.enumerable, p.configurable.getD d.configurable, d.isVariable, content⟩

/-- The patch would give `v` another value. -/
def changes (new : Option Value) (v : Value) : Bool :=
  match new with
  | some w => !w.sameValue v
  | none => false

/-- A property that is not configurable refuses the patch. -/
def conflicts (p : Patch) (d : Descriptor) : Bool :=
  p.configurable == some true
    || (match p.enumerable with
        | some e => e != d.enumerable
        | none => false)
    || (match d.content with
        | .data v writable =>
          p.isAccessor || (!writable && (p.writable == some true || changes p.value v))
        | .accessor g s => p.isData || changes p.get g || changes p.set s)

end Patch

end ScriptCore
