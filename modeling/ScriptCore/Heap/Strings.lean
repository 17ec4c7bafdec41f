import ScriptCore.Heap.Basic
import ScriptCore.Number.Layout

/-! # Interned strings and property keys

A string is allocated at most once: `Heap.intern` gives the live string with the same contents, if
there is one. So two strings that resolve are equal exactly when their handles are, and a property
key made from text is canonical. -/

namespace ScriptCore.Heap

/-- The string with the given contents: the live one, or a new one. -/
def intern (t : Text) : Proc Heap StringRef := fun h =>
  match h.interned.find? t with
  | some s => .done s h
  | none =>
    match alloc (.string t) h with
    | .done id h => .done ⟨id⟩ { h with interned := h.interned.insert t ⟨id⟩ }
    | .failed e h => .failed e h
    | .stalled => .stalled

/-- The string that writes `s`. -/
def internString (s : String) : Proc Heap StringRef := intern (Text.ofString s)

/-- The key that a string is: an index if the string writes one. -/
def keyOfString (h : Heap) (s : StringRef) : Except Error PropertyKey := do
  let t ← h.text s
  match arrayIndex? t.units.toList with
  | some i => return .index i
  | none => return .string s

/-- The key that a name is. The name is interned first, also when it writes an index. -/
def keyOfName (name : String) : Proc Heap PropertyKey := do
  let s ← internString name
  Proc.reads fun h => h.keyOfString s

/-- The decimal text of an index. -/
def indexText (i : UInt32) : String := String.ofList (Nat.toDigits 10 i.toNat)

/-- The string form of a key. -/
def keyToString : PropertyKey → Proc Heap StringRef
  | .string s => pure s
  | .index i => internString (indexText i)

/-- A key as it appears in messages. -/
def keyText (h : Heap) : PropertyKey → Except Error String
  | .string s => return (← h.text s).lossy
  | .index i => return indexText i

end ScriptCore.Heap
