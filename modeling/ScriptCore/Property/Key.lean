import ScriptCore.Text
import ScriptCore.Value

/-! # Property keys

A key is an array index or a string. Text that writes an index in its canonical form, decimal
without leading zeros and below `2 ^ 32 - 1`, is always the index, so that an index and its text
address the same property. -/

namespace ScriptCore

/-- A property key. -/
inductive PropertyKey where
  | string (s : StringRef)
  | index (i : UInt32)
deriving DecidableEq, Hashable, Inhabited, Repr

namespace PropertyKey

def asIndex? : PropertyKey → Option UInt32
  | index i => some i
  | string _ => none

/-- A number of its own for each key: even for an index, odd for a string. -/
def code : PropertyKey → Nat
  | index i => 2 * i.toNat
  | string s => 2 * (s.handle.index * UInt32.size + s.handle.generation.toNat) + 1

/-- The order of keys by their numbers, for search trees. It is not an order that anything shows. -/
def compare (a b : PropertyKey) : Ordering := Ord.compare a.code b.code

theorem code_inj {a b : PropertyKey} (h : a.code = b.code) : a = b := by
  match a, b with
  | index i, index j =>
    have : i.toNat = j.toNat := by simp only [code] at h; omega
    rw [UInt32.toNat_inj.mp this]
  | index i, string t => simp only [code] at h; omega
  | string s, index j => simp only [code] at h; omega
  | string ⟨⟨i, g⟩⟩, string ⟨⟨j, k⟩⟩ =>
    have hg := g.toNat_lt
    have hk := k.toNat_lt
    simp only [code, UInt32.size] at h
    have hi : i = j := by omega
    have : g.toNat = k.toNat := by omega
    rw [hi, UInt32.toNat_inj.mp this]

instance : Std.TransCmp compare where
  eq_swap {a b} := Std.OrientedOrd.eq_swap (a := a.code) (b := b.code)
  isLE_trans {a b c} := Std.TransOrd.isLE_trans (a := a.code) (b := b.code) (c := c.code)

instance : Std.LawfulEqCmp compare where
  compare_self {a} := Std.ReflOrd.compare_self (a := a.code)
  eq_of_compare h := code_inj (Std.LawfulEqCmp.eq_of_compare h)

/-- The handle that a key keeps alive, if any. -/
def handles : PropertyKey → List Handle
  | string s => [s.handle]
  | index _ => []

end PropertyKey

/-- Indices are below this bound, which is the largest 32-bit word. -/
def indexBound : Nat := UInt32.size - 1

/-- The decimal digit that a code unit writes. -/
def unitDigit? (u : UInt16) : Option Nat :=
  if 48 ≤ u.toNat ∧ u.toNat ≤ 57 then some (u.toNat - 48) else none

/-- Reads decimal digits after `value`, as long as the value stays a 32-bit word. -/
def indexDigits? : List UInt16 → Nat → Option Nat
  | [], value => some value
  | u :: us, value =>
    match unitDigit? u with
    | some d => if 10 * value + d ≤ indexBound then indexDigits? us (10 * value + d) else none
    | none => none

/-- The array index that a text writes, if it is the canonical form of one. -/
def arrayIndex? : List UInt16 → Option UInt32
  | [] => none
  | u :: us =>
    if u.toNat = 48 ∧ us ≠ [] then none
    else
      match indexDigits? (u :: us) 0 with
      | some n => if n < indexBound then some n.toUInt32 else none
      | none => none

/-- The array index that a number is, if it is one; both zeros are index zero. -/
def arrayIndexOfNumber? (x : Float) : Option UInt32 :=
  (Number.wholeBelow? indexBound x).map Nat.toUInt32

end ScriptCore
