import ScriptCore.Text.Shown

/-! # Text: sequences of 16-bit code units

The contents of a string value are code units, not characters: indexing selects one unit, and a
surrogate may stand without its partner. `Text.ofString` writes characters as units; the other
way, `Text.lossy`, puts the replacement character in the place of every unpaired surrogate.

* `Text.compare` orders by code unit, not by character: a character beyond the first plane is
  written with surrogates and so stands before the last units of the first plane. -/

namespace ScriptCore

/-- The contents of a string value. -/
structure Text where
  units : Array UInt16
deriving DecidableEq, Inhabited, Repr

namespace Text

/-! ### Characters and units -/

/-- The first half of a surrogate pair. -/
def isHigh (u : UInt16) : Bool := 0xD800 ≤ u && u < 0xDC00

/-- The second half of a surrogate pair. -/
def isLow (u : UInt16) : Bool := 0xDC00 ≤ u && u < 0xE000

/-- The character that stands for what cannot be shown. -/
def replacement : Char := '\uFFFD'

/-- One unit for a character of the first plane, two for any other. -/
def unitsOfChar (c : Char) : List UInt16 :=
  let n := c.toNat
  if n < 0x10000 then [n.toUInt16]
  else
    let m := n - 0x10000
    [(0xD800 + m / 0x400).toUInt16, (0xDC00 + m % 0x400).toUInt16]

/-- The character that a surrogate pair writes. -/
def charOfPair (high low : UInt16) : Char :=
  Char.ofNat (0x10000 + (high.toNat - 0xD800) * 0x400 + (low.toNat - 0xDC00))

/-- The text that writes `s`. -/
def ofString (s : String) : Text := ⟨(s.toList.flatMap unitsOfChar).toArray⟩

/-- What the units from some position on read as: the characters, and a second half of a pair that
stands in front of them and waits for its first half. -/
structure Reading where
  waiting : Option UInt16
  chars : List Char

/-- The characters read, with the unit in front replaced if its first half did not come. -/
def Reading.settle (r : Reading) : List Char :=
  match r.waiting with
  | some _ => replacement :: r.chars
  | none => r.chars

/-- Puts a unit in front of what has been read. -/
def Reading.cons (u : UInt16) (r : Reading) : Reading :=
  if isHigh u then
    match r.waiting with
    | some low => ⟨none, charOfPair u low :: r.chars⟩
    | none => ⟨none, replacement :: r.chars⟩
  else if isLow u then ⟨some u, r.settle⟩
  else ⟨none, Char.ofNat u.toNat :: r.settle⟩

/-- The characters of a list of units, unpaired surrogates replaced. -/
def lossyChars (units : List UInt16) : List Char := (units.foldr Reading.cons ⟨none, []⟩).settle

/-- The text as a string, unpaired surrogates replaced. -/
def lossy (t : Text) : String := String.ofList (lossyChars t.units.toList)

/-- Every surrogate of the text stands in a pair. -/
def wellFormed (t : Text) : Bool := ofString t.lossy == t

/-! ### Measures, selection and order -/

/-- The number of code units. -/
def length (t : Text) : Nat := t.units.size

def isEmpty (t : Text) : Bool := t.units.isEmpty

/-- The unit at position `i`, if there is one. -/
def unitAt? (t : Text) (i : Nat) : Option UInt16 := t.units[i]?

/-- The two texts one after the other. -/
def append (a b : Text) : Text := ⟨a.units ++ b.units⟩

instance : Append Text := ⟨append⟩

/-- The order of texts: lexicographic, by code unit. -/
def compare (a b : Text) : Ordering := Ord.compare a.units.toList b.units.toList

/-- `a` stands strictly before `b`. -/
def lt (a b : Text) : Bool := a.compare b == .lt

/-! ### Diagnostic form -/

/-- A character inside double quotes, escaped where it has to be. -/
def quotedChar (c : Char) : List Char :=
  if c = '"' then ['\\', '"']
  else if c = '\\' then ['\\', '\\']
  else if c = '\n' then ['\\', 'n']
  else if c = '\r' then ['\\', 'r']
  else if c = '\t' then ['\\', 't']
  else if c.toNat = 0 then ['\\', '0']
  else if isShown c then [c]
  else "\\u\x7b".toList ++ Nat.toDigits 16 c.toNat ++ "\x7d".toList

/-- A string in double quotes. -/
def quoted (s : String) : String :=
  "\"" ++ String.ofList (s.toList.flatMap quotedChar) ++ "\""

/-- The diagnostic form of a text: its length and its lossy contents. -/
def describe (t : Text) : String :=
  "JsString \x7b len_code_units: " ++ toString t.length ++ ", utf8_lossy: " ++ quoted t.lossy ++ " \x7d"

end Text

end ScriptCore
