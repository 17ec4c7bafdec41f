import ScriptCore.Number.Binary

/-! # How numeric text is read

Blanks at both ends are dropped. What is left may be empty (zero), `Infinity` with an optional
sign, an unsigned integer after `0x`, `0o` or `0b`, or an optionally signed decimal with an optional
exponent. Anything else is not-a-number.

* `read?` reads decimals, and in any case of letters the names of the doubles that no decimal writes. Numeric
  text has only one of these names, so the names are turned away before.
* `decimal?` is the grammar of decimals, with the value as digits and an exponent.
* `ofDigits` rounds that value to the nearest double, however many digits there are.
* `radixValue?` accumulates in doubles, one digit at a time, so long literals round at each digit. -/

namespace ScriptCore.Number

/-! ### Blanks -/

/-- The characters that may surround a number: controls of layout, spaces and line separators. -/
def isBlank (c : Char) : Bool :=
  let n := c.toNat
  (0x09 ≤ n && n ≤ 0x0D) || n == 0x20 || n == 0xA0 || n == 0x1680 || (0x2000 ≤ n && n ≤ 0x200A)
    || n == 0x2028 || n == 0x2029 || n == 0x202F || n == 0x205F || n == 0x3000 || n == 0xFEFF

/-- The text without blanks at either end. -/
def trim (cs : List Char) : List Char :=
  ((cs.dropWhile isBlank).reverse.dropWhile isBlank).reverse

/-! ### Radix literals -/

/-- The value of a digit of any radix up to sixteen. -/
def digit? (c : Char) : Option Nat :=
  if '0' ≤ c && c ≤ '9' then some (c.toNat - '0'.toNat)
  else if 'a' ≤ c && c ≤ 'f' then some (c.toNat - 'a'.toNat + 10)
  else if 'A' ≤ c && c ≤ 'F' then some (c.toNat - 'A'.toNat + 10)
  else none

/-- Adds the digits of `cs` to `value`, which is shifted up once for each. -/
def accumulate? (radix : Nat) : List Char → Float → Option Float
  | [], value => some value
  | c :: cs, value =>
    match digit? c with
    | some d =>
      if d < radix then accumulate? radix cs (value * ofCount radix + ofCount d) else none
    | none => none

/-- The value of one or more digits in `radix`. -/
def radixValue? (radix : Nat) (cs : List Char) : Option Float :=
  if cs.isEmpty then none else accumulate? radix cs 0.0

/-- The radix announced by the first two characters, and what follows them. -/
def radixLiteral? : List Char → Option (Nat × List Char)
  | '0' :: 'x' :: cs | '0' :: 'X' :: cs => some (16, cs)
  | '0' :: 'b' :: cs | '0' :: 'B' :: cs => some (2, cs)
  | '0' :: 'o' :: cs | '0' :: 'O' :: cs => some (8, cs)
  | _ => none

/-! ### Decimals -/

/-- The value of a list of decimal digits. -/
def digitsValue (cs : List Char) : Nat :=
  cs.foldl (fun n c => 10 * n + (c.toNat - '0'.toNat)) 0

/-- The value of the digits of an exponent. Once it has reached `2 ^ 16`, the digits that are left do
not count. -/
def exponentValue (cs : List Char) : Nat :=
  cs.foldl (fun n c => if n < Nat.pow 2 16 then 10 * n + (c.toNat - '0'.toNat) else n) 0

/-- An optional sign and what follows it; `true` for minus. -/
def splitSign : List Char → Bool × List Char
  | '-' :: cs => (true, cs)
  | '+' :: cs => (false, cs)
  | cs => (false, cs)

/-- The exponent that `cs` writes, if it is empty or a mark, an optional sign and digits. -/
def exponent? : List Char → Option Int
  | [] => some 0
  | c :: cs =>
    if c = 'e' || c = 'E' then
      let (negative, ds) := splitSign cs
      if ds.isEmpty || !ds.all Char.isDigit then none
      else some (if negative then -(exponentValue ds : Int) else exponentValue ds)
    else none

/-- An unsigned decimal: digits with an optional point, at least one digit, an optional exponent. The
value is that of the digits times ten to the second component. -/
def decimal? (cs : List Char) : Option (List Char × Int) :=
  let int := cs.takeWhile Char.isDigit
  let rest := cs.dropWhile Char.isDigit
  let (frac, tail) := match rest with
    | '.' :: r => (r.takeWhile Char.isDigit, r.dropWhile Char.isDigit)
    | _ => ([], rest)
  if int.isEmpty && frac.isEmpty then none
  else (exponent? tail).map fun e => (int ++ frac, e - frac.length)

/-- More digits than a number halfway between two doubles can have. -/
def decisiveDigits : Nat := 800

/-- Digits without leading zeros and an exponent that round as the given ones do. Of the digits after
the decisive ones it only matters whether one of them is not zero; a one in their place says so. -/
def condense (ds : List Char) (e : Int) : Nat × Int :=
  let rest := ds.drop decisiveDigits
  let m := digitsValue (ds.take decisiveDigits)
  if rest.all (· == '0') then (m, e + rest.length) else (10 * m + 1, e + rest.length - 1)

/-- The double nearest to the value of the digits times `10 ^ e`. Far outside the range of doubles the
answer is known without computing the power. -/
def ofDigits (digits : List Char) (e : Int) : Float :=
  let ds := digits.dropWhile (· == '0')
  let size : Int := ds.length + e
  if ds.isEmpty then 0.0
  else if 400 < size then infinity
  else if size < -400 then 0.0
  else
    let (m, e) := condense ds e
    Float.ofScientific m (e < 0) e.natAbs

/-! ### Names -/

/-- The text is `name`, a name in small letters, up to the case of letters. -/
def isNamed (name : String) (cs : List Char) : Bool := cs.map Char.toLower == name.toList

/-- The double with a sign. -/
def signed (negative : Bool) (x : Float) : Float := if negative then -x else x

/-- The double that an optionally signed name or decimal writes. -/
def read? (cs : List Char) : Option Float :=
  let (negative, rest) := splitSign cs
  if isNamed "inf" rest || isNamed "infinity" rest then some (signed negative infinity)
  else if isNamed "nan" rest then some (signed negative nan)
  else (decimal? rest).map fun (digits, e) => signed negative (ofDigits digits e)

/-! ### Numeric text -/

/-- The number that a text writes, blanks already dropped. -/
def readTrimmed (cs : List Char) : Float :=
  if cs.isEmpty then 0.0
  else if cs = "Infinity".toList ∨ cs = "+Infinity".toList then infinity
  else if cs = "-Infinity".toList then -infinity
  else
    let rest := (splitSign cs).2
    if isNamed "inf" rest || isNamed "infinity" rest || isNamed "nan" rest then nan
    else
      match radixLiteral? cs with
      | some (radix, digits) => (radixValue? radix digits).getD nan
      | none => (read? cs).getD nan

/-- The number that a text writes; not-a-number if it writes none. -/
def ofString (s : String) : Float := readTrimmed (trim s.toList)

end ScriptCore.Number
