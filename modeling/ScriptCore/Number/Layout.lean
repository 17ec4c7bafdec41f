import ScriptCore.Number.Literal
import ScriptCore.Number.Shortest

/-! # How a number is written

A number is written with the fewest digits that read back. The digits come as a text from a `Printer`, with a point
and with an exponent where the number is large or small, and are laid out anew: the zeros around them are dropped
while the point keeps its place among the digits. From `10 ^ -6` up to `10 ^ 21` the digits stand in
place, with no point when the number is whole; outside that range one digit stands before the point and a signed
exponent follows. Both zeros are written alike, without a sign. -/

namespace ScriptCore.Number

/-! ### The digits as a text -/

/-- The digits without the zeros at the end. -/
def dropTrailingZeros (ds : List Char) : List Char :=
  (ds.reverse.dropWhile (· == '0')).reverse

/-- The exponent, with a sign if it is negative. -/
def exponentText (e : Int) : List Char :=
  (if e < 0 then ['-'] else []) ++ Nat.toDigits 10 e.natAbs

/-- The text of a positive decimal: the digits in place, with at least one after the point, from `10 ^ -5` up to
`10 ^ 16`, and one digit before the point and an exponent outside that range. -/
def Decimal.text (d : Decimal) : List Char :=
  let all := Nat.toDigits 10 d.significand
  let digits := dropTrailingZeros all
  let k : Int := digits.length
  let point : Int := all.length + d.exponent
  if k ≤ point ∧ point ≤ 16 then digits ++ List.replicate (point - k).toNat '0' ++ ['.', '0']
  else if 0 < point ∧ point ≤ 16 then digits.take point.toNat ++ '.' :: digits.drop point.toNat
  else if -5 < point ∧ point ≤ 0 then '0' :: '.' :: (List.replicate (-point).toNat '0' ++ digits)
  else if k = 1 then digits ++ 'e' :: exponentText (point - 1)
  else digits.take 1 ++ '.' :: digits.drop 1 ++ 'e' :: exponentText (point - 1)

/-- What writes the digits of a positive double `significand · 2 ^ exponent` as a text: with a point, and with an
exponent where the number is large or small. -/
class Printer where
  text : (significand : Nat) → (exponent : Int) → List Char

/-- Writes the fewest digits that read back. Numbers are written so unless another printer is given. -/
instance Printer.shortest : Printer where
  text significand exponent := (Number.shortest significand exponent).text

/-! ### Reading such a text -/

/-- What stands before and after the first `c`, if there is one. -/
def splitOnce? (c : Char) : List Char → Option (List Char × List Char)
  | [] => none
  | d :: ds => if d = c then some ([], ds) else (splitOnce? c ds).map fun (a, b) => (d :: a, b)

/-- The 32-bit integer that a text writes, with an optional sign. -/
def word? (cs : List Char) : Option Int :=
  let (negative, ds) := splitSign cs
  if ds.isEmpty || !ds.all Char.isDigit then none
  else
    let n : Int := if negative then -(digitsValue ds : Int) else digitsValue ds
    if -2147483648 ≤ n ∧ n < 2147483648 then some n else none

/-- The digits without the first `n`, if there are as many. -/
def drain? (n : Nat) (ds : List Char) : Option (List Char) :=
  if n ≤ ds.length then some (ds.drop n) else none

/-- The first `n` digits and the others, if there are as many. -/
def splitAt? (n : Nat) (ds : List Char) : Option (List Char × List Char) :=
  if n ≤ ds.length then some (ds.take n, ds.drop n) else none

/-- The digits of a text and the power of ten after its mark; what cannot be read there counts as zero. -/
def splitExponent (text : List Char) : List Char × Int :=
  match splitOnce? 'e' text with
  | some (mantissa, e) => (mantissa, (word? e).getD 0)
  | none => (text, 0)

/-- The digits before and after the point. -/
def splitPoint (mantissa : List Char) : List Char × List Char :=
  (splitOnce? '.' mantissa).getD (mantissa, [])

/-- The number that a text writes as `0.digits · 10 ^ point`, the digits without zeros at either end. -/
def normalize? (text : List Char) : Option (List Char × Int) := do
  let (mantissa, exponent) := splitExponent text
  let (int, frac) := splitPoint mantissa
  let all := int ++ frac
  let leading := all.length - (all.dropWhile (· == '0')).length
  let digits ← drain? leading all
  return (dropTrailingZeros digits, int.length + exponent - leading)

/-! ### Laying it out -/

/-- The exponent with its sign, which is always written. -/
def signedExponent (e : Int) : List Char :=
  (if 0 ≤ e then '+' else '-') :: Nat.toDigits 10 e.natAbs

/-- Writes `0.digits · 10 ^ point`. -/
def place? (digits : List Char) (point : Int) : Option (List Char) :=
  let k : Int := digits.length
  if k ≤ point ∧ point ≤ 21 then
    some (digits ++ List.replicate (point - k).toNat '0')
  else if 0 < point ∧ point ≤ 21 then do
    let (head, tail) ← splitAt? point.toNat digits
    return head ++ '.' :: tail
  else if -6 < point ∧ point ≤ 0 then
    some ('0' :: '.' :: (List.replicate (-point).toNat '0' ++ digits))
  else do
    let (first, rest) ← splitAt? 1 digits
    let fraction := if rest.isEmpty then [] else '.' :: rest
    return first ++ fraction ++ 'e' :: signedExponent (point - 1)

/-- Lays out the number that a text writes. There is no layout if the text would have to be split or cut where it
has no digits. -/
def layout? (text : List Char) : Option (List Char) := do
  let (digits, point) ← normalize? text
  place? digits point

/-- The text of a double. -/
def toString [Printer] (x : Float) : String :=
  match decode x with
  | none => if x.isNaN then "NaN" else if 0.0 < x then "Infinity" else "-Infinity"
  | some b =>
    if b.significand = 0 then "0"
    else
      let digits := (layout? (Printer.text b.significand b.exponent)).getD []
      String.ofList (if b.negative then '-' :: digits else digits)

end ScriptCore.Number
