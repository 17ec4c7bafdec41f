/-! # Doubles as exact binary fractions

A finite double is `±significand · 2 ^ exponent`. Everything here works on that form, in exact
integer arithmetic: whether a number is whole, the remainder of a division, and the way back from
an exactly representable fraction to the double.

* `whole?`: the integer that a double is, if it is one.
* `remainder`: the exact remainder of a truncated division, with the sign of the dividend. -/

namespace ScriptCore.Number

/-- A finite double: `±significand · 2 ^ exponent`. -/
structure Binary where
  negative : Bool
  significand : Nat
  exponent : Int
deriving DecidableEq, Repr

/-- The exponent of the smallest subnormal double. -/
def leastExponent : Int := -1074

/-- The binary fraction that a double is; `none` for infinities and not-a-number. -/
def decode (x : Float) : Option Binary :=
  let bits : Nat := x.toBits.toNat
  let negative := bits / Nat.pow 2 63 == 1
  let field : Nat := bits / Nat.pow 2 52 % Nat.pow 2 11
  let fraction := bits % Nat.pow 2 52
  if field = 2047 then none
  else if field = 0 then some ⟨negative, fraction, leastExponent⟩
  else some ⟨negative, fraction + Nat.pow 2 52, (field : Int) - 1075⟩

/-- The biased exponent and fraction fields of `significand · 2 ^ (leastExponent + above)`, shifting
the significand up until it fills 53 bits or the exponent cannot go lower. -/
def normalize : (above significand : Nat) → Nat × Nat
  | 0, s => if s < Nat.pow 2 52 then (0, s) else (1, s - Nat.pow 2 52)
  | above + 1, s => if s < Nat.pow 2 52 then normalize above (2 * s) else (above + 2, s - Nat.pow 2 52)

/-- The double `±significand · 2 ^ exponent`, for a significand below `2 ^ 53` and an exponent from
`leastExponent` up. -/
def Binary.toFloat (b : Binary) : Float :=
  let sign := if b.negative then Nat.pow 2 63 else 0
  let (field, fraction) := normalize (b.exponent - leastExponent).toNat b.significand
  Float.ofBits (sign + field * Nat.pow 2 52 + fraction).toUInt64

/-- The count `n` as a double, exact below `2 ^ 53`. -/
def ofCount (n : Nat) : Float := n.toUInt64.toFloat

/-- The integer that a finite binary fraction is, if it is one. -/
def Binary.whole? (b : Binary) : Option Int :=
  let sign (n : Nat) : Int := if b.negative then -(n : Int) else n
  if 0 ≤ b.exponent then some (sign (b.significand * Nat.pow 2 b.exponent.toNat))
  else
    let den := Nat.pow 2 (-b.exponent).toNat
    if b.significand % den = 0 then some (sign (b.significand / den)) else none

/-- The integer that a double is, if it is one; both zeros are the integer zero. -/
def whole? (x : Float) : Option Int := (decode x).bind Binary.whole?

/-- The natural number below `bound` that a double is, if it is one. -/
def wholeBelow? (bound : Nat) (x : Float) : Option Nat :=
  (whole? x).bind fun n => if 0 ≤ n ∧ n < bound then some n.toNat else none

/-- Not-a-number. -/
def nan : Float := 0.0 / 0.0

/-- Positive infinity. -/
def infinity : Float := 1.0 / 0.0

/-- The remainder of finite fractions: both scaled to the lower exponent, divided exactly. -/
def Binary.remainder (a b : Binary) : Binary :=
  let e := min a.exponent b.exponent
  let scaled (x : Binary) : Nat := x.significand * Nat.pow 2 (x.exponent - e).toNat
  ⟨a.negative, scaled a % scaled b, e⟩

/-- The remainder `x - y · n` for the quotient `n` truncated toward zero. It has the sign of `x`;
an infinite `x` or a zero `y` has none, and an infinite `y` leaves `x` as it is. -/
def remainder (x y : Float) : Float :=
  match decode x, decode y with
  | some a, some b =>
    if b.significand = 0 then nan
    else if a.significand = 0 then x
    else (a.remainder b).toFloat
  | some _, none => if y.isNaN then nan else x
  | none, _ => nan

end ScriptCore.Number
