import ScriptCore.Number.Binary

/-! # The fewest decimal digits that read back

A double stands for every real that rounds to it: an interval around its exact value, whose ends
belong to it when its significand is even. `shortest` looks at the decimal grids with one, two, …
digits and takes the first grid with a point in that interval, the nearer of the value's two
neighbours when both are in it, and the even one when both are equally near. -/

namespace ScriptCore.Number

/-- The decimal `significand · 10 ^ exponent`. -/
structure Decimal where
  significand : Nat
  exponent : Int
deriving DecidableEq, Repr, Inhabited

/-- The reals that round to one double: `low`, `value` and `high` over the common denominator
`den`; `closed` when the two ends round to it too. -/
structure Interval where
  low : Nat
  value : Nat
  high : Nat
  den : Nat
  closed : Bool
deriving Repr

/-- The interval of the double `significand · 2 ^ exponent`. The gap below a power of two is half
the gap above it, unless the exponent is already the least one. -/
def Interval.ofBinary (significand : Nat) (exponent : Int) : Interval :=
  let narrow := significand = Nat.pow 2 52 ∧ leastExponent < exponent
  let low := if narrow then 4 * significand - 1 else 4 * significand - 2
  let e := exponent - 2
  let scale := Nat.pow 2 e.toNat
  { low := low * scale
    value := 4 * significand * scale
    high := (4 * significand + 2) * scale
    den := Nat.pow 2 (-e).toNat
    closed := significand % 2 = 0 }

/-- The point `n / d` lies in the interval. -/
def Interval.contains (i : Interval) (n d : Nat) : Bool :=
  if i.closed then i.low * d ≤ n * i.den && n * i.den ≤ i.high * d
  else i.low * d < n * i.den && n * i.den < i.high * d

/-- Of the neighbours `f` and `f + 1` of `value / unit`, where `2 · f + 1` is compared with twice
the value: the nearer one, the even one when both are equally near. -/
def nearer (f twice unit : Nat) : Nat :=
  if twice < (2 * f + 1) * unit then f
  else if (2 * f + 1) * unit < twice then f + 1
  else if f % 2 = 0 then f else f + 1

/-- The grid point with step `stepNum / stepDen` to print for the interval, if one lies in it. -/
def Interval.pick? (i : Interval) (stepNum stepDen : Nat) : Option Nat :=
  let num := i.value * stepDen
  let den := i.den * stepNum
  let f := num / den
  let lower := i.contains (f * stepNum) stepDen
  let upper := i.contains ((f + 1) * stepNum) stepDen
  match lower, upper with
  | true, true => some (nearer f (2 * num) den)
  | true, false => some f
  | false, true => some (f + 1)
  | false, false => none

/-- The least `j ≤ steps` with `1 ≤ num · 10 ^ j / den`. -/
def leadingZeros : (steps num den : Nat) → Nat
  | 0, _, _ => 0
  | steps + 1, num, den => if den ≤ num then 0 else leadingZeros steps (10 * num) den + 1

/-- The number of decimal digits of `n`, at least one. -/
def digitCount (n : Nat) : Nat := (Nat.toDigits 10 n).length

/-- The position `p` with `10 ^ (p - 1) ≤ value < 10 ^ p`. -/
def Interval.position (i : Interval) : Int :=
  if i.den ≤ i.value then digitCount (i.value / i.den)
  else 1 - (leadingZeros 400 i.value i.den : Int)

/-- The decimal with the fewest digits from `digits` up, trying `tries` grids. -/
def Interval.search (i : Interval) (position : Int) : (tries digits : Nat) → Decimal
  | 0, _ => ⟨0, 0⟩
  | tries + 1, digits =>
    let e := position - digits
    match i.pick? (Nat.pow 10 e.toNat) (Nat.pow 10 (-e).toNat) with
    | some n => ⟨n, e⟩
    | none => i.search position tries (digits + 1)

/-- The decimal with the fewest digits that reads back as `significand · 2 ^ exponent`; seventeen
digits are always enough. -/
def shortest (significand : Nat) (exponent : Int) : Decimal :=
  let i := Interval.ofBinary significand exponent
  i.search i.position 17 1

end ScriptCore.Number
