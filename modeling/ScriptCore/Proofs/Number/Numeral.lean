import Mathlib.Algebra.Order.Field.Power
import Mathlib.Data.List.Induction
import Mathlib.Tactic.Ring
import Mathlib.Tactic.FieldSimp
import Mathlib.Tactic.NormNum
import ScriptCore.Number.Layout

/-! # Numerals

A numeral is digits, perhaps a point with digits after it, and perhaps an exponent with a sign. It denotes a
rational number, and it is tidy when it has no zero that could be left out.

* `digitsValue_append`, `eq_toDigits`: what digits are worth in place, and that nothing else stands for the number.
* `Numeral.value`: **the number that a numeral denotes.**
* `Numeral.Tidy`: no zero that could be left out. -/

namespace ScriptCore.Number

/-! ### Digits -/

/-- At least one decimal digit, and nothing else. -/
def IsDigits (ds : List Char) : Prop := ds ≠ [] ∧ ∀ c ∈ ds, c.isDigit = true

variable {a b ds : List Char} {c : Char} {n : Nat}

theorem digitsValue_eq (ds : List Char) : digitsValue ds = Nat.ofDigitChars 10 ds 0 :=
  Nat.ofDigitChars_eq_foldl.symm

theorem digitsValue_cons (c : Char) (ds : List Char) :
    digitsValue (c :: ds) = (c.toNat - 48) * 10 ^ ds.length + digitsValue ds := by
  rw [digitsValue_eq, digitsValue_eq, Nat.ofDigitChars_cons, Nat.ofDigitChars_eq_ofDigitChars_zero,
    Nat.mul_zero, Nat.zero_add, Nat.mul_comm]
  rfl

/-- **Digits before others count by their places.** -/
theorem digitsValue_append (a b : List Char) :
    digitsValue (a ++ b) = digitsValue a * 10 ^ b.length + digitsValue b := by
  rw [digitsValue_eq, digitsValue_eq, digitsValue_eq, Nat.ofDigitChars_append,
    Nat.ofDigitChars_eq_ofDigitChars_zero, Nat.mul_comm]

theorem digitsValue_zeros (n : Nat) : digitsValue (List.replicate n '0') = 0 := by
  rw [digitsValue_eq, Nat.ofDigitChars_replicate_zero, Nat.mul_zero]

theorem digitsValue_toDigits (n : Nat) : digitsValue (Nat.toDigits 10 n) = n := by
  rw [digitsValue_eq, Nat.ofDigitChars_toDigits (by decide) (by decide)]

theorem isDigits_toDigits (n : Nat) : IsDigits (Nat.toDigits 10 n) :=
  ⟨Nat.toDigits_ne_nil, fun _ hc => Nat.isDigit_of_mem_toDigits (by decide) (by decide) hc⟩

theorem toNat_of_isDigit (h : c.isDigit = true) : 48 ≤ c.toNat ∧ c.toNat ≤ 57 := by
  simpa [Char.isDigit, UInt32.le_iff_toNat_le] using h

theorem ne_of_isDigit {d : Char} (h : c.isDigit = true) (hd : d.isDigit = false) : c ≠ d := by
  rintro rfl
  rw [h] at hd
  cases hd

theorem digitsValue_lt : ∀ {ds : List Char}, (∀ c ∈ ds, c.isDigit = true) → digitsValue ds < 10 ^ ds.length
  | [], _ => by decide
  | c :: ds, h => by
    have hds := digitsValue_lt fun d hd => h d (List.mem_cons_of_mem _ hd)
    have hc := (toNat_of_isDigit (h c (List.mem_cons_self ..))).2
    rw [digitsValue_cons, List.length_cons, Nat.pow_succ]
    have : (c.toNat - 48) * 10 ^ ds.length ≤ 9 * 10 ^ ds.length := Nat.mul_le_mul_right _ (by omega)
    omega

/-- Digits that do not begin with a zero are worth at least their first place. -/
theorem le_digitsValue (h : IsDigits ds) (hhead : ds.head? ≠ some '0') :
    10 ^ (ds.length - 1) ≤ digitsValue ds := by
  obtain ⟨hne, hdigit⟩ := h
  cases ds with
  | nil => exact absurd rfl hne
  | cons c ds =>
    have hc := (toNat_of_isDigit (hdigit c (List.mem_cons_self ..))).1
    have hzero : c.toNat ≠ 48 := fun h => hhead (congrArg some (Char.toNat_inj.mp h))
    rw [digitsValue_cons, List.length_cons, Nat.add_sub_cancel]
    exact Nat.le_trans (Nat.le_mul_of_pos_left _ (by omega)) (Nat.le_add_right _ _)

/-- Nothing but a number's own digits could stand for it: there is one way to write it without a zero in front. -/
theorem eq_toDigits (h : IsDigits ds) (hhead : ds.head? ≠ some '0') : ds = Nat.toDigits 10 (digitsValue ds) := by
  induction ds using List.reverseRecOn with
  | nil => exact absurd rfl h.1
  | append_singleton a c ih =>
    obtain ⟨hlow, hhigh⟩ := toNat_of_isDigit (h.2 c (by simp))
    have hlast : Nat.toDigits 10 (c.toNat - 48) = [c] := by
      rw [Nat.toDigits_of_lt_base (by omega), List.cons.injEq]
      refine ⟨Char.toNat_inj.mp ?_, rfl⟩
      rw [Nat.toNat_digitChar_of_lt_ten (by omega)]
      omega
    have hvalue : digitsValue (a ++ [c]) = 10 * digitsValue a + (c.toNat - 48) := by
      rw [digitsValue_append, digitsValue_cons]
      simp [digitsValue, Nat.mul_comm]
    cases a with
    | nil =>
      rw [hvalue, show digitsValue [] = 0 from rfl, Nat.mul_zero, Nat.zero_add, hlast]
      rfl
    | cons d a =>
      have ha : IsDigits (d :: a) := ⟨List.cons_ne_nil _ _, fun x hx => h.2 x (List.mem_append_left _ hx)⟩
      have hpos := Nat.lt_of_lt_of_le (Nat.pow_pos (by decide)) (le_digitsValue ha hhead)
      rw [hvalue, ← Nat.toDigits_append_toDigits (by decide) hpos (by omega), ← ih ha hhead, hlast]

theorem head?_toDigits (hn : n ≠ 0) : (Nat.toDigits 10 n).head? ≠ some '0' := by
  induction n using Nat.strongRecOn with
  | _ n ih =>
    by_cases hlt : n < 10
    · rw [Nat.toDigits_of_lt_base hlt]
      simpa using hn
    · rw [Nat.toDigits_of_base_le (by decide) (by omega), List.head?_append_of_ne_nil _ Nat.toDigits_ne_nil]
      exact ih (n / 10) (by omega) (by omega)

/-! ### Numerals -/

/-- How the sign of an exponent is written. -/
inductive SignMark where
  | absent
  | plus
  | minus
deriving DecidableEq

namespace SignMark

def text : SignMark → List Char
  | absent => []
  | plus => ['+']
  | minus => ['-']

/-- A number with the sign. -/
def apply (n : Nat) : SignMark → Int
  | minus => -n
  | absent | plus => n

end SignMark

/-- A written number: digits, the digits after a point, and an exponent. -/
structure Numeral where
  whole : List Char
  fraction : Option (List Char)
  exponent : Option (SignMark × List Char)

namespace Numeral

/-- The digits, with the point between them. -/
def mantissa (w : Numeral) : List Char :=
  match w.fraction with
  | none => w.whole
  | some ds => w.whole ++ '.' :: ds

/-- What is written. -/
def text (w : Numeral) : List Char :=
  match w.exponent with
  | none => w.mantissa
  | some (sign, ds) => w.mantissa ++ 'e' :: (sign.text ++ ds)

/-- The power of ten that the exponent says. -/
def power (w : Numeral) : Int :=
  match w.exponent with
  | none => 0
  | some (sign, ds) => sign.apply (digitsValue ds)

/-- The digits after the point. -/
def places (w : Numeral) : List Char := w.fraction.getD []

/-- **The number that a numeral denotes.** -/
def value (w : Numeral) : ℚ :=
  (digitsValue w.whole + digitsValue w.places / 10 ^ w.places.length) * 10 ^ w.power

/-- There are digits wherever there have to be. -/
structure WellFormed (w : Numeral) : Prop where
  whole : IsDigits w.whole
  fraction : ∀ ds, w.fraction = some ds → IsDigits ds
  exponent : ∀ sign ds, w.exponent = some (sign, ds) → IsDigits ds

/-- **No zero could be left out**, neither in front of the number, nor at the end of its places, nor in the
exponent; and where there is an exponent, it has a sign and one digit stands before the point. -/
structure Tidy (w : Numeral) : Prop where
  whole : w.whole = ['0'] ∨ w.whole.head? ≠ some '0'
  fraction : ∀ ds, w.fraction = some ds → ds.getLast? ≠ some '0'
  exponent : ∀ sign ds, w.exponent = some (sign, ds) →
    sign ≠ .absent ∧ ds.head? ≠ some '0' ∧ w.whole.length = 1 ∧ w.whole ≠ ['0']

/-- The value by all digits and the place of the point. -/
theorem value_eq (w : Numeral) :
    w.value = digitsValue (w.whole ++ w.places) * 10 ^ (w.power - w.places.length) := by
  have hten : (10 : ℚ) ≠ 0 := by norm_num
  have hpos : (10 : ℚ) ^ w.places.length ≠ 0 := pow_ne_zero _ hten
  unfold value
  rw [digitsValue_append, zpow_sub₀ hten, zpow_natCast]
  push_cast
  field_simp

end Numeral

end ScriptCore.Number
