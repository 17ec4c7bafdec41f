import Mathlib
import ScriptCore.Property.Descriptor

/-! # Equal doubles

The lemmas on equality of doubles come with the whole of Mathlib and with no single module of it. They are used here
alone, for the two facts that the semantics rests on: equality is symmetric, and what `sameValue` does not tell apart
is one value.

* `Number.beq_comm`: doubles are equal either way round.
* `Value.sameValue_iff`: **values that are indistinguishable are equal.** -/

namespace ScriptCore

variable {v w : Value}

theorem Number.beq_comm (a b : Float) : (a == b) = (b == a) := BEq.comm

/-- The two zeros are equal to zero. -/
theorem Number.zeros {a b : Float} (h : a = 0 ∧ b = -0 ∨ a = -0 ∧ b = 0) : (a == 0.0 && b == 0.0) = true := by
  rcases h with ⟨rfl, rfl⟩ | ⟨rfl, rfl⟩ <;> decide +kernel

/-- **Indistinguishable values are equal.** -/
theorem Value.sameValue_iff : v.sameValue w = true ↔ v = w := by
  cases v with
  | number a =>
    cases w with
    | number b =>
      rw [Value.number.injEq]
      simp only [sameValue, Float.isNaN_eq_decide_eq_nan]
      split
      · simp_all
      · split
        · rw [beq_iff_eq, Float.toBits_inj]
        · have hzeros := @Number.zeros a b
          rw [Float.beq_iff_ne_nan_and_eq]
          grind
    | _ => simp [sameValue, strictEquals]
  | _ => cases w <;> simp [sameValue, strictEquals]

theorem Value.sameValue_refl (v : Value) : v.sameValue v = true := sameValue_iff.mpr rfl

end ScriptCore
