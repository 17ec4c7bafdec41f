import ScriptCore.Operator
import ScriptCore.Proofs.Renaming.Properties

/-! # Operators go alike

The binary operators on operands that are alike: equality with conversion, addition and comparison.
Strings and objects are compared by their handles, which is the same on both sides because pairs are
one-to-one.

* `sim_looseEquals`, `sim_addValues`, `sim_lessThan`, and `sim_applyBinary` for all operators. -/

namespace ScriptCore

variable {M : Mode} {ρ ρ' : Renaming} {E₁ E₂ : Engine}

section

variable (hE : Engine.Sim M E₁ E₂)

include hE

/-! ### Equality with conversion -/

theorem sim_looseRounds : ∀ (rounds : Nat) (ρ : Renaming) (a a' b b' : Value), Alike ρ a a' →
    Alike ρ b b' → Sim M ρ Alike (looseRounds E₁ rounds a b) (looseRounds E₂ rounds a' b')
  | 0, _, _, _, _, _, _, _ => .pure rfl
  | rounds + 1, ρ, a, a', b, b', ha, hb => by
    -- each round answers, or converts one operand and goes on
    have numberLeft : Sim M ρ Alike
        (toNumber E₁ a >>= fun x => looseRounds E₁ rounds (.number x) b)
        (toNumber E₂ a' >>= fun x => looseRounds E₂ rounds (.number x) b') :=
      (sim_toNumber hE ha).bind fun ρ₁ hρ₁ x y hxy => by
        obtain rfl : x = y := hxy
        exact sim_looseRounds rounds ρ₁ _ _ _ _ (.number x) (hb.mono hρ₁)
    have numberRight : Sim M ρ Alike
        (toNumber E₁ b >>= fun x => looseRounds E₁ rounds a (.number x))
        (toNumber E₂ b' >>= fun x => looseRounds E₂ rounds a' (.number x)) :=
      (sim_toNumber hE hb).bind fun ρ₁ hρ₁ x y hxy => by
        obtain rfl : x = y := hxy
        exact sim_looseRounds rounds ρ₁ _ _ _ _ (ha.mono hρ₁) (.number x)
    have primitiveLeft : Sim M ρ Alike
        (toPrimitive E₁ a .default >>= fun p => looseRounds E₁ rounds p b)
        (toPrimitive E₂ a' .default >>= fun p => looseRounds E₂ rounds p b') :=
      (sim_toPrimitive hE .default ha).bind fun ρ₁ hρ₁ p q hpq =>
        sim_looseRounds rounds ρ₁ _ _ _ _ hpq.1 (hb.mono hρ₁)
    have primitiveRight : Sim M ρ Alike
        (toPrimitive E₁ b .default >>= fun p => looseRounds E₁ rounds a p)
        (toPrimitive E₂ b' .default >>= fun p => looseRounds E₂ rounds a' p) :=
      (sim_toPrimitive hE .default hb).bind fun ρ₁ hρ₁ p q hpq =>
        sim_looseRounds rounds ρ₁ _ _ _ _ (ha.mono hρ₁) hpq.1
    have equals : ∀ {ρ : Renaming} {v v' w w' : Value}, Alike ρ v v' → Alike ρ w w' →
        Sim M ρ Alike (pure (v.strictEquals w) : Run Bool) (pure (v'.strictEquals w')) := by
      intro ρ v v' w w' hv hw
      refine Sim.assume (P := v.strictEquals w = v'.strictEquals w')
        (fun ρ' hρ _ _ hh => hh.strictEquals (hv.mono hρ) (hw.mono hρ)) fun heq => ?_
      rw [heq]
      exact .pure rfl
    cases ha with
    | undefined => cases hb <;> first | exact .pure rfl | exact numberRight
    | null => cases hb <;> first | exact .pure rfl | exact numberRight
    | bool x => cases hb <;> first | exact .pure rfl | exact numberLeft
    | number x =>
      cases hb with
      | bool y => exact numberRight
      | string hs => exact numberRight
      | object ho => exact primitiveRight
      | undefined => exact .pure rfl
      | null => exact .pure rfl
      | number y => exact .pure rfl
    | string hs =>
      cases hb with
      | bool y => exact numberRight
      | number y => exact numberLeft
      | string ht => exact equals (.string hs) (.string ht)
      | undefined => exact .pure rfl
      | null => exact .pure rfl
      | object ho =>
        refine (sim_toPrimitive hE .string (.object ho)).bind fun ρ₁ hρ₁ p q hpq => ?_
        obtain ⟨hpq, -⟩ := hpq
        cases hpq with
        | string ht => exact equals (.string (hs.mono hρ₁)) (.string ht)
        | undefined => exact sim_looseRounds rounds ρ₁ _ _ _ _ (.string (hs.mono hρ₁)) .undefined
        | null => exact sim_looseRounds rounds ρ₁ _ _ _ _ (.string (hs.mono hρ₁)) .null
        | bool y => exact sim_looseRounds rounds ρ₁ _ _ _ _ (.string (hs.mono hρ₁)) (.bool y)
        | number y => exact sim_looseRounds rounds ρ₁ _ _ _ _ (.string (hs.mono hρ₁)) (.number y)
        | object hp => exact sim_looseRounds rounds ρ₁ _ _ _ _ (.string (hs.mono hρ₁)) (.object hp)
    | object ho =>
      cases hb with
      | bool y => exact numberRight
      | number y => exact primitiveLeft
      | object hp => exact equals (.object ho) (.object hp)
      | undefined => exact .pure rfl
      | null => exact .pure rfl
      | string ht =>
        refine (sim_toPrimitive hE .string (.object ho)).bind fun ρ₁ hρ₁ p q hpq => ?_
        obtain ⟨hpq, -⟩ := hpq
        cases hpq with
        | string hs => exact equals (.string hs) (.string (ht.mono hρ₁))
        | undefined => exact sim_looseRounds rounds ρ₁ _ _ _ _ .undefined (.string (ht.mono hρ₁))
        | null => exact sim_looseRounds rounds ρ₁ _ _ _ _ .null (.string (ht.mono hρ₁))
        | bool y => exact sim_looseRounds rounds ρ₁ _ _ _ _ (.bool y) (.string (ht.mono hρ₁))
        | number y => exact sim_looseRounds rounds ρ₁ _ _ _ _ (.number y) (.string (ht.mono hρ₁))
        | object hp => exact sim_looseRounds rounds ρ₁ _ _ _ _ (.object hp) (.string (ht.mono hρ₁))

theorem sim_looseEquals {a a' b b' : Value} (ha : Alike ρ a a') (hb : Alike ρ b b') :
    Sim M ρ Alike (looseEquals E₁ a b) (looseEquals E₂ a' b') :=
  sim_looseRounds hE 4 ρ a a' b b' ha hb

/-! ### Addition and comparison -/

omit hE in
theorem sim_readText {s t : StringRef} (hs : Alike ρ s t) :
    Sim M ρ Alike (Run.readHeap fun h => h.text s) (Run.readHeap fun h => h.text t) := by
  refine Sim.readHeap fun ρ' hρ h₁ h₂ hh => ?_
  obtain ⟨x, hx, hy⟩ := hh.text (hs.mono hρ)
  rw [hx, hy]
  exact .ok rfl

omit hE in
theorem sim_concat {a a' b b' : StringRef} (ha : Alike ρ a a') (hb : Alike ρ b b') :
    Sim M ρ Alike (concat a b) (concat a' b') := by
  refine (sim_readText ha).bind fun ρ₁ hρ₁ x x' hx => ?_
  obtain rfl : x = x' := hx
  refine (sim_readText (hb.mono hρ₁)).bind fun ρ₂ hρ₂ y y' hy => ?_
  obtain rfl : y = y' := hy
  exact (Heap.sim_intern _).onHeap

theorem sim_stringAdd {s t : StringRef} {v w : Value} (hs : Alike ρ s t) (hv : Alike ρ v w) :
    Sim M ρ Alike (stringAdd E₁ s v) (stringAdd E₂ t w) :=
  (sim_toPrimitive hE .string hv).bind fun _ hρ₁ _ _ hp =>
    (sim_toStringRef hE hp.1).bind fun _ hρ₂ _ _ ht => sim_concat ((hs.mono hρ₁).mono hρ₂) ht

theorem sim_addValues {a a' b b' : Value} (ha : Alike ρ a a') (hb : Alike ρ b b') :
    Sim M ρ Alike (addValues E₁ a b) (addValues E₂ a' b') := by
  refine (sim_toPrimitive hE .default ha).bind fun ρ₁ hρ₁ p p' hp => ?_
  refine (sim_toPrimitive hE .default (hb.mono hρ₁)).bind fun ρ₂ hρ₂ q q' hq => ?_
  have hp := hp.1.mono hρ₂
  have hq := hq.1
  have text : ∀ {s s' : StringRef}, Alike ρ₂ s s' →
      Sim M ρ₂ Alike (stringAdd E₁ s q >>= fun r => pure (Value.string r) : Run Value)
        (stringAdd E₂ s' q' >>= fun r => pure (Value.string r)) := fun hs =>
    (sim_stringAdd hE hs hq).bind fun _ _ _ _ ht => .pure (.string ht)
  have text' : ∀ {s s' : StringRef}, Alike ρ₂ s s' →
      Sim M ρ₂ Alike
        (toStringRef E₁ p >>= fun t => concat t s >>= fun r => pure (Value.string r) : Run Value)
        (toStringRef E₂ p' >>= fun t => concat t s' >>= fun r => pure (Value.string r)) := fun hs =>
    (sim_toStringRef hE hp).bind fun _ hρ₃ _ _ ht =>
      (sim_concat ht (hs.mono hρ₃)).bind fun _ _ _ _ hr => .pure (.string hr)
  have sum : Sim M ρ₂ Alike
      (toNumber E₁ p >>= fun x => toNumber E₁ q >>= fun y => pure (Value.number (x + y)) : Run Value)
      (toNumber E₂ p' >>= fun x => toNumber E₂ q' >>= fun y => pure (Value.number (x + y))) := by
    refine (sim_toNumber hE hp).bind fun ρ₃ hρ₃ x x' hx => ?_
    obtain rfl : x = x' := hx
    refine (sim_toNumber hE (hq.mono hρ₃)).bind fun ρ₄ hρ₄ y y' hy => ?_
    obtain rfl : y = y' := hy
    exact .pure (.number _)
  cases hp with
  | string hs => exact text hs
  | undefined => cases hq <;> first | exact text' ‹_› | exact sum
  | null => cases hq <;> first | exact text' ‹_› | exact sum
  | bool x => cases hq <;> first | exact text' ‹_› | exact sum
  | number x => cases hq <;> first | exact text' ‹_› | exact sum
  | object x => cases hq <;> first | exact text' ‹_› | exact sum

theorem sim_lessThan {a a' b b' : Value} (ha : Alike ρ a a') (hb : Alike ρ b b') :
    Sim M ρ Alike (lessThan E₁ a b) (lessThan E₂ a' b') := by
  refine (sim_toPrimitive hE .number ha).bind fun ρ₁ hρ₁ p p' hp => ?_
  refine (sim_toPrimitive hE .number (hb.mono hρ₁)).bind fun ρ₂ hρ₂ q q' hq => ?_
  have hp := hp.1.mono hρ₂
  have hq := hq.1
  have numbers : Sim M ρ₂ Alike
      (toNumber E₁ p >>= fun x => toNumber E₁ q >>= fun y =>
        if x.isNaN || y.isNaN then pure none else pure (some (decide (x < y))))
      (toNumber E₂ p' >>= fun x => toNumber E₂ q' >>= fun y =>
        if x.isNaN || y.isNaN then pure none else pure (some (decide (x < y)))) := by
    refine (sim_toNumber hE hp).bind fun ρ₃ hρ₃ x x' hx => ?_
    obtain rfl : x = x' := hx
    refine (sim_toNumber hE (hq.mono hρ₃)).bind fun ρ₄ hρ₄ y y' hy => ?_
    obtain rfl : y = y' := hy
    split
    · exact .pure .none
    · exact .pure (.some rfl)
  cases hp with
  | string hs =>
    cases hq with
    | string ht =>
      refine (sim_readText hs).bind fun ρ₃ hρ₃ x x' hx => ?_
      obtain rfl : x = x' := hx
      refine (sim_readText (ht.mono hρ₃)).bind fun ρ₄ hρ₄ y y' hy => ?_
      obtain rfl : y = y' := hy
      exact .pure (.some rfl)
    | _ => exact numbers
  | _ => cases hq <;> exact numbers

theorem sim_arithmetic (f : Float → Float → Float) {a a' b b' : Value} (ha : Alike ρ a a')
    (hb : Alike ρ b b') : Sim M ρ Alike (arithmetic E₁ f a b) (arithmetic E₂ f a' b') := by
  refine (sim_toNumber hE ha).bind fun ρ₁ hρ₁ x x' hx => ?_
  obtain rfl : x = x' := hx
  refine (sim_toNumber hE (hb.mono hρ₁)).bind fun ρ₂ hρ₂ y y' hy => ?_
  obtain rfl : y = y' := hy
  exact .pure (.number _)

/-- **Applying a binary operator.** -/
theorem sim_applyBinary (op : BinaryOp) {a a' b b' : Value} (ha : Alike ρ a a') (hb : Alike ρ b b') :
    Sim M ρ Alike (applyBinary E₁ op a b) (applyBinary E₂ op a' b') := by
  have strict : Sim M ρ Alike (pure (.bool (a.strictEquals b)) : Run Value)
      (pure (.bool (a'.strictEquals b'))) ∧
      Sim M ρ Alike (pure (.bool !(a.strictEquals b)) : Run Value)
        (pure (.bool !(a'.strictEquals b'))) := by
    constructor <;>
    · refine Sim.assume (P := a.strictEquals b = a'.strictEquals b')
        (fun ρ' hρ _ _ hh => hh.strictEquals (ha.mono hρ) (hb.mono hρ)) fun heq => ?_
      rw [heq]
      exact .pure (.bool _)
  have test : ∀ {v v' w w' : Value} (r : Option Bool), Alike ρ v v' → Alike ρ w w' →
      Sim M ρ Alike (do return .bool ((← lessThan E₁ v w) == r) : Run Value)
        (do return .bool ((← lessThan E₂ v' w') == r)) := fun r hv hw =>
    (sim_lessThan hE hv hw).bind fun _ _ x y hxy => by
      cases hxy with
      | none => exact .pure (.bool _)
      | @some x y h => obtain rfl : x = y := h; exact .pure (.bool _)
  cases op with
  | add => exact sim_addValues hE ha hb
  | sub => exact sim_arithmetic hE _ ha hb
  | mul => exact sim_arithmetic hE _ ha hb
  | div => exact sim_arithmetic hE _ ha hb
  | rem => exact sim_arithmetic hE _ ha hb
  | looseEq =>
    refine (sim_looseEquals hE ha hb).bind fun _ _ x y hxy => ?_
    obtain rfl : x = y := hxy
    exact .pure (.bool _)
  | looseNotEq =>
    refine (sim_looseEquals hE ha hb).bind fun _ _ x y hxy => ?_
    obtain rfl : x = y := hxy
    exact .pure (.bool _)
  | strictEq => exact strict.1
  | strictNotEq => exact strict.2
  | lt => exact test _ ha hb
  | gt => exact test _ hb ha
  | ltEq => exact test _ hb ha
  | gtEq => exact test _ ha hb
  | isIn =>
    refine (sim_toPropertyKey hE ha).bind fun ρ₁ hρ₁ k l hk => ?_
    rw [isObject_eq hb]
    split
    · refine (sim_hasProperty (hb.mono hρ₁) hk).bind fun _ _ x y hxy => ?_
      obtain rfl : x = y := hxy
      exact .pure (.bool _)
    · refine (Sim.readHeap fun _ hρ _ _ hh => hh.describe (hb.mono (hρ₁.trans hρ))).bind
        fun ρ₂ hρ₂ s t hst => ?_
      obtain rfl : s = t := hst
      exact .fail (.same rfl nofun)

end

end ScriptCore
