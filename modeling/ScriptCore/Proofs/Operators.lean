import ScriptCore.Proofs.Renaming.Idle
import ScriptCore.Proofs.Transparency

/-! # Operators that the host applies

A host may apply a binary operator while nothing is open. An operand that is an object is converted by its
own methods, and the host drives these calls, so garbage may be collected while they run. Nothing but the
operands is kept alive then: a primitive that the first conversion made is kept by nothing while the second
one runs.

* `rejoins_conversions`: two conversions, with nothing held between them that the first one made.
* `rejoins_applyBinary`: every operator that converts so.
* `Twins.applyBinary_agrees`: **collections do not matter to such operators.**
* `sum_collected`: they do matter to a sum of two objects. -/

namespace ScriptCore

variable {α : Type} {M : Mode} {ρ : Renaming} {host : Host} {m₁ m₂ : Machine} {k₁ k₂ : Nat}
  {vs ws : List Value} {r₁ r₂ : Realm} {a a' b b' v w : Value}

/-- While `w` is converted after `v`, nothing is held that a conversion made: one of them is a primitive, or
`v` does not convert to a string. -/
def HoldsNothing (E : Engine) (m : Machine) (hint : Hint) (v w : Value) : Prop :=
  v.isObject = false ∨ w.isObject = false ∨ ∀ s n, toPrimitive E v hint m ≠ .done (.string s) n

/-- The operator holds nothing that a conversion made while it converts the other operand. Only additions and
comparisons may hold something. -/
def BinaryOp.Careful (E : Engine) (m : Machine) (op : BinaryOp) (a b : Value) : Prop :=
  match op with
  | .add => HoldsNothing E m .default a b
  | .lt | .gtEq => HoldsNothing E m .number a b
  | .gt | .ltEq => HoldsNothing E m .number b a
  | _ => True

/-! ### Primitives -/

theorem toPrimitive_primitive (E : Engine) (hint : Hint) (hv : v.isObject = false) :
    toPrimitive E v hint = pure v := by
  cases v <;> first | exact Bool.noConfusion hv | rfl

theorem toNumber_primitive (E : Engine) (hv : v.isObject = false) :
    toNumber E v = Run.readHeap fun h => h.numberOf v := by
  cases v <;> first | exact Bool.noConfusion hv | rfl

theorem toStringRef_primitive (E : Engine) (hv : v.isObject = false) :
    toStringRef E v = Run.onHeap (Heap.stringOf v) := by
  cases v <;> first | exact Bool.noConfusion hv | rfl

theorem stringAdd_primitive (E : Engine) (s : StringRef) (hv : v.isObject = false) :
    stringAdd E s v = (do let t ← Run.onHeap (Heap.stringOf v); concat s t) := by
  unfold stringAdd
  rw [toPrimitive_primitive E .string hv, pure_bind, toStringRef_primitive E hv]

/-- Addition of primitives. -/
def addPrimitives (E : Engine) (p q : Value) : Run Value :=
  match p, q with
  | .string s, other => return .string (← stringAdd E s other)
  | other, .string s => do
    let t ← toStringRef E other
    return .string (← concat t s)
  | a, b => do
    let x ← toNumber E a
    let y ← toNumber E b
    return .number (x + y)

theorem addValues_eq (E : Engine) (a b : Value) : addValues E a b = (do
    let p ← toPrimitive E a .default
    let q ← toPrimitive E b .default
    addPrimitives E p q) := rfl

/-- **Adding primitives runs no code**, whatever the engine. -/
theorem addPrimitives_eq (E E' : Engine) (ha : a.isObject = false) (hb : b.isObject = false) :
    addPrimitives E a b = addValues E' a b := by
  rw [addValues_eq, toPrimitive_primitive E' .default ha, pure_bind, toPrimitive_primitive E' .default hb, pure_bind]
  unfold addPrimitives
  split
  · rw [stringAdd_primitive E _ hb, stringAdd_primitive E' _ hb]
  · rw [toStringRef_primitive E ha, toStringRef_primitive E' ha]
  · rw [toNumber_primitive E ha, toNumber_primitive E hb, toNumber_primitive E' ha, toNumber_primitive E' hb]

/-- Comparison of primitives. -/
def lessPrimitives (E : Engine) (p q : Value) : Run (Option Bool) :=
  match p, q with
  | .string s, .string t => do
    let x ← Run.readHeap fun h => h.text s
    let y ← Run.readHeap fun h => h.text t
    return some (x.lt y)
  | a, b => do
    let x ← toNumber E a
    let y ← toNumber E b
    if x.isNaN || y.isNaN then return none else return some (x < y)

theorem lessThan_eq (E : Engine) (a b : Value) : lessThan E a b = (do
    let p ← toPrimitive E a .number
    let q ← toPrimitive E b .number
    lessPrimitives E p q) := rfl

/-- **Comparing primitives runs no code**, whatever the engine. -/
theorem lessPrimitives_eq (E E' : Engine) (ha : a.isObject = false) (hb : b.isObject = false) :
    lessPrimitives E a b = lessThan E' a b := by
  rw [lessThan_eq, toPrimitive_primitive E' .number ha, pure_bind, toPrimitive_primitive E' .number hb, pure_bind]
  unfold lessPrimitives
  split
  · rfl
  · rw [toNumber_primitive E ha, toNumber_primitive E hb, toNumber_primitive E' ha, toNumber_primitive E' hb]

/-- **Equality of primitives runs no code**, whatever the engine. -/
theorem looseRounds_primitive (E E' : Engine) : ∀ (rounds : Nat) {a b : Value}, a.isObject = false →
    b.isObject = false → looseRounds E rounds a b = looseRounds E' rounds a b
  | 0, _, _, _, _ => rfl
  | rounds + 1, a, b, ha, hb => by
    have left : (toNumber E a >>= fun x => looseRounds E rounds (.number x) b) =
        toNumber E' a >>= fun x => looseRounds E' rounds (.number x) b := by
      rw [toNumber_primitive E ha, toNumber_primitive E' ha]
      exact bind_congr fun x => looseRounds_primitive E E' rounds rfl hb
    have right : (toNumber E b >>= fun x => looseRounds E rounds a (.number x)) =
        toNumber E' b >>= fun x => looseRounds E' rounds a (.number x) := by
      rw [toNumber_primitive E hb, toNumber_primitive E' hb]
      exact bind_congr fun x => looseRounds_primitive E E' rounds ha rfl
    cases a <;> cases b <;>
      first | exact Bool.noConfusion ha | exact Bool.noConfusion hb | exact left | exact right | rfl

/-! ### Conversions of two operands -/

section

variable (hhost : host.BySyntax) (hM : ¬ M.lockstep) (hk : M.outlasts → 2 * k₁ < k₂)

include hhost hM hk

theorem rejoins_toNumber (h : Moored M vs ws r₁ r₂ ρ m₁ m₂) (hvalue : Stays vs ws v w) :
    Rejoins M (Moored M vs ws r₁ r₂) (fun _ x y => x = y) (toNumber (host.engine k₁) v m₁)
      (toNumber (host.engine k₂) w m₂) := by
  have number : ∀ {ρ : Renaming} {v w : Value} {m₁ m₂ : Machine}, Moored M vs ws r₁ r₂ ρ m₁ m₂ →
      Alike ρ v w → Rejoins M (Moored M vs ws r₁ r₂) (fun _ x y => x = y)
        (Run.readHeap (fun h => h.numberOf v) m₁) (Run.readHeap (fun h => h.numberOf w) m₂) :=
    fun h hv => (rejoins_readHeap h (h.machines.heap.numberOf hv)).conseq fun _ _ _ hxy => hxy.2
  have hv := hvalue ρ h.values
  cases hv with
  | object ho =>
    exact (rejoins_toPrimitive hhost hM hk h .number hvalue).bind fun _ _ _ _ _ ht hp => number ht hp.1
  | undefined => exact number h .undefined
  | null => exact number h .null
  | bool b => exact number h (.bool b)
  | number x => exact number h (.number x)
  | string hs => exact number h (.string hs)

/-- **Two conversions with nothing held between them** that the first one made. -/
theorem rejoins_conversions {Q : Renaming → α → α → Prop} {f g : Value → Value → Run α}
    (h : Moored M vs ws r₁ r₂ ρ m₁ m₂) (hint : Hint) (ha : Stays vs ws a a') (hb : Stays vs ws b b')
    (hone : HoldsNothing (host.engine k₁) m₁ hint a b)
    (hrest : ∀ ρ p p' q q' s t, Moored M vs ws r₁ r₂ ρ s t → AlikePrimitives ρ p p' → AlikePrimitives ρ q q' →
      Rejoins M (Moored M vs ws r₁ r₂) Q (f p q s) (g p' q' t)) :
    Rejoins M (Moored M vs ws r₁ r₂) Q
      ((do let p ← toPrimitive (host.engine k₁) a hint; let q ← toPrimitive (host.engine k₁) b hint; f p q :
        Run α) m₁)
      ((do let p ← toPrimitive (host.engine k₂) a' hint; let q ← toPrimitive (host.engine k₂) b' hint; g p q :
        Run α) m₂) := by
  rcases hone with hobject | hobject | hplain
  · have hobject' : a'.isObject = false := isObject_eq (ha ρ h.values) ▸ hobject
    rw [toPrimitive_primitive _ _ hobject, toPrimitive_primitive _ _ hobject', pure_bind, pure_bind]
    exact (rejoins_toPrimitive hhost hM hk h hint hb).bind fun ρ' q q' s t ht hq =>
      hrest ρ' a a' q q' s t ht ⟨ha ρ' ht.values, hobject⟩ hq
  · have hobject' : b'.isObject = false := isObject_eq (hb ρ h.values) ▸ hobject
    refine (rejoins_toPrimitive hhost hM hk h hint ha).bind fun ρ' p p' s t ht hp => ?_
    rw [toPrimitive_primitive _ _ hobject, toPrimitive_primitive _ _ hobject', pure_bind, pure_bind]
    exact hrest ρ' p p' b b' s t ht hp ⟨hb ρ' ht.values, hobject⟩
  · refine (rejoins_toPrimitive hhost hM hk h hint ha).known.bind fun ρ₁ p p' s₁ t₁ h₁ hp => ?_
    obtain ⟨⟨hp, hprimitive⟩, n, hdone⟩ := hp
    -- a primitive that is no string stays alike whatever is dropped
    have hstays : ∀ ρ, AlikePrimitives ρ p p' := fun ρ => by
      cases hp with
      | undefined => exact ⟨.undefined, rfl⟩
      | null => exact ⟨.null, rfl⟩
      | bool x => exact ⟨.bool x, rfl⟩
      | number x => exact ⟨.number x, rfl⟩
      | string hs => exact absurd hdone (hplain _ n)
      | object ho => exact Bool.noConfusion hprimitive
    exact (rejoins_toPrimitive hhost hM hk h₁ hint hb).bind fun ρ₂ q q' s₂ t₂ h₂ hq =>
      hrest ρ₂ p p' q q' s₂ t₂ h₂ (hstays ρ₂) hq

/-! ### The operators -/

theorem rejoins_addValues (h : Moored M vs ws r₁ r₂ ρ m₁ m₂) (ha : Stays vs ws a a') (hb : Stays vs ws b b')
    (hone : HoldsNothing (host.engine k₁) m₁ .default a b) :
    Rejoins M (Moored M vs ws r₁ r₂) Alike (addValues (host.engine k₁) a b m₁)
      (addValues (host.engine k₂) a' b' m₂) := by
  rw [addValues_eq, addValues_eq]
  refine rejoins_conversions hhost hM hk h .default ha hb hone fun ρ' p p' q q' s t ht hp hq => ?_
  rw [addPrimitives_eq _ (host.engine 0) hp.2 hq.2,
    addPrimitives_eq _ (host.engine 0) (isObject_eq hp.1 ▸ hp.2) (isObject_eq hq.1 ▸ hq.2)]
  exact (ht.quiet (routine_addValues p q) (routine_addValues p' q') host (sim_addValues host.sim_stalling hp.1 hq.1)).conseq
    fun _ _ _ hxy => hxy.2

theorem rejoins_lessThan (h : Moored M vs ws r₁ r₂ ρ m₁ m₂) (ha : Stays vs ws a a') (hb : Stays vs ws b b')
    (hone : HoldsNothing (host.engine k₁) m₁ .number a b) :
    Rejoins M (Moored M vs ws r₁ r₂) (fun _ x y => x = y) (lessThan (host.engine k₁) a b m₁)
      (lessThan (host.engine k₂) a' b' m₂) := by
  rw [lessThan_eq, lessThan_eq]
  refine rejoins_conversions hhost hM hk h .number ha hb hone fun ρ' p p' q q' s t ht hp hq => ?_
  rw [lessPrimitives_eq _ (host.engine 0) hp.2 hq.2,
    lessPrimitives_eq _ (host.engine 0) (isObject_eq hp.1 ▸ hp.2) (isObject_eq hq.1 ▸ hq.2)]
  refine (ht.quiet (routine_lessThan p q) (routine_lessThan p' q') host (sim_lessThan host.sim_stalling hp.1 hq.1)).conseq
    fun _ x y hxy => ?_
  obtain ⟨-, hxy⟩ := hxy
  cases hxy with
  | none => rfl
  | some hxy => exact congrArg some hxy

theorem rejoins_arithmetic (f : Float → Float → Float) (h : Moored M vs ws r₁ r₂ ρ m₁ m₂)
    (ha : Stays vs ws a a') (hb : Stays vs ws b b') :
    Rejoins M (Moored M vs ws r₁ r₂) Alike (arithmetic (host.engine k₁) f a b m₁)
      (arithmetic (host.engine k₂) f a' b' m₂) := by
  refine (rejoins_toNumber hhost hM hk h ha).bind fun ρ₁ x x' s₁ t₁ h₁ hx => ?_
  obtain rfl : x = x' := hx
  refine (rejoins_toNumber hhost hM hk h₁ hb).bind fun ρ₂ y y' s₂ t₂ h₂ hy => ?_
  obtain rfl : y = y' := hy
  exact .done h₂ (.number _)

omit hhost hM hk in
/-- Equality of primitives. -/
theorem rejoins_looseRounds_primitive (host : Host) (E₁ E₂ : Engine) (rounds : Nat)
    (h : Moored M vs ws r₁ r₂ ρ m₁ m₂) (ha : AlikePrimitives ρ a a') (hb : AlikePrimitives ρ b b') :
    Rejoins M (Moored M vs ws r₁ r₂) (fun _ x y => x = y) (looseRounds E₁ rounds a b m₁)
      (looseRounds E₂ rounds a' b' m₂) := by
  rw [looseRounds_primitive E₁ (host.engine 0) rounds ha.2 hb.2, looseRounds_primitive E₂ (host.engine 0) rounds
    (isObject_eq ha.1 ▸ ha.2) (isObject_eq hb.1 ▸ hb.2)]
  exact (h.quiet (routine_looseRounds rounds a b) (routine_looseRounds rounds a' b') host
    (sim_looseRounds host.sim_stalling rounds ρ a a' b b' ha.1 hb.1)).conseq fun _ _ _ hxy => hxy.2

/-- **Equality with conversion rejoins**: objects are compared as they are, and an object is converted only
against a primitive. -/
theorem rejoins_looseRounds : ∀ (rounds : Nat) (ρ : Renaming) (a a' b b' : Value) (m₁ m₂ : Machine),
    Moored M vs ws r₁ r₂ ρ m₁ m₂ → Stays vs ws a a' → Stays vs ws b b' →
    Rejoins M (Moored M vs ws r₁ r₂) (fun _ x y => x = y) (looseRounds (host.engine k₁) rounds a b m₁)
      (looseRounds (host.engine k₂) rounds a' b' m₂)
  | 0, _, _, _, _, _, _, _, h, _, _ => .done h rfl
  | rounds + 1, ρ, a, a', b, b', m₁, m₂, h, ha, hb => by
    have hva := ha ρ h.values
    have hvb := hb ρ h.values
    have settle : ∀ {ρ : Renaming} {p p' q q' : Value} {s t : Machine} (n : Nat),
        Moored M vs ws r₁ r₂ ρ s t → AlikePrimitives ρ p p' → AlikePrimitives ρ q q' →
        Rejoins M (Moored M vs ws r₁ r₂) (fun _ x y => x = y) (looseRounds (host.engine k₁) n p q s)
          (looseRounds (host.engine k₂) n p' q' t) := rejoins_looseRounds_primitive host _ _
    cases hva with
    | object hoa =>
      cases hvb with
      | object hob => exact .done h (h.machines.heap.strictEquals (.object hoa) (.object hob))
      | undefined => exact .done h rfl
      | null => exact .done h rfl
      | bool x =>
        exact (rejoins_toNumber hhost hM hk h hb).bind fun ρ₁ x y s t ht hxy => by
          obtain rfl : x = y := hxy
          exact rejoins_looseRounds rounds ρ₁ _ _ _ _ s t ht ha fun _ _ => .number x
      | number x =>
        exact (rejoins_toPrimitive hhost hM hk h .default ha).bind fun ρ₁ p p' s t ht hp =>
          settle rounds ht hp ⟨.number x, rfl⟩
      | string hs =>
        refine (rejoins_toPrimitive hhost hM hk h .string ha).bind fun ρ₁ p p' s t ht hp => ?_
        obtain ⟨hp, hprimitive⟩ := hp
        have hstring := hb ρ₁ ht.values
        have hrest := settle rounds ht ⟨hp, hprimitive⟩ ⟨hstring, rfl⟩
        cases hp with
        | string hx => exact .done ht (ht.machines.heap.strictEquals (.string hx) hstring)
        | object _ => exact Bool.noConfusion hprimitive
        | _ => exact hrest
    | undefined =>
      cases hvb with
      | object hob => exact .done h rfl
      | _ => exact settle (rounds + 1) h ⟨ha ρ h.values, rfl⟩ ⟨hb ρ h.values, rfl⟩
    | null =>
      cases hvb with
      | object hob => exact .done h rfl
      | _ => exact settle (rounds + 1) h ⟨ha ρ h.values, rfl⟩ ⟨hb ρ h.values, rfl⟩
    | bool x =>
      cases hvb with
      | object hob =>
        exact (rejoins_toNumber hhost hM hk h ha).bind fun ρ₁ x y s t ht hxy => by
          obtain rfl : x = y := hxy
          exact rejoins_looseRounds rounds ρ₁ _ _ _ _ s t ht (fun _ _ => .number x) hb
      | _ => exact settle (rounds + 1) h ⟨ha ρ h.values, rfl⟩ ⟨hb ρ h.values, rfl⟩
    | number x =>
      cases hvb with
      | object hob =>
        exact (rejoins_toPrimitive hhost hM hk h .default hb).bind fun ρ₁ p p' s t ht hp =>
          settle rounds ht ⟨.number x, rfl⟩ hp
      | _ => exact settle (rounds + 1) h ⟨ha ρ h.values, rfl⟩ ⟨hb ρ h.values, rfl⟩
    | string hs =>
      cases hvb with
      | object hob =>
        refine (rejoins_toPrimitive hhost hM hk h .string hb).bind fun ρ₁ p p' s t ht hp => ?_
        obtain ⟨hp, hprimitive⟩ := hp
        have hstring := ha ρ₁ ht.values
        have hrest := settle rounds ht ⟨hstring, rfl⟩ ⟨hp, hprimitive⟩
        cases hp with
        | string hx => exact .done ht (ht.machines.heap.strictEquals hstring (.string hx))
        | object _ => exact Bool.noConfusion hprimitive
        | _ => exact hrest
      | _ => exact settle (rounds + 1) h ⟨ha ρ h.values, rfl⟩ ⟨hb ρ h.values, rfl⟩

theorem rejoins_toPropertyKey (h : Moored M vs ws r₁ r₂ ρ m₁ m₂) (ha : Stays vs ws a a') :
    Rejoins M (Moored M vs ws r₁ r₂) Alike (toPropertyKey (host.engine k₁) a m₁)
      (toPropertyKey (host.engine k₂) a' m₂) := by
  have hva := ha ρ h.values
  have quiet := (h.quiet (routine_toPropertyKey a) (routine_toPropertyKey a') host
    (sim_toPropertyKey host.sim_stalling hva)).conseq fun _ _ _ hxy => hxy.2
  cases hva with
  | @object o o' ho =>
    have text : Rejoins M (Moored M vs ws r₁ r₂) Alike (toStringRef (host.engine k₁) (.object o) m₁)
        (toStringRef (host.engine k₂) (.object o') m₂) :=
      (rejoins_toPrimitive hhost hM hk h .string ha).bind fun ρ₁ p q s t ht hpq =>
        (ht.quiet (.onHeap (routine_stringOf p)) (.onHeap (routine_stringOf q)) host
          (Heap.sim_stringOf hpq).onHeap).conseq fun _ _ _ hxy => hxy.2
    exact text.bind fun ρ₁ x y s t ht hxy =>
      (rejoins_readHeap ht (ht.machines.heap.keyOfString hxy)).conseq fun _ _ _ hkey => hkey.1 ▸ hkey.2
  | _ => exact quiet

/-- **The operators rejoin** that hold nothing that a conversion made. -/
theorem rejoins_applyBinary (op : BinaryOp) (h : Moored M vs ws r₁ r₂ ρ m₁ m₂) (ha : Stays vs ws a a')
    (hb : Stays vs ws b b') (hop : op.Careful (host.engine k₁) m₁ a b) :
    Rejoins M (Moored M vs ws r₁ r₂) Alike (applyBinary (host.engine k₁) op a b m₁)
      (applyBinary (host.engine k₂) op a' b' m₂) := by
  have hva := ha ρ h.values
  have hvb := hb ρ h.values
  have test : ∀ {v v' w w' : Value} (r : Option Bool), Stays vs ws v v' → Stays vs ws w w' →
      HoldsNothing (host.engine k₁) m₁ .number v w → Rejoins M (Moored M vs ws r₁ r₂) Alike
        ((do return .bool ((← lessThan (host.engine k₁) v w) == r) : Run Value) m₁)
        ((do return .bool ((← lessThan (host.engine k₂) v' w') == r) : Run Value) m₂) := fun r hv hw hone =>
    (rejoins_lessThan hhost hM hk h hv hw hone).bind fun ρ₁ x y s t ht hxy => by
      obtain rfl : x = y := hxy
      exact .done ht (.bool _)
  have equal : ∀ f : Bool → Bool, Rejoins M (Moored M vs ws r₁ r₂) Alike
      ((do return .bool (f (← looseEquals (host.engine k₁) a b)) : Run Value) m₁)
      ((do return .bool (f (← looseEquals (host.engine k₂) a' b')) : Run Value) m₂) := fun f =>
    (rejoins_looseRounds hhost hM hk 4 ρ a a' b b' m₁ m₂ h ha hb).bind fun ρ₁ x y s t ht hxy => by
      obtain rfl : x = y := hxy
      exact .done ht (.bool _)
  have strict : a.strictEquals b = a'.strictEquals b' := h.machines.heap.strictEquals hva hvb
  cases op with
  | add => exact rejoins_addValues hhost hM hk h ha hb hop
  | sub => exact rejoins_arithmetic hhost hM hk _ h ha hb
  | mul => exact rejoins_arithmetic hhost hM hk _ h ha hb
  | div => exact rejoins_arithmetic hhost hM hk _ h ha hb
  | rem => exact rejoins_arithmetic hhost hM hk _ h ha hb
  | looseEq => exact equal id
  | looseNotEq => exact equal not
  | strictEq => exact .done h (strict ▸ .bool _)
  | strictNotEq => exact .done h (strict ▸ .bool _)
  | lt => exact test _ ha hb hop
  | gt => exact test _ hb ha hop
  | ltEq => exact test _ hb ha hop
  | gtEq => exact test _ ha hb hop
  | isIn =>
    refine (rejoins_toPropertyKey hhost hM hk h ha).bind fun ρ₁ k l s t ht hkl => ?_
    have hvb := hb ρ₁ ht.values
    rw [isObject_eq hvb]
    split
    · refine (ht.quiet (routine_hasProperty b k) (routine_hasProperty b' l) host
        (sim_hasProperty hvb hkl)).bind fun ρ₂ x y s t ht hxy => ?_
      obtain rfl : x = y := hxy.2
      exact .done ht (.bool _)
    · refine (rejoins_readHeap ht (ht.machines.heap.describe hvb)).bind fun ρ₂ x y s t ht hxy => ?_
      obtain rfl : x = y := hxy.2
      exact .failed ht (.same rfl nofun)

end

/-! ### Objects that a host keeps -/

/-- Executing a program keeps the invariants of the heap. -/
theorem executeOn_tended {I : Heap → Prop} (hI : Heap.Invariant I) (hhost : host.BySyntax) {r : Realm} (ht : Tended I r m)
    (hframes : m.frames = .empty) (hactive : m.active = none) (k b : Nat) (body : List Stmt) :
    (host.executeOn (host.engine k) b body m).Leaves (Tended I r) := by
  rw [executeOn_eq hhost hframes hactive]
  have hopened : Tended I r (m.openProgram body executeOptions) :=
    ht.congr (by simp [Machine.openProgram]) (by simp [Machine.openProgram])
  obtain ⟨f, hpushed⟩ : ∃ f, (m.openProgram body executeOptions).frames = Stack.empty.push f :=
    ⟨_, by simp [Machine.openProgram, hframes]; rfl⟩
  have hdrive := drive_tended host hI (host.engine_tends hI r k) (host.engine_holds k) b hpushed
    (List.suffix_refl _) hopened
  change (drive host (host.engine k) 0 b _).Leaves _ at hdrive
  cases hd : drive host (host.engine k) 0 b (m.openProgram body executeOptions) with
  | done c m' =>
    rw [hd] at hdrive
    show (Proc.ofExcept (completionValue c) m').Leaves _
    cases completionValue c <;> exact hdrive
  | failed e m' => rw [hd] at hdrive; exact hdrive
  | stalled => trivial

/-- The value of a program that a new machine executed, and the machine. -/
def executed (limits : HeapLimits) (body : List Stmt) : Option (Value × Machine) :=
  (Machine.create limits {} 0 true).toOption.bind fun m => (((Host.plain []).engine 40).execute body m).done?

theorem executed_eq {limits : HeapLimits} {body : List Stmt} (h : executed limits body = some (v, m)) :
    ∃ m₀, Machine.create limits {} 0 true = .ok m₀ ∧ ((Host.plain []).engine 40).execute body m₀ = .done v m := by
  obtain ⟨m₀, hcreate, h⟩ := Option.bind_eq_some_iff.mp h
  refine ⟨m₀, ?_, Outcome.eq_done h⟩
  cases hm : Machine.create limits {} 0 true with
  | error e => rw [hm] at hcreate; cases hcreate
  | ok m₁ => rw [hm] at hcreate; cases hcreate; rfl

/-- **Two new machines that executed a program are twins.** -/
theorem executed_twins {l₁ l₂ : HeapLimits} {body : List Stmt} (h₁ : executed l₁ body = some (v, m₁))
    (h₂ : executed l₂ body = some (w, m₂)) : ∃ ρ, Alike ρ v w ∧ Twins .apart [] [] ρ m₁ m₂ ∧
      m₁.heap.Rooted ∧ m₂.heap.Rooted := by
  have hhost := Host.bySyntax_plain []
  have tended : ∀ {l : HeapLimits} {n m : Machine} {v : Value}, Machine.create l {} 0 true = .ok n →
      ((Host.plain []).engine 40).execute body n = .done v m → Tended Heap.Rooted n.realm m := fun hcreate hdone => by
    have hheld := Machine.held_create hcreate
    have hleft := executeOn_tended Heap.invariant_rooted hhost
      (Machine.tended_create Heap.invariant_rooted (Heap.accounted_empty _).rooted hcreate) hheld.frames hheld.active 39 39 body
    change (((Host.plain []).engine 40).execute body _).Leaves _ at hleft
    rw [hdone] at hleft
    exact hleft
  obtain ⟨n₁, hcreate₁, hdone₁⟩ := executed_eq h₁
  obtain ⟨n₂, hcreate₂, hdone₂⟩ := executed_eq h₂
  have ht₁ := tended hcreate₁ hdone₁
  have ht₂ := tended hcreate₂ hdone₂
  obtain ⟨_, hself₁⟩ := at_create (M := .same) (fun _ => rfl) hcreate₁ hcreate₁
  obtain ⟨_, hself₂⟩ := at_create (M := .same) (fun _ => rfl) hcreate₂ hcreate₂
  obtain ⟨ρ, hat⟩ := at_create (M := .apart) False.elim hcreate₁ hcreate₂
  have hends₁ : (Schedule.execute 40).ends (.plain []) body n₁ = some (.value (.ok v), m₁) := by
    simp only [Schedule.ends, hdone₁]
  have hends₂ : (Schedule.execute 40).ends (.plain []) body n₂ = some (.value (.ok w), m₂) := by
    simp only [Schedule.ends, hdone₂]
  obtain ⟨N₁, j₁, o₁, htrail₁, heq₁⟩ := ends_of_schedule hhost hself₁ ⟨rfl, rfl⟩ hends₁
  obtain ⟨N₂, j₂, o₂, htrail₂, heq₂⟩ := ends_of_schedule hhost hself₂ ⟨rfl, rfl⟩ hends₂
  have hfull : ∀ {v : Value} {o : Except Error Completion}, Ending.value (.ok v) = (Schedule.execute 40).ending o →
      o ≠ .error .outOfMemory := fun h hfull => by subst hfull; cases h
  rcases htrail₁.agree hhost id id htrail₂
    (.going (n := 0) le_rfl (driven_openProgram hat body ⟨rfl, rfl⟩) (Nat.zero_le _)) with
    hmemory | hmemory | ⟨ρ', hend, ho⟩
  · exact absurd hmemory (hfull heq₁)
  · exact absurd hmemory (hfull heq₂)
  · have hagrees := (Schedule.execute 40).agrees (.execute 40) ho
    rw [← heq₁, ← heq₂] at hagrees
    have hvw : Alike ρ' v w := by
      cases hagrees with
      | ok h => exact h
    exact ⟨ρ', hvw, ⟨hend, .nil, ⟨ht₁.scripted, ht₂.scripted⟩, nofun, nofun⟩, ht₁.heap, ht₂.heap⟩


/-- A program whose value is an object that a method converts. -/
def converting (value : Expr) : List Stmt :=
  [.expr (.object [("valueOf", .function ⟨none, [], .block [.ret (some value)], false, false, false⟩)])]

/-- An object that a program made on a new machine, kept as either operand of an operator. -/
def operandMade (limits : HeapLimits) (value : Expr) : Option (Value × Machine) :=
  (executed limits (converting value)).map fun x => (x.1, (x.2.keeping x.1).keeping x.1)

theorem operandMade_twins {l₁ l₂ : HeapLimits} {value : Expr} (h₁ : operandMade l₁ value = some (v, m₁))
    (h₂ : operandMade l₂ value = some (w, m₂)) : ∃ ρ, Twins .apart [v, v] [w, w] ρ m₁ m₂ := by
  obtain ⟨⟨v, n₁⟩, hx, h⟩ := Option.map_eq_some_iff.mp h₁
  cases h
  obtain ⟨⟨w, n₂⟩, hy, h⟩ := Option.map_eq_some_iff.mp h₂
  cases h
  obtain ⟨ρ, hvw, htwins, hr₁, hr₂⟩ := executed_twins hx hy
  exact ⟨ρ, (htwins.keeping id ⟨hr₁, hr₂⟩ hvw).keeping id ⟨hr₁.addRoot v, hr₂.addRoot w⟩ hvw⟩

/-! ### The result -/

theorem Stays.head {vs ws : List Value} {v w : Value} : Stays (v :: vs) (w :: ws) v w := fun _ h => by
  cases h with
  | cons h _ => exact h

theorem Stays.tail {vs ws : List Value} {v w x y : Value} (h : Stays vs ws v w) :
    Stays (x :: vs) (y :: ws) v w := fun ρ hs => by
  cases hs with
  | cons _ hs => exact h ρ hs

/-- Twins are twins however they are compared, but for lockstep. -/
theorem Twins.of_apart (h : Twins .apart vs ws ρ m₁ m₂) (hM : ¬ M.lockstep) : Twins M vs ws ρ m₁ m₂ := by
  obtain ⟨⟨hheap, hrealm, hmonitor, hleft, hright⟩, hvalues, hscripted, hroots⟩ := h
  exact ⟨⟨{ hheap with lockstep := fun h => absurd h hM }, hrealm, hmonitor, hleft, hright⟩, hvalues, hscripted,
    hroots⟩

/-- **Collections do not matter to operators that the host applies**, if they hold nothing that a conversion
made while they convert the other operand. Two idle machines are alike and keep
the operands alive, whatever the limits of their heaps. If the operator ends on the first one and does not
run out of memory, then it ends on the second one, within a large enough bound; and if that does not run out
of memory either, both hosts get the same value or error, and the machines are alike again. -/
theorem Twins.applyBinary_agrees (hhost : host.BySyntax) (op : BinaryOp)
    (h : Twins .apart [a, b] [a', b'] ρ m₁ m₂) (hop : op.Careful (host.engine k₁) m₁ a b) {o₁ : Except Error Value} {n₁ : Machine}
    (h₁ : applyBinary (host.engine k₁) op a b m₁ = (Proc.ofExcept o₁ : Run Value) n₁)
    (hfull₁ : o₁ ≠ .error .outOfMemory) :
    (∀ k₂, 2 * k₁ < k₂ → applyBinary (host.engine k₂) op a' b' m₂ ≠ .stalled) ∧
    ∀ (k₂ : Nat) (o₂ : Except Error Value) (n₂ : Machine),
      applyBinary (host.engine k₂) op a' b' m₂ = (Proc.ofExcept o₂ : Run Value) n₂ →
      o₂ ≠ .error .outOfMemory → ∃ ρ', Alike ρ' o₁ o₂ ∧ Twins .apart [a, b] [a', b'] ρ' n₁ n₂ := by
  have rejoins : ∀ (M : Mode) (k₂ : Nat), ¬ M.lockstep → (M.outlasts → 2 * k₁ < k₂) →
      Rejoins M (Moored M [a, b] [a', b'] m₁.realm m₂.realm) Alike (applyBinary (host.engine k₁) op a b m₁)
        (applyBinary (host.engine k₂) op a' b' m₂) := fun M k₂ hM hk =>
    rejoins_applyBinary hhost hM hk op ⟨h.of_apart hM, rfl, rfl⟩ .head (.tail .head) hop
  rw [h₁] at rejoins
  refine ⟨fun k₂ hk hstall => ?_, fun k₂ o₂ n₂ h₂ hfull₂ => ?_⟩
  · have hr := rejoins .outlasting k₂ id fun _ => hk
    rw [hstall] at hr
    cases o₁ with
    | ok v => cases hr with
      | rightStalled hM => exact hM trivial
    | error e => cases hr with
      | leftFull => exact hfull₁ rfl
      | rightStalled hM => exact hM trivial
  · have hr := rejoins .apart k₂ id False.elim
    rw [h₂] at hr
    cases o₁ with
    | ok v =>
      cases o₂ with
      | ok w => cases hr with
        | done ht hq => exact ⟨_, .ok hq, ht.toTwins⟩
      | error e => cases hr with
        | rightFull => exact absurd rfl hfull₂
    | error e =>
      cases o₂ with
      | ok w => cases hr with
        | leftFull => exact absurd rfl hfull₁
      | error e' => cases hr with
        | failed ht he => exact ⟨_, .error he, ht.toTwins⟩
        | leftFull => exact absurd rfl hfull₁
        | rightFull => exact absurd rfl hfull₂

/-- Two objects are added that convert to booleans; one of the machines collects garbage meanwhile. -/
theorem Twins.applyBinary_agrees_booleans : ∃ (ρ ρ' : Renaming) (m₁ m₂ n₁ n₂ : Machine) (a a' x x' : Value),
    Twins .apart [a, a] [a', a'] ρ m₁ m₂ ∧
    BinaryOp.add.Careful ((Host.plain []).engine 40) m₁ a a ∧ a.isObject = true ∧
    applyBinary ((Host.plain []).engine 40) .add a a m₁ = .done x n₁ ∧
    applyBinary ((Host.plain []).engine 40) .add a' a' m₂ = .done x' n₂ ∧
    m₂.heap.collections < n₂.heap.collections ∧ Alike ρ' x x' ∧ Twins .apart [a, a] [a', a'] ρ' n₁ n₂ := by
  have hruns₁ : ((operandMade .standard (.bool true)).bind fun x =>
      (applyBinary ((Host.plain []).engine 40) .add x.1 x.1 x.2).done?.map fun _ =>
        x.1.isObject && (toPrimitive ((Host.plain []).engine 40) x.1 .default x.2).done?.any (·.1 = .bool true)) =
      some true := by decide +kernel
  have hruns₂ : ((operandMade ⟨16777216, 47⟩ (.bool true)).bind fun x =>
      (applyBinary ((Host.plain []).engine 40) .add x.1 x.1 x.2).done?.map fun y =>
        decide (x.2.heap.collections < y.2.heap.collections)) = some true := by decide +kernel
  obtain ⟨⟨a, m₁⟩, hm₁, hruns₁⟩ := Option.bind_eq_some_iff.mp hruns₁
  obtain ⟨⟨x, n₁⟩, h₁, hplain⟩ := Option.map_eq_some_iff.mp hruns₁
  obtain ⟨⟨a', m₂⟩, hm₂, hruns₂⟩ := Option.bind_eq_some_iff.mp hruns₂
  obtain ⟨⟨x', n₂⟩, h₂, hcollected⟩ := Option.map_eq_some_iff.mp hruns₂
  replace h₁ := Outcome.eq_done h₁
  replace h₂ := Outcome.eq_done h₂
  obtain ⟨hobject, hplain⟩ := Bool.and_eq_true_iff.mp hplain
  have hcareful : BinaryOp.add.Careful ((Host.plain []).engine 40) m₁ a a := by
    refine .inr (.inr fun s n hdone => ?_)
    simp [hdone, Outcome.done?] at hplain
  obtain ⟨ρ, htwins⟩ := operandMade_twins hm₁ hm₂
  have hends : applyBinary ((Host.plain []).engine 40) .add a a m₁ = (Proc.ofExcept (.ok x) : Run Value) n₁ := h₁
  obtain ⟨-, hagrees⟩ := Twins.applyBinary_agrees (Host.bySyntax_plain []) .add htwins hcareful hends nofun
  obtain ⟨ρ', hx, htwins'⟩ := hagrees 40 (.ok x') n₂ h₂ nofun
  have hx : Alike ρ' x x' := by
    cases hx with
    | ok h => exact h
  exact ⟨ρ, ρ', m₁, m₂, n₁, n₂, a, a', x, x', htwins, hcareful, hobject, h₁, h₂, of_decide_eq_true hcollected, hx, htwins'⟩

/-- **Collections matter to a sum of two objects** that convert to strings: one machine adds them, the other
one has lost the first string when it needs it. -/
theorem sum_collected : ∃ (ρ : Renaming) (m₁ m₂ n₁ n₂ : Machine) (a a' x : Value),
    Twins .apart [a, a] [a', a'] ρ m₁ m₂ ∧
    applyBinary ((Host.plain []).engine 40) .add a a m₁ = .done x n₁ ∧ n₁.heap.describe x = .ok "l1l1" ∧
    applyBinary ((Host.plain []).engine 40) .add a' a' m₂ = .failed .invalidHandle n₂ := by
  have hruns₁ : ((operandMade .standard (.binary .add (.string "l") (.string "1"))).bind fun x =>
      (applyBinary ((Host.plain []).engine 40) .add x.1 x.1 x.2).done?.map fun y =>
        decide (y.2.heap.describe y.1 = .ok "l1l1")) = some true := by decide +kernel
  have hruns₂ : ((operandMade ⟨16777216, 47⟩ (.binary .add (.string "l") (.string "1"))).bind fun x =>
      (applyBinary ((Host.plain []).engine 40) .add x.1 x.1 x.2).failed?.map fun y =>
        decide (y.1 = .invalidHandle)) = some true := by decide +kernel
  obtain ⟨⟨a, m₁⟩, hm₁, hruns₁⟩ := Option.bind_eq_some_iff.mp hruns₁
  obtain ⟨⟨x, n₁⟩, h₁, htext⟩ := Option.map_eq_some_iff.mp hruns₁
  obtain ⟨⟨a', m₂⟩, hm₂, hruns₂⟩ := Option.bind_eq_some_iff.mp hruns₂
  obtain ⟨⟨e, n₂⟩, h₂, herror⟩ := Option.map_eq_some_iff.mp hruns₂
  obtain ⟨ρ, htwins⟩ := operandMade_twins hm₁ hm₂
  obtain rfl : e = .invalidHandle := of_decide_eq_true herror
  exact ⟨ρ, m₁, m₂, n₁, n₂, a, a', x, htwins, Outcome.eq_done h₁, of_decide_eq_true htext, Outcome.eq_failed h₂⟩

end ScriptCore
