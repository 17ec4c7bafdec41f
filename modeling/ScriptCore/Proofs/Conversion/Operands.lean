import ScriptCore.Proofs.Conversion.Equality
import ScriptCore.Proofs.Operators

/-! # In which order operands are converted

Arithmetic and relational operators convert one operand to a primitive by its own methods, and then the other one. No
more code runs after that: from two primitives every operator comes to its result by itself. The operand that goes first
is the left one, but for `>` and `<=`, which compare with the operands exchanged.

* `BinaryOp.hint?`, `BinaryOp.first`, `BinaryOp.second`: how an operator converts, and what in turn.
* `addValues_in_turn`, `lessThan_in_turn`, `arithmetic_eq`: addition, comparison and arithmetic, taken apart.
* `applyBinary_in_turn`: **an operator is its two conversions**, and a rest that runs no code.
* `greater_converts_right_first`: what `>` and `<=` do. -/

namespace ScriptCore

variable {α β σ : Type} {E : Engine} {v : Value} {op : BinaryOp} {hint : Hint}

namespace BinaryOp

/-- How an arithmetic or relational operator converts its operands. -/
def hint? : BinaryOp → Option Hint
  | .add => some .default
  | .sub | .mul | .div | .rem | .lt | .ltEq | .gt | .gtEq => some .number
  | .looseEq | .looseNotEq | .strictEq | .strictNotEq | .isIn => none

/-- The operator converts its right operand first. -/
def exchanges : BinaryOp → Bool
  | .gt | .ltEq => true
  | _ => false

/-- The operand that is converted first. -/
def first (op : BinaryOp) (a b : Value) : Value := if op.exchanges then b else a

/-- The operand that is converted after that. -/
def second (op : BinaryOp) (a b : Value) : Value := if op.exchanges then a else b

/-- What the operator keeps of the first operand while it converts the second one. -/
def keep (op : BinaryOp) (p : Value) : Run Value :=
  match op with
  | .sub | .mul | .div | .rem => do return .number (← Run.readHeap fun h => h.numberOf p)
  | _ => return p

/-- The operator on primitives, in the order in which they were converted. -/
def onPrimitives (E : Engine) (op : BinaryOp) (p q : Value) : Run Value := applyBinary E op (op.first p q) (op.second p q)

end BinaryOp

/-! ### Operators on primitives -/

theorem Proc.Delivers.bind_congr {P : α → Prop} {p : Proc σ α} {f g : α → Proc σ β} (hp : p.Delivers P)
    (hfg : ∀ x, P x → f x = g x) : p >>= f = p >>= g := by
  funext s
  rw [Proc.bind_eq, Proc.bind_eq]
  cases hps : p s with
  | done x s' => exact congrFun (hfg x (hp s x s' hps)) s'
  | failed e s' => rfl
  | stalled => rfl

/-- Both operands are primitives once they are converted. -/
theorem toPrimitive_bind_congr {f g : Value → Run α} (hfg : ∀ p, p.isObject = false → f p = g p) :
    (toPrimitive E v hint >>= f) = toPrimitive E v hint >>= g := (delivers_toPrimitive E v hint).bind_congr hfg

theorem toNumber_eq (E : Engine) (v : Value) :
    toNumber E v = toPrimitive E v .number >>= fun p => Run.readHeap fun h => h.numberOf p := by
  cases v <;> rfl

/-- The number of the first operand is read before the second one is converted. -/
theorem arithmetic_eq (E E' : Engine) (f : Float → Float → Float) (a b : Value) :
    arithmetic E f a b = (do
      let p ← toPrimitive E a .number
      let x ← Run.readHeap fun h => h.numberOf p
      let q ← toPrimitive E b .number
      arithmetic E' f (.number x) q) := by
  unfold arithmetic
  rw [toNumber_eq, bind_assoc]
  refine bind_congr fun p => bind_congr fun x => ?_
  rw [toNumber_eq, bind_assoc]
  refine toPrimitive_bind_congr fun q hq => ?_
  rw [toNumber_primitive E' hq]
  rfl

theorem addValues_in_turn (E E' : Engine) (a b : Value) : addValues E a b = (do
    let p ← toPrimitive E a .default
    let q ← toPrimitive E b .default
    addValues E' p q) := by
  rw [addValues_eq]
  exact toPrimitive_bind_congr fun p hp => toPrimitive_bind_congr fun q hq => addPrimitives_eq E E' hp hq

theorem lessThan_in_turn (E E' : Engine) (a b : Value) : lessThan E a b = (do
    let p ← toPrimitive E a .number
    let q ← toPrimitive E b .number
    lessThan E' p q) := by
  rw [lessThan_eq]
  exact toPrimitive_bind_congr fun p hp => toPrimitive_bind_congr fun q hq => lessPrimitives_eq E E' hp hq

/-- **An operator is its two conversions.** An arithmetic or relational operator converts its first operand to a
primitive, keeps that or its number, converts the second operand, and goes on with no more code to run. The left operand
is the first one, except for `>` and `<=`. So the code that converts the first operand has run before any that converts
the second one, and if the conversion of the first operand fails, the operator fails with that and the other operand is
not touched. -/
theorem applyBinary_in_turn (hop : op.hint? = some hint) (E E' : Engine) (a b : Value) :
    applyBinary E op a b = (do
      let p ← toPrimitive E (op.first a b) hint
      let x ← op.keep p
      let q ← toPrimitive E (op.second a b) hint
      op.onPrimitives E' x q) ∧
    ∀ m e m', toPrimitive E (op.first a b) hint m = .failed e m' → applyBinary E op a b m = .failed e m' := by
  have hturn : applyBinary E op a b = (do
      let p ← toPrimitive E (op.first a b) hint
      let x ← op.keep p
      let q ← toPrimitive E (op.second a b) hint
      op.onPrimitives E' x q) := by
    have compared : ∀ (r : Option Bool) (v w : Value), (do return .bool ((← lessThan E v w) == r) : Run Value) = (do
        let p ← toPrimitive E v .number
        let q ← toPrimitive E w .number
        return .bool ((← lessThan E' p q) == r)) := fun r v w => by
      rw [lessThan_in_turn E E' v w]
      simp only [bind_assoc]
    have calculated : ∀ (f : Float → Float → Float) (v w : Value), arithmetic E f v w = (do
        let p ← toPrimitive E v .number
        let x ← (do return .number (← Run.readHeap fun h => h.numberOf p) : Run Value)
        let q ← toPrimitive E w .number
        arithmetic E' f x q) := fun f v w => by
      rw [arithmetic_eq E E' f v w]
      simp only [bind_assoc, pure_bind]
    cases op with
    | add => cases hop; exact addValues_in_turn E E' a b
    | sub => cases hop; exact calculated _ a b
    | mul => cases hop; exact calculated _ a b
    | div => cases hop; exact calculated _ a b
    | rem => cases hop; exact calculated _ a b
    | lt => cases hop; exact compared _ a b
    | gtEq => cases hop; exact compared _ a b
    | gt => cases hop; exact compared _ b a
    | ltEq => cases hop; exact compared _ b a
    | looseEq => cases hop
    | looseNotEq => cases hop
    | strictEq => cases hop
    | strictNotEq => cases hop
    | isIn => cases hop
  refine ⟨hturn, fun m e m' hfailed => ?_⟩
  rw [hturn, Proc.bind_eq, hfailed]
  rfl

/-- The right operand of `>` is an object whose method throws. -/
theorem applyBinary_in_turn_throw : ∃ (m m' : Machine) (b : Value) (e : Error), b.isObject = true ∧
    BinaryOp.gt.hint? = some .number ∧
    toPrimitive ((Host.plain []).engine 40) b .number m = .failed e m' ∧
    applyBinary ((Host.plain []).engine 40) .gt .null b m = .failed e m' := by
  have hruns : ((executed .standard [.expr (.object [("valueOf", .function
      ⟨none, [], .block [.throwValue (.bool true)], false, false, false⟩)])]).bind fun x =>
        (toPrimitive ((Host.plain []).engine 40) x.1 .number x.2).failed?.map fun _ => x.1.isObject) = some true := by
    decide +kernel
  obtain ⟨⟨b, m⟩, -, hruns⟩ := Option.bind_eq_some_iff.mp hruns
  obtain ⟨⟨e, m'⟩, hfailed, hobject⟩ := Option.map_eq_some_iff.mp hruns
  replace hfailed := Outcome.eq_failed hfailed
  exact ⟨m, m', b, e, hobject, rfl, hfailed,
    (applyBinary_in_turn (show BinaryOp.gt.hint? = some .number from rfl) _ ((Host.plain []).engine 0) .null b).2 m e m'
      hfailed⟩

/-! ### Operands that note their conversion -/

/-- An object whose conversion appends `mark` to the text of `order`, and goes on with the statement. -/
def noting (mark : String) (last : Stmt) : Expr :=
  .object [("valueOf", .function ⟨none, [], .block
    [.expr (.assign (.ident "order") (.binary .add (.ident "order") (.string mark))), last], false, false, false⟩)]

/-- The text that a program leaves in `order` when it applies the operator to two objects that note their conversion. The
left one then goes on with the statement. -/
def conversionOrder (op : BinaryOp) (last : Stmt) : Option (Except Error String) :=
  (executed .standard [
    .expr (.assign (.ident "order") (.string "")),
    .tryCatch [.expr (.binary op (noting "l" last) (noting "r" (.ret none)))] none [],
    .expr (.ident "order")]).map fun x => x.2.heap.describe x.1

/-- **`>` and `<=` convert their right operand first**, and do so as well if the left one cannot be converted. -/
theorem greater_converts_right_first :
    [BinaryOp.gt, .ltEq].map (conversionOrder · (.ret none)) = [some (.ok "rl"), some (.ok "rl")] ∧
    [BinaryOp.lt, .gtEq].map (conversionOrder · (.ret none)) = [some (.ok "lr"), some (.ok "lr")] ∧
    [BinaryOp.gt, .ltEq].map (conversionOrder · (.throwValue .null)) = [some (.ok "rl"), some (.ok "rl")] ∧
    [BinaryOp.lt, .gtEq].map (conversionOrder · (.throwValue .null)) = [some (.ok "l"), some (.ok "l")] := by
  decide +kernel

end ScriptCore
