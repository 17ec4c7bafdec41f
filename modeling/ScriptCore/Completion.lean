import ScriptCore.Value

/-! # How a piece of syntax completes

A statement completes normally, with or without a value, or abruptly. Keeping the missing value
apart from `undefined` lets a statement list end with the value of its last statement that had one:
`updateEmpty` fills a missing value and leaves a present one alone. -/

namespace ScriptCore

/-- How a piece of syntax completed. -/
inductive Completion where
  | normal (value : Option Value)
  | thrown (value : Value)
  | returned (value : Value)
  | broken (label : Option String) (value : Option Value)
  | continued (label : Option String) (value : Option Value)
deriving DecidableEq, Inhabited

namespace Completion

/-- Normal completion without a value. -/
def empty : Completion := .normal none

/-- Normal completion with a value. -/
def ofValue (v : Value) : Completion := .normal (some v)

/-- The way of completing, in a word. -/
def kind : Completion → String
  | .normal _ => "normal"
  | .thrown _ => "throw"
  | .returned _ => "return"
  | .broken _ _ => "break"
  | .continued _ _ => "continue"

/-- The completion of a kind given by name; throwing and returning without a value carry
`undefined`. -/
def ofKind (kind : String) (label : Option String) (value : Option Value) : Completion :=
  match kind with
  | "throw" => .thrown (value.getD .undefined)
  | "return" => .returned (value.getD .undefined)
  | "break" => .broken label value
  | "continue" => .continued label value
  | _ => .normal value

/-- The label of a break or a continue. -/
def label? : Completion → Option (Option String)
  | .broken label _ | .continued label _ => some label
  | _ => none

/-- The value a completion carries, if any. -/
def value? : Completion → Option Value
  | .normal v => v
  | .thrown v => some v
  | .returned v => some v
  | .broken _ v => v
  | .continued _ v => v

/-- The value a completion carries, `undefined` if none. -/
def value (c : Completion) : Value := c.value?.getD .undefined

/-- Anything but normal completion. -/
def isAbrupt : Completion → Bool
  | .normal _ => false
  | _ => true

/-- Fills a missing value. -/
def updateEmpty (c : Completion) (v : Option Value) : Completion :=
  match c with
  | .normal none => .normal v
  | .broken label none => .broken label v
  | .continued label none => .continued label v
  | other => other

section UpdateEmpty

variable (label : Option String) (u : Value) (v w : Option Value)

@[simp] theorem updateEmpty_normal : (normal v).updateEmpty w = .normal (v.or w) := by
  cases v <;> rfl

@[simp] theorem updateEmpty_thrown : (thrown u).updateEmpty w = .thrown u := rfl

@[simp] theorem updateEmpty_returned : (returned u).updateEmpty w = .returned u := rfl

@[simp] theorem updateEmpty_broken : (broken label v).updateEmpty w = .broken label (v.or w) := by
  cases v <;> rfl

@[simp] theorem updateEmpty_continued : (continued label v).updateEmpty w = .continued label (v.or w) := by
  cases v <;> rfl

end UpdateEmpty

/-- The handles a completion keeps alive. -/
def handles (c : Completion) : List Handle :=
  match c.value? with
  | some v => v.handles
  | none => []

end Completion

end ScriptCore
