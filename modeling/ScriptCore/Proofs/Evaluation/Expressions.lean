import ScriptCore.Proofs.Evaluation.Plan

/-! # Operands are evaluated in source order

`Expr.plan` says in one piece what an expression does: which sub-expressions it asks for and in which order, and what
it does with the value of each. The task, with its queue, its list of values and its phases, does the same.

* `Expr.plan`: **the evaluation of an expression**, with a name for the value of each operand.
* `Expr.inOrder`: the operands of an expression in source order.
* `ExpressionTask.follows_plan`: the task follows the plan, by cases on the expression.
* `ExpressionTask.operands_in_order`: **it asks for the operands in source order**, as the plan does. -/

namespace ScriptCore

open Plan

/-! ### The plan of an expression -/

/-- Asks for the value of a computed key. What is handed over converts that value to a key, later. -/
def MemberKey.plan (engine : Engine) : MemberKey → Plan (Run PropertyKey)
  | .named name => return Heap.keyOfName name
  | .computed key => do
    let v ← ask key
    return toPropertyKey engine v

/-- Writes values under their names, in turn. -/
def setNames (engine : Engine) (o : ObjectRef) : List (String × Value) → Run Unit
  | [] => pure ()
  | (name, v) :: properties => do
    let key ← Heap.keyOfName name
    discard (setProperty engine o key v true)
    setNames engine o properties

/-- The left side of a logical operator, which is truthy or not, is its value. -/
def LogicalOp.decidedBy (truthy : Bool) : LogicalOp → Bool
  | .and => !truthy
  | .or => truthy

/-- The value of a unary operator. -/
def UnaryOp.apply (engine : Engine) (v : Value) : UnaryOp → Run Value
  | .not => do return .bool !(← Run.readHeap fun h => h.truthy v)
  | .neg => do return .number (-(← toNumber engine v))
  | .plus => do return .number (← toNumber engine v)
  | .void => return .undefined
  | .typeOf => do
    let name ← Run.readHeap fun h => h.typeName v
    return .string (← Heap.internString name)
  | .delete => return .bool true

/-- Deletes a member of the value `v`. -/
def deleteMember (scope : ScopeRef) (v : Value) (key : PropertyKey) : Run Value :=
  match v with
  | .object o => do
    let strict ← Run.readHeap fun h => h.scopeIsStrict scope
    return .bool (← deleteProperty o key strict)
  | .undefined | .null => do
    let text ← Run.readHeap fun h => h.describe v
    throw (.typeError s!"cannot delete property of {text}")
  | _ => return .bool true

/-- Asks for a call of `f`, if it can be called. -/
def invoke (scope : ScopeRef) (callee : Expr) (f receiver : Value) (args : List Value) : Plan Value := do
  let callable ← act (Run.readHeap fun h => h.isCallable f)
  if callable then
    let debug ← act Run.isDebug
    .call
      { callee := f, receiver, args, scope
        extra := { profileName := if debug then callee.sourceName else none, callee := some f } } .pure
  else act (throw (.notCallable (callee.sourceName.getD "expression")))

/-- **The evaluation of an expression.** -/
def Expr.plan (engine : Engine) (scope : ScopeRef) : Expr → Plan Value
  | .undefined => return .undefined
  | .null => return .null
  | .bool b => return .bool b
  | .number x => return .number x
  | .string s => do
    let r ← act (Run.onHeap (Heap.internString s))
    return .string r
  | .ident name => act (lookupName engine scope name)
  | .receiver => act (Run.readHeap fun h => h.scopeReceiver scope)
  | .function f => do
    let o ← act (allocClosure f scope)
    return .object o
  | .array elements => do
    let values ← askAll elements
    let o ← act (allocArray values)
    return .object o
  | .object properties => do
    let values ← askAll (properties.map (·.2))
    let o ← act allocPlainObject
    let _ ← act (setNames engine o ((properties.map (·.1)).zip values))
    return .object o
  | .member base key => do
    let o ← ask base
    let convert ← key.plan engine
    let key ← act convert
    act (getProperty engine o key)
  | .assign (.member base key) value => do
    let o ← ask base
    let convert ← key.plan engine
    let v ← ask value
    let _ ← act do
      let key ← convert
      let strict ← Run.readHeap fun h => h.scopeIsStrict scope
      discard (setMember engine o key v strict)
    return v
  | .assign target value => do
    let v ← ask value
    let _ ← act (writePattern engine scope target v)
    return v
  | .call (.member base key) args => do
    let receiver ← ask base
    let convert ← key.plan engine
    let name ← act convert
    let f ← act (getProperty engine receiver name)
    let values ← askAll args
    invoke scope (.member base key) f receiver values
  | .call callee args => do
    let f ← ask callee
    let values ← askAll args
    invoke scope callee f .undefined values
  | .binary op left right => do
    let a ← ask left
    let b ← ask right
    act (applyBinary engine op a b)
  | .logical op left right => do
    let v ← ask left
    let truthy ← act (Run.readHeap fun h => h.truthy v)
    if op.decidedBy truthy then return v else ask right
  | .unary .delete (.member base key) => do
    let o ← ask base
    let convert ← key.plan engine
    act do
      let key ← convert
      deleteMember scope o key
  | .unary .delete (.ident _) => return .bool false
  | .unary .typeOf (.ident name) => do
    let bound ← act (hasBinding scope name)
    if bound then
      let v ← ask (.ident name)
      act (UnaryOp.typeOf.apply engine v)
    else
      let r ← act (Run.onHeap (Heap.internString "undefined"))
      return .string r
  | .unary op e => do
    let v ← ask e
    act (op.apply engine v)

/-! ### Operands in source order -/

def MemberKey.inOrder : MemberKey → List Expr
  | .named _ => []
  | .computed key => [key]

/-- The operands of an expression in source order. -/
def Expr.inOrder : Expr → List Expr
  | .array elements => elements
  | .object properties => properties.map (·.2)
  | .member base key => base :: key.inOrder
  | .assign (.member base key) value => base :: (key.inOrder ++ [value])
  | .assign _ value => [value]
  | .call (.member base key) args => base :: (key.inOrder ++ args)
  | .call callee args => callee :: args
  | .binary _ left right => [left, right]
  | .logical _ left right => [left, right]
  | .unary .delete (.ident _) => []
  | .unary .delete (.member base key) => base :: key.inOrder
  | .unary _ e => [e]
  | _ => []

variable {engine : Engine} {scope : ScopeRef} {rest : List Expr}

theorem MemberKey.within_plan {key : MemberKey} {α : Type} {k : Run PropertyKey → Plan α}
    (h : ∀ convert, (k convert).Within rest) : (key.plan engine >>= k).Within (key.inOrder ++ rest) := by
  cases key with
  | named name => exact h _
  | computed key => exact within_ask fun v => h _

theorem within_invoke (callee : Expr) (f receiver : Value) (args : List Value) :
    (invoke scope callee f receiver args).Within [] := by
  refine within_act fun callable => ?_
  cases callable with
  | true => exact within_act fun debug => ⟨rfl, fun v => trivial⟩
  | false => exact fun b => trivial

theorem Expr.within_plan (e : Expr) : (e.plan engine scope).Within e.inOrder := by
  -- What is asked for last leaves nothing.
  have hlast : ∀ {es : List Expr} {k : List Value → Plan Value}, (∀ values, (k values).Within []) →
      (askAll es >>= k).Within es := fun {es k} h => by
    have h' := within_askAll h es
    rwa [List.append_nil] at h'
  have hkey : ∀ {key : MemberKey} {k : Run PropertyKey → Plan Value}, (∀ convert, (k convert).Within []) →
      (key.plan engine >>= k).Within key.inOrder := fun {key k} h => by
    have h' : (key.plan engine >>= k).Within (key.inOrder ++ []) := MemberKey.within_plan h
    rwa [List.append_nil] at h'
  cases e with
  | array elements => exact hlast fun values => within_act fun o => trivial
  | object properties => exact hlast fun values => within_act fun o => within_act fun _ => trivial
  | member base key => exact within_ask fun o => hkey fun convert => within_act fun k => within_act fun v => trivial
  | assign target value =>
    cases target with
    | member base key =>
      exact within_ask fun o => MemberKey.within_plan fun convert => within_ask fun v => within_act fun _ => trivial
    | _ => exact within_ask fun v => within_act fun _ => trivial
  | call callee args =>
    cases callee with
    | member base key =>
      exact within_ask fun o => MemberKey.within_plan fun convert => within_act fun k => within_act fun f =>
        hlast fun values => within_invoke _ _ _ _
    | _ => exact within_ask fun f => hlast fun values => within_invoke _ _ _ _
  | binary op left right => exact within_ask fun a => within_ask fun b => within_act fun v => trivial
  | logical op left right =>
    refine within_ask fun v => within_act fun truthy => ?_
    cases op.decidedBy truthy with
    | true => exact trivial
    | false => exact within_ask fun w => trivial
  | unary op e =>
    cases op with
    | delete =>
      cases e with
      | member base key => exact within_ask fun o => hkey fun convert => within_act fun v => trivial
      | ident name => exact trivial
      | _ => exact within_ask fun v => within_act fun w => trivial
    | typeOf =>
      cases e with
      | ident name =>
        refine within_act fun bound => ?_
        cases bound with
        | true => exact within_ask fun v => within_act fun w => trivial
        | false => exact within_act fun r => trivial
      | _ => exact within_ask fun v => within_act fun w => trivial
    | _ => exact within_ask fun v => within_act fun w => trivial
  | undefined | null | bool _ | number _ => exact trivial
  | string _ | ident _ | receiver | function _ => exact within_act fun v => trivial

/-! ### The task follows the plan -/

namespace ExpressionTask

/-- The task of an expression that asks for its operands: those that are still pending, and the values of the others. -/
def gathering (e : Expr) (scope : ScopeRef) (pending : List Expr) (values : List Value) : ExpressionTask :=
  ⟨e, scope, pending, values, .operands, .undefined, .undefined⟩

/-- The task of an expression that was asked for. -/
def fresh (e : Expr) (scope : ScopeRef) : ExpressionTask := gathering e scope [] []

variable {m : Machine} {t : ExpressionTask} {e x base : Expr} {es : List Expr} {vs : List Value} {key : MemberKey}

/-- The next operand is asked for, and its value is put behind the others. -/
theorem follows_next {k : Value → Plan Value}
    (h : ∀ v m', Follows engine scope (k v) m' (pump engine (gathering e scope rest (vs ++ [v]), m'))) :
    Follows engine scope (Plan.ask x >>= k) m (pump engine (gathering e scope (x :: rest) vs, m)) :=
  follows_ask (t := gathering e scope (x :: rest) vs) rfl (by nofun) h

theorem pump_nil : pump engine (gathering e scope [] vs, m) = combine engine (gathering e scope [] vs, m) := rfl

/-- The pending operands are asked for from left to right. -/
theorem follows_pending {k : List Value → Plan Value}
    (h : ∀ ws m', Follows engine scope (k ws) m' (combine engine (gathering e scope [] (vs ++ ws), m'))) :
    Follows engine scope (askAll es >>= k) m (pump engine (gathering e scope es vs, m)) :=
  follows_askAll (t := gathering e scope es vs) rfl (by nofun) h m

/-! ### Members -/

/-- **The object of a member and then its computed key are asked for.** What converts the value of the key finds it
behind the object, whatever other values come later. -/
theorem follows_member (others : List Expr) {k : Value → Run PropertyKey → Plan Value}
    (h : ∀ o convert vs m', (∀ later, memberKey engine (gathering e scope [] (o :: vs ++ later)) key = convert) →
      Follows engine scope (k o convert) m' (pump engine (gathering e scope others (o :: vs), m'))) :
    Follows engine scope (Plan.ask base >>= fun o => key.plan engine >>= k o) m
      (pump engine (gathering e scope (Expr.memberOperands base key ++ others) [], m)) := by
  cases key with
  | named name => exact follows_next fun o m' => h o _ [] m' fun later => rfl
  | computed key => exact follows_next fun o m' => follows_next fun v m'' => h o _ [v] m'' fun later => rfl

/-- The same where there is nothing else to ask for. -/
theorem follows_lone_member {k : Value → Run PropertyKey → Plan Value}
    (h : ∀ o vs m', Follows engine scope (k o (memberKey engine (gathering e scope [] (o :: vs)) key)) m'
      (combine engine (gathering e scope [] (o :: vs), m'))) :
    Follows engine scope (Plan.ask base >>= fun o => key.plan engine >>= k o) m
      (pump engine (gathering e scope (Expr.memberOperands base key) [], m)) := by
  rw [← List.append_nil (Expr.memberOperands base key)]
  refine follows_member [] fun o convert vs m' hconvert => ?_
  have hnone := hconvert []
  rw [List.append_nil] at hnone
  subst hnone
  exact h o vs m'

/-! ### Literals and assignments -/

/-- The values of an object literal are written under the names in their places. -/
theorem writeLiteral_eq (o : ObjectRef) : ∀ (properties : List (String × Expr)) (values : List Value),
    writeLiteral engine o properties values = setNames engine o ((properties.map (·.1)).zip values)
  | [], _ => rfl
  | _ :: _, [] => rfl
  | (name, _) :: properties, v :: values => by
    unfold writeLiteral
    simp only [writeLiteral_eq o properties values]
    rfl

/-- The last value is assigned. -/
theorem combine_assign {target : Pattern} {value : Expr} {v : Value} (hlast : vs.getLast?.getD .undefined = v) :
    combine engine (gathering (.assign target value) scope [] vs, m) = (do
      Proc.shared (assignTo engine (gathering (.assign target value) scope [] vs) target v)
      return .value v : ExprRun Step) (gathering (.assign target value) scope [] vs, m) := by
  subst hlast
  rfl

/-! ### Calls -/

/-- **A call is asked for with the callee, the receiver and the values as arguments.** -/
theorem follows_askCall (callee : Expr) :
    Follows engine t.scope (invoke t.scope callee t.callee t.receiver t.values) m (askCall callee (t, m)) := by
  refine follows_act fun callable m' _ => ?_
  cases callable with
  | true =>
    refine follows_act fun debug m'' _ => ?_
    exact ⟨{ t with phase := .awaitCall, values := [] }, rfl, fun _ _ => rfl, fun c m => ⟨_, rfl⟩⟩
  | false => exact ⟨t, rfl⟩

/-- The arguments of a member call are a queue of their own. -/
theorem askArguments_eq (callee : Expr) (args : List Expr) (f receiver : Value) :
    askArguments callee args (⟨.call callee args, scope, [], [], .callArgs, f, receiver⟩, m) =
      pump engine (⟨.call callee args, scope, args, [], .callArgs, f, receiver⟩, m) := by
  cases args <;> rfl

/-- The arguments of a member call are asked for after the callee was looked up. -/
theorem follows_arguments (callee : Expr) (args : List Expr) (f receiver : Value) :
    Follows engine scope (askAll args >>= invoke scope callee f receiver) m
      (askArguments callee args (⟨.call callee args, scope, [], [], .callArgs, f, receiver⟩, m)) := by
  rw [askArguments_eq]
  refine follows_askAll (t := ⟨.call callee args, scope, args, [], .callArgs, f, receiver⟩) rfl (by nofun)
    (fun values m' => ?_) m
  exact follows_askCall (t := ⟨.call callee args, scope, [], values, .callArgs, f, receiver⟩) callee

/-- A plain call, if it is planned and combined as one. -/
theorem follows_call (callee : Expr) (args : List Expr)
    (hcombine : ∀ f vs m', combine engine (gathering (.call callee args) scope [] (f :: vs), m') =
      askCall callee (⟨.call callee args, scope, [], vs, .operands, f, .undefined⟩, m')) :
    Follows engine scope (do
      let f ← Plan.ask callee
      let values ← askAll args
      invoke scope callee f .undefined values) m
      (pump engine (gathering (.call callee args) scope (callee :: args) [], m)) := by
  refine follows_next fun f m' => follows_pending fun vs m'' => ?_
  change Follows engine scope _ m'' (combine engine (gathering (.call callee args) scope [] (f :: vs), m''))
  rw [hcombine]
  exact follows_askCall (t := ⟨.call callee args, scope, [], vs, .operands, f, .undefined⟩) callee

/-! ### Operators -/

/-- A unary operation on an operand that is asked for, if it is combined as one. -/
theorem follows_unary (op : UnaryOp) (e : Expr) (hunary : ∀ t, unary engine t op e = op.apply engine (t.operand 0)) :
    Follows engine scope (Plan.ask e >>= fun v => act (op.apply engine v)) m
      (pump engine (gathering (.unary op e) scope [e] [], m)) := by
  refine follows_next fun v m' => ?_
  have happly := hunary (gathering (.unary op e) scope [] [v])
  change _ = op.apply engine v at happly
  rw [← happly]
  exact follows_act fun _ _ _ => follows_pure _

/-- The right side of a logical operator is asked for, and is its value. -/
theorem follows_right {op : LogicalOp} {left right : Expr} {v : Value} :
    Follows engine scope (Plan.ask right) m (.done (.ask (.expression right scope))
      (⟨.logical op left right, scope, [], [v], .logicalRight, .undefined, .undefined⟩, m)) :=
  ⟨_, rfl, awaits_operand (by nofun) fun w m' => ⟨_, rfl⟩⟩

/-- **The task of an expression follows its plan**, on every machine. -/
theorem follows_plan (e : Expr) (m : Machine) :
    Follows engine scope (e.plan engine scope) m (start engine (fresh e scope, m)) := by
  cases e with
  | array elements =>
    refine follows_pending (e := .array elements) fun values m' => ?_
    exact follows_act fun _ _ _ => follows_pure _
  | object properties =>
    refine follows_pending (e := .object properties) fun values m' => ?_
    refine follows_act fun o m'' _ => ?_
    rw [← writeLiteral_eq]
    exact follows_act fun _ _ _ => follows_pure _
  | member base key =>
    refine follows_lone_member (e := .member base key) fun o values m' => ?_
    exact follows_act fun k _ _ => follows_act fun _ _ _ => follows_pure _
  | assign target value =>
    cases target with
    | member base key =>
      refine follows_member (e := .assign (.member base key) value) [value] fun o convert vs m' hconvert => ?_
      refine follows_next fun v m'' => ?_
      obtain rfl := hconvert [v]
      have hlast : ((o :: vs) ++ [v]).getLast?.getD .undefined = v := by
        rw [List.getLast?_concat]
        rfl
      rw [pump_nil, combine_assign hlast]
      exact follows_act fun _ _ _ => follows_pure _
    | _ => exact follows_next fun v m' => follows_act fun _ _ _ => follows_pure _
  | call callee args =>
    cases callee with
    | member base key =>
      refine follows_lone_member (e := .call (.member base key) args) fun o values m' => ?_
      refine follows_act fun k m'' _ => follows_act fun f m''' _ => ?_
      exact follows_arguments _ args f o
    | _ => exact follows_call _ args fun _ _ _ => rfl
  | binary op left right =>
    refine follows_next (e := .binary op left right) fun a m' => follows_next fun b m'' => ?_
    exact follows_act fun _ _ _ => follows_pure _
  | logical op left right =>
    refine follows_next (e := .logical op left right) fun v m' => ?_
    refine follows_act fun truthy m'' _ => ?_
    cases op with
    | and =>
      cases truthy with
      | true => exact follows_right
      | false => exact follows_pure v
    | or =>
      cases truthy with
      | true => exact follows_pure v
      | false => exact follows_right
  | unary op e =>
    cases op with
    | delete =>
      cases e with
      | member base key =>
        refine follows_lone_member (e := .unary .delete (.member base key)) fun o values m' => ?_
        exact follows_act fun _ _ _ => follows_pure _
      | ident name => exact follows_pure _
      | _ => exact follows_unary _ _ fun _ => rfl
    | typeOf =>
      cases e with
      | ident name =>
        refine follows_act fun bound m' _ => ?_
        cases bound with
        | true => exact follows_unary .typeOf (.ident name) fun _ => rfl
        | false => exact follows_act fun _ _ _ => follows_pure _
      | _ => exact follows_unary _ _ fun _ => rfl
    | _ => exact follows_unary _ _ fun _ => rfl
  | undefined | null | bool _ | number _ => exact follows_pure _
  | string _ | ident _ | receiver | function _ => exact follows_act fun _ _ _ => follows_pure _

/-- **Operands are evaluated in source order.** The task of an expression follows the plan of the expression: it is
suspended on the operands that the plan asks for, one after the other, fails with the first that fails, and does with
the values of the others what the plan does with them by name, whatever these values are and on whatever machines
they come. The plan asks for the operands in source order, for each at most once, and for a call only when the values
of all of them are there. -/
theorem operands_in_order (engine : Engine) (scope : ScopeRef) (e : Expr) (m : Machine) :
    Follows engine scope (e.plan engine scope) m (start engine (fresh e scope, m)) ∧
      (e.plan engine scope).Within e.inOrder :=
  ⟨follows_plan e m, e.within_plan⟩

end ExpressionTask

end ScriptCore
