import ScriptCore.Task.Run

/-! # Plans: what an expression does, in one piece

A task is interrupted whenever it needs a value, and goes on from the state that it left. A plan is the same course
of events written in one piece: it asks for the value of a sub-expression or of a call, gives it a name and goes on
with it, or runs a procedure in between.

* `Plan.Follows`: **a task follows a plan**, whatever becomes of what it asks for.
* `Plan.Within`: a plan asks for sub-expressions of a list in turn, for each at most once.
* `Plan.follows_ask`, `Plan.follows_askAll`: a queue of operands follows the plan that asks for them.
* `Plan.follows_act`: a procedure follows the plan that runs it. -/

namespace ScriptCore

/-- What an expression does, one thing after the other. -/
inductive Plan (α : Type) : Type 1 where
  | pure (a : α)
  /-- Asks for the value of a sub-expression. -/
  | operand (e : Expr) (next : Value → Plan α)
  /-- Asks for the value of a call. -/
  | call (r : CallRequest) (next : Value → Plan α)
  /-- Runs a procedure. -/
  | perform {β : Type} (p : Run β) (next : β → Plan α)

namespace Plan

open ExpressionTask (ExprRun)

variable {α β : Type} {engine : Engine} {scope : ScopeRef} {m : Machine} {e : Expr} {es rest : List Expr}

protected def bind : Plan α → (α → Plan β) → Plan β
  | .pure a, f => f a
  | .operand e next, f => .operand e fun v => (next v).bind f
  | .call r next, f => .call r fun v => (next v).bind f
  | .perform p next, f => .perform p fun b => (next b).bind f

instance : Monad Plan where
  pure := .pure
  bind := Plan.bind

theorem bind_assoc {γ : Type} (p : Plan α) (f : α → Plan β) (g : β → Plan γ) :
    (p.bind f).bind g = p.bind fun a => (f a).bind g := by
  induction p with
  | pure a => rfl
  | operand e next ih => exact congrArg (operand e) (funext ih)
  | call r next ih => exact congrArg (call r) (funext ih)
  | perform p next ih => exact congrArg (perform p) (funext ih)

/-- Asks for the value of a sub-expression. -/
def ask (e : Expr) : Plan Value := .operand e .pure

/-- Asks for the values of sub-expressions, from left to right. -/
def askAll : List Expr → Plan (List Value)
  | [] => return []
  | e :: es => do
    let v ← ask e
    let vs ← askAll es
    return v :: vs

/-- Runs a procedure. -/
def act (p : Run α) : Plan α := .perform p .pure

/-! ### Sub-expressions in turn -/

/-- The plan asks for the sub-expressions of the list in turn and for nothing else, for each at most once, and for a
call only when none is left. -/
def Within : Plan α → List Expr → Prop
  | .pure _, _ => True
  | .operand e next, es => ∃ rest, es = e :: rest ∧ ∀ v, Within (next v) rest
  | .call _ next, es => es = [] ∧ ∀ v, Within (next v) []
  | .perform _ next, es => ∀ b, Within (next b) es

theorem within_ask {k : Value → Plan α} (h : ∀ v, (k v).Within rest) : (ask e >>= k).Within (e :: rest) :=
  ⟨rest, rfl, h⟩

theorem within_act {p : Run β} {k : β → Plan α} (h : ∀ b, (k b).Within es) : (act p >>= k).Within es := h

theorem within_askAll {k : List Value → Plan α} (h : ∀ vs, (k vs).Within rest) :
    ∀ es : List Expr, (askAll es >>= k).Within (es ++ rest)
  | [] => h []
  | e :: es => by
    refine ⟨es ++ rest, rfl, fun v => ?_⟩
    show (Plan.bind (Plan.bind (askAll es) fun vs => .pure (v :: vs)) k).Within (es ++ rest)
    rw [bind_assoc]
    exact within_askAll (fun vs => h (v :: vs)) es

/-! ### Tasks that follow a plan -/

/-- The task `t` is suspended. If what it waits for fails, it fails with the same error; else it goes on with the
value, on whatever machine was left. -/
def Awaits (engine : Engine) (t : ExpressionTask)
    (goesOn : Value → Machine → Outcome (ExpressionTask × Machine) Step → Prop) : Prop :=
  (∀ error m, ExpressionTask.resume engine (.error error) (t, m) = .failed error (t, m)) ∧
    ∀ c m, goesOn c.value m (ExpressionTask.resume engine (.ok c) (t, m))

/-- **What became of a task follows the plan**, from the machine `m` on. Where the plan asks for a value the task is
suspended on just that, with the machine as it was, and goes on with the plan whatever value it is given. Where the
plan runs a procedure the machine is what the procedure leaves, and if it fails, so does the task. Where the plan ends
the task has finished with the value. -/
def Follows (engine : Engine) (scope : ScopeRef) :
    Plan Value → Machine → Outcome (ExpressionTask × Machine) Step → Prop
  | .pure v, m, o => ∃ t, o = .done (.value v) (t, m)
  | .operand e next, m, o => ∃ t, o = .done (.ask (.expression e scope)) (t, m) ∧
      Awaits engine t fun v => Follows engine scope (next v)
  | .call r next, m, o => ∃ t, o = .done (.suspended (.call r)) (t, m) ∧
      Awaits engine t fun v => Follows engine scope (next v)
  | .perform p next, m, o =>
    match p m with
    | .done b m' => Follows engine scope (next b) m' o
    | .failed error m' => ∃ t, o = .failed error (t, m')
    | .stalled => o = .stalled

variable {t : ExpressionTask}

theorem follows_pure (v : Value) : Follows engine scope (pure v) m (.done (.value v) (t, m)) := ⟨t, rfl⟩

/-- **A procedure follows the plan that runs it.** -/
theorem follows_act {p : Run β} {k : β → Plan Value} {f : β → ExprRun Step}
    (h : ∀ b m', p m = .done b m' → Follows engine scope (k b) m' (f b (t, m'))) :
    Follows engine scope (act p >>= k) m ((Proc.shared p >>= f) (t, m)) := by
  change Follows engine scope (.perform p k) m _
  unfold Follows
  cases hp : p m with
  | done b m' =>
    have hshared : Proc.shared p (t, m) = .done b (t, m') := by
      unfold Proc.shared
      dsimp only
      rw [hp]
    rw [Proc.bind_done hshared]
    exact h b m' hp
  | failed error m' =>
    have hshared : Proc.shared p (t, m) = .failed error (t, m') := by
      unfold Proc.shared
      dsimp only
      rw [hp]
    exact ⟨t, Proc.bind_failed hshared f⟩
  | stalled =>
    have hshared : Proc.shared p (t, m) = .stalled := by
      unfold Proc.shared
      dsimp only
      rw [hp]
    exact Proc.bind_stalled hshared f

/-- A task that is not waiting for a call takes the value of what it waits for to the values that it has. -/
theorem awaits_operand (hphase : t.phase ≠ .awaitCall)
    {goesOn : Value → Machine → Outcome (ExpressionTask × Machine) Step → Prop}
    (h : ∀ v m, goesOn v m (ExpressionTask.pump engine ({ t with values := t.values ++ [v] }, m))) :
    Awaits engine t goesOn := by
  refine ⟨fun error m => rfl, fun c m => ?_⟩
  have hresume : ExpressionTask.resume engine (.ok c) (t, m) =
      ExpressionTask.pump engine ({ t with values := t.values ++ [c.value] }, m) := by
    show (if t.phase = .awaitCall then _ else _ : ExprRun Step) (t, m) = _
    rw [if_neg hphase]
    rfl
  rw [hresume]
  exact h c.value m

/-- **The operand at the head of the queue is asked for next**, and its value is put behind the others. -/
theorem follows_ask (hpending : t.pending = e :: rest) (hphase : t.phase ≠ .awaitCall) {k : Value → Plan Value}
    (h : ∀ v m', Follows engine t.scope (k v) m'
      (ExpressionTask.pump engine ({ t with pending := rest, values := t.values ++ [v] }, m'))) :
    Follows engine t.scope (ask e >>= k) m (ExpressionTask.pump engine (t, m)) := by
  refine ⟨{ t with pending := rest }, ?_, awaits_operand (t := { t with pending := rest }) hphase h⟩
  obtain ⟨expr, scope, pending, values, phase, callee, receiver⟩ := t
  cases hpending
  rfl

/-- **A queue of operands is asked for from left to right**, and the values are put behind the others in this order. -/
theorem follows_askAll : ∀ {es : List Expr} {t : ExpressionTask}, t.pending = es → t.phase ≠ .awaitCall →
    ∀ {k : List Value → Plan Value}, (∀ vs m', Follows engine t.scope (k vs) m'
      (ExpressionTask.combine engine ({ t with pending := [], values := t.values ++ vs }, m'))) →
    ∀ m, Follows engine t.scope (askAll es >>= k) m (ExpressionTask.pump engine (t, m))
  | [], t, hpending, _, k, h, m => by
    obtain ⟨expr, scope, pending, values, phase, callee, receiver⟩ := t
    cases hpending
    have h' := h [] m
    rw [List.append_nil] at h'
    exact h'
  | e :: es, t, hpending, hphase, k, h, m => by
    have hbind : askAll (e :: es) >>= k = ask e >>= fun v => askAll es >>= fun vs => k (v :: vs) := by
      show Plan.operand e _ = Plan.operand e _
      congr 1
      funext v
      show Plan.bind (Plan.bind (askAll es) fun vs => .pure (v :: vs)) k = _
      rw [bind_assoc]
      rfl
    rw [hbind]
    refine follows_ask hpending hphase fun v m' => ?_
    refine follows_askAll (t := { t with pending := es, values := t.values ++ [v] }) rfl hphase (fun vs m'' => ?_) m'
    have h' := h (v :: vs) m''
    rw [List.append_cons] at h'
    exact h'

end Plan

end ScriptCore
