import ScriptCore.Error

/-! # Procedures: state functions with three endings

A procedure over a state `σ` either delivers a value, or fails with an error, or stalls because the
bound on its steps was used up. The state as it was then is kept by a failure as much as by a
success: nothing is rolled back. Stalling is not an error of the program, so nothing intercepts it.

* `attempt` turns a failure into a value and lets a stalled run stay stalled.
* The monad laws hold (`LawfulMonad`); `bind_done`, `bind_failed` and `bind_stalled` say how a
  sequence goes on from each ending of its first part. -/

namespace ScriptCore

/-- How a procedure over `σ` ends. -/
inductive Outcome (σ α : Type) where
  | done (value : α) (state : σ)
  | failed (error : Error) (state : σ)
  | stalled

/-- A procedure over a state `σ`. -/
def Proc (σ α : Type) : Type := σ → Outcome σ α

namespace Proc

variable {σ α β : Type}

/-- Delivers `a` and leaves the state alone. -/
@[inline] protected def pure (a : α) : Proc σ α := fun s => .done a s

/-- Runs `p`, then `f` on what it delivered. -/
@[inline] protected def bind (p : Proc σ α) (f : α → Proc σ β) : Proc σ β := fun s =>
  match p s with
  | .done a s => f a s
  | .failed e s => .failed e s
  | .stalled => .stalled

instance : Monad (Proc σ) where
  pure := Proc.pure
  bind := Proc.bind

instance : LawfulMonad (Proc σ) := LawfulMonad.mk' (Proc σ)
  (fun p => by funext s; show Proc.bind p _ s = p s; unfold Proc.bind; cases p s <;> rfl)
  (fun _ _ => rfl)
  (fun p f g => by
    funext s
    show Proc.bind (Proc.bind p f) g s = Proc.bind p (fun a => Proc.bind (f a) g) s
    unfold Proc.bind
    cases p s <;> rfl)

/-- Fails with `e`. -/
@[inline] def fail (e : Error) : Proc σ α := fun s => .failed e s

/-- Never ends. -/
def stall : Proc σ α := fun _ => .stalled

/-- Runs `p` and hands its failure over as a value. -/
@[inline] def attempt (p : Proc σ α) : Proc σ (Except Error α) := fun s =>
  match p s with
  | .done a s => .done (.ok a) s
  | .failed e s => .done (.error e) s
  | .stalled => .stalled

instance : MonadStateOf σ (Proc σ) where
  get := fun s => .done s s
  set := fun s _ => .done () s
  modifyGet := fun f s => let (a, s) := f s; .done a s

instance : MonadExceptOf Error (Proc σ) where
  throw := fail
  tryCatch := fun p handler s =>
    match p s with
    | .failed e s => handler e s
    | other => other

/-- Delivers a value or fails, as `r` says. -/
@[inline] def ofExcept (r : Except Error α) : Proc σ α := fun s =>
  match r with
  | .ok a => .done a s
  | .error e => .failed e s

instance : MonadLift (Except Error) (Proc σ) := ⟨ofExcept⟩

/-- Reads the state by a function that may fail and changes nothing. -/
@[inline] def reads (f : σ → Except Error α) : Proc σ α := fun s =>
  match f s with
  | .ok a => .done a s
  | .error e => .failed e s

/-! ### What the operations do to a state -/

@[simp] theorem pure_apply (a : α) (s : σ) : (pure a : Proc σ α) s = .done a s := rfl

@[simp] theorem fail_apply (e : Error) (s : σ) : (fail e : Proc σ α) s = .failed e s := rfl

theorem bind_done {p : Proc σ α} {s t : σ} {a : α} (h : p s = .done a t) (f : α → Proc σ β) :
    (p >>= f) s = f a t := by
  show Proc.bind p f s = f a t
  simp only [Proc.bind, h]

theorem bind_failed {p : Proc σ α} {s t : σ} {e : Error} (h : p s = .failed e t)
    (f : α → Proc σ β) : (p >>= f) s = .failed e t := by
  show Proc.bind p f s = .failed e t
  simp only [Proc.bind, h]

theorem bind_stalled {p : Proc σ α} {s : σ} (h : p s = .stalled) (f : α → Proc σ β) :
    (p >>= f) s = .stalled := by
  show Proc.bind p f s = .stalled
  simp only [Proc.bind, h]

/-! ### Procedures with a part of their own

A procedure over a pair `τ × σ` works on a shared state `σ` and on a part `τ` of its own; it runs
procedures over `σ` as they are. -/

variable {τ : Type}

/-- Runs a procedure over the shared state. -/
@[inline] def shared (p : Proc σ α) : Proc (τ × σ) α := fun (t, s) =>
  match p s with
  | .done a s => .done a (t, s)
  | .failed e s => .failed e (t, s)
  | .stalled => .stalled

instance : MonadLift (Proc σ) (Proc (τ × σ)) := ⟨shared⟩

/-- The own part. -/
@[inline] def own : Proc (τ × σ) τ := fun (t, s) => .done t (t, s)

/-- Replaces the own part. -/
@[inline] def setOwn (t : τ) : Proc (τ × σ) Unit := fun (_, s) => .done () (t, s)

/-- Changes the own part. -/
@[inline] def modifyOwn (f : τ → τ) : Proc (τ × σ) Unit := fun (t, s) => .done () (f t, s)

/-- Runs a procedure from the own part `t`, and hands over its result together with the own part
that it left, also when it failed. -/
@[inline] def withOwn (t : τ) (p : Proc (τ × σ) α) : Proc σ (Except Error α × τ) := fun s =>
  match p (t, s) with
  | .done a (t, s) => .done (.ok a, t) s
  | .failed e (t, s) => .done (.error e, t) s
  | .stalled => .stalled

end Proc

end ScriptCore
