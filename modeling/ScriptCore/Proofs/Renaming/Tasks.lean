import ScriptCore.Task.Run
import ScriptCore.Proofs.Renaming.Expressions
import ScriptCore.Proofs.Renaming.Invocations

/-! # Tasks run alike

Running a task never fails: a failure of what the task does is handed over as its result, together with
the task. So when one side runs out of memory its run is not over, and only its result says so.

* `Task.ran_start`, `Task.ran_resume`: tasks that are alike run alike.
* `Task.resume_uncatchable`: a task that can be resumed hands on a failure that nothing intercepts, and
  does nothing else. -/

namespace ScriptCore

open Proc (within)

variable {M : Mode} {i : Site} {ρ ρ' : Renaming} {E E₁ E₂ : Engine} {τ : Type}

namespace Task

/-- The task has not started. -/
def Fresh : Task → Prop
  | .statements _ | .statement _ => True
  | .expression t => t.Fresh
  | .invocation t => t.state = .created
  | .settled _ => False

/-- The task waits in a state from which it can go on. -/
def Resumable : Task → Prop
  | .statements _ => True
  | .statement t => t.Resumable
  | .expression t => t.Resumable
  | .invocation t => t.Resumable
  | .settled _ => False

end Task

/-! ### Results of tasks -/

/-- Two tasks ran alike: both finished alike, or both ask for something alike and can be resumed, or both
failed alike, or one ran out of memory, or one stalled. -/
inductive Ran (M : Mode) (i : Site) (ρ : Renaming) :
    Outcome Machine (Except Error Step × Task) → Outcome Machine (Except Error Step × Task) → Prop where
  | finished {ρ' : Renaming} {c d : Completion} {t u : Task} {m₁ m₂ : Machine} (hρ : ρ ≤ ρ')
      (hm : Machine.Running M i ρ' m₁ m₂) (hc : Alike ρ' c d) :
      Ran M i ρ (.done (.ok (.finished c), t) m₁) (.done (.ok (.finished d), u) m₂)
  | suspended {ρ' : Renaming} {s s' : Suspension} {t u : Task} {m₁ m₂ : Machine} (hρ : ρ ≤ ρ')
      (hm : Machine.Running M i ρ' m₁ m₂) (hs : Alike ρ' s s') (ht : Alike ρ' t u)
      (hw : t.Resumable) :
      Ran M i ρ (.done (.ok (.suspended s), t) m₁) (.done (.ok (.suspended s'), u) m₂)
  | failed {ρ' : Renaming} {e e' : Error} {t u : Task} {m₁ m₂ : Machine} (hρ : ρ ≤ ρ')
      (hm : Machine.Running M i ρ' m₁ m₂) (he : Alike ρ' e e') :
      Ran M i ρ (.done (.error e, t) m₁) (.done (.error e', u) m₂)
  | leftFull {t : Task} {m : Machine} {o : Outcome Machine (Except Error Step × Task)}
      (hM : ¬ M.lockstep) (hm : m.frames = i.left ∧ m.active = some i.active) :
      Ran M i ρ (.done (.error .outOfMemory, t) m) o
  | rightFull {t : Task} {m : Machine} {o : Outcome Machine (Except Error Step × Task)}
      (hM : ¬ M.lockstep) (hm : m.frames = i.right ∧ m.active = some i.active) :
      Ran M i ρ o (.done (.error .outOfMemory, t) m)
  | leftStalled {o : Outcome Machine (Except Error Step × Task)} : Ran M i ρ .stalled o
  | rightStalled {o : Outcome Machine (Except Error Step × Task)} (hM : ¬ M.outlasts) :
      Ran M i ρ o .stalled

/-- How what a task did is handed over: `k` makes a task of its state. -/
inductive Reports (k : τ → Task) :
    Outcome Machine (τ × Step) → Outcome Machine (Except Error Step × Task) → Prop where
  | finished (t : τ) (u : Task) (c : Completion) (m : Machine) :
      Reports k (.done (t, .finished c) m) (.done (.ok (.finished c), u) m)
  | suspended (t : τ) (s : Suspension) (m : Machine) :
      Reports k (.done (t, .suspended s) m) (.done (.ok (.suspended s), k t) m)
  | failed (u : Task) (e : Error) (m : Machine) : Reports k (.failed e m) (.done (.error e, u) m)
  | stalled : Reports k .stalled .stalled

/-- **Procedures that go alike make tasks that run alike.** -/
theorem Ran.of_meets [Renamable τ] {k : τ → Task} {P : τ → Prop} {o o' : Outcome Machine (τ × Step)}
    {r r' : Outcome Machine (Except Error Step × Task)} (h : Meets M i (Advanced P) ρ o o')
    (hr : Reports k o r) (hr' : Reports k o' r')
    (halike : ∀ ρ t t', Alike ρ t t' → Alike ρ (k t) (k t')) (hP : ∀ t, P t → (k t).Resumable) :
    Ran M i ρ r r' := by
  cases h with
  | done hρ hm hq =>
    obtain ⟨ht, hs, hw⟩ := hq
    cases hr with
    | finished t u c m =>
      cases hr' with
      | finished t' u' d m' =>
        cases hs with
        | finished hc => exact .finished hρ hm hc
      | suspended t' s m' => cases hs
    | suspended t s m =>
      cases hr' with
      | finished t' u' d m' => cases hs
      | suspended t' s' m' =>
        cases hs with
        | suspended hs => exact .suspended hρ hm hs (halike _ _ _ ht) (hP _ (hw _ rfl))
  | failed hρ hm he =>
    cases hr
    cases hr'
    exact .failed hρ hm he
  | leftFull hM hm => cases hr; exact .leftFull hM hm
  | rightFull hM hm => cases hr'; exact .rightFull hM hm
  | leftStalled => cases hr; exact .leftStalled
  | rightStalled hM => cases hr'; exact .rightStalled hM

/-! ### Each kind of task -/

theorem reports_pure (k : τ → Task) (a : τ × Step) (m : Machine) :
    Reports k ((pure a : Run (τ × Step)) m) (.done (.ok a.2, k a.1) m) := by
  obtain ⟨t, s⟩ := a
  cases s with
  | finished c => exact .finished t (k t) c m
  | suspended s => exact .suspended t s m

theorem reports_keeping (k : τ → Task) (t : τ) (p : Run (τ × Step)) (m : Machine) :
    Reports k (p m) ((do let (r, t) ← Task.keeping t p; return (r, k t) : Run _) m) := by
  have key : (do let (r, t) ← Task.keeping t p; return (r, k t) : Run _) m =
      match p m with
      | .done (t, s) m => .done (.ok s, k t) m
      | .failed e m => .done (.error e, k t) m
      | .stalled => .stalled := by
    show Proc.bind (Proc.bind (Proc.attempt p) _) _ m = _
    unfold Proc.bind Proc.attempt
    cases p m <;> rfl
  rw [key]
  cases p m with
  | done a m =>
    obtain ⟨t, s⟩ := a
    cases s with
    | finished c => exact .finished t (k t) c m
    | suspended s => exact .suspended t s m
  | failed e m => exact .failed (k t) e m
  | stalled => exact .stalled

theorem reports_settle (t : InvocationTask) (p : Run (InvocationTask × Step)) (m : Machine) :
    Reports .invocation (p m)
      ((do let (r, t) ← InvocationTask.settle t p; return (r, .invocation t) : Run _) m) := by
  have key : (do let (r, t) ← InvocationTask.settle t p; return (r, Task.invocation t) : Run _) m =
      match p m with
      | .done (t, .finished c) m => .done (.ok (.finished c), .invocation { t with state := .returned }) m
      | .done (t, .suspended s) m => .done (.ok (.suspended s), .invocation t) m
      | .failed e m => .done (.error e, .invocation { t with state := .thrown }) m
      | .stalled => .stalled := by
    show Proc.bind (Proc.bind (Proc.attempt p) _) _ m = _
    unfold Proc.bind Proc.attempt
    cases p m with
    | done a m => obtain ⟨t, _ | _⟩ := a <;> rfl
    | failed e m => rfl
    | stalled => rfl
  rw [key]
  cases p m with
  | done a m =>
    obtain ⟨t, s⟩ := a
    cases s with
    | finished c => exact .finished t _ c m
    | suspended s => exact .suspended t s m
  | failed e m => exact .failed _ e m
  | stalled => exact .stalled

theorem reports_withOwn (k : τ → Task) (t : τ) (p : Proc (τ × Machine) Step) (m : Machine) :
    Reports k (within t p m) ((do let (r, t) ← Proc.withOwn t p; return (r, k t) : Run _) m) := by
  have key : (do let (r, t) ← Proc.withOwn t p; return (r, k t) : Run _) m =
      match p (t, m) with
      | .done a (t, m) => .done (.ok a, k t) m
      | .failed e (t, m) => .done (.error e, k t) m
      | .stalled => .stalled := by
    show Proc.bind (Proc.withOwn t p) _ m = _
    unfold Proc.bind Proc.withOwn
    cases p (t, m) <;> rfl
  rw [key, within]
  cases p (t, m) with
  | done s a =>
    obtain ⟨t, m⟩ := a
    cases s with
    | finished c => exact .finished t (k t) c m
    | suspended s => exact .suspended t s m
  | failed e a => exact .failed (k a.1) e a.2
  | stalled => exact .stalled

/-! ### All tasks -/

namespace Task

variable {t t' : Task} {m₁ m₂ : Machine}

/-- **Tasks that are alike start alike.** -/
theorem ran_start (hE : Engine.Sim M E₁ E₂) (h : Renamable.Alike ρ t t') (hfresh : t.Fresh)
    (hm : Machine.Running M i ρ m₁ m₂) : Ran M i ρ (t.start E₁ m₁) (t'.start E₂ m₂) := by
  cases h with
  | statements h =>
    exact .of_meets (StatementsTask.sim_start h i ρ le_rfl m₁ m₂ hm) (reports_keeping _ _ _ _)
      (reports_keeping _ _ _ _) (fun _ _ _ => .statements) fun _ _ => trivial
  | statement h =>
    have hstart := Sim.advanced (M := M) (StatementTask.advanced_start h) i ρ le_rfl m₁ m₂ hm
    exact .of_meets hstart (reports_pure .statement _ _) (reports_pure .statement _ _)
      (fun _ _ _ => .statement) fun _ hw => hw
  | expression h =>
    exact .of_meets (ExpressionTask.sim_start hE h hfresh i ρ le_rfl m₁ m₂ hm)
      (reports_withOwn _ _ _ _) (reports_withOwn _ _ _ _) (fun _ _ _ => .expression) fun _ hw => hw
  | @invocation s s' h =>
    have hstate : s.state = .created := hfresh
    have hstate' : s'.state = .created := (InvocationTask.alike_iff.mp h).2.2.2.2.2.2.2.2.1 ▸ hstate
    refine .of_meets (InvocationTask.sim_begin hE h i ρ le_rfl m₁ m₂ hm) (k := Task.invocation)
      ?_ ?_ (fun _ _ _ => .invocation) fun _ hw => hw
    · show Reports _ _ ((do let (r, t) ← s.start E₁; return (r, .invocation t) : Run _) m₁)
      rw [InvocationTask.start_eq E₁ hstate]
      exact reports_settle _ _ _
    · show Reports _ _ ((do let (r, t) ← s'.start E₂; return (r, .invocation t) : Run _) m₂)
      rw [InvocationTask.start_eq E₂ hstate']
      exact reports_settle _ _ _

/-- **Tasks that can be resumed go on alike.** -/
theorem ran_resume (hE : Engine.Sim M E₁ E₂) {o o' : Except Error Completion} (h : Renamable.Alike ρ t t')
    (hw : t.Resumable) (ho : Renamable.Alike ρ o o') (hm : Machine.Running M i ρ m₁ m₂) :
    Ran M i ρ (t.resume E₁ o m₁) (t'.resume E₂ o' m₂) := by
  cases h with
  | statements h =>
    exact .of_meets (StatementsTask.sim_resume h ho i ρ le_rfl m₁ m₂ hm) (reports_keeping _ _ _ _)
      (reports_keeping _ _ _ _) (fun _ _ _ => .statements) fun _ _ => trivial
  | statement h =>
    exact .of_meets (StatementTask.sim_resume hE h hw ho i ρ le_rfl m₁ m₂ hm)
      (reports_keeping _ _ _ _) (reports_keeping _ _ _ _) (fun _ _ _ => .statement) fun _ hw => hw
  | expression h =>
    exact .of_meets (ExpressionTask.sim_resume hE h hw ho i ρ le_rfl m₁ m₂ hm)
      (reports_withOwn _ _ _ _) (reports_withOwn _ _ _ _) (fun _ _ _ => .expression) fun _ hw => hw
  | invocation h =>
    exact .of_meets (InvocationTask.sim_goOn hE h hw ho i ρ le_rfl m₁ m₂ hm)
      (reports_settle _ _ _) (reports_settle _ _ _) (fun _ _ _ => .invocation) fun _ hw => hw

/-- **A failure that nothing intercepts is handed on.** -/
theorem resume_uncatchable {e : Error} (he : e.isCatchable = false) (hw : t.Resumable)
    (m : Machine) : ∃ u, t.resume E (.error e) m = .done (.error e, u) m := by
  cases t with
  | statements t => exact ⟨_, rfl⟩
  | expression t => exact ⟨_, rfl⟩
  | invocation t => exact ⟨_, rfl⟩
  | settled o => exact hw.elim
  | statement t =>
    obtain ⟨stmt, scope, state, last⟩ := t
    have hw : stmt.Waits state := hw
    cases hw with
    | tryBlock list param handler =>
      refine ⟨.statement ⟨.tryCatch list param handler, scope, .tryBlock, last⟩, ?_⟩
      have hthrow : StatementTask.handle ⟨.tryCatch list param handler, scope, .tryBlock, last⟩ param
          handler e = throw e := by
        unfold StatementTask.handle
        rw [he]
        rfl
      show Proc.bind (keeping _ (StatementTask.handle _ param handler e)) _ m = _
      rw [hthrow]
      rfl
    | _ => exact ⟨_, rfl⟩

end Task

end ScriptCore
