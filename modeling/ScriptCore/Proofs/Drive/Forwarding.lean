import ScriptCore.Proofs.Drive.Tasks

/-! # Suspended tasks hand failures on

Whatever a task is and whatever it was given, if it comes to be suspended then it waits in a state that goes
with what it evaluates. From such a state it hands a failure on as it is, and does nothing else: only a `try`
statement whose block is running keeps one, and only one that the program may see.

* `Task.forwards_of_suspended`: **a task that is suspended can hand a failure on.**
* `Task.doing_error`: how it does so.
* `Frame.work`, `turn_fed`: one boundary of a frame, by what its task does. -/

namespace ScriptCore

open Proc (within)

variable {α β σ : Type} {E : Engine} {host : Host} {base : Nat}

/-- What the procedure delivers satisfies `Q`, if it delivers anything. -/
def Proc.Yields (Q : α → Prop) (p : Proc σ α) : Prop := ∀ s a s', p s = .done a s' → Q a

namespace Proc.Yields

variable {Q : α → Prop}

theorem pure {a : α} (ha : Q a) : Yields Q (Pure.pure a : Proc σ α) := by
  intro s b s' h
  cases h
  exact ha

theorem fail (e : Error) : Yields Q (throw e : Proc σ α) := by
  intro s b s' h
  cases h

theorem bind {p : Proc σ β} {f : β → Proc σ α} (hf : ∀ b, Yields Q (f b)) : Yields Q (p >>= f) := by
  intro s a s' h
  cases hp : p s with
  | done b t =>
    rw [Proc.bind_done hp] at h
    exact hf b t a s' h
  | failed e t =>
    rw [Proc.bind_failed hp] at h
    cases h
  | stalled =>
    rw [Proc.bind_stalled hp] at h
    cases h

theorem ite {c : Prop} [Decidable c] {p q : Proc σ α} (hp : Yields Q p) (hq : Yields Q q) :
    Yields Q (if c then p else q) := by
  split
  · exact hp
  · exact hq

end Proc.Yields

/-! ### Statements -/

namespace StatementTask

variable {t : StatementTask}

/-- If the statement is suspended, its state goes with it. -/
def Placed (r : StatementTask × Step) : Prop := ∀ c, r.2 = .suspended c → r.1.Resumable

theorem placed_ask {state : StatementState} (hw : t.stmt.Waits state) (r : BranchRequest) :
    Placed ({ t with state }, .ask r) := fun _ _ => hw

theorem placed_finish (t : StatementTask) (c : Completion) : Placed (t.finish c) := fun _ h => by cases h

theorem placed_askInitializer (i : Nat) {declarations : List (Pattern × Option Expr)}
    (hstmt : t.stmt = .vars declarations) : Placed (t.askInitializer i declarations) := by
  unfold askInitializer
  cases hnext : nextInitializer i (declarations.drop i) with
  | none => exact placed_finish t _
  | some next =>
    obtain ⟨j, e⟩ := next
    obtain ⟨hle, hlt⟩ := nextInitializer_lt hnext
    rw [List.length_drop] at hlt
    exact placed_ask (by rw [hstmt]; exact .vars (by omega)) _

theorem placed_start (t : StatementTask) : Placed t.start := by
  obtain ⟨stmt, scope, state, last⟩ := t
  cases stmt with
  | expr e => exact placed_ask (.expr e) _
  | throwValue e => exact placed_ask (.throwValue e) _
  | ret e =>
    cases e with
    | some e => exact placed_ask (.ret e) _
    | none => exact placed_finish _ _
  | vars declarations => exact placed_askInitializer 0 rfl
  | function f => exact placed_finish _ _
  | ifThen test consequent alternate => exact placed_ask (.ifTest ..) _
  | block list => exact placed_ask (.block list) _
  | whileLoop test body => exact placed_ask (.whileTest ..) _
  | breakLoop => exact placed_finish _ _
  | continueLoop => exact placed_finish _ _
  | tryCatch block param handler => exact placed_ask (.tryBlock ..) _

theorem placed_afterBody {test : Expr} {body : Stmt} (hstmt : t.stmt = .whileLoop test body)
    (c : Completion) : Placed (t.afterBody test c) := by
  have again : ∀ last, Placed ({ t with last }.askExpr .whileTest test) := by
    intro last c hc
    show t.stmt.Waits .whileTest
    rw [hstmt]
    exact .whileTest test body
  cases c with
  | normal v => exact again _
  | broken label v => cases label <;> exact placed_finish t _
  | continued label v =>
    cases label with
    | none => exact again _
    | some label => exact placed_finish t _
  | _ => exact placed_finish t _

theorem yields_handle {block : List Stmt} {param : Option String} {handler : List Stmt}
    (hstmt : t.stmt = .tryCatch block param handler) (e : Error) :
    Proc.Yields Placed (t.handle param handler e) := by
  have ask : ∀ scope, Placed (t.askBlock .tryHandler handler scope) := by
    intro scope
    exact placed_ask (by rw [hstmt]; exact .tryHandler ..) _
  unfold handle
  refine .ite (.bind fun v => .bind fun scope => ?_) (.fail e)
  cases param with
  | some name => exact .bind fun _ => .pure (ask scope)
  | none => exact .pure (ask scope)

/-- **A statement that is resumed and suspended again is in a state that goes with it.** -/
theorem yields_resume (t : StatementTask) (o : Except Error Completion) :
    Proc.Yields Placed (t.resume E o) := by
  obtain ⟨stmt, scope, state, last⟩ := t
  cases state with
  | start => exact .fail _
  | operand =>
    cases stmt with
    | expr e => exact .bind fun v => .pure (placed_finish _ _)
    | ret e => exact .bind fun v => .pure (placed_finish _ _)
    | throwValue e => exact .bind fun v => .fail _
    | _ => exact .fail _
  | varInit i =>
    cases stmt with
    | vars declarations =>
      refine .bind fun v => ?_
      dsimp only
      cases declarations[i]? with
      | some d => exact .bind fun _ => .pure (placed_askInitializer _ rfl)
      | none => exact .pure (placed_askInitializer _ rfl)
    | _ => exact .fail _
  | ifTest =>
    cases stmt with
    | ifThen test consequent alternate =>
      refine .bind fun v => .bind fun truthy => .ite (.pure (placed_ask (.ifBranch ..) _)) ?_
      cases alternate with
      | some s => exact .pure (placed_ask (.ifBranch ..) _)
      | none => exact .pure (placed_finish _ _)
    | _ => exact .fail _
  | nested => cases stmt <;> exact .bind fun c => .pure (placed_finish _ _)
  | whileTest =>
    cases stmt with
    | whileLoop test body =>
      exact .bind fun v => .bind fun truthy =>
        .ite (.pure (placed_ask (.whileBody ..) _)) (.pure (placed_finish _ _))
    | _ => exact .fail _
  | whileBody =>
    cases stmt with
    | whileLoop test body => exact .bind fun c => .pure (placed_afterBody rfl c)
    | _ => exact .fail _
  | tryBlock =>
    cases stmt with
    | tryCatch block param handler =>
      cases o with
      | error e => exact yields_handle rfl e
      | ok c =>
        cases c with
        | thrown v => exact yields_handle rfl (.throw v)
        | _ => exact .pure (placed_finish _ _)
    | _ => exact .fail _
  | tryHandler =>
    cases stmt with
    | tryCatch block param handler => exact .bind fun c => .pure (placed_finish _ _)
    | _ => exact .fail _

end StatementTask

/-! ### Tasks -/

namespace Task

/-- The task can hand a failure on. -/
def Forwards : Task → Prop
  | .statement t => t.Resumable
  | .statements _ | .expression _ | .invocation _ => True
  | .settled _ => False

/-- The task is a `try` statement whose block is running. -/
def Catches : Task → Prop
  | .statement t => t.state = .tryBlock
  | .statements _ | .expression _ | .invocation _ | .settled _ => False

/-- **A task that is suspended can hand a failure on**, whatever it is and whatever it was given. -/
theorem forwards_of_suspended {t u : Task} {i : Option (Except Error Completion)} {c : Suspension}
    {m m' : Machine} (h : t.doing E i m = .done (u, .suspended c) m') : u.Forwards := by
  -- What a task does ends in a map that says of which kind the task is; its kind does not change.
  have mapped : ∀ {τ : Type} {k : τ → Task} {p : Run (τ × Step)},
      ((fun r => (k r.1, r.2)) <$> p) m = .done (u, .suspended c) m' →
        ∃ v, p m = .done (v, .suspended c) m' ∧ u = k v := by
    intro τ k p h
    rw [map_eq_pure_bind] at h
    cases hp : p m with
    | done r m₁ =>
      rw [Proc.bind_done hp] at h
      obtain ⟨v, step⟩ := r
      cases h
      exact ⟨v, rfl, rfl⟩
    | failed e m₁ => rw [Proc.bind_failed hp] at h; cases h
    | stalled => rw [Proc.bind_stalled hp] at h; cases h
  cases t with
  | statements t => cases i <;> obtain ⟨v, -, rfl⟩ := mapped h <;> trivial
  | statement t =>
    cases i with
    | none =>
      injection h with hresult
      injection hresult with hu hstep
      rw [← hu]
      exact t.placed_start c hstep
    | some o =>
      obtain ⟨v, hv, rfl⟩ := mapped h
      exact t.yields_resume o m _ m' hv c rfl
  | expression t => cases i <;> obtain ⟨v, -, rfl⟩ := mapped h <;> trivial
  | invocation t =>
    cases i with
    | none =>
      unfold doing at h
      by_cases hstate : t.state = .created
      · simp only [hstate, if_true] at h
        obtain ⟨v, -, rfl⟩ := mapped h
        trivial
      · simp only [hstate, if_false] at h
        cases h
    | some o => obtain ⟨v, -, rfl⟩ := mapped h; trivial
  | settled o => cases o <;> cases h

/-- **A failure is handed on as it is**, and nothing else happens, unless a `try` statement intercepts it. -/
theorem doing_error {t : Task} {e : Error} (ht : t.Forwards) (he : e.isCatchable = false ∨ ¬ t.Catches)
    (m : Machine) : t.doing E (some (.error e)) m = .failed e m := by
  cases t with
  | statements t => rfl
  | expression t => rfl
  | invocation t => rfl
  | settled o => exact ht.elim
  | statement t =>
    obtain ⟨stmt, scope, state, last⟩ := t
    have hw : stmt.Waits state := ht
    cases hw with
    | tryBlock list param handler =>
      obtain he | he := he
      · have hthrow : StatementTask.handle ⟨.tryCatch list param handler, scope, .tryBlock, last⟩ param
            handler e = throw e := by
          unfold StatementTask.handle
          rw [he]
          rfl
        show ((fun r => (Task.statement r.1, r.2)) <$> StatementTask.handle _ param handler e) m = _
        rw [hthrow]
        rfl
      · exact absurd rfl he
    | _ => rfl

end Task

/-! ### One boundary -/

/-- What a closing frame leaves to a drive down to `base`: its outcome, or the frame below that is given
it. -/
def Machine.closed (m : Machine) (f : Frame) (o : Except Error Completion) (base : Nat) :
    Outcome Machine Advance :=
  if m.frames.size = base then .done (.finished o) (m.leave f o)
  else .done .going ((m.leave f o).deliver o)

theorem Machine.closed_eq (m : Machine) (f : Frame) (o : Except Error Completion) (base : Nat) :
    m.closed f o base = .done (m.close f o base).1 (m.close f o base).2 := by
  rw [Machine.close_eq, Machine.closed]
  split <;> rfl

/-- Accounts for a boundary; it fails if the run is to stop there. -/
def crossing (i : Option (Except Error Completion)) : Run Unit := fun m =>
  match m.monitor.crossed i with
  | (.ok u, k) => .done u { m with monitor := k }
  | (.error e, k) => .failed e { m with monitor := k }

namespace Frame

/-- The procedure, with the frame counted as running. -/
def running (f : Frame) (p : Run α) : Run α := fun m =>
  match p { m with active := some ⟨f.depth, f.quiet⟩ } with
  | .done v m' => .done v { m' with active := m.active }
  | .failed e m' => .failed e { m' with active := m.active }
  | .stalled => .stalled

/-- **What the task of a frame does at a boundary.** -/
def work (f : Frame) (E : Engine) (i : Option (Except Error Completion)) : Run (Task × Step) := do
  crossing i
  f.running (f.task.doing E i)

/-- A failure that a frame is given is what its task comes to, unless a `try` statement intercepts it. -/
theorem work_error {f : Frame} {e : Error} (hf : f.task.Forwards)
    (he : e.isCatchable = false ∨ ¬ f.task.Catches) (m : Machine) :
    f.work E (some (.error e)) m = .failed e m := by
  have hcrossing : crossing (some (.error e)) m = .done () m := rfl
  unfold work
  rw [Proc.bind_done hcrossing]
  simp only [running, Task.doing_error hf he]

theorem yields_running {f : Frame} {p : Run α} {Q : α → Prop} (hp : p.Yields Q) :
    (f.running p).Yields Q := by
  intro m v m' h
  unfold running at h
  cases hdone : p { m with active := some ⟨f.depth, f.quiet⟩ } with
  | done w m₁ =>
    rw [hdone] at h
    cases h
    exact hp _ _ _ hdone
  | failed e m₁ => rw [hdone] at h; cases h
  | stalled => rw [hdone] at h; cases h

theorem forwards_of_work {f : Frame} {i : Option (Except Error Completion)} {m m' : Machine} {t : Task}
    {c : Suspension} (h : f.work E i m = .done (t, .suspended c) m') : t.Forwards := by
  have hyields : (f.work E i).Yields fun r => ∀ c, r.2 = .suspended c → r.1.Forwards := by
    refine .bind fun _ => yields_running fun m r m' hdoing c hc => ?_
    obtain ⟨t, step⟩ := r
    obtain rfl : step = .suspended c := hc
    exact Task.forwards_of_suspended hdoing
  exact hyields m _ m' h c rfl

end Frame

/-- **One boundary of a frame**: it closes if its task ended or failed, or if the run is to stop, and it goes
back if its task was suspended. -/
theorem turn_fed (host : Host) (E : Engine) (base : Nat) (f : Frame) (i : Option (Except Error Completion))
    (m : Machine) :
    turn host E base (f.fed i) m =
      match f.work E i m with
      | .done (_, .finished c) m' => m'.closed f (.ok c) base
      | .done (t, .suspended c) m' =>
        match suspend host E { f with task := t, input := .waiting } c m' with
        | .done _ m => .done .going m
        | .failed e m => .failed e m
        | .stalled => .stalled
      | .failed e m' => m'.closed f (.error e) base
      | .stalled => .stalled := by
  have hwork : f.work E i m = Proc.bind (crossing i) (fun _ => f.running (f.task.doing E i)) m := rfl
  rw [hwork]
  unfold turn Proc.bind crossing Frame.running
  rw [feed_fed, runTask_eq, tickUnlessFailed_eq]
  generalize m.monitor.crossed i = crossed
  obtain ⟨r, k⟩ := crossed
  cases r with
  | error e => simp only [Machine.closed_eq]; rfl
  | ok u =>
    have hreports := Task.reports_act (E := E) { f with input := .waiting } i
      { m with monitor := k, active := some ⟨f.depth, f.quiet⟩ }
    dsimp only at hreports ⊢
    generalize Frame.act { f with input := .waiting } E i _ = x, f.task.doing E i _ = y at hreports
    cases hreports with
    | finished => simp only [Machine.closed_eq]; rfl
    | suspended => rfl
    | failed => simp only [Machine.closed_eq]; rfl
    | stalled => rfl

/-- A frame that was aborted before it started closes with its failure. -/
theorem turn_fail {f : Frame} {e : Error} (hf : f.input = .fail e) (m : Machine) :
    turn host E base f m = m.closed f (.error e) base := by
  unfold turn feed
  rw [hf, Machine.closed_eq]
  rfl

theorem turn_waiting {f : Frame} (hf : f.input = .waiting) (m : Machine) :
    turn host E base f m = m.closed f (.error (.driverState .childUnfinished)) base := by
  unfold turn feed
  rw [hf, Machine.closed_eq]
  rfl

end ScriptCore
