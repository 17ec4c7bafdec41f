import ScriptCore.Proofs.Drive.Tracks

/-! # Evaluation by recursion

The same evaluation without a stack. A task runs to its next suspension; what it asks for then is
evaluated by the evaluator itself, and the task is resumed with the outcome. What is pending is held by
the recursion, so nothing here reads or writes the frames of the machine: a frame is only the record of
one open branch or call.

* `Host.recursion`: the evaluator, with a bound on the depth of the recursion.
* `openCall_eq_enterCallee`, `suspend_eq_request`: the machine opens what the evaluator begins.
* `Host.Reentrant`: native functions that run code only by evaluating branches and by calling values.
* `runTask_tracked`, `request_tracked`: the parts of the evaluator do not see the frames. -/

namespace ScriptCore

variable {α : Type} {L R : Prop} {E E₁ E₂ : Engine} {host : Host}

/-! ### Beginning and ending a branch or a call -/

/-- A new frame. It is quiet if its surroundings are or if it says so. -/
def Frame.fresh (task : Task) (info : BranchInfo) (depth : Nat) (quiet isCall : Bool) : Frame :=
  ⟨task, info, depth, quiet || info.options.isQuiet, isCall, .waiting⟩

/-- The machine after a frame was begun: its beginning was observed. -/
def Machine.enter (m : Machine) (f : Frame) : Machine :=
  if f.quiet then m else m.record (.enter f.depth f.info)

/-- Begins a branch or a call. -/
def Frame.enter (f : Frame) : Run Frame := fun m => .done f (m.enter f)

/-- Ends a branch or a call. -/
def Frame.exit (f : Frame) (outcome : Except Error Completion) : Run (Except Error Completion) :=
  fun m => .done outcome (m.leave f outcome)

section Enter

variable (m : Machine) (f : Frame) (o : Except Error Completion)

theorem Machine.enter_withFrames (s : Stack Frame) :
    ({ m with frames := s } : Machine).enter f = { m.enter f with frames := s } := by
  unfold Machine.enter
  cases f.quiet <;> rfl

theorem Machine.enter_withActive (a : Option Active) :
    ({ m with active := a } : Machine).enter f = { m.enter f with active := a } := by
  unfold Machine.enter
  cases f.quiet <;> rfl

@[simp] theorem Machine.frames_enter : (m.enter f).frames = m.frames := by
  unfold Machine.enter
  cases f.quiet <;> rfl

@[simp] theorem Machine.active_enter : (m.enter f).active = m.active := by
  unfold Machine.enter
  cases f.quiet <;> rfl

theorem Machine.leave_withFrames (s : Stack Frame) :
    ({ m with frames := s } : Machine).leave f o = { m.leave f o with frames := s } := by
  unfold Machine.leave
  cases f.isCall <;> cases f.quiet <;> rfl

theorem Machine.leave_withActive (a : Option Active) :
    ({ m with active := a } : Machine).leave f o = { m.leave f o with active := a } := by
  unfold Machine.leave
  cases f.isCall <;> cases f.quiet <;> rfl

end Enter

/-- Begins a call of a closure: it is among the active calls from now on. -/
def enterClosure (f : ObjectRef) (r : CallRequest) (depth : Nat) (quiet : Bool) : Run Frame := do
  let debug ← Run.isDebug
  let profileName := if debug then r.extra.profileName else none
  let name ← match profileName with
    | some name => pure (some name)
    | none => Run.readHeap fun h => h.functionName f
  let options : BranchOptions :=
    { profileName, callee := some (r.extra.callee.getD r.callee) }
  let task ← InvocationTask.prepare f r.receiver r.args r.scope r.extra
  enterCall name
  (Frame.fresh (.invocation task) ⟨.call, options⟩ depth quiet true).enter

/-- Begins a call. A native function answers at once; a closure has a frame to run. -/
def enterCallee (host : Host) (engine : Engine) (r : CallRequest) (depth : Nat) (quiet : Bool) :
    Run (Value ⊕ Frame) := do
  let notCallable : Run (Value ⊕ Frame) := do
    let text ← Run.readHeap fun h => h.describe r.callee
    throw (.notCallable text)
  match r.callee with
  | .object f =>
    match (← Run.readHeap fun h => h.object f).kind with
    | .native n => return .inl (← callNative host engine n r.receiver r.args)
    | .closure _ => return .inr (← enterClosure f r depth quiet)
    | .ordinary | .array => notCallable
  | _ => notCallable

/-- Runs a procedure while the frame at `a` counts as running. -/
def running (a : Active) (p : Run α) : Run α := do
  let saved ← swapActive (some a)
  let r ← p
  discard (swapActive saved)
  return r

/-- Begins what a suspended frame asks for: the answer is known at once, or there is a frame to run.
While a call is begun the suspended frame counts as running. -/
def request (host : Host) (engine : Engine) (f : Frame) :
    Suspension → Run (Except Error Completion ⊕ Frame)
  | .branch r =>
    match host.branch r with
    | .ok task => return .inr (← (Frame.fresh task r.info (f.depth + 1) f.quiet false).enter)
    | .error e => return .inl (.error e)
  | .call r => do
    match ← running ⟨f.depth, f.quiet⟩
        (enterCallee host engine r (f.depth + 1) f.quiet).attempt with
    | .ok (.inl v) => return .inl (.ok (.ofValue v))
    | .ok (.inr g) => return .inr g
    | .error e => return .inl (.error e)

/-! ### The evaluator -/

/-- An evaluator: what running code is given, and how a frame is run from its start, or from the outcome
of its child, to its end. -/
structure Evaluator where
  engine : Engine
  run : Frame → Option (Except Error Completion) → Run (Except Error Completion)

namespace Evaluator

variable (v : Evaluator) (host : Host)

/-- Evaluates what a suspended frame asks for. -/
def child (f : Frame) (s : Suspension) : Run (Except Error Completion) := do
  match ← request host v.engine f s with
  | .inl outcome => return outcome
  | .inr g => v.run g none

/-- Runs the task of a frame. When it is suspended, its child is evaluated, and the task goes on with the
outcome of the child. -/
def advance (f : Frame) (o : Option (Except Error Completion)) : Run (Except Error Completion) := do
  match ← runTask v.engine { f with input := .waiting } o with
  | (.ok (.suspended s), f) =>
    let outcome ← v.child host f s
    v.run f (some outcome)
  | (.ok (.finished c), f) => f.exit (.ok c)
  | (.error e, f) => f.exit (.error e)

/-- Evaluates a task from its start to its end. -/
def perform (task : Task) (info : BranchInfo) (depth : Nat) (quiet isCall : Bool) :
    Run (Except Error Completion) := do
  let f ← (Frame.fresh task info depth quiet isCall).enter
  v.run f none

/-- Evaluates a branch for running code. -/
def evaluate (r : BranchRequest) : Run Completion := do
  let (depth, quiet) := (← get).childContext
  let task ← host.branch r
  let outcome ← v.perform task r.info depth quiet false
  outcome

/-- Calls a value for running code, as from the global scope. -/
def call (callee receiver : Value) (args : List Value) : Run Value := do
  let (depth, quiet) := (← get).childContext
  let scope := (← Run.realm).globalScope
  match ← enterCallee host v.engine { callee, receiver, args, scope, extra := {} } depth quiet with
  | .inl v => return v
  | .inr f =>
    let outcome ← v.run f none
    let c ← outcome
    completionValue c

end Evaluator

/-- The evaluator by recursion, over at most `bound` nested uses of itself. -/
def Host.recursion (host : Host) : (bound : Nat) → Evaluator
  | 0 =>
    { engine :=
        { evaluate := fun _ => Proc.stall
          call := fun _ _ _ => Proc.stall
          start := fun _ => Proc.stall
          step := Proc.stall
          run := Proc.stall
          execute := fun _ => Proc.stall }
      run := fun _ _ => Proc.stall }
  | bound + 1 =>
    { engine :=
        { evaluate := (host.recursion bound).evaluate host
          call := (host.recursion bound).call host
          start := fun _ => Proc.stall
          step := Proc.stall
          run := Proc.stall
          execute := fun _ => Proc.stall }
      run := (host.recursion bound).advance host }

/-- **Native functions that run code only by evaluating branches and by calling values**: on engines that
evaluate and call alike they do the same, whatever the frames. -/
def Host.Reentrant (host : Host) : Prop :=
  ∀ (L R : Prop) (E₁ E₂ : Engine), Engine.Tracks L R E₁ E₂ → ∀ entry receiver args,
    Tracks L R (host.native entry E₁ receiver args) (host.native entry E₂ receiver args)

/-! ### The machine opens what the evaluator begins -/

/-- Puts a frame on the stack, to be started. -/
def pushFresh (f : Frame) : Run Unit := modify fun m => { m with frames := m.frames.push (f.fed none) }

theorem Machine.openFrame_eq (m : Machine) (task : Task) (info : BranchInfo) (depth : Nat)
    (quiet isCall : Bool) : m.openFrame task info depth quiet isCall =
      { m.enter (.fresh task info depth quiet isCall) with
        frames := m.frames.push ((Frame.fresh task info depth quiet isCall).fed none) } := by
  unfold Machine.openFrame Machine.enter Frame.fresh
  cases quiet || info.options.isQuiet <;> rfl

theorem openFrame_eq_enter (task : Task) (info : BranchInfo) (depth : Nat) (quiet isCall : Bool) :
    (modify fun m => m.openFrame task info depth quiet isCall : Run Unit) =
      ((Frame.fresh task info depth quiet isCall).enter >>= pushFresh) := by
  funext m
  show Outcome.done () (m.openFrame task info depth quiet isCall) =
    pushFresh (.fresh task info depth quiet isCall) (m.enter (.fresh task info depth quiet isCall))
  rw [Machine.openFrame_eq, ← m.frames_enter (.fresh task info depth quiet isCall)]
  rfl

theorem openClosure_eq_enterClosure (f : ObjectRef) (r : CallRequest) (depth : Nat) (quiet : Bool) :
    openClosure f r depth quiet = (enterClosure f r depth quiet >>= pushFresh) := by
  unfold openClosure enterClosure
  simp only [openFrame_eq_enter, bind_assoc]
  refine bind_congr fun debug => ?_
  generalize (if debug = true then r.extra.profileName else none) = site
  cases site <;> simp only [bind_assoc]

theorem Proc.throw_bind {σ β : Type} (e : Error) (f : α → Proc σ β) :
    ((throw e : Proc σ α) >>= f) = throw e := rfl

/-- **The machine opens the call that the evaluator begins.** -/
theorem openCall_eq_enterCallee (r : CallRequest) (depth : Nat) (quiet : Bool) :
    openCall host E r depth quiet = (do
      match ← enterCallee host E r depth quiet with
      | .inl v => return some v
      | .inr f =>
        pushFresh f
        return none) := by
  unfold openCall enterCallee
  cases r.callee with
  | object f =>
    simp only [bind_assoc]
    refine bind_congr fun o => ?_
    cases o.kind with
    | native n => simp only [bind_assoc, pure_bind]
    | closure c => simp only [openClosure_eq_enterClosure, bind_assoc, pure_bind]
    | _ => simp only [bind_assoc, Proc.throw_bind]
  | _ => simp only [bind_assoc, Proc.throw_bind]

theorem running_eq (a : Active) (p : Run α) (m : Machine) :
    running a p m =
      match p { m with active := some a } with
      | .done r m' => .done r { m' with active := m.active }
      | .failed e m' => .failed e m'
      | .stalled => .stalled := by
  show Proc.bind p _ _ = _
  unfold Proc.bind
  cases p { m with active := some a } <;> rfl

theorem request_branch (f : Frame) (r : BranchRequest) (m : Machine) :
    request host E f (.branch r) m =
      match host.branch r with
      | .ok task =>
        .done (.inr (.fresh task r.info (f.depth + 1) f.quiet false))
          (m.enter (.fresh task r.info (f.depth + 1) f.quiet false))
      | .error e => .done (.inl (.error e)) m := by
  show (match host.branch r with
    | .ok task => _
    | .error e => _ : Run (Except Error Completion ⊕ Frame)) m = _
  cases host.branch r <;> rfl

theorem request_call (f : Frame) (r : CallRequest) (m : Machine) :
    request host E f (.call r) m =
      match enterCallee host E r (f.depth + 1) f.quiet
        { m with active := some ⟨f.depth, f.quiet⟩ } with
      | .done (.inl v) m' => .done (.inl (.ok (.ofValue v))) { m' with active := m.active }
      | .done (.inr g) m' => .done (.inr g) { m' with active := m.active }
      | .failed e m' => .done (.inl (.error e)) { m' with active := m.active }
      | .stalled => .stalled := by
  show Proc.bind (running ⟨f.depth, f.quiet⟩ (enterCallee host E r (f.depth + 1) f.quiet).attempt) _ m = _
  simp only [Proc.bind, running_eq, Proc.attempt]
  cases enterCallee host E r (f.depth + 1) f.quiet { m with active := some ⟨f.depth, f.quiet⟩ } with
  | done opened m' => cases opened <;> rfl
  | failed e m' => rfl
  | stalled => rfl

/-- **The machine opens what the evaluator begins**: an answer is delivered to the suspended frame, a
frame to run is put on top of it. -/
theorem suspend_eq_request (f : Frame) (s : Suspension) (m : Machine) :
    suspend host E f s m =
      match request host E f s { m with frames := m.frames.push f } with
      | .done (.inl outcome) m => .done () (m.deliver outcome)
      | .done (.inr g) m => pushFresh g m
      | .failed e m => .failed e m
      | .stalled => .stalled := by
  rw [suspend_eq]
  cases s with
  | branch r =>
    rw [request_branch]
    unfold openChild
    cases hr : host.branch r with
    | error e => simp only [hr]; rfl
    | ok task =>
      simp only [hr, openFrame_eq_enter, Bind.bind, Proc.bind, Frame.enter, Machine.enter]
      cases (Frame.fresh task r.info (f.depth + 1) f.quiet false).quiet <;> rfl
  | call r =>
    rw [request_call]
    simp only [openChild, openCall_eq_enterCallee, Bind.bind, Proc.bind, Proc.attempt]
    cases enterCallee host E r (f.depth + 1) f.quiet
        { m with frames := m.frames.push f, active := some ⟨f.depth, f.quiet⟩ } with
    | done opened m' => cases opened <;> rfl
    | failed e m' => rfl
    | stalled => rfl

/-! ### Running code on the machine and by the evaluator -/

section Nested

variable (b : Nat) (v : Evaluator) (m : Machine)

theorem Evaluator.evaluate_eq (r : BranchRequest) :
    v.evaluate host r m =
      match host.branch r with
      | .ok task => (v.perform task r.info m.childContext.1 m.childContext.2 false >>= fun outcome =>
          Proc.ofExcept outcome : Run Completion) m
      | .error e => .failed e m := by
  show Proc.bind (Proc.ofExcept (host.branch r)) _ m = _
  unfold Proc.bind Proc.ofExcept
  cases host.branch r <;> rfl

theorem callOn_eq (callee receiver : Value) (args : List Value) :
    host.callOn E b callee receiver args m =
      match enterCallee host E (m.callRequest callee receiver args) m.childContext.1
        m.childContext.2 m with
      | .done (.inl v) m' => .done v m'
      | .done (.inr f) m' =>
        (drive host E m.frames.size b >>= fun c => Proc.ofExcept (completionValue c) : Run Value)
          { m' with frames := m'.frames.push (f.fed none) }
      | .failed e m' => .failed e m'
      | .stalled => .stalled := by
  unfold Host.callOn
  simp only [openCall_eq_enterCallee]
  show Proc.bind (Proc.bind (enterCallee host E (m.callRequest callee receiver args) m.childContext.1
    m.childContext.2) _) _ m = _
  unfold Proc.bind
  cases enterCallee host E (m.callRequest callee receiver args) m.childContext.1 m.childContext.2 m with
  | done opened m' => cases opened <;> rfl
  | failed e m' => rfl
  | stalled => rfl

theorem Evaluator.call_eq (callee receiver : Value) (args : List Value) :
    v.call host callee receiver args m =
      match enterCallee host v.engine (m.callRequest callee receiver args) m.childContext.1
        m.childContext.2 m with
      | .done (.inl v) m' => .done v m'
      | .done (.inr f) m' =>
        ((v.run f none >>= fun outcome => Proc.ofExcept outcome) >>= fun c =>
          Proc.ofExcept (completionValue c) : Run Value) m'
      | .failed e m' => .failed e m'
      | .stalled => .stalled := by
  unfold Evaluator.call
  show Proc.bind (enterCallee host v.engine (m.callRequest callee receiver args) m.childContext.1
    m.childContext.2) _ m = _
  unfold Proc.bind
  cases enterCallee host v.engine (m.callRequest callee receiver args) m.childContext.1 m.childContext.2 m with
  | done opened m' =>
    cases opened with
    | inl v => rfl
    | inr f => exact congrArg (fun p : Run Value => p m') (bind_assoc (v.run f none) _ _).symm
  | failed e m' => rfl
  | stalled => rfl

end Nested

/-! ### The evaluator does not see the frames -/

section Tracked

variable (m : Machine) (s t : Stack Frame)

theorem tickUnlessFailed_anywhere (o : Option (Except Error Completion)) :
    ∃ r k, ∀ s a, tickUnlessFailed o { m with frames := s, active := a } =
      .done r { m with frames := s, active := a, monitor := k } :=
  ⟨(m.monitor.crossed o).1, (m.monitor.crossed o).2,
    fun s a => tickUnlessFailed_eq o { m with frames := s, active := a }⟩

theorem unfailing_runTask (f : Frame) (o : Option (Except Error Completion)) :
    (runTask E f o).Unfailing := by
  intro m e m' h
  obtain ⟨r, k, htick⟩ := tickUnlessFailed_anywhere m o
  rw [runTask_eq, htick m.frames m.active] at h
  cases r with
  | error e => cases h
  | ok u =>
    dsimp only at h
    split at h
    · cases h
    · exact unfailing_act f o _ _ _ ‹_›
    · cases h

/-- **Running a task.** -/
theorem runTask_tracked (h : Engine.Tracks L R E₁ E₂) (f : Frame)
    (o : Option (Except Error Completion)) :
    TaskTracked L R m.active s t f (runTask E₁ f o { m with frames := s })
      (runTask E₂ f o { m with frames := t }) := by
  obtain ⟨r, k, htick⟩ := tickUnlessFailed_anywhere m o
  rw [runTask_eq, runTask_eq, htick s m.active, htick t m.active]
  cases r with
  | error e => exact .failed e f.task f.task (x := { m with monitor := k }) rfl
  | ok u =>
    have hdoing := (f.task.routine_doing o).tracks h ⟨f.depth, f.quiet⟩ s t
      { m with monitor := k, active := some ⟨f.depth, f.quiet⟩ } rfl
    have hleft := Task.reports_act (E := E₁) f o
      { m with monitor := k, frames := s, active := some ⟨f.depth, f.quiet⟩ }
    have hright := Task.reports_act (E := E₂) f o
      { m with monitor := k, frames := t, active := some ⟨f.depth, f.quiet⟩ }
    dsimp only at hdoing ⊢
    generalize f.task.doing E₁ o _ = p, f.task.doing E₂ o _ = q at hdoing hleft hright
    generalize f.act E₁ o { m with monitor := k, frames := s, active := some ⟨f.depth, f.quiet⟩ } = x at hleft ⊢
    generalize f.act E₂ o { m with monitor := k, frames := t, active := some ⟨f.depth, f.quiet⟩ } = y at hright ⊢
    cases hdoing with
    | @done v z hz =>
      cases hleft with
      | finished => cases hright; exact .finished _ _ _ (x := { z with active := m.active }) rfl
      | suspended => cases hright; exact .suspended (x := { z with active := m.active }) rfl
    | @failed e z hz =>
      cases hleft
      cases hright
      exact .failed _ _ _ (x := { z with active := m.active }) rfl
    | stalled =>
      cases hleft
      cases hright
      exact .stalled
    | left h => cases hleft; exact .left h
    | right h => cases hright; exact .right h

end Tracked

/-! ### Beginning a call does not see the frames -/

theorem tracks_enterCall (function : Option String) :
    Tracks L R (enterCall function) (enterCall function) := by
  intro a s t m ha
  rw [enterCall_eq, enterCall_eq]
  by_cases hdepth : m.monitor.options.maxDepth ≤ m.monitor.depth
  · simp only [hdepth, if_true]
    exact .failed (x := m) ha
  · simp only [hdepth, if_false]
    exact .done (x := { m with monitor :=
      { m.monitor with calls := m.monitor.calls.push ⟨function, m.monitor.depth + 1⟩ } }) ha

theorem tracks_enter (f : Frame) : Tracks L R f.enter f.enter := by
  intro a s t m ha
  simp only [Frame.enter, Machine.enter_withFrames]
  exact .done (x := m.enter f) (by rw [← ha]; exact m.active_enter f)

theorem tracks_callNative (hhost : host.Reentrant) (h : Engine.Tracks L R E₁ E₂) (n : Native)
    (receiver : Value) (args : List Value) :
    Tracks L R (callNative host E₁ n receiver args) (callNative host E₂ n receiver args) := by
  refine .bind (tracks_enterCall _) fun _ =>
    .bind (hhost L R E₁ E₂ h n.entry receiver args).attempt fun result => .bind ?_ fun _ => .ofExcept result
  exact fun a s t m ha => .done (x := { m with monitor := m.monitor.popCall }) ha

theorem tracks_enterClosure (f : ObjectRef) (r : CallRequest) (depth : Nat) (quiet : Bool) :
    Tracks L R (enterClosure f r depth quiet) (enterClosure f r depth quiet) := by
  have hprepare : Tracks L R (InvocationTask.prepare f r.receiver r.args r.scope r.extra)
      (InvocationTask.prepare f r.receiver r.args r.scope r.extra) :=
    .bind (.readHeap _) fun _ => .bind (.discard (.readHeap _)) fun _ => .pure _
  refine .bind .isDebug fun debug => ?_
  dsimp only
  cases if debug = true then r.extra.profileName else none with
  | some name =>
    exact .bind (.pure _) fun _ => .bind hprepare fun _ => .bind (tracks_enterCall _) fun _ => tracks_enter _
  | none =>
    exact .bind (.readHeap _) fun _ => .bind hprepare fun _ => .bind (tracks_enterCall _) fun _ =>
      tracks_enter _

/-- **Beginning a call.** -/
theorem tracks_enterCallee (hhost : host.Reentrant) (h : Engine.Tracks L R E₁ E₂) (r : CallRequest)
    (depth : Nat) (quiet : Bool) :
    Tracks L R (enterCallee host E₁ r depth quiet) (enterCallee host E₂ r depth quiet) := by
  have refused : Tracks L R (do throw (.notCallable (← Run.readHeap fun h => h.describe r.callee)))
      (do throw (.notCallable (← Run.readHeap fun h => h.describe r.callee)) : Run (Value ⊕ Frame)) :=
    .bind (.readHeap _) fun _ => .fail _
  unfold enterCallee
  cases hcallee : r.callee with
  | object f =>
    rw [hcallee] at refused
    refine .bind (.readHeap _) fun o => ?_
    cases o.kind with
    | native n => exact .bind (tracks_callNative hhost h n _ _) fun _ => .pure _
    | closure c => exact .bind (tracks_enterClosure f r depth quiet) fun _ => .pure _
    | ordinary => exact refused
    | array => exact refused
  | _ =>
    rw [hcallee] at refused
    exact refused

theorem unfailing_request (f : Frame) (c : Suspension) : (request host E f c).Unfailing := by
  intro m e m' h
  cases c with
  | branch r =>
    rw [request_branch] at h
    split at h <;> cases h
  | call r =>
    rw [request_call] at h
    split at h <;> cases h

/-- **Beginning what a suspended frame asks for.** -/
theorem request_tracked (hhost : host.Reentrant) (h : Engine.Tracks L R E₁ E₂) (f : Frame)
    (c : Suspension) (m : Machine) (s t : Stack Frame) :
    Tracked L R m.active s t (request host E₁ f c { m with frames := s })
      (request host E₂ f c { m with frames := t }) := by
  cases c with
  | branch r =>
    rw [request_branch, request_branch]
    cases host.branch r with
    | error e => exact .done (x := m) rfl
    | ok task =>
      simp only [Machine.enter_withFrames]
      exact .done (x := m.enter (.fresh task r.info (f.depth + 1) f.quiet false)) (m.active_enter _)
  | call r =>
    have hcall := tracks_enterCallee hhost h r (f.depth + 1) f.quiet ⟨f.depth, f.quiet⟩ s t
      { m with active := some ⟨f.depth, f.quiet⟩ } rfl
    rw [request_call, request_call]
    dsimp only at hcall
    generalize enterCallee host E₁ r (f.depth + 1) f.quiet
        { m with frames := s, active := some ⟨f.depth, f.quiet⟩ } = x,
      enterCallee host E₂ r (f.depth + 1) f.quiet
        { m with frames := t, active := some ⟨f.depth, f.quiet⟩ } = y at hcall
    cases hcall with
    | @done opened x hx =>
      cases opened <;> exact .done (x := { x with active := m.active }) rfl
    | @failed e x hx => exact .done (x := { x with active := m.active }) rfl
    | stalled => exact .stalled
    | left h => exact .left h
    | right h => exact .right h

/-! ### The evaluator does not see what is running

Whether a task is running around it makes no difference to the evaluation of a frame: only while a task
runs is that seen, and then it is the frame's own task. -/

/-- The procedure neither sees nor changes which frame is running. -/
def Unlocated (p : Run α) : Prop := ∀ m a, p { m with active := a } = (p m).withActive a

theorem Unlocated.pure (v : α) : Unlocated (Pure.pure v : Run α) := fun _ _ => rfl

theorem Unlocated.bind {β : Type} {p : Run α} {f : α → Run β} (hp : Unlocated p)
    (hf : ∀ v, Unlocated (f v)) : Unlocated (p >>= f) := by
  intro m a
  have h := hp m a
  cases hpm : p m with
  | done v m₁ =>
    rw [hpm] at h
    rw [Proc.bind_done h, Proc.bind_done hpm]
    exact hf v m₁ a
  | failed e m₁ =>
    rw [hpm] at h
    rw [Proc.bind_failed h, Proc.bind_failed hpm]
    rfl
  | stalled =>
    rw [hpm] at h
    rw [Proc.bind_stalled h, Proc.bind_stalled hpm]
    rfl

theorem Unlocated.running_eq_self {p : Run α} (hp : Unlocated p) (hp' : p.Unfailing) (a : Active) :
    running a p = p := by
  funext m
  have hself : p m = (p m).withActive m.active := hp m m.active
  rw [running_eq, hp m (some a)]
  cases hpm : p m with
  | done v m₁ =>
    rw [hpm] at hself
    exact hself.symm
  | failed e m₁ => exact absurd hpm (hp' m e m₁)
  | stalled => rfl

theorem unlocated_exit (f : Frame) (o : Except Error Completion) : Unlocated (f.exit o) :=
  fun m a => congrArg (Outcome.done o) (m.leave_withActive f o a)

theorem unlocated_runTask (f : Frame) (o : Option (Except Error Completion)) :
    Unlocated (runTask E f o) := by
  intro m a
  obtain ⟨r, k, htick⟩ := tickUnlessFailed_anywhere m o
  rw [runTask_eq, runTask_eq, htick m.frames a, htick m.frames m.active]
  cases r with
  | error e => rfl
  | ok u =>
    dsimp only
    cases hact : f.act E o { m with monitor := k, active := some ⟨f.depth, f.quiet⟩ } with
    | done v m₁ => rfl
    | failed e m₁ => exact absurd hact (unfailing_act f o _ _ _)
    | stalled => rfl

theorem unlocated_request (f : Frame) (c : Suspension) : Unlocated (request host E f c) := by
  intro m a
  cases c with
  | branch r =>
    rw [request_branch, request_branch]
    cases host.branch r with
    | error e => rfl
    | ok task => exact congrArg (Outcome.done _) (m.enter_withActive _ a)
  | call r =>
    rw [request_call, request_call]
    cases enterCallee host E r (f.depth + 1) f.quiet { m with active := some ⟨f.depth, f.quiet⟩ } with
    | done opened m₁ => cases opened <;> rfl
    | failed e m₁ => rfl
    | stalled => rfl

namespace Evaluator

variable {v : Evaluator}

theorem unlocated_child (hv : ∀ f i, Unlocated (v.run f i)) (f : Frame) (c : Suspension) :
    Unlocated (v.child host f c) := by
  refine (unlocated_request f c).bind fun answer => ?_
  cases answer with
  | inl o => exact .pure o
  | inr g => exact hv g none

theorem unlocated_advance (hv : ∀ f i, Unlocated (v.run f i)) (f : Frame)
    (i : Option (Except Error Completion)) : Unlocated (v.advance host f i) := by
  refine (unlocated_runTask _ i).bind fun r => ?_
  obtain ⟨r, g⟩ := r
  cases r with
  | error e => exact unlocated_exit g (.error e)
  | ok step =>
    cases step with
    | finished c => exact unlocated_exit g (.ok c)
    | suspended c => exact (unlocated_child hv g c).bind fun o => hv g (some o)

theorem unfailing_child (hv : ∀ f i, (v.run f i).Unfailing) (f : Frame) (c : Suspension) :
    (v.child host f c).Unfailing := by
  refine (unfailing_request f c).bind fun answer => ?_
  cases answer with
  | inl o => exact Proc.unfailing_pure o
  | inr g => exact hv g none

theorem unfailing_advance (hv : ∀ f i, (v.run f i).Unfailing) (f : Frame)
    (i : Option (Except Error Completion)) : (v.advance host f i).Unfailing := by
  refine (unfailing_runTask _ i).bind fun r => ?_
  obtain ⟨r, g⟩ := r
  cases r with
  | error e => exact fun _ _ _ => nofun
  | ok step =>
    cases step with
    | finished c => exact fun _ _ _ => nofun
    | suspended c => exact (unfailing_child hv g c).bind fun o => hv g (some o)

theorem unlocated_perform (hv : ∀ f i, Unlocated (v.run f i)) (task : Task) (info : BranchInfo)
    (depth : Nat) (quiet isCall : Bool) : Unlocated (v.perform task info depth quiet isCall) :=
  .bind (fun m a => congrArg (Outcome.done _) (m.enter_withActive _ a)) fun f => hv f none

theorem unfailing_perform (hv : ∀ f i, (v.run f i).Unfailing) (task : Task) (info : BranchInfo)
    (depth : Nat) (quiet isCall : Bool) : (v.perform task info depth quiet isCall).Unfailing :=
  .bind (fun _ _ _ => nofun) fun f => hv f none

/-- **A branch that a frame asks for when it is suspended** has the outcome that the frame's task gets
when it has the branch evaluated while it runs. -/
theorem child_branch (hv : ∀ f i, Unlocated (v.run f i)) (hv' : ∀ f i, (v.run f i).Unfailing)
    (f : Frame) (r : BranchRequest) : v.child host f (.branch r) =
      running ⟨f.depth, f.quiet⟩ (v.evaluate host r).attempt := by
  funext m
  have hchild : v.child host f (.branch r) m =
      match host.branch r with
      | .ok task => v.perform task r.info (f.depth + 1) f.quiet false m
      | .error e => .done (.error e) m := by
    show Proc.bind (request host v.engine f (.branch r)) _ m = _
    unfold Proc.bind
    rw [request_branch]
    cases host.branch r <;> rfl
  have hevaluate : v.evaluate host r { m with active := some ⟨f.depth, f.quiet⟩ } = _ :=
    v.evaluate_eq { m with active := some ⟨f.depth, f.quiet⟩ } r
  rw [hchild]
  cases hr : host.branch r with
  | error e =>
    rw [hr] at hevaluate
    simp only [running_eq, Proc.attempt, hevaluate]
  | ok task =>
    rw [hr] at hevaluate
    dsimp only [Machine.childContext] at hevaluate
    have hfail := unfailing_perform hv' task r.info (f.depth + 1) f.quiet false
    have hrunning := (unlocated_perform hv task r.info (f.depth + 1) f.quiet false).running_eq_self hfail
      ⟨f.depth, f.quiet⟩
    refine (congrArg (fun p : Run (Except Error Completion) => p m) hrunning).symm.trans ?_
    simp only [running_eq, Proc.attempt, hevaluate, Bind.bind, Proc.bind]
    cases hp : v.perform task r.info (f.depth + 1) f.quiet false
        { m with active := some ⟨f.depth, f.quiet⟩ } with
    | done o m₁ => cases o <;> rfl
    | failed e m₁ => exact absurd hp (hfail _ e m₁)
    | stalled => rfl

/-- **A call that a frame asks for when it is suspended** has the outcome that the frame's task gets when it
calls the value while it runs. -/
theorem child_call (hv : ∀ f i, Unlocated (v.run f i)) (hv' : ∀ f i, (v.run f i).Unfailing)
    (f : Frame) (m : Machine) (callee receiver : Value) (args : List Value) :
    (v.child host f (.call (m.callRequest callee receiver args)) >>= fun outcome =>
        pure (outcome >>= completionValue) : Run (Except Error Value)) m =
      running ⟨f.depth, f.quiet⟩ (v.call host callee receiver args).attempt m := by
  have hcall : v.call host callee receiver args { m with active := some ⟨f.depth, f.quiet⟩ } = _ :=
    v.call_eq { m with active := some ⟨f.depth, f.quiet⟩ } callee receiver args
  have hrequest : Machine.callRequest { m with active := some ⟨f.depth, f.quiet⟩ } callee receiver args =
      m.callRequest callee receiver args := rfl
  rw [hrequest] at hcall
  dsimp only [Machine.childContext] at hcall
  simp only [running_eq, Proc.attempt, hcall, child, Bind.bind, Proc.bind, request_call]
  cases enterCallee host v.engine (m.callRequest callee receiver args) (f.depth + 1) f.quiet
      { m with active := some ⟨f.depth, f.quiet⟩ } with
  | failed e m₁ => rfl
  | stalled => rfl
  | done opened m₁ =>
    cases opened with
    | inl w => rfl
    | inr g =>
      dsimp only
      rw [hv g none m₁ m.active]
      cases hrun : v.run g none m₁ with
      | failed e m₂ => exact absurd hrun (hv' g none m₁ e m₂)
      | stalled => rfl
      | done o m₂ =>
        cases o with
        | error e => rfl
        | ok c =>
          show Outcome.done (completionValue c) _ = _
          simp only [Proc.ofExcept]
          cases completionValue c <;> rfl

end Evaluator

theorem Host.unlocated_recursion (n : Nat) (f : Frame) (i : Option (Except Error Completion)) :
    Unlocated ((host.recursion n).run f i) := by
  induction n generalizing f i with
  | zero => exact fun _ _ => rfl
  | succ n ih => exact Evaluator.unlocated_advance ih f i

theorem Host.unfailing_recursion (n : Nat) (f : Frame) (i : Option (Except Error Completion)) :
    ((host.recursion n).run f i).Unfailing := by
  induction n generalizing f i with
  | zero => exact fun _ _ _ => nofun
  | succ n ih => exact Evaluator.unfailing_advance ih f i

end ScriptCore
