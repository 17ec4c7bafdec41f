import ScriptCore.Drive

/-! # One boundary, spelled out

Driving a frame over one boundary is a sequence of procedures over the machine. Here each of them is
written as what it does to a machine: the innermost frame is taken off the stack after garbage was
collected, its task runs with the frame counted as running, and then the frame goes back or closes.

* `advance_eq_turn`: one boundary is a collection, if one is due, followed by `turn`.
* `runTask_eq`, `suspend_eq`, `drive_succ`. -/

namespace ScriptCore

variable {α : Type} {host : Host} {E : Engine}

/-! ### Stacks -/

namespace Stack

theorem ext {s t : Stack α} (h : s.items = t.items) : s = t := by
  obtain ⟨items, size, hs⟩ := s
  obtain ⟨items', size', ht⟩ := t
  obtain rfl : items = items' := h
  obtain rfl : size = size' := hs.trans ht.symm
  rfl

@[simp] theorem items_push (s : Stack α) (a : α) : (s.push a).items = a :: s.items := rfl

@[simp] theorem size_push (s : Stack α) (a : α) : (s.push a).size = s.size + 1 := rfl

@[simp] theorem top?_push (s : Stack α) (a : α) : (s.push a).top? = some a := rfl

@[simp] theorem isEmpty_push (s : Stack α) (a : α) : (s.push a).isEmpty = false := rfl

@[simp] theorem pop_push (s : Stack α) (a : α) : (s.push a).pop = s := ext rfl

@[simp] theorem modifyTop_push (s : Stack α) (a : α) (f : α → α) :
    (s.push a).modifyTop f = s.push (f a) := ext rfl

theorem push_inj {s t : Stack α} {a b : α} (h : s.push a = t.push b) :
    s = t ∧ a = b := by
  have hitems : a :: s.items = b :: t.items := congrArg Stack.items h
  injection hitems with ha hs
  exact ⟨Stack.ext hs, ha⟩

/-- The items of `below` are beneath the others. -/
def Beneath (below s : Stack α) : Prop := below.items <:+ s.items

theorem Beneath.size_le {below s : Stack α} (h : below.Beneath s) :
    below.size ≤ s.size := by
  rw [below.size_eq, s.size_eq]
  exact List.IsSuffix.length_le h

theorem Beneath.push {below s : Stack α} (h : below.Beneath s) (a : α) :
    below.Beneath (s.push a) := List.IsSuffix.trans h (List.suffix_cons a s.items)

theorem Beneath.eq_of_size {below s : Stack α} (h : below.Beneath s) (hs : s.size = below.size) :
    below = s := by
  rw [s.size_eq, below.size_eq] at hs
  exact ext (List.IsSuffix.eq_of_length h hs.symm)

theorem Beneath.of_push {below s : Stack α} {a : α} (h : below.Beneath (s.push a))
    (hs : below.size ≤ s.size) : below.Beneath s := by
  obtain heq | hsuffix := List.suffix_cons_iff.mp h
  · rw [below.size_eq, heq, s.size_eq, List.length_cons] at hs
    omega
  · exact hsuffix

theorem exists_push {s : Stack α} (h : 0 < s.size) : ∃ (t : Stack α) (a : α), s = t.push a := by
  obtain ⟨items, size, hsize⟩ := s
  cases items with
  | nil => subst hsize; exact absurd h (Nat.lt_irrefl 0)
  | cons a rest => exact ⟨⟨rest, rest.length, rfl⟩, a, ext rfl⟩

/-- There is a top above the lowest `base` items. -/
theorem exists_push_of_lt {s : Stack α} {base : Nat} (h : base < s.size) :
    ∃ (t : Stack α) (a : α), s = t.push a ∧ base ≤ t.size := by
  obtain ⟨t, a, rfl⟩ := exists_push (Nat.lt_of_le_of_lt (Nat.zero_le base) h)
  exact ⟨t, a, rfl, Nat.le_of_lt_succ h⟩

/-- The items above the lowest `base`, the top in front. -/
def above (s : Stack α) (base : Nat) : List α := s.items.take (s.size - base)

theorem above_push {s : Stack α} {base : Nat} (h : base ≤ s.size) (a : α) :
    (s.push a).above base = a :: s.above base := by
  unfold above
  rw [size_push, items_push, Nat.succ_sub h]
  rfl

theorem above_eq_nil {s : Stack α} {base : Nat} (h : s.size ≤ base) : s.above base = [] := by
  unfold above
  rw [Nat.sub_eq_zero_of_le h]
  rfl

theorem size_of_above {s : Stack α} {base : Nat} (h : base ≤ s.size) :
    s.size = base + (s.above base).length := by
  unfold above
  rw [List.length_take, ← s.size_eq]
  omega

/-- The top of the items above `base`. -/
theorem exists_push_of_above {s : Stack α} {base : Nat} {a : α} {rest : List α}
    (h : s.above base = a :: rest) : ∃ t : Stack α, s = t.push a ∧ base ≤ t.size ∧ t.above base = rest := by
  have hlt : base < s.size := by
    refine Nat.lt_of_not_le fun hle => ?_
    rw [above_eq_nil hle] at h
    cases h
  obtain ⟨t, b, rfl, hbase⟩ := exists_push_of_lt hlt
  rw [above_push hbase] at h
  cases h
  exact ⟨t, rfl, hbase, rfl⟩

end Stack

/-! ### Collecting -/

/-- The machine after garbage was collected, if the host drives and enough was allocated. -/
def Machine.collected (m : Machine) : Machine :=
  if m.active.isNone && m.heap.needsCollection then { m with heap := m.heap.collect m.handles } else m

theorem collectIfDue_eq (m : Machine) : collectIfDue m = .done () m.collected := by
  unfold collectIfDue Machine.collected collectGarbage
  cases hactive : m.active with
  | some a => rfl
  | none => cases hdue : m.heap.needsCollection <;> rfl

theorem Machine.collected_of_active {m : Machine} {a : Active} (h : m.active = some a) :
    m.collected = m := by
  unfold Machine.collected
  rw [h]
  rfl

@[simp] theorem Machine.frames_collected (m : Machine) : m.collected.frames = m.frames := by
  unfold Machine.collected
  split <;> rfl

@[simp] theorem Machine.active_collected (m : Machine) : m.collected.active = m.active := by
  unfold Machine.collected
  split <;> rfl

@[simp] theorem Machine.monitor_collected (m : Machine) : m.collected.monitor = m.monitor := by
  unfold Machine.collected
  split <;> rfl

@[simp] theorem Machine.realm_collected (m : Machine) : m.collected.realm = m.realm := by
  unfold Machine.collected
  split <;> rfl

/-! ### The parts of a boundary -/

/-- Accounting for a boundary, by what it does to the monitor. -/
def Monitor.crossed (k : Monitor) : Option (Except Error Completion) → Except Error Unit × Monitor
  | some (.error _) => (.ok (), k)
  | _ =>
    match Monitor.tick k with
    | .done u k => (.ok u, k)
    | .failed e k => (.error e, k)
    | .stalled => (.ok (), k)

theorem Monitor.tick_ne_stalled (k : Monitor) : Monitor.tick k ≠ .stalled := by
  intro h
  unfold Monitor.tick at h
  split at h
  · cases h
  · dsimp only at h
    split at h
    · cases h
    · split at h <;> cases h

theorem Monitor.crossed_eq {i : Option (Except Error Completion)} (hi : ∀ e, i ≠ some (.error e))
    (k : Monitor) : k.crossed i =
      match Monitor.tick k with
      | .done u k => (.ok u, k)
      | .failed e k => (.error e, k)
      | .stalled => (.ok (), k) := by
  unfold Monitor.crossed
  split
  · exact absurd rfl (hi _)
  · rfl

theorem tickUnlessFailed_eq (i : Option (Except Error Completion)) (m : Machine) :
    tickUnlessFailed i m = .done (m.monitor.crossed i).1 { m with monitor := (m.monitor.crossed i).2 } := by
  have hattempt : ∀ i, (∀ e, i ≠ some (.error e)) →
      Proc.attempt (Run.onMonitor Monitor.tick) m =
        .done (m.monitor.crossed i).1 { m with monitor := (m.monitor.crossed i).2 } := by
    intro i hi
    rw [Monitor.crossed_eq hi]
    unfold Proc.attempt Run.onMonitor
    cases htick : Monitor.tick m.monitor with
    | done u k => rfl
    | failed e k => rfl
    | stalled => exact absurd htick (Monitor.tick_ne_stalled _)
  cases i with
  | none => exact hattempt none nofun
  | some o =>
    cases o with
    | error e => rfl
    | ok c => exact hattempt _ nofun

/-- What the task of a frame is asked to do. -/
def Frame.act (f : Frame) (engine : Engine) :
    Option (Except Error Completion) → Run (Except Error Step × Task)
  | none => f.task.start engine
  | some o => f.task.resume engine o

theorem runTask_eq (f : Frame) (o : Option (Except Error Completion)) (m : Machine) :
    runTask E f o m =
      match tickUnlessFailed o m with
      | .done (.error e) m => .done (.error e, f) m
      | .done (.ok ()) m =>
        match f.act E o { m with active := some ⟨f.depth, f.quiet⟩ } with
        | .done (r, t) m' => .done (r, { f with task := t }) { m' with active := m.active }
        | .failed e m' => .failed e m'
        | .stalled => .stalled
      | .failed e m => .failed e m
      | .stalled => .stalled := by
  unfold runTask
  show Proc.bind (tickUnlessFailed o) _ m = _
  unfold Proc.bind
  cases tickUnlessFailed o m with
  | failed e m => rfl
  | stalled => rfl
  | done r m =>
    cases r with
    | error e => rfl
    | ok _ =>
      cases o with
      | none =>
        show Proc.bind (f.task.start E) _ _ = _
        simp only [Proc.bind, Frame.act]
        cases f.task.start E { m with active := some ⟨f.depth, f.quiet⟩ } <;> rfl
      | some o =>
        show Proc.bind (f.task.resume E o) _ _ = _
        simp only [Proc.bind, Frame.act]
        cases f.task.resume E o { m with active := some ⟨f.depth, f.quiet⟩ } <;> rfl

/-- The frame with what it is to be given: a start, or the outcome of its child. -/
def Frame.fed (f : Frame) : Option (Except Error Completion) → Frame
  | none => { f with input := .start }
  | some outcome => { f with input := .deliver outcome }

@[simp] theorem Frame.task_fed (f : Frame) (i : Option (Except Error Completion)) : (f.fed i).task = f.task := by
  cases i <;> rfl

theorem Frame.fed_of_deliver {f : Frame} {o : Except Error Completion} (h : f.input = .deliver o) :
    f.fed (some o) = f := by
  obtain ⟨task, info, depth, quiet, isCall, input⟩ := f
  cases h
  rfl

/-- A frame is to be given something, or it was aborted before it started, or it waits. -/
theorem Frame.fed_cases {P : Frame → Prop} (fed : ∀ f i, P (Frame.fed f i))
    (fail : ∀ f e, f.input = .fail e → P f) (waiting : ∀ f, f.input = .waiting → P f) (f : Frame) : P f := by
  cases hinput : f.input with
  | start =>
    have hfed : f.fed none = f := by
      obtain ⟨task, info, depth, quiet, isCall, input⟩ := f
      cases hinput
      rfl
    exact hfed ▸ fed f none
  | deliver o => exact Frame.fed_of_deliver hinput ▸ fed f (some o)
  | fail e => exact fail f e hinput
  | waiting => exact waiting f hinput

theorem feed_fed (f : Frame) (o : Option (Except Error Completion)) :
    feed E (f.fed o) = runTask E { f with input := .waiting } o := by
  cases o <;> rfl

theorem suspend_eq (f : Frame) (s : Suspension) (m : Machine) :
    suspend host E f s m =
      match openChild host E s (f.depth + 1) f.quiet
        { m with frames := m.frames.push f, active := some ⟨f.depth, f.quiet⟩ } with
      | .done _ m' => .done () { m' with active := m.active }
      | .failed e m' => .failed e m'
      | .stalled => .stalled := by
  show Proc.bind (openChild host E s (f.depth + 1) f.quiet) _ _ = _
  simp only [Proc.bind]
  cases openChild host E s (f.depth + 1) f.quiet
    { m with frames := m.frames.push f, active := some ⟨f.depth, f.quiet⟩ } <;> rfl

/-- The machine after a frame closed: its call is no longer active, and its end was observed. -/
def Machine.leave (m : Machine) (f : Frame) (outcome : Except Error Completion) : Machine :=
  let m := if f.isCall then { m with monitor := m.monitor.popCall } else m
  if f.quiet then m else m.record (.exit f.depth f.info.kind outcome)

section Leave

variable (m : Machine) (f : Frame) (o : Except Error Completion)

@[simp] theorem Machine.frames_leave : (m.leave f o).frames = m.frames := by
  unfold Machine.leave
  cases f.isCall <;> cases f.quiet <;> rfl

@[simp] theorem Machine.active_leave : (m.leave f o).active = m.active := by
  unfold Machine.leave
  cases f.isCall <;> cases f.quiet <;> rfl

@[simp] theorem Machine.heap_leave : (m.leave f o).heap = m.heap := by
  unfold Machine.leave
  cases f.isCall <;> cases f.quiet <;> rfl

@[simp] theorem Machine.realm_leave : (m.leave f o).realm = m.realm := by
  unfold Machine.leave
  cases f.isCall <;> cases f.quiet <;> rfl

@[simp] theorem Machine.monitor_leave :
    (m.leave f o).monitor = if f.isCall then m.monitor.popCall else m.monitor := by
  unfold Machine.leave
  cases f.isCall <;> cases f.quiet <;> rfl

theorem Machine.close_eq (base : Nat) :
    m.close f o base = if m.frames.size = base then (.finished o, m.leave f o)
      else (.going, (m.leave f o).deliver o) := by
  have h : m.close f o base = if (m.leave f o).frames.size = base then (.finished o, m.leave f o)
      else (.going, (m.leave f o).deliver o) := rfl
  rwa [Machine.frames_leave] at h

end Leave

/-! ### Opening frames and calls -/

section Open

variable (m : Machine) (task : Task) (info : BranchInfo) (depth : Nat) (quiet isCall : Bool)

@[simp] theorem Machine.frames_openFrame : (m.openFrame task info depth quiet isCall).frames =
    m.frames.push ⟨task, info, depth, quiet || info.options.isQuiet, isCall, .start⟩ := by
  unfold Machine.openFrame
  dsimp only
  split <;> rfl

@[simp] theorem Machine.heap_openFrame : (m.openFrame task info depth quiet isCall).heap = m.heap := by
  unfold Machine.openFrame
  dsimp only
  split <;> rfl

@[simp] theorem Machine.realm_openFrame :
    (m.openFrame task info depth quiet isCall).realm = m.realm := by
  unfold Machine.openFrame
  dsimp only
  split <;> rfl

@[simp] theorem Machine.monitor_openFrame :
    (m.openFrame task info depth quiet isCall).monitor = m.monitor := by
  unfold Machine.openFrame
  dsimp only
  split <;> rfl

@[simp] theorem Machine.active_openFrame :
    (m.openFrame task info depth quiet isCall).active = m.active := by
  unfold Machine.openFrame
  dsimp only
  split <;> rfl

end Open

theorem enterCall_eq (function : Option String) (m : Machine) :
    enterCall function m =
      if m.monitor.options.maxDepth ≤ m.monitor.depth then
        .failed (m.monitor.stop .stackOverflow) m
      else .done () { m with monitor :=
        { m.monitor with calls := m.monitor.calls.push ⟨function, m.monitor.depth + 1⟩ } } := by
  show Run.onMonitor (Monitor.pushCall _) m = _
  unfold Run.onMonitor Monitor.pushCall
  by_cases h : m.monitor.options.maxDepth ≤ m.monitor.depth
  · simp only [h, if_true]
  · simp only [h, if_false]

/-- The name under which a call is recorded, and the name of its call site. -/
def siteName (m : Machine) (r : CallRequest) : Option String :=
  if m.monitor.options.debug then r.extra.profileName else none

/-- A call of a closure that has not started. -/
def InvocationTask.ofRequest (f : ObjectRef) (c : Closure) (r : CallRequest) : InvocationTask :=
  { callee := f, closure := c, receiver := r.receiver, args := r.args, callerScope := r.scope,
    extra := r.extra, state := .created, scope := none, strict := false, argCells := [] }

theorem openClosure_eq {m : Machine} {f : ObjectRef} {r : CallRequest} {name : Option String}
    {c : Closure} {sc : Scope} (hname : m.heap.functionName f = .ok name)
    (hclosure : m.heap.closure f = .ok c) (hscope : m.heap.scope r.scope = .ok sc) (depth : Nat)
    (quiet : Bool) :
    openClosure f r depth quiet m =
      match enterCall ((siteName m r).or name) m with
      | .done _ m' => .done () (m'.openFrame (.invocation (.ofRequest f c r))
          ⟨.call, { profileName := siteName m r, callee := some (r.extra.callee.getD r.callee) }⟩
          depth quiet true)
      | .failed e m' => .failed e m'
      | .stalled => .stalled := by
  have hread : ∀ {α : Type} {g : Heap → Except Error α} {a : α}, g m.heap = .ok a →
      Run.readHeap g m = .done a m := by
    intro α g a h
    simp only [Run.readHeap, Proc.reads, h]
  have hprepare : InvocationTask.prepare f r.receiver r.args r.scope r.extra m =
      .done (.ofRequest f c r) m := by
    refine (Proc.bind_done (hread hclosure) _).trans ?_
    refine (Proc.bind_done (a := ()) (t := m) ?_ _).trans rfl
    show Proc.bind (Run.readHeap fun h => h.scope r.scope) _ m = _
    simp only [Proc.bind, hread (g := fun h => h.scope r.scope) hscope]
    rfl
  have hrest : ∀ site : Option String,
      (InvocationTask.prepare f r.receiver r.args r.scope r.extra >>= fun task =>
        enterCall (site.or name) >>= fun _ => modify fun m => m.openFrame (.invocation task)
          ⟨.call, { profileName := site, callee := some (r.extra.callee.getD r.callee) }⟩ depth quiet
          true : Run Unit) m =
      match enterCall (site.or name) m with
      | .done _ m' => .done () (m'.openFrame (.invocation (.ofRequest f c r))
          ⟨.call, { profileName := site, callee := some (r.extra.callee.getD r.callee) }⟩
          depth quiet true)
      | .failed e m' => .failed e m'
      | .stalled => .stalled := by
    intro site
    refine (Proc.bind_done hprepare _).trans ?_
    show Proc.bind (enterCall (site.or name)) _ m = _
    simp only [Proc.bind]
    cases enterCall (site.or name) m <;> rfl
  have hdebug : Run.isDebug m = .done m.monitor.options.debug m := rfl
  refine (Proc.bind_done hdebug _).trans ?_
  dsimp only
  rw [show (if m.monitor.options.debug = true then r.extra.profileName else none) = siteName m r
    from rfl]
  generalize siteName m r = site
  cases site with
  | some x => exact hrest (some x)
  | none =>
    exact (Proc.bind_done (hread (g := fun h => h.functionName f) hname) _).trans (hrest none)

/-- Refuses a call of something that cannot be called. -/
def refuseCall (v : Value) : Run (Option Value) := do
  throw (.notCallable (← Run.readHeap fun h => h.describe v))

theorem openCall_object {m : Machine} {f : ObjectRef} {r : CallRequest} {o : Object}
    (hf : r.callee = .object f) (ho : m.heap.object f = .ok o) (depth : Nat) (quiet : Bool) :
    openCall host E r depth quiet m = (match o.kind with
      | .native n => do return some (← callNative host E n r.receiver r.args)
      | .closure _ => do openClosure f r depth quiet; return none
      | .ordinary | .array => refuseCall r.callee : Run (Option Value)) m := by
  have hread : (Run.readHeap fun h => h.object f) m = .done o m := by
    simp only [Run.readHeap, Proc.reads, ho]
  unfold openCall
  rw [hf]
  refine (Proc.bind_done hread _).trans ?_
  cases o.kind <;> rfl

theorem openCall_other {r : CallRequest} (hr : ∀ f, r.callee ≠ .object f) (depth : Nat)
    (quiet : Bool) : openCall host E r depth quiet = refuseCall r.callee := by
  unfold openCall
  cases hc : r.callee with
  | object f => exact absurd hc (hr f)
  | _ => rfl

/-- A call of a value from the global scope. -/
def Machine.callRequest (m : Machine) (callee receiver : Value) (args : List Value) : CallRequest :=
  { callee, receiver, args, scope := m.realm.globalScope, extra := {} }

theorem evaluateOn_eq (b : Nat) (r : BranchRequest) (m : Machine) :
    host.evaluateOn E b r m =
      match host.branch r with
      | .ok task => drive host E m.frames.size b
          (m.openFrame task r.info m.childContext.1 m.childContext.2 false)
      | .error e => .failed e m := by
  show Proc.bind (Proc.ofExcept (host.branch r)) _ m = _
  unfold Proc.bind Proc.ofExcept
  cases host.branch r <;> rfl

/-- A program that is executed where no code runs is opened as the root, and driven to its end. -/
theorem executeOn_of_inactive {m : Machine} (hactive : m.active = none) (bound : Nat) (body : List Stmt) :
    host.executeOn E bound body m = (do
      host.startRoot { BranchRequest.program body m.realm.globalScope with options := { returnLastValue := true } }
      let c ← drive host E 0 bound
      completionValue c : Run Value) m := by
  have hrealm : Run.realm m = .done m.realm m := rfl
  have hget : (get : Run Machine) m = .done m m := rfl
  unfold Host.executeOn
  rw [Proc.bind_done hrealm, Proc.bind_done hget, hactive, if_neg (by simp)]

/-- One boundary of a frame that is off the stack. -/
def turn (host : Host) (engine : Engine) (base : Nat) (f : Frame) (m : Machine) :
    Outcome Machine Advance :=
  match feed engine f m with
  | .done (.ok (.suspended s), f) m =>
    match suspend host engine f s m with
    | .done _ m => .done .going m
    | .failed e m => .failed e m
    | .stalled => .stalled
  | .done (.ok (.finished c), f) m => .done (m.close f (.ok c) base).1 (m.close f (.ok c) base).2
  | .done (.error e, f) m => .done (m.close f (.error e) base).1 (m.close f (.error e) base).2
  | .failed e m => .failed e m
  | .stalled => .stalled

/-- **One boundary** is a collection, if one is due, and the turn of the innermost frame. -/
theorem advance_eq_turn {m : Machine} {s : Stack Frame} {f : Frame} {base : Nat}
    (hm : m.frames = s.push f) (hbase : base ≤ s.size) :
    advance host E base m = turn host E base f { m.collected with frames := s } := by
  have hsize : ¬ m.frames.size ≤ base := by rw [hm, Stack.size_push]; omega
  have hpop : popFrame m.collected = .done (some f) { m.collected with frames := s } := by
    show Outcome.done m.collected.frames.top? { m.collected with frames := m.collected.frames.pop } = _
    rw [Machine.frames_collected, hm, Stack.top?_push, Stack.pop_push]
  have hget : (get : Run Machine) m = .done m m := rfl
  unfold advance
  refine (Proc.bind_done hget _).trans ?_
  dsimp only
  rw [if_neg hsize]
  refine (Proc.bind_done (collectIfDue_eq m) _).trans ?_
  refine (Proc.bind_done hpop _).trans ?_
  show Proc.bind (feed E f) _ _ = _
  unfold Proc.bind turn
  cases feed E f { m.collected with frames := s } with
  | failed e m => rfl
  | stalled => rfl
  | done r m =>
    obtain ⟨r, g⟩ := r
    cases r with
    | error e => rfl
    | ok step =>
      cases step with
      | finished c => rfl
      | suspended c =>
        show Proc.bind (suspend host E g c) _ m = _
        dsimp only [Proc.bind]
        cases suspend host E g c m <;> rfl

/-- How a drive goes on after a boundary. -/
def proceed (host : Host) (engine : Engine) (base bound : Nat) :
    Outcome Machine Advance → Outcome Machine Completion
  | .done (.finished outcome) m => ending id outcome m
  | .done .going m => drive host engine base bound m
  | .failed e m => .failed e m
  | .stalled => .stalled

theorem drive_succ (base bound : Nat) (m : Machine) :
    drive host E base (bound + 1) m = proceed host E base bound (advance host E base m) := by
  unfold drive proceed
  cases advance host E base m with
  | done r m => cases r <;> rfl
  | failed e m => rfl
  | stalled => rfl

/-! ### Endings -/

/-- The outcome with another running frame. -/
def Outcome.withActive (a : Option Active) : Outcome Machine α → Outcome Machine α
  | .done v m => .done v { m with active := a }
  | .failed e m => .failed e { m with active := a }
  | .stalled => .stalled

theorem ending_inj {o o' : Except Error Completion} {m m' : Machine} (h : ending id o m = ending id o' m') :
    o = o' ∧ m = m' := by
  cases o <;> cases o' <;> cases h <;> exact ⟨rfl, rfl⟩

theorem ending_ne_stalled {o : Except Error Completion} {m : Machine} : ending id o m ≠ .stalled := by
  cases o <;> exact nofun

theorem ofExcept_eq_ending (o : Except Error Completion) (m : Machine) :
    (Proc.ofExcept o : Run Completion) m = ending id o m := by
  cases o <;> rfl

theorem exists_ending {x : Outcome Machine Completion} (h : x ≠ .stalled) :
    ∃ o m, x = ending id o m := by
  cases x with
  | done c m => exact ⟨.ok c, m, rfl⟩
  | failed e m => exact ⟨.error e, m, rfl⟩
  | stalled => exact absurd rfl h

end ScriptCore
