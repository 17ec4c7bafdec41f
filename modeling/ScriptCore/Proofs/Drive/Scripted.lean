import ScriptCore.Proofs.Drive.Forwarding

/-! # Programs without native functions

Where no object of the heap is a native function, nothing but the program runs. Opening a call is then a
matter of the heap and of the active calls alone, and code that runs inside a task leaves the frames beneath
it as they were. So what one boundary can do to the stack of frames can be listed.

* `Machine.requested`, `suspend_scripted`: what a suspended frame gets for what it asks.
* `Held`: the machine has these frames, and its run is limited as before.
* `Routine.keeps`: running code keeps what its work on the heap and the engine keep.
* `turn_restacks`: **what one boundary does to the stack.**
* `drive_held`, `Host.engine_holds`: runs on top of the open frames leave them alone. -/

namespace ScriptCore

variable {α β : Type} {E : Engine} {host : Host} {base : Nat} {m : Machine} {a : Option Active}
  {s below : Stack Frame} {l : Monitor}

/-! ### What a run is limited by -/

/-- The monitor without what it counts: fuel, boundaries and active calls. -/
def Monitor.limits (k : Monitor) : Monitor :=
  { k with budget := { k.budget with fuel := none }, boundaries := 0, calls := .empty }

theorem Monitor.limits_crossed (k : Monitor) (i : Option (Except Error Completion)) :
    (k.crossed i).2.limits = k.limits := by
  obtain ⟨options, ⟨fuel, deadline, every⟩, boundaries, calls, interrupted, now⟩ := k
  unfold Monitor.crossed Monitor.tick
  split
  · rfl
  · dsimp only
    cases Monitor.spend fuel with
    | none => rfl
    | some fuel =>
      cases interrupted with
      | true => rfl
      | false =>
        dsimp only
        cases Budget.deadlinePassed ⟨fuel, deadline, every⟩ (boundaries + 1) now <;> rfl

/-- The machine has the frames `s`, the frame at `a` is running, its runs are limited by `l`, and no object
of its heap is a native function. -/
structure Held (a : Option Active) (s : Stack Frame) (l : Monitor) (m : Machine) : Prop where
  active : m.active = a
  frames : m.frames = s
  limits : m.monitor.limits = l
  heap : m.heap.Scripted

theorem Held.collected (h : Held a s l m) : Held a s l m.collected := by
  refine ⟨by simpa using h.active, by simpa using h.frames, by simpa using h.limits, ?_⟩
  unfold Machine.collected
  split
  · exact h.heap.collect _
  · exact h.heap

theorem Held.popped {f : Frame} (h : Held a (s.push f) l m) : Held a s l { m.collected with frames := s } :=
  ⟨h.collected.active, rfl, h.collected.limits, h.collected.heap⟩

theorem Held.leave (h : Held a s l m) (f : Frame) (o : Except Error Completion) :
    Held a s l (m.leave f o) := by
  refine ⟨by simpa using h.active, by simpa using h.frames, ?_, by simpa using h.heap⟩
  rw [Machine.monitor_leave]
  split <;> exact h.limits

/-! ### New machines -/

theorem CommonNames.routine_intern {K : ObjectKind → Prop} : Heap.Routine K CommonNames.intern :=
  .bind (Heap.routine_keyOfName _) fun _ => .bind (Heap.routine_keyOfName _) fun _ =>
    .bind (Heap.routine_keyOfName _) fun _ => .bind (Heap.routine_keyOfName _) fun _ =>
      .bind (Heap.routine_keyOfName _) fun _ => .bind (Heap.routine_keyOfName _) fun _ =>
        .bind (Heap.routine_keyOfName _) fun _ => .bind (Heap.routine_keyOfName _) fun _ => .pure _

theorem Realm.routine_create {K : ObjectKind → Prop} (hk : K .ordinary) (sloppy : Bool) :
    Heap.Routine K (Realm.create sloppy) := by
  have constant : ∀ global name v, Heap.Routine K (Realm.defineConstant global name v) := fun _ _ _ =>
    .bind (Heap.routine_keyOfName _) fun _ => .discard (Heap.routine_define _ _ _)
  refine .bind CommonNames.routine_intern fun names => ?_
  -- The prototypes, then what they hold, then the global object and its scope.
  refine .bind (Heap.routine_allocObject _ _ hk) fun object => ?_
  refine .bind (Heap.routine_allocObject _ _ hk) fun function => ?_
  refine .bind (Heap.routine_allocObject _ _ hk) fun array => ?_
  refine .bind (Heap.routine_allocObject _ _ hk) fun string => ?_
  refine .bind (Heap.routine_allocObject _ _ hk) fun number => ?_
  refine .bind (Heap.routine_allocObject _ _ hk) fun boolean => ?_
  refine .bind (Heap.routine_allocObject _ _ hk) fun error => ?_
  refine .bind (Heap.routine_allocCell _) fun length => .bind (Heap.routine_installCell _ _ _) fun _ => ?_
  refine .bind (.intern _) fun name => .bind (.discard (Heap.routine_define _ _ _)) fun _ => ?_
  refine .bind (.intern _) fun text => .bind (.discard (Heap.routine_define _ _ _)) fun _ => ?_
  refine .bind (Heap.routine_allocObject _ _ hk) fun global => ?_
  refine .bind (Heap.routine_keyOfName _) fun key => .bind (.discard (Heap.routine_define _ _ _)) fun _ => ?_
  refine .bind (constant _ _ _) fun _ => .bind (constant _ _ _) fun _ => .bind (constant _ _ _) fun _ => ?_
  exact .bind (Heap.routine_allocScope _) fun scope => .pure _

/-- A new machine has no frames and no native functions. -/
theorem Machine.held_create {limits : HeapLimits} {options : MonitorOptions} {now : Nat} {sloppy : Bool}
    (h : Machine.create limits options now sloppy = .ok m) :
    Held none .empty (Monitor.ofOptions options now).limits m := by
  have hcreate : (Realm.create sloppy (Heap.empty limits)).Leaves Heap.Scripted :=
    (Realm.routine_create trivial sloppy).keeps_scripted _ (Heap.scripted_empty limits)
  obtain ⟨realm, heap, hdone, rfl⟩ := create_eq_ok h
  rw [hdone] at hcreate
  exact ⟨rfl, rfl, rfl, hcreate⟩

/-! ### What a suspended frame asks for -/

/-- A frame to be opened, and the calls that are active then. -/
structure Opening where
  calls : Stack CallEntry
  task : Task
  info : BranchInfo
  isCall : Bool

namespace Machine

/-- What a call of a closure opens, under the name by which the call is counted. -/
def closureOpening (m : Machine) (f : ObjectRef) (r : CallRequest) (name : Option String) :
    Except Error Opening := do
  let closure ← m.heap.closure f
  let _ ← m.heap.scope r.scope
  if m.monitor.options.maxDepth ≤ m.monitor.depth then .error (m.monitor.stop .stackOverflow)
  else
    .ok { calls := m.monitor.calls.push ⟨name, m.monitor.depth + 1⟩
          task := .invocation (.ofRequest f closure r)
          info := ⟨.call, { profileName := siteName m r, callee := some (r.extra.callee.getD r.callee) }⟩
          isCall := true }

/-- What a call of a closure opens. The name of the callee is read only if the call site has none. -/
def closureCall (m : Machine) (f : ObjectRef) (r : CallRequest) : Except Error Opening :=
  match siteName m r with
  | some name => m.closureOpening f r (some name)
  | none => m.heap.functionName f >>= m.closureOpening f r

/-- What a call opens, if the callee is no native function. -/
def requestedCall (m : Machine) (r : CallRequest) : Except Error Opening :=
  let refused : Except Error Opening := do throw (.notCallable (← m.heap.describe r.callee))
  match r.callee with
  | .object f => do
    match (← m.heap.object f).kind with
    | .closure _ => m.closureCall f r
    | _ => refused
  | _ => refused

/-- What a suspended frame gets opened, where there are no native functions. -/
def requested (host : Host) (m : Machine) : Suspension → Except Error Opening
  | .branch r => do return ⟨m.monitor.calls, ← host.branch r, r.info, false⟩
  | .call r => m.requestedCall r

/-- Opens a frame. -/
def opened (m : Machine) (o : Opening) (depth : Nat) (quiet : Bool) : Machine :=
  ({ m with monitor := { m.monitor with calls := o.calls } } : Machine).openFrame o.task o.info depth quiet
    o.isCall

/-- The machine after a frame was suspended: its child is open, or the frame is given the failure. -/
def suspended (host : Host) (m : Machine) (f : Frame) (c : Suspension) : Machine :=
  match m.requested host c with
  | .ok o => ({ m with frames := m.frames.push f } : Machine).opened o (f.depth + 1) f.quiet
  | .error e => { m with frames := m.frames.push (f.fed (some (.error e))) }

end Machine

/-- What opening comes to. -/
def Machine.opening (m : Machine) (depth : Nat) (quiet : Bool) (v : α) : Except Error Opening → Outcome Machine α
  | .ok o => .done v (m.opened o depth quiet)
  | .error e => .failed e m

theorem openClosure_eq_closureCall (f : ObjectRef) (r : CallRequest) (depth : Nat) (quiet : Bool)
    (m : Machine) : openClosure f r depth quiet m = m.opening depth quiet () (m.closureCall f r) := by
  have hprepared : ∀ name : Option String,
      (InvocationTask.prepare f r.receiver r.args r.scope r.extra >>= fun task =>
        enterCall name >>= fun _ => modify fun m' => m'.openFrame (.invocation task)
          ⟨.call, { profileName := siteName m r, callee := some (r.extra.callee.getD r.callee) }⟩ depth quiet
          true : Run Unit) m = m.opening depth quiet () (m.closureOpening f r name) := by
    intro name
    unfold InvocationTask.prepare Machine.closureOpening
    simp only [bind_assoc, Proc.discard_bind, Run.readHeap_bind, pure_bind]
    cases m.heap.closure f with
    | error e => rfl
    | ok closure =>
      cases m.heap.scope r.scope with
      | error e => rfl
      | ok sc =>
        show Proc.bind (enterCall name) _ m = m.opening depth quiet () (if _ then _ else _)
        simp only [Proc.bind, enterCall_eq]
        by_cases hdepth : m.monitor.options.maxDepth ≤ m.monitor.depth
        · simp only [hdepth, if_true]
          rfl
        · simp only [hdepth, if_false]
          rfl
  have hdebug : Run.isDebug m = .done m.monitor.options.debug m := rfl
  refine (Proc.bind_done hdebug _).trans ?_
  dsimp only
  rw [show (if m.monitor.options.debug = true then r.extra.profileName else none) = siteName m r
    from rfl]
  unfold Machine.closureCall
  generalize siteName m r = site at hprepared
  cases site with
  | some name => exact hprepared (some name)
  | none =>
    simp only [Run.readHeap_bind]
    cases m.heap.functionName f with
    | error e => rfl
    | ok name => exact hprepared name

/-- **Opening a call** runs a native function, or it takes the heap and the active calls, and no engine. -/
theorem openCall_cases (host : Host) (m : Machine) (r : CallRequest) (depth : Nat) (quiet : Bool) :
    (∃ f o n, r.callee = .object f ∧ m.heap.object f = .ok o ∧ o.kind = .native n ∧
      ∀ E, openCall host E r depth quiet m = (some <$> callNative host E n r.receiver r.args) m) ∨
      ∀ E, openCall host E r depth quiet m = m.opening depth quiet none (m.requestedCall r) := by
  have refused : refuseCall r.callee m =
      m.opening depth quiet none (do throw (.notCallable (← m.heap.describe r.callee))) := by
    unfold refuseCall
    rw [Run.readHeap_bind]
    cases m.heap.describe r.callee <;> rfl
  unfold Machine.requestedCall
  cases hcallee : r.callee with
  | object f =>
    rw [hcallee] at refused
    cases ho : m.heap.object f with
    | error e =>
      refine .inr fun E => ?_
      unfold openCall
      rw [hcallee]
      simp only [Run.readHeap_bind, ho]
      rfl
    | ok o =>
      simp only [openCall_object hcallee ho, hcallee, ho, ok_bind]
      cases hk : o.kind with
      | native n => exact .inl ⟨f, o, n, rfl, ho, hk, fun _ => rfl⟩
      | ordinary => exact .inr fun _ => refused
      | array => exact .inr fun _ => refused
      | closure c =>
        refine .inr fun E => ?_
        show Proc.bind (openClosure f r depth quiet) _ m = _
        simp only [Proc.bind, openClosure_eq_closureCall]
        cases m.closureCall f r <;> rfl
  | _ =>
    refine .inr fun E => ?_
    rw [openCall_other (by simp [hcallee])]
    rw [hcallee] at refused ⊢
    exact refused

/-- **A call for which a frame opens** is one of a closure. -/
theorem openCall_opens {r : CallRequest} {depth : Nat} {quiet : Bool} {m' : Machine}
    (hopens : openCall host E r depth quiet m = .done none m') :
    ∃ c, m.requestedCall r = .ok c ∧ m' = m.opened c depth quiet := by
  obtain ⟨-, -, n, -, -, -, hcall⟩ | hcall := openCall_cases host m r depth quiet
  · rw [hcall, map_eq_pure_bind, Proc.bind_eq] at hopens
    cases hcase : callNative host E n r.receiver r.args m <;> rw [hcase] at hopens <;> cases hopens
  · rw [hcall] at hopens
    cases hc : m.requestedCall r with
    | error e => rw [hc] at hopens; cases hopens
    | ok c =>
      rw [hc] at hopens
      cases hopens
      exact ⟨c, rfl, rfl⟩

/-- Where programs run alone, opening a call takes no engine. -/
theorem openCall_scripted (host : Host) (E : Engine) (hs : m.heap.Scripted) (r : CallRequest) (depth : Nat)
    (quiet : Bool) :
    openCall host E r depth quiet m = m.opening depth quiet none (m.requestedCall r) := by
  obtain ⟨f, o, n, -, ho, hk, -⟩ | hopening := openCall_cases host m r depth quiet
  · have hkind := hs.object ho
    rw [hk] at hkind
    exact hkind.elim
  · exact hopening E

theorem Machine.requestedCall_withFrames (m : Machine) (s : Stack Frame) (a : Option Active)
    (r : CallRequest) : ({ m with frames := s, active := a } : Machine).requestedCall r = m.requestedCall r :=
  rfl

theorem Machine.openFrame_withActive (m : Machine) (a b : Option Active) (task : Task) (info : BranchInfo)
    (depth : Nat) (quiet isCall : Bool) :
    ({ ({ m with active := a } : Machine).openFrame task info depth quiet isCall with active := b } : Machine) =
      ({ m with active := b } : Machine).openFrame task info depth quiet isCall := by
  unfold Machine.openFrame
  cases quiet || info.options.isQuiet <;> rfl

/-- **What a suspended frame gets** takes the heap and the active calls, and no engine. -/
theorem suspend_scripted (hs : m.heap.Scripted) (f : Frame) (c : Suspension) :
    suspend host E f c m = .done () (m.suspended host f c) := by
  rw [suspend_eq]
  cases c with
  | branch r =>
    unfold openChild Machine.suspended Machine.requested
    cases hr : host.branch r with
    | error e => simp only [hr]; rfl
    | ok task =>
      simp only [hr]
      exact congrArg (Outcome.done ()) (Machine.openFrame_withActive { m with frames := m.frames.push f }
        (some ⟨f.depth, f.quiet⟩) m.active task r.info (f.depth + 1) f.quiet false)
  | call r =>
    have hcall := openCall_scripted host E
      (m := { m with frames := m.frames.push f, active := some ⟨f.depth, f.quiet⟩ }) hs r (f.depth + 1) f.quiet
    rw [Machine.requestedCall_withFrames] at hcall
    simp only [openChild, Bind.bind, Proc.bind, Proc.attempt, hcall, Machine.suspended, Machine.requested]
    cases m.requestedCall r with
    | error e => rfl
    | ok o =>
      exact congrArg (Outcome.done ()) (Machine.openFrame_withActive
        { m with frames := m.frames.push f, monitor := { m.monitor with calls := o.calls } }
        (some ⟨f.depth, f.quiet⟩) m.active o.task o.info (f.depth + 1) f.quiet o.isCall)

theorem Held.opened (h : Held a s l m) (o : Opening) (depth : Nat) (quiet : Bool) :
    ∃ g : Frame, Held a (s.push (g.fed none)) l (m.opened o depth quiet) := by
  refine ⟨⟨o.task, o.info, depth, quiet || o.info.options.isQuiet, o.isCall, .start⟩, ?_⟩
  unfold Machine.opened
  refine ⟨by simpa using h.active, ?_, by simpa [Monitor.limits] using h.limits, by simpa using h.heap⟩
  simp [h.frames, Frame.fed]

/-- What a suspended frame leaves: it is given a failure at once, or another frame is open above it. -/
theorem Held.suspended (h : Held a s l m) (host : Host) (f : Frame) (c : Suspension) :
    (∃ e, Held a (s.push (f.fed (some (.error e)))) l (m.suspended host f c)) ∨
      ∃ g : Frame, Held a ((s.push f).push (g.fed none)) l (m.suspended host f c) := by
  unfold Machine.suspended
  cases hc : m.requested host c with
  | error e => exact .inl ⟨e, h.active, by rw [← h.frames], h.limits, h.heap⟩
  | ok o =>
    have hpushed : Held a (s.push f) l { m with frames := m.frames.push f } :=
      ⟨h.active, by rw [← h.frames], h.limits, h.heap⟩
    exact .inr (hpushed.opened o _ _)

/-! ### What running code keeps true -/

/-- Code that the engine runs keeps it true. -/
structure Engine.Keeps (I : Machine → Prop) (E : Engine) : Prop where
  evaluate : ∀ r, Proc.Keeps I (E.evaluate r)
  call : ∀ callee receiver args, Proc.Keeps I (E.call callee receiver args)

/-- **Running code keeps what its work on the heap keeps**, if what it has evaluated and called does. -/
theorem Routine.keeps {I : Machine → Prop} {P : Engine → Run α} (hP : Routine P) (hE : E.Keeps I)
    (hheap : ∀ {β : Type} {p : Proc Heap β}, Heap.Routine ObjectKind.Scripted p → Proc.Keeps I (Run.onHeap p)) :
    Proc.Keeps I (P E) := by
  induction hP with
  | pure v => exact .pure v
  | fail e => exact fun _ h => h
  | onHeap hp => exact hheap hp
  | look f => exact fun _ h => h
  | evaluate r => exact hE.evaluate r
  | call callee receiver args => exact hE.call callee receiver args
  | bind _ _ ihp ihf => exact ihp.bind ihf

/-! ### Running code leaves the frames alone -/

/-- Code that the engine runs inside a task leaves the frames and the limits alone. -/
structure Engine.Holds (E : Engine) : Prop where
  evaluate : ∀ (a : Active) (s : Stack Frame) (l : Monitor) (r : BranchRequest),
    Proc.Keeps (Held (some a) s l) (E.evaluate r)
  call : ∀ (a : Active) (s : Stack Frame) (l : Monitor) (f receiver : Value) (args : List Value),
    Proc.Keeps (Held (some a) s l) (E.call f receiver args)

theorem keeps_held_onHeap {p : Proc Heap α} (hp : Heap.Routine ObjectKind.Scripted p) :
    Proc.Keeps (Held a s l) (Run.onHeap p) := by
  intro m h
  have hs := hp.keeps_scripted m.heap h.heap
  unfold Run.onHeap
  dsimp only
  cases hpm : p m.heap with
  | done v heap => rw [hpm] at hs; exact ⟨h.active, h.frames, h.limits, hs⟩
  | failed e heap => rw [hpm] at hs; exact ⟨h.active, h.frames, h.limits, hs⟩
  | stalled => trivial

/-- **Running code leaves the frames alone**, if what it has evaluated and called does. -/
theorem Routine.keeps_held {P : Engine → Run α} (hP : Routine P) (hE : E.Holds) (a : Active) (s : Stack Frame)
    (l : Monitor) : Proc.Keeps (Held (some a) s l) (P E) :=
  hP.keeps ⟨hE.evaluate a s l, hE.call a s l⟩ keeps_held_onHeap

/-! ### What one boundary does to the stack -/

/-- What a boundary of a frame above `s` makes of the stack, in a drive down to `base`: the frame closed, and
was the last, or its outcome was given to the frame below; or it was suspended and is given an outcome at
once, or another frame is open above it. -/
inductive Restacked (base : Nat) (s : Stack Frame) : Advance → Stack Frame → Prop where
  | finished (o : Except Error Completion) (hs : s.size = base) : Restacked base s (.finished o) s
  | closed {t : Stack Frame} {g : Frame} (o : Except Error Completion) (hs : s = t.push g)
      (ht : base ≤ t.size) : Restacked base s .going (t.push (g.fed (some o)))
  | answered {g : Frame} (o : Except Error Completion) (hg : g.task.Forwards) :
      Restacked base s .going (s.push (g.fed (some o)))
  | asked {g : Frame} (child : Frame) (hg : g.task.Forwards) :
      Restacked base s .going ((s.push g).push (child.fed none))

/-- What a boundary came to: it stalled, or it did one of these things to the stack. -/
def Restacks (base : Nat) (a : Option Active) (s : Stack Frame) (l : Monitor)
    (o : Outcome Machine Advance) : Prop :=
  o = .stalled ∨ ∃ r m' s', o = .done r m' ∧ Restacked base s r s' ∧ Held a s' l m'

theorem restacks_closed (h : Held a s l m) (hbase : base ≤ s.size) (f : Frame) (o : Except Error Completion) :
    Restacks base a s l (m.closed f o base) := by
  unfold Machine.closed
  rw [h.frames]
  have hleft := h.leave f o
  by_cases hsize : s.size = base
  · rw [if_pos hsize]
    exact .inr ⟨_, _, _, rfl, .finished o hsize, hleft⟩
  · rw [if_neg hsize]
    obtain ⟨t, g, rfl⟩ := Stack.exists_push (s := s) (by omega)
    rw [Stack.size_push] at hbase hsize
    refine .inr ⟨_, _, _, rfl, .closed o rfl (by omega), hleft.active, ?_, hleft.limits, hleft.heap⟩
    show (m.leave f o).frames.modifyTop _ = _
    rw [hleft.frames, Stack.modifyTop_push]
    rfl

theorem keeps_held_crossing (i : Option (Except Error Completion)) : Proc.Keeps (Held a s l) (crossing i) := by
  intro m h
  have hcrossed : (m.monitor.crossed i).2.limits = l := (m.monitor.limits_crossed i).trans h.limits
  unfold crossing
  generalize m.monitor.crossed i = crossed at hcrossed
  obtain ⟨r, k⟩ := crossed
  cases r <;> exact ⟨h.active, h.frames, hcrossed, h.heap⟩

theorem Frame.keeps_held_running (f : Frame) {p : Run α} (hp : Proc.Keeps (Held (some ⟨f.depth, f.quiet⟩) s l) p) :
    Proc.Keeps (Held a s l) (f.running p) := by
  intro m h
  have hdone := hp { m with active := some ⟨f.depth, f.quiet⟩ } ⟨rfl, h.frames, h.limits, h.heap⟩
  unfold Frame.running
  cases hrun : p { m with active := some ⟨f.depth, f.quiet⟩ } with
  | stalled => trivial
  | failed e m' => rw [hrun] at hdone; exact ⟨h.active, hdone.frames, hdone.limits, hdone.heap⟩
  | done v m' => rw [hrun] at hdone; exact ⟨h.active, hdone.frames, hdone.limits, hdone.heap⟩

/-- What the task of a frame does leaves the frames alone, if the engine does. -/
theorem Frame.keeps_held_work (hE : E.Holds) (f : Frame) (i : Option (Except Error Completion)) :
    Proc.Keeps (Held a s l) (f.work E i) :=
  (keeps_held_crossing i).bind fun _ => f.keeps_held_running ((f.task.routine_doing i).keeps_held hE _ s l)

/-- What becomes of a frame after its task did something. -/
def Frame.settle (host : Host) (f : Frame) (base : Nat) :
    Outcome Machine (Task × Step) → Outcome Machine Advance
  | .done (_, .finished c) m => m.closed f (.ok c) base
  | .done (t, .suspended c) m => .done .going (m.suspended host { f with task := t, input := .waiting } c)
  | .failed e m => m.closed f (.error e) base
  | .stalled => .stalled

/-- **One boundary of a frame**, where there are no native functions. -/
theorem turn_scripted (host : Host) (hE : E.Holds) (h : Held a s l m) (base : Nat) (f : Frame)
    (i : Option (Except Error Completion)) :
    turn host E base (f.fed i) m = f.settle host base (f.work E i m) := by
  have hwork := f.keeps_held_work hE i m h
  rw [turn_fed]
  cases hw : f.work E i m with
  | stalled => rfl
  | failed e m' => rfl
  | done r m' =>
    rw [hw] at hwork
    obtain ⟨t, step⟩ := r
    cases step with
    | finished c => rfl
    | suspended c =>
      dsimp only
      rw [suspend_scripted hwork.heap]
      rfl

/-- **What one boundary does to the stack.** -/
theorem turn_restacks (host : Host) (hE : E.Holds) (h : Held a s l m) (hbase : base ≤ s.size) (f : Frame) :
    Restacks base a s l (turn host E base f m) := by
  induction f using Frame.fed_cases with
  | fed f i =>
    have hwork := f.keeps_held_work hE i m h
    rw [turn_scripted host hE h]
    cases hw : f.work E i m with
    | stalled => exact .inl rfl
    | failed e m' =>
      rw [hw] at hwork
      exact restacks_closed hwork hbase f _
    | done r m' =>
      rw [hw] at hwork
      obtain ⟨t, step⟩ := r
      cases step with
      | finished c => exact restacks_closed hwork hbase f _
      | suspended c =>
        have hforwards := Frame.forwards_of_work hw
        obtain ⟨e, hheld⟩ | ⟨g, hheld⟩ := hwork.suspended host { f with task := t, input := .waiting } c
        · exact .inr ⟨_, _, _, rfl, .answered _ hforwards, hheld⟩
        · exact .inr ⟨_, _, _, rfl, .asked _ hforwards, hheld⟩
  | fail f e hinput =>
    rw [turn_fail hinput]
    exact restacks_closed h hbase f _
  | waiting f hinput =>
    rw [turn_waiting hinput]
    exact restacks_closed h hbase f _

/-! ### Runs on top of the open frames -/

/-- **A drive takes its own frames off the stack and leaves the others alone.** -/
theorem drive_held (host : Host) (hE : E.Holds) (b : Nat) {f : Frame} (h : Held a (s.push f) l m)
    (hbelow : below.Beneath s) : (drive host E below.size b m).Leaves (Held a below l) := by
  induction b generalizing m s f with
  | zero => trivial
  | succ b ih =>
    have hbase := hbelow.size_le
    rw [drive_succ, advance_eq_turn h.frames hbase]
    obtain hstalled | ⟨r, m', s', hturn, hrestacked, hheld⟩ := turn_restacks host hE h.popped hbase f
    · rw [hstalled]
      trivial
    · rw [hturn]
      cases hrestacked with
      | finished o hs =>
        rw [hbelow.eq_of_size hs]
        cases o <;> exact hheld
      | closed o hs ht =>
        subst hs
        exact ih hheld (hbelow.of_push ht)
      | answered o hg => exact ih hheld hbelow
      | asked child hg => exact ih hheld (hbelow.push _)

theorem callOn_scripted (hs : m.heap.Scripted) (b : Nat) (callee receiver : Value) (args : List Value) :
    host.callOn E b callee receiver args m =
      match m.requestedCall (m.callRequest callee receiver args) with
      | .ok o => (drive host E m.frames.size b (m.opened o m.childContext.1 m.childContext.2)).bind fun c =>
          Proc.ofExcept (completionValue c)
      | .error e => .failed e m := by
  have hcall := openCall_scripted host E hs (m.callRequest callee receiver args)
    m.childContext.1 m.childContext.2
  show Proc.bind (openCall host E (m.callRequest callee receiver args) m.childContext.1 m.childContext.2) _ m = _
  unfold Proc.bind
  rw [hcall]
  cases m.requestedCall (m.callRequest callee receiver args) <;> rfl

/-- **Code that runs inside a task leaves the frames alone.** -/
theorem Host.engine_holds (host : Host) (k : Nat) : (host.engine k).Holds := by
  induction k with
  | zero => exact ⟨fun _ _ _ _ _ _ => trivial, fun _ _ _ _ _ _ _ _ => trivial⟩
  | succ k ih =>
    refine ⟨fun a s l r m h => ?_, fun a s l f receiver args m h => ?_⟩
    · show (host.evaluateOn (host.engine k) k r m).Leaves _
      rw [evaluateOn_eq, h.frames]
      cases host.branch r with
      | error e => exact h
      | ok task =>
        obtain ⟨g, hg⟩ := h.opened ⟨m.monitor.calls, task, r.info, false⟩ m.childContext.1 m.childContext.2
        exact drive_held host ih k hg (List.suffix_refl _)
    · show (host.callOn (host.engine k) k f receiver args m).Leaves _
      rw [callOn_scripted h.heap, h.frames]
      cases ho : m.requestedCall (m.callRequest f receiver args) with
      | error e => exact h
      | ok o =>
        obtain ⟨g, hg⟩ := h.opened o m.childContext.1 m.childContext.2
        refine (drive_held host ih k hg (List.suffix_refl _)).bind fun c m' h' => ?_
        cases completionValue c <;> exact h'

end ScriptCore
