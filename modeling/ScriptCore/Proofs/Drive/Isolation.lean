import ScriptCore.Host.Dispatch
import ScriptCore.Proofs.Drive.Scripted

/-! # Native functions inside tasks

A native function may do much to the machine: it works on the heap, has code evaluated and called, asks for
garbage to be collected, and starts, drives and aborts programs. While a task is running all of this is
harmless to the task: nothing is collected, not even at the boundaries of the code that the native function
calls back, and the root branch is neither started nor driven. In a run natives are entered from tasks alone.
Only a host that calls a native function itself, while no task is running, lets it do otherwise.

* `NativeCode`: what native functions consist of.
* `Isolated`: what two procedures have in common inside a task.
* `NativeCode.isolated`, `turn_isolated`, `Host.engine_isolated`: one step after the other.
* `Host.Regular.natives_isolated`: **native functions are isolated in tasks, and runs enter them there.** -/

namespace ScriptCore

variable {α β : Type} {E E' : Engine} {host : Host} {base : Nat} {m : Machine} {a : Option Active} {n : Nat}

/-! ### Procedures inside a task -/

/-- The frame at `a` is running, if any is, and `n` collections have been made. -/
def Inside (a : Option Active) (n : Nat) (m : Machine) : Prop := m.active = a ∧ m.heap.collections = n

/-- **Inside a task the two procedures do the same**; they collect nothing and leave the task running. -/
def Isolated (p q : Run α) : Prop :=
  ∀ (a : Active) (n : Nat) (m : Machine), Inside (some a) n m → p m = q m ∧ (p m).Leaves (Inside (some a) n)

/-- The procedure leaves the heap alone, and says nothing of which frame is running. -/
def Aside (p : Run α) : Prop := ∀ m, (p m).Leaves fun m' => m'.active = m.active ∧ m'.heap = m.heap

namespace Isolated

theorem refl {p : Run α} (hp : ∀ (a : Active) n, Proc.Keeps (Inside (some a) n) p) : Isolated p p :=
  fun a n m h => ⟨rfl, hp a n m h⟩

theorem onHeap {p : Proc Heap α} (hp : ∀ n, Proc.Keeps (fun h => h.collections = n) p) :
    Isolated (Run.onHeap p) (Run.onHeap p) := by
  refine refl fun a n m h => ?_
  have hkept := hp n m.heap h.2
  unfold Run.onHeap
  dsimp only
  cases hpm : p m.heap with
  | done v heap => rw [hpm] at hkept; exact ⟨h.1, hkept⟩
  | failed e heap => rw [hpm] at hkept; exact ⟨h.1, hkept⟩
  | stalled => trivial

theorem aside {p : Run α} (hp : Aside p) : Isolated p p := by
  refine refl fun a n m h => (hp m).imp fun m' hkept => ⟨hkept.1.trans h.1, ?_⟩
  rw [hkept.2]
  exact h.2

theorem bind {p q : Run α} {f g : α → Run β} (hp : Isolated p q) (hf : ∀ v, Isolated (f v) (g v)) :
    Isolated (p >>= f) (q >>= g) := by
  intro a n m h
  obtain ⟨hpq, hkept⟩ := hp a n m h
  rw [Proc.bind_eq, Proc.bind_eq, ← hpq]
  cases hpm : p m with
  | done v m' => rw [hpm] at hkept; exact hf v a n m' hkept
  | failed e m' => rw [hpm] at hkept; exact ⟨rfl, hkept⟩
  | stalled => exact ⟨rfl, trivial⟩

theorem attempt {p q : Run α} (hp : Isolated p q) : Isolated p.attempt q.attempt := by
  intro a n m h
  obtain ⟨hpq, hkept⟩ := hp a n m h
  unfold Proc.attempt
  rw [← hpq]
  cases hpm : p m with
  | done v m' => rw [hpm] at hkept; exact ⟨rfl, hkept⟩
  | failed e m' => rw [hpm] at hkept; exact ⟨rfl, hkept⟩
  | stalled => exact ⟨rfl, trivial⟩

/-- A procedure that fails inside tasks. -/
theorem refused {p q : Run α} (e : Error) (hp : ∀ m, m.active.isSome = true → p m = .failed e m)
    (hq : ∀ m, m.active.isSome = true → q m = .failed e m) : Isolated p q := by
  intro a n m h
  have hactive : m.active.isSome = true := by rw [h.1]; rfl
  rw [hp m hactive, hq m hactive]
  exact ⟨rfl, h⟩

end Isolated

theorem Aside.pure (v : α) : Aside (Pure.pure v) := fun _ => ⟨rfl, rfl⟩

theorem Aside.ofExcept (r : Except Error α) : Aside (Proc.ofExcept r) := by
  intro m
  cases r <;> exact ⟨rfl, rfl⟩

theorem Aside.readHeap (f : Heap → Except Error α) : Aside (Run.readHeap f) := by
  intro m
  simp only [Run.readHeap, Proc.reads]
  cases f m.heap <;> exact ⟨rfl, rfl⟩

theorem Aside.onMonitor (p : Proc Monitor α) : Aside (Run.onMonitor p) := by
  intro m
  unfold Run.onMonitor
  cases p m.monitor with
  | done v k => exact ⟨rfl, rfl⟩
  | failed e k => exact ⟨rfl, rfl⟩
  | stalled => trivial

theorem Aside.modify {f : Machine → Machine} (hf : ∀ m, (f m).active = m.active ∧ (f m).heap = m.heap) :
    Aside (modify f : Run Unit) := hf

/-- Runs of the two engines inside a task are the same and leave it undisturbed. -/
structure Engine.Isolated (E E' : Engine) : Prop where
  evaluate : ∀ r, ScriptCore.Isolated (E.evaluate r) (E'.evaluate r)
  call : ∀ f receiver args, ScriptCore.Isolated (E.call f receiver args) (E'.call f receiver args)
  start : ∀ r, ScriptCore.Isolated (E.start r) (E'.start r)
  step : ScriptCore.Isolated E.step E'.step
  run : ScriptCore.Isolated E.run E'.run
  execute : ∀ body, ScriptCore.Isolated (E.execute body) (E'.execute body)

/-- **What native functions consist of**: work on the heap that collects nothing, other work that leaves the heap
and the running task alone, what engines offer, and requests to collect garbage; one after the other, and with
failures taken as values. -/
inductive NativeCode : {α : Type} → (Engine → Run α) → Prop where
  | onHeap {α : Type} {p : Proc Heap α} (hp : ∀ n, Proc.Keeps (fun h => h.collections = n) p) :
      NativeCode fun _ => Run.onHeap p
  | aside {α : Type} {p : Run α} (hp : Aside p) : NativeCode fun _ => p
  | evaluate (r : BranchRequest) : NativeCode fun E => E.evaluate r
  | call (f receiver : Value) (args : List Value) : NativeCode fun E => E.call f receiver args
  | start (r : BranchRequest) : NativeCode fun E => E.start r
  | step : NativeCode fun E => E.step
  | run : NativeCode fun E => E.run
  | execute (body : List Stmt) : NativeCode fun E => E.execute body
  | collectGarbage : NativeCode fun _ => collectGarbage
  | bind {α β : Type} {P : Engine → Run α} {F : Engine → α → Run β} (hp : NativeCode P)
      (hf : ∀ v, NativeCode fun E => F E v) : NativeCode fun E => P E >>= F E
  | attempt {α : Type} {P : Engine → Run α} (hp : NativeCode P) : NativeCode fun E => (P E).attempt

theorem collectGarbage_inside (h : m.active.isSome = true) :
    collectGarbage m = .failed (.driverState .collectInsideTask) m := by
  unfold collectGarbage
  rw [if_pos h]

/-- **Native functions do not disturb the task that runs.** -/
theorem NativeCode.isolated {P : Engine → Run α} (hP : NativeCode P) (hE : E.Isolated E') :
    Isolated (P E) (P E') := by
  induction hP with
  | onHeap hp => exact .onHeap hp
  | aside hp => exact .aside hp
  | evaluate r => exact hE.evaluate r
  | call f receiver args => exact hE.call f receiver args
  | start r => exact hE.start r
  | step => exact hE.step
  | run => exact hE.run
  | execute body => exact hE.execute body
  | collectGarbage =>
    exact .refused _ (fun _ h => collectGarbage_inside h) fun _ h => collectGarbage_inside h
  | bind _ _ ihp ihf => exact ihp.bind ihf
  | attempt _ ihp => exact ihp.attempt

/-- Running code is code that a native function may have, too. -/
theorem Routine.nativeCode {P : Engine → Run α} (hP : Routine P) : NativeCode P := by
  induction hP with
  | pure v => exact .aside (.pure v)
  | fail e => exact .aside (.ofExcept (.error e))
  | onHeap hp => exact .onHeap hp.keeps_collections
  | look f => exact .aside fun _ => ⟨rfl, rfl⟩
  | evaluate r => exact .evaluate r
  | call f receiver args => exact .call f receiver args
  | bind _ _ ihp ihf => exact .bind ihp ihf

/-! ### Hosts -/

/-- The two hosts evaluate branches alike, and inside tasks their native functions do the same. -/
structure Host.Isolated (host host' : Host) : Prop where
  branch : host'.branch = host.branch
  native : ∀ {E E' : Engine}, E.Isolated E' → ∀ entry receiver args,
    ScriptCore.Isolated (host.native entry E receiver args) (host'.native entry E' receiver args)

/-- The native functions of the host consist of native code. -/
def Host.Regular (host : Host) : Prop :=
  ∀ entry receiver args, NativeCode fun E => host.native entry E receiver args

theorem Host.Regular.isolated (h : host.Regular) : host.Isolated host :=
  ⟨rfl, fun hE entry receiver args => (h entry receiver args).isolated hE⟩

/-- The host whose native functions do something else where no task is running. -/
def Host.outside (host : Host) (other : String → Engine → Value → List Value → Run Value) : Host :=
  { host with
    native := fun entry E receiver args m =>
      if m.active.isSome then host.native entry E receiver args m else other entry E receiver args m }

theorem Host.Regular.outside (h : host.Regular) (other : String → Engine → Value → List Value → Run Value) :
    host.Isolated (host.outside other) := by
  refine ⟨rfl, fun hE entry receiver args a n m hm => ?_⟩
  have hactive : m.active.isSome = true := by rw [hm.1]; rfl
  show _ = (if m.active.isSome = true then _ else _) ∧ _
  rw [if_pos hactive]
  exact (h entry receiver args).isolated hE a n m hm

/-! ### One boundary -/

section

variable {host' : Host} (hh : host.Isolated host') (hE : E.Isolated E')

/-- What is isolated inside a task collects nothing when a frame runs it, from wherever the frame is driven. -/
theorem Frame.running_isolated {p q : Run α} (f : Frame) (hp : Isolated p q) (h : Inside a n m) :
    f.running p m = f.running q m ∧ (f.running p m).Leaves (Inside a n) := by
  obtain ⟨hsame, hkept⟩ := hp ⟨f.depth, f.quiet⟩ n { m with active := some ⟨f.depth, f.quiet⟩ } ⟨rfl, h.2⟩
  unfold Frame.running
  rw [← hsame]
  cases hdone : p { m with active := some ⟨f.depth, f.quiet⟩ } with
  | done v m' => rw [hdone] at hkept; exact ⟨rfl, h.1, hkept.2⟩
  | failed e m' => rw [hdone] at hkept; exact ⟨rfl, h.1, hkept.2⟩
  | stalled => exact ⟨rfl, trivial⟩

include hE in
theorem Frame.work_isolated (f : Frame) (i : Option (Except Error Completion)) (h : Inside a n m) :
    f.work E i m = f.work E' i m ∧ (f.work E i m).Leaves (Inside a n) := by
  have hdoing : Isolated (f.task.doing E i) (f.task.doing E' i) :=
    (f.task.routine_doing i).nativeCode.isolated hE
  have hcrossing : (crossing i m).Leaves (Inside a n) := by
    unfold crossing
    generalize m.monitor.crossed i = crossed
    obtain ⟨r, k⟩ := crossed
    cases r <;> exact h
  unfold Frame.work
  cases hc : crossing i m with
  | stalled =>
    rw [Proc.bind_stalled hc, Proc.bind_stalled hc]
    exact ⟨rfl, trivial⟩
  | failed e m₁ =>
    rw [hc] at hcrossing
    rw [Proc.bind_failed hc, Proc.bind_failed hc]
    exact ⟨rfl, hcrossing⟩
  | done u m₁ =>
    rw [hc] at hcrossing
    rw [Proc.bind_done hc, Proc.bind_done hc]
    exact f.running_isolated hdoing hcrossing

theorem isolated_enterCall (function : Option String) : Isolated (enterCall function) (enterCall function) :=
  .bind (.aside fun _ => ⟨rfl, rfl⟩) fun _ => .aside (.onMonitor _)

theorem isolated_openClosure (f : ObjectRef) (r : CallRequest) (depth : Nat) (quiet : Bool) :
    Isolated (openClosure f r depth quiet) (openClosure f r depth quiet) := by
  refine .aside fun m => ?_
  rw [openClosure_eq_closureCall]
  cases m.closureCall f r with
  | error e => exact ⟨rfl, rfl⟩
  | ok o => exact ⟨Machine.active_openFrame .., Machine.heap_openFrame ..⟩

include hh hE in
theorem isolated_openCall (r : CallRequest) (depth : Nat) (quiet : Bool) :
    Isolated (openCall host E r depth quiet) (openCall host' E' r depth quiet) := by
  have refused : Isolated (refuseCall r.callee) (refuseCall r.callee) :=
    .bind (.aside (.readHeap _)) fun text => .aside (.ofExcept (.error _))
  cases hcallee : r.callee with
  | object f =>
    rw [hcallee] at refused
    unfold openCall
    rw [hcallee]
    refine .bind (.aside (.readHeap _)) fun o => ?_
    cases o.kind with
    | native n =>
      refine .bind (.bind (isolated_enterCall _) fun _ => .bind (hh.native hE _ _ _).attempt fun result => ?_)
        fun v => .aside (.pure _)
      exact .bind (.aside (.modify fun m => ⟨rfl, rfl⟩)) fun _ => .aside (.ofExcept _)
    | closure c => exact .bind (isolated_openClosure f r depth quiet) fun _ => .aside (.pure _)
    | ordinary => exact refused
    | array => exact refused
  | _ =>
    rw [openCall_other (by simp [hcallee]), openCall_other (by simp [hcallee])]
    exact hcallee ▸ refused

include hh hE in
theorem isolated_openChild (c : Suspension) (depth : Nat) (quiet : Bool) :
    Isolated (openChild host E c depth quiet) (openChild host' E' c depth quiet) := by
  have delivered : ∀ o, Isolated (modify fun m => m.deliver o : Run Unit) (modify fun m => m.deliver o) :=
    fun o => .aside (.modify fun m => ⟨rfl, rfl⟩)
  cases c with
  | branch r =>
    unfold openChild
    dsimp only
    rw [hh.branch]
    cases host.branch r with
    | ok task => exact .aside (.modify fun m => ⟨m.active_openFrame .., m.heap_openFrame ..⟩)
    | error e => exact delivered _
  | call r =>
    refine .bind (isolated_openCall hh hE r depth quiet).attempt fun result => ?_
    cases result with
    | error e => exact delivered _
    | ok v =>
      cases v with
      | none => exact .aside (.pure _)
      | some v => exact delivered _

theorem unfailing_openChild (c : Suspension) (depth : Nat) (quiet : Bool) :
    (openChild host E c depth quiet).Unfailing := by
  have modified : ∀ f : Machine → Machine, (modify f : Run Unit).Unfailing := fun _ _ _ _ h => by cases h
  cases c with
  | branch r =>
    unfold openChild
    dsimp only
    cases host.branch r with
    | ok task => exact modified _
    | error e => exact modified _
  | call r =>
    refine .bind (Proc.unfailing_attempt _) fun result => ?_
    cases result with
    | error e => exact modified _
    | ok v =>
      cases v with
      | none => exact Proc.unfailing_pure _
      | some v => exact modified _

include hh hE in
theorem suspend_isolated (f : Frame) (c : Suspension) (h : Inside a n m) :
    suspend host E f c m = suspend host' E' f c m ∧ (suspend host E f c m).Leaves (Inside a n) := by
  obtain ⟨hsame, hkept⟩ := isolated_openChild hh hE c (f.depth + 1) f.quiet ⟨f.depth, f.quiet⟩ n
    { m with frames := m.frames.push f, active := some ⟨f.depth, f.quiet⟩ } ⟨rfl, h.2⟩
  rw [suspend_eq, suspend_eq, ← hsame]
  cases hopen : openChild host E c (f.depth + 1) f.quiet
    { m with frames := m.frames.push f, active := some ⟨f.depth, f.quiet⟩ } with
  | done v m' => rw [hopen] at hkept; exact ⟨rfl, h.1, hkept.2⟩
  | failed e m' => exact absurd hopen (unfailing_openChild c _ _ _ e m')
  | stalled => exact ⟨rfl, trivial⟩

theorem Inside.closed (h : Inside a n m) (f : Frame) (o : Except Error Completion) (base : Nat) :
    (m.closed f o base).Leaves (Inside a n) := by
  have hleft : Inside a n (m.leave f o) := ⟨by rw [Machine.active_leave, h.1], by rw [Machine.heap_leave, h.2]⟩
  unfold Machine.closed
  split
  · exact hleft
  · exact hleft

include hh hE in
/-- **One boundary is isolated**: it does the same, and collects nothing once the frame is off the stack. -/
theorem turn_isolated (base : Nat) (f : Frame) (h : Inside a n m) :
    turn host E base f m = turn host' E' base f m ∧ (turn host E base f m).Leaves (Inside a n) := by
  induction f using Frame.fed_cases with
  | fed f i =>
    obtain ⟨hsame, hkept⟩ := f.work_isolated hE i h
    rw [turn_fed, turn_fed, ← hsame]
    cases hwork : f.work E i m with
    | stalled => exact ⟨rfl, trivial⟩
    | failed e m' => rw [hwork] at hkept; exact ⟨rfl, hkept.closed f _ base⟩
    | done r m' =>
      rw [hwork] at hkept
      obtain ⟨t, step⟩ := r
      cases step with
      | finished c => exact ⟨rfl, hkept.closed f _ base⟩
      | suspended c =>
        obtain ⟨hsuspend, hleaves⟩ := suspend_isolated hh hE { f with task := t, input := .waiting } c hkept
        dsimp only
        rw [← hsuspend]
        cases hs : suspend host E { f with task := t, input := .waiting } c m' with
        | done u m₁ => rw [hs] at hleaves; exact ⟨rfl, hleaves⟩
        | failed e m₁ => rw [hs] at hleaves; exact ⟨rfl, hleaves⟩
        | stalled => exact ⟨rfl, trivial⟩
  | fail f e hinput =>
    rw [turn_fail hinput, turn_fail hinput]
    exact ⟨rfl, h.closed f _ base⟩
  | waiting f hinput =>
    rw [turn_waiting hinput, turn_waiting hinput]
    exact ⟨rfl, h.closed f _ base⟩

/-! ### Many boundaries -/

theorem advance_noFrame (hm : m.frames.size ≤ base) :
    advance host E base m = .failed (.driverState .noFrame) m := by
  have hget : (get : Run Machine) m = .done m m := rfl
  unfold advance
  refine (Proc.bind_done hget _).trans ?_
  dsimp only
  rw [if_pos hm]
  rfl

include hh hE in
/-- **Drives are the same**, from wherever they are made. -/
theorem advance_same (m : Machine) : advance host E base m = advance host' E' base m := by
  by_cases hsize : m.frames.size ≤ base
  · rw [advance_noFrame hsize, advance_noFrame hsize]
  · obtain ⟨s, f, hm⟩ := Stack.exists_push (s := m.frames) (by omega)
    have hbase : base ≤ s.size := by rw [hm, Stack.size_push] at hsize; omega
    rw [advance_eq_turn hm hbase, advance_eq_turn hm hbase]
    exact (turn_isolated hh hE base f ⟨rfl, rfl⟩).1

include hh hE in
theorem drive_same (b : Nat) (m : Machine) : drive host E base b m = drive host' E' base b m := by
  induction b generalizing m with
  | zero => rfl
  | succ b ih =>
    rw [drive_succ, drive_succ, advance_same hh hE]
    cases advance host' E' base m with
    | done r m' =>
      cases r with
      | going => exact ih m'
      | finished o => rfl
    | failed e m' => rfl
    | stalled => rfl

include hh hE in
theorem driveVisible_same (b : Nat) (m : Machine) :
    driveVisible host E b m = driveVisible host' E' b m := by
  induction b generalizing m with
  | zero => rfl
  | succ b ih =>
    unfold driveVisible
    rw [advance_same hh hE]
    cases advance host' E' 0 m with
    | done r m' =>
      cases r with
      | going => simp only [ih]
      | finished o => rfl
    | failed e m' => rfl
    | stalled => rfl

include hh hE in
/-- A drive inside a task collects nothing. -/
theorem keeps_inside_drive (a : Active) (n b : Nat) :
    Proc.Keeps (Inside (some a) n) (drive host E base b) := by
  intro m h
  induction b generalizing m with
  | zero => trivial
  | succ b ih =>
    rw [drive_succ]
    by_cases hsize : m.frames.size ≤ base
    · rw [advance_noFrame hsize]
      exact h
    · obtain ⟨s, f, hm⟩ := Stack.exists_push (s := m.frames) (by omega)
      have hbase : base ≤ s.size := by rw [hm, Stack.size_push] at hsize; omega
      rw [advance_eq_turn hm hbase, Machine.collected_of_active h.1]
      obtain ⟨-, hkept⟩ := turn_isolated hh hE base f (m := { m with frames := s }) h
      cases hturn : turn host E base f { m with frames := s } with
      | done r m' =>
        rw [hturn] at hkept
        cases r with
        | going => exact ih m' hkept
        | finished o => cases o <;> exact hkept
      | failed e m' => rw [hturn] at hkept; exact hkept
      | stalled => trivial

include hh hE in
theorem isolated_drive (b : Nat) : Isolated (drive host E base b) (drive host' E' base b) :=
  fun a n m h => ⟨drive_same hh hE b m, keeps_inside_drive hh hE a n b m h⟩

/-! ### The ways to run code -/

theorem startRoot_inside (r : BranchRequest) (h : m.active.isSome = true) :
    host.startRoot r m = .failed (.driverState .alreadyRunning) m := by
  have hget : (get : Run Machine) m = .done m m := rfl
  unfold Host.startRoot
  refine (Proc.bind_done hget _).trans ?_
  rw [if_pos (by simp [h])]
  rfl

theorem requireControl_inside (h : m.active.isSome = true) :
    requireControl m = .failed (.driverState .drivenFromInside) m := by
  have hget : (get : Run Machine) m = .done m m := rfl
  unfold requireControl
  refine (Proc.bind_done hget _).trans ?_
  rw [if_pos h]
  rfl

theorem step_inside (k : Nat) (h : m.active.isSome = true) :
    (host.engine (k + 1)).step m = .failed (.driverState .drivenFromInside) m := by
  unfold Host.engine
  simp only [requireControl_inside h]

theorem run_inside (k : Nat) (h : m.active.isSome = true) :
    (host.engine (k + 1)).run m = .failed (.driverState .drivenFromInside) m := by
  unfold Host.engine
  simp only [requireControl_inside h]

include hh in
theorem startRoot_same : host.startRoot = host'.startRoot := by
  unfold Host.startRoot
  rw [hh.branch]

include hh hE in
theorem evaluateOn_same (b : Nat) : host.evaluateOn E b = host'.evaluateOn E' b := by
  funext r m
  rw [evaluateOn_eq, evaluateOn_eq, hh.branch]
  cases host.branch r with
  | error e => rfl
  | ok task => exact drive_same hh hE b _

include hh hE in
theorem isolated_evaluateOn (b : Nat) (r : BranchRequest) :
    Isolated (host.evaluateOn E b r) (host'.evaluateOn E' b r) := by
  intro a n m h
  refine ⟨by rw [evaluateOn_same hh hE], ?_⟩
  rw [evaluateOn_eq]
  cases host.branch r with
  | error e => exact h
  | ok task =>
    exact keeps_inside_drive hh hE a n b _
      ⟨by rw [Machine.active_openFrame, h.1], by rw [Machine.heap_openFrame, h.2]⟩

/-- How a call goes on once it was opened. -/
def Host.answered (host : Host) (E : Engine) (base b : Nat) : Option Value → Run Value
  | some v => pure v
  | none => do completionValue (← drive host E base b)

theorem callOn_eq_answered (b : Nat) (callee receiver : Value) (args : List Value) (m : Machine) :
    host.callOn E b callee receiver args m =
      (openCall host E (m.callRequest callee receiver args) m.childContext.1 m.childContext.2 >>=
        host.answered E m.frames.size b) m := by
  show Proc.bind (openCall host E (m.callRequest callee receiver args) m.childContext.1 m.childContext.2) _ m = _
  rw [Proc.bind_eq]
  unfold Proc.bind Outcome.bind
  cases openCall host E (m.callRequest callee receiver args) m.childContext.1 m.childContext.2 m with
  | done v m' => cases v <;> rfl
  | failed e m' => rfl
  | stalled => rfl

include hh hE in
theorem answered_same (base b : Nat) : host.answered E base b = host'.answered E' base b := by
  funext v
  cases v with
  | some v => rfl
  | none =>
    unfold Host.answered
    rw [show drive host E base b = drive host' E' base b from funext (drive_same hh hE b)]

include hh hE in
theorem isolated_callOn (b : Nat) (callee receiver : Value) (args : List Value) :
    Isolated (host.callOn E b callee receiver args) (host'.callOn E' b callee receiver args) := by
  intro a n m h
  rw [callOn_eq_answered, callOn_eq_answered]
  refine Isolated.bind (isolated_openCall hh hE _ _ _) (fun v => ?_) a n m h
  cases v with
  | some v => exact .aside (.pure v)
  | none => exact .bind (isolated_drive hh hE b) fun c => .aside (.ofExcept _)

include hh hE in
theorem executeOn_same (b : Nat) : host.executeOn E b = host'.executeOn E' b := by
  funext body
  unfold Host.executeOn
  rw [evaluateOn_same hh hE, startRoot_same hh,
    show drive host E 0 b = drive host' E' 0 b from funext (drive_same hh hE b)]

theorem executeOn_inside (b : Nat) (body : List Stmt) (h : m.active.isSome = true) :
    host.executeOn E b body m =
      (host.evaluateOn E b { BranchRequest.program body m.realm.globalScope with
        options := { returnLastValue := true } } >>= fun c => Proc.ofExcept (completionValue c)) m := by
  have hrealm : Run.realm m = .done m.realm m := rfl
  have hget : (get : Run Machine) m = .done m m := rfl
  unfold Host.executeOn
  refine (Proc.bind_done hrealm _).trans ?_
  refine (Proc.bind_done hget _).trans ?_
  rw [if_pos h]
  rfl

include hh hE in
theorem isolated_executeOn (b : Nat) (body : List Stmt) :
    Isolated (host.executeOn E b body) (host'.executeOn E' b body) := by
  intro a n m h
  have hactive : m.active.isSome = true := by rw [h.1]; rfl
  rw [executeOn_inside b body hactive, executeOn_inside b body hactive]
  exact Isolated.bind (isolated_evaluateOn hh hE b _) (fun c => .aside (.ofExcept _)) a n m h

include hh in
/-- **What runs inside a task is isolated.** -/
theorem Host.engine_isolated (k : Nat) : (host.engine k).Isolated (host'.engine k) := by
  have start : ∀ r, ScriptCore.Isolated (host.startRoot r) (host'.startRoot r) := fun r =>
    .refused _ (fun _ h => startRoot_inside r h) fun _ h => startRoot_inside r h
  induction k with
  | zero =>
    have stalls : ∀ α : Type, ScriptCore.Isolated (Proc.stall : Run α) Proc.stall :=
      fun _ _ _ _ _ => ⟨rfl, trivial⟩
    exact ⟨fun _ => stalls _, fun _ _ _ => stalls _, start, stalls _, stalls _, fun _ => stalls _⟩
  | succ k ih =>
    refine ⟨isolated_evaluateOn hh ih k, isolated_callOn hh ih k, start, ?_, ?_, isolated_executeOn hh ih k⟩
    · exact .refused _ (fun m h => step_inside k h) fun m h => step_inside k h
    · exact .refused _ (fun m h => run_inside k h) fun m h => run_inside k h

/-! ### Calls that the host makes -/

def ObjectKind.isNative : ObjectKind → Bool
  | .native _ => true
  | .ordinary | .array | .closure _ => false

/-- The value is a native function. -/
def Heap.isNative (h : Heap) : Value → Bool
  | .object f =>
    match h.object f with
    | .ok o => o.kind.isNative
    | .error _ => false
  | _ => false

/-- Opening a call of anything but a native function takes neither the host nor the engine. -/
theorem openCall_same (host host' : Host) (E E' : Engine) {r : CallRequest}
    (hr : m.heap.isNative r.callee = false) (depth : Nat) (quiet : Bool) :
    openCall host E r depth quiet m = openCall host' E' r depth quiet m := by
  cases hcallee : r.callee with
  | object f =>
    cases ho : m.heap.object f with
    | error e =>
      unfold openCall
      rw [hcallee]
      simp only [Run.readHeap_bind, ho]
    | ok o =>
      have hkind : o.kind.isNative = false := by
        rw [hcallee] at hr
        simpa only [Heap.isNative, ho] using hr
      rw [openCall_object hcallee ho, openCall_object hcallee ho]
      cases hk : o.kind with
      | native n => rw [hk] at hkind; cases hkind
      | _ => rfl
  | _ => rw [openCall_other (by simp [hcallee]), openCall_other (by simp [hcallee])]

include hh hE in
theorem callOn_same (b : Nat) {callee : Value} (hm : m.active.isSome = true ∨ m.heap.isNative callee = false)
    (receiver : Value) (args : List Value) :
    host.callOn E b callee receiver args m = host'.callOn E' b callee receiver args m := by
  obtain hactive | hnative := hm
  · obtain ⟨a, ha⟩ := Option.isSome_iff_exists.mp hactive
    exact (isolated_callOn hh hE b callee receiver args a _ m ⟨ha, rfl⟩).1
  · rw [callOn_eq_answered, callOn_eq_answered, Proc.bind_eq, Proc.bind_eq, answered_same hh hE]
    rw [openCall_same host host' E E' (r := m.callRequest callee receiver args) hnative]

end

/-! ### The isolation of native functions -/

/-- The machine refuses to collect garbage, and to start, step and run the root branch. -/
def Machine.Shut (host : Host) (m : Machine) : Prop :=
  collectGarbage m = .failed (.driverState .collectInsideTask) m ∧
    ∀ k, (∀ r, (host.engine k).start r m = .failed (.driverState .alreadyRunning) m) ∧
      (host.engine (k + 1)).step m = .failed (.driverState .drivenFromInside) m ∧
      (host.engine (k + 1)).run m = .failed (.driverState .drivenFromInside) m

theorem Machine.shut_inside (h : m.active.isSome = true) : m.Shut host := by
  refine ⟨collectGarbage_inside h, fun k => ⟨fun r => ?_, step_inside k h, run_inside k h⟩⟩
  cases k <;> exact startRoot_inside r h

/-- **Native functions are isolated in tasks, and runs enter them there.** Let the native functions of a host
consist of native code.

* Every run that the host makes is the same whatever native functions do where no task is running, so none is
  entered there; only a native function that the host itself calls, while no task is running, is.
* Inside a task, whatever part of its code a native function has run: nothing was collected, the task is
  running, and the machine refuses to collect garbage and to start, step and run the root branch. -/
theorem Host.Regular.natives_isolated (h : host.Regular) :
    (∀ other k m,
      (∀ r, (host.engine k).evaluate r m = ((host.outside other).engine k).evaluate r m) ∧
      (host.engine k).step m = ((host.outside other).engine k).step m ∧
      (host.engine k).run m = ((host.outside other).engine k).run m ∧
      (∀ body, (host.engine k).execute body m = ((host.outside other).engine k).execute body m) ∧
      ∀ callee receiver args, (m.active.isSome = true ∨ m.heap.isNative callee = false) →
        (host.engine k).call callee receiver args m =
          ((host.outside other).engine k).call callee receiver args m) ∧
    ∀ {α : Type} {P : Engine → Run α}, NativeCode P → ∀ k a m, m.active = some a →
      (P (host.engine k) m).Leaves fun m' =>
        m'.active = some a ∧ m'.heap.collections = m.heap.collections ∧ m'.Shut host := by
  refine ⟨fun other k m => ?_, fun {α P} hP k a m hm => ?_⟩
  · have hh := h.outside other
    cases k with
    | zero => exact ⟨fun _ => rfl, rfl, rfl, fun _ => rfl, fun _ _ _ _ => rfl⟩
    | succ k =>
      have hE := Host.engine_isolated hh k
      refine ⟨fun r => congrFun (congrFun (evaluateOn_same hh hE k) r) m, ?_, ?_,
        fun body => congrFun (congrFun (executeOn_same hh hE k) body) m,
        fun callee receiver args hcallee => callOn_same hh hE k hcallee receiver args⟩
      · unfold Host.engine
        dsimp only
        cases requireControl m with
        | done u m' => exact driveVisible_same hh hE k m'
        | failed e m' => rfl
        | stalled => rfl
      · unfold Host.engine
        dsimp only
        cases requireControl m with
        | done u m' => exact drive_same hh hE k m'
        | failed e m' => rfl
        | stalled => rfl
  · have hkept := (hP.isolated (Host.engine_isolated h.isolated k) a m.heap.collections m ⟨hm, rfl⟩).2
    exact hkept.imp fun m' hinside => ⟨hinside.1, hinside.2, Machine.shut_inside (by rw [hinside.1]; rfl)⟩

/-! ### The plain host -/

namespace Natives

theorem routine_toLossyString (v : Value) : Routine fun E => toLossyString E v :=
  .bind (routine_toStringRef v) fun _ => .bind (.readHeap _) fun _ => .pure _

theorem routine_requireObject (v : Value) : Routine fun _ => requireObject v := by
  cases v with
  | object o => exact .pure o
  | _ => exact .fail _

theorem routine_keyStrings {K : ObjectKind → Prop} : ∀ keys : List PropertyKey, Heap.Routine K (keyStrings keys)
  | [] => .pure _
  | key :: keys => .bind (Heap.routine_keyToString key) fun _ => .bind (routine_keyStrings keys) fun _ => .pure _

theorem routine_keys (inherited : Bool) (args : List Value) : Routine fun _ => keys inherited args :=
  .bind .realm fun _ => .bind (.readHeap _) fun ks => .bind (.onHeap (routine_keyStrings ks)) fun strings =>
    .bind (routine_allocArray strings) fun _ => .pure _

theorem routine_field (desc : Value) (name : String) : Routine fun E => field E desc name :=
  .bind .keyOfName fun key => .bind (routine_hasProperty desc key) fun _ =>
    .ite (.bind (routine_getProperty desc key) fun _ => .pure _) (.pure _)

theorem routine_flag (desc : Value) (name : String) : Routine fun E => flag E desc name := by
  refine .bind (routine_field desc name) fun found => ?_
  cases found with
  | some v => exact .bind (.readHeap _) fun _ => .pure _
  | none => exact .pure _

theorem routine_readPatch (desc : Value) : Routine fun E => readPatch E desc :=
  .bind (routine_flag desc _) fun _ => .bind (routine_flag desc _) fun _ => .bind (routine_field desc _) fun _ =>
    .bind (routine_flag desc _) fun _ => .bind (routine_field desc _) fun _ =>
      .bind (routine_field desc _) fun _ => .pure _

theorem routine_defineProperty (o : ObjectRef) (key : PropertyKey) (p : Patch) :
    Routine fun _ => defineProperty o key p := by
  refine .bind (.ofExcept _) fun _ => .bind (.readHeap _) fun cell => ?_
  cases cell with
  | some c =>
    exact .bind (.readHeap _) fun d => .ite (.pure _)
      (.bind .putCell fun _ => .bind (routine_noteKey o key) fun _ => .pure _)
  | none =>
    exact .bind (.readHeap _) fun _ => .ite
      (.bind (.discard .define) fun _ => .bind (routine_noteKey o key) fun _ => .pure _) (.pure _)

theorem routine_define (args : List Value) : Routine fun E => define E args :=
  .bind (routine_requireObject _) fun o => .bind (routine_toPropertyKey _) fun key =>
    .bind (routine_readPatch _) fun patch => .bind (routine_defineProperty o key patch) fun _ => .pure _

theorem routine_proto (args : List Value) : Routine fun _ => proto args := by
  refine .bind (routine_requireObject _) fun o => .bind (.readHeap _) fun p => ?_
  cases p <;> exact .pure _

theorem routine_setProto (args : List Value) : Routine fun _ => setProto args :=
  .bind (routine_requireObject _) fun o => .bind (.onHeap (Heap.routine_setPrototype o _)) fun _ => .pure _

theorem routine_sealObject (args : List Value) : Routine fun _ => sealObject args :=
  .bind (routine_requireObject _) fun o => .bind (.onHeap (Heap.routine_preventExtensions o)) fun _ => .pure _

theorem routine_bind (args : List Value) : Routine fun _ => Natives.bind args :=
  .bind (routine_requireObject _) fun _ => .bind
    (.bind (.readHeap _) fun _ => routine_allocClosureObject _) fun _ => .pure _

theorem routine_fail (args : List Value) : Routine fun E => fail E args :=
  .bind (routine_toLossyString _) fun _ => .bind (routine_toLossyString _) fun _ => .fail _

/-- Does something, and then answers. -/
theorem nativeCode_answer {P : Engine → Run α} (hP : NativeCode P) (v : β) :
    NativeCode fun E => do discard (P E); return v := by
  simp only [Proc.discard_bind]
  exact .bind hP fun _ => .aside (.pure v)

theorem aside_abort (e : Error) : Aside (abort e) := by
  intro m
  unfold abort
  split
  · exact ⟨rfl, rfl⟩
  · exact ⟨rfl, rfl⟩

theorem nativeCode_tryApply (args : List Value) : NativeCode fun E => tryApply E args := by
  refine .bind (.attempt (.call _ _ _)) fun result => ?_
  cases result with
  | ok v => exact .aside (.pure v)
  | error e => exact (routine_errorToValue e).nativeCode

theorem nativeCode_execute (stash : List (String × List Stmt)) (args : List Value) :
    NativeCode fun E => execute stash E args := by
  refine .bind (routine_toLossyString _).nativeCode fun name => ?_
  cases stash.lookup name with
  | some program => exact .execute program
  | none => exact .aside (.ofExcept (.error _))

end Natives

/-- The native functions of the plain host consist of native code. -/
theorem Host.regular_plain (stash : List (String × List Stmt)) : (Host.plain stash).Regular := by
  intro entry receiver args
  show NativeCode fun E => Natives.run stash entry E receiver args
  -- The engine plays no part in which function it is, so the cases are those for any engine.
  fun_cases Natives.run stash entry ((Host.plain stash).engine 0) receiver args
  all_goals simp only [Natives.run]
  · exact .bind (.aside (.modify fun _ => ⟨rfl, rfl⟩)) fun _ => .aside (.pure _)
  · exact .aside (.pure _)
  · exact .aside (.pure _)
  · exact .aside (.pure _)
  · exact .bind (routine_toStringRef _).nativeCode fun _ => .aside (.pure _)
  · exact .bind (routine_toNumber _).nativeCode fun _ => .aside (.pure _)
  · exact .bind (.aside fun _ => ⟨rfl, rfl⟩) fun _ => .bind Routine.intern.nativeCode fun _ => .aside (.pure _)
  · exact .call _ _ _
  · exact Natives.nativeCode_tryApply args
  · exact (Natives.routine_fail args).nativeCode
  · exact .bind .collectGarbage fun _ => .aside (.pure _)
  · exact Natives.nativeCode_answer .step _
  · exact Natives.nativeCode_answer .run _
  · exact .bind (.aside fun _ => ⟨rfl, rfl⟩) fun _ => .bind (.start _) fun _ => .aside (.pure _)
  · exact .bind (Natives.routine_toLossyString _).nativeCode fun _ =>
      .bind (.aside (Natives.aside_abort _)) fun _ => .aside (.pure _)
  · exact .bind (.aside fun m => Natives.aside_abort _ m) fun _ => .aside (.pure _)
  · exact .bind (.aside (.modify fun _ => ⟨rfl, rfl⟩)) fun _ => .aside (.pure _)
  · exact .bind (.aside fun _ => ⟨rfl, rfl⟩) fun _ => .aside (.pure _)
  · exact .bind (.aside fun _ => ⟨rfl, rfl⟩) fun _ => .aside (.pure _)
  · exact Natives.nativeCode_execute stash args
  · exact (Natives.routine_keys false args).nativeCode
  · exact (Natives.routine_keys true args).nativeCode
  · exact (Natives.routine_define args).nativeCode
  · exact (Natives.routine_proto args).nativeCode
  · exact (Natives.routine_setProto args).nativeCode
  · exact (Natives.routine_sealObject args).nativeCode
  · exact (Natives.routine_bind args).nativeCode
  · exact .aside (.ofExcept (.error _))

/-! ### A native function that collects garbage -/

/-- A new machine and its function that collects garbage. -/
def collectorMachine : Option (ObjectRef × Machine) :=
  (Machine.create .standard {} 0 true).toOption.bind fun m => (allocNative ⟨"gc", 0, "gc"⟩ m).done?

/-- Inside a task, a native function calls the one that collects garbage and takes its failure for a value: nothing
is collected, and the machine goes on refusing. -/
theorem Host.Regular.natives_isolated_collector : (Host.plain []).Regular ∧
    ∃ (m m' : Machine) (f v : Value), m.active = some ⟨0, false⟩ ∧ m.heap.isNative f = true ∧
      Natives.run [] "tryApply" ((Host.plain []).engine 1) .undefined [f] m = .done v m' ∧
      m'.active = some ⟨0, false⟩ ∧ m'.heap.collections = m.heap.collections ∧ m'.Shut (Host.plain []) := by
  have hregular := Host.regular_plain []
  have hruns : (collectorMachine.bind fun x =>
      (Natives.run [] "tryApply" ((Host.plain []).engine 1) .undefined [.object x.1]
        { x.2 with active := some ⟨0, false⟩ }).done?.map fun _ => x.2.heap.isNative (.object x.1)) =
        some true := by decide +kernel
  obtain ⟨x, -, hruns⟩ := Option.bind_eq_some_iff.mp hruns
  obtain ⟨y, hy, hnative⟩ := Option.map_eq_some_iff.mp hruns
  have hdone := Outcome.eq_done hy
  have hleaves := (Host.Regular.natives_isolated hregular).2 (hregular "tryApply" .undefined [.object x.1]) 1
    ⟨0, false⟩ { x.2 with active := some ⟨0, false⟩ } rfl
  have hleft : (Natives.run [] "tryApply" ((Host.plain []).engine 1) .undefined [.object x.1]
      { x.2 with active := some ⟨0, false⟩ }).Leaves _ := hleaves
  rw [hdone] at hleft
  exact ⟨hregular, { x.2 with active := some ⟨0, false⟩ }, y.2, .object x.1, y.1, rfl, hnative, hdone, hleft⟩

/-- **A native function that the host calls itself is not isolated**: it collects garbage while it runs. -/
theorem native_call_collects : ∃ (m m' : Machine) (f : Value), m.active = none ∧ m.heap.isNative f = true ∧
    ((Host.plain []).engine 1).call f .undefined [] m = .done .undefined m' ∧
    m'.heap.collections = m.heap.collections + 1 := by
  have hruns : (collectorMachine.bind fun x =>
      (((Host.plain []).engine 1).call (.object x.1) .undefined [] x.2).done?.map fun y =>
        decide (y.1 = .undefined ∧ y.2.heap.collections = x.2.heap.collections + 1) &&
          (x.2.active.isNone && x.2.heap.isNative (.object x.1))) = some true := by decide +kernel
  obtain ⟨x, -, hruns⟩ := Option.bind_eq_some_iff.mp hruns
  obtain ⟨y, hy, hresult⟩ := Option.map_eq_some_iff.mp hruns
  rw [Bool.and_eq_true, Bool.and_eq_true, decide_eq_true_eq, Option.isNone_iff_eq_none] at hresult
  obtain ⟨⟨hvalue, hcollections⟩, hactive, hnative⟩ := hresult
  have hdone := Outcome.eq_done hy
  rw [hvalue] at hdone
  exact ⟨x.2, y.2, .object x.1, hactive, hnative, hdone, hcollections⟩

end ScriptCore
