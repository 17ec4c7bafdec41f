import ScriptCore.Proofs.Calls.Enclosing
import ScriptCore.Proofs.Drive.Isolation

/-! # What becomes of the open tasks

A boundary makes something of the innermost task and leaves those beneath: the task is over, or goes on with an answer,
or what it asks for is open inside it. Where a machine stands on a trail of boundaries and pauses depends on the trail:
each list of statements that is open was entered at a boundary on the way, and each statement that is open is a part of
the code in which it is open.

Here nothing is known of the code that runs but that it leaves the tasks beneath it. Whether there are native functions,
and what they do to the heap, does not matter.

* `Task.code?`, `Task.InPlace`: the statements that a task runs, and tasks that are open where they belong.
* `Machine.Contained`: what is asked of the code that runs at a boundary.
* `Machine.Turned`, `Machine.Contained.turned`: **what a boundary makes of the open tasks.**
* `Machine.Trail`: machines that come about by boundaries and pauses.
* `Machine.Trail.inPlace`: **each statement is a part of the code in which it is open.**
* `Machine.Trail.entered`: **each list that is open was entered**, and has been open since. -/

namespace ScriptCore

open Proc (Yields)

variable {host : Host} {E : Engine} {base n k bound : Nat} {m m' : Machine} {f : Frame} {fs : List Frame}
  {t u : Task} {ts : List Task} {s : ScopeRef} {list : List Stmt} {o : Except Error Completion}
  {i : Option (Except Error Completion)} {run : Nat → Machine}

/-! ### The code of a task -/

namespace Task

/-- The statements that a task runs, and the scope in which it does. -/
def code? : Task → Option (BranchNode × ScopeRef)
  | .statements t => some (.statements t.statements, t.scope)
  | .statement t => some (.statement t.stmt, t.scope)
  | .expression _ | .invocation _ | .settled _ => none

/-- **The task may be open inside the other**: if it is a statement, it is a part of the code of the other, which runs
in the same scope. -/
def InPlace (t u : Task) : Prop :=
  ∀ a s, t.code? = some (.statement a, s) → ∃ node, u.code? = some (node, s) ∧ node.Part (.statement a)

theorem inPlace_of_none (ht : t.code? = none) : t.InPlace u := by
  intro a s hcode
  rw [ht] at hcode
  cases hcode

theorem InPlace.congr {t' u' : Task} (h : t.InPlace u) (ht : t'.code? = t.code?) (hu : u'.code? = u.code?) :
    t'.InPlace u' := by
  unfold InPlace
  rw [ht, hu]
  exact h

theorem code?_ofRequest {r : BranchRequest} {b : Stmt} :
    (ofRequest r).code? = some (.statement b, s) ↔ r.node = .statement b ∧ r.scope = s := by
  obtain ⟨kind, node, scope, options⟩ := r
  cases node <;> simp [ofRequest, code?]

/-- **The task goes on with its code**, and what it asks for may be open inside it. -/
structure Resumes (t : Task) (r : Task × Step) : Prop where
  code : r.1.code? = t.code?
  asks : r.2.Asks fun q => (ofRequest q).InPlace r.1

end Task

/-- A list asks for its statements. -/
theorem StatementsTask.Asked.resumes {t : StatementsTask} {r : StatementsTask × Step} (hr : t.Asked r) :
    Task.Resumes (.statements t) (.statements r.1, r.2) := by
  have hcode : (Task.statements r.1).code? = (Task.statements t).code? := by
    simp only [Task.code?, hr.statements, hr.scope]
  refine ⟨hcode, fun q hq b s hb => ?_⟩
  obtain ⟨hnode, rfl⟩ := Task.code?_ofRequest.mp hb
  obtain ⟨hscope, hpart⟩ := hr.asks q hq
  exact ⟨_, by rw [hcode, hscope]; rfl, hnode ▸ hpart⟩

/-- A statement asks for its parts. -/
theorem StatementTask.Asked.resumes {t : StatementTask} {r : StatementTask × Step} (hr : t.Asked r) :
    Task.Resumes (.statement t) (.statement r.1, r.2) := by
  have hcode : (Task.statement r.1).code? = (Task.statement t).code? := by
    simp only [Task.code?, hr.stmt, hr.scope]
  refine ⟨hcode, fun q hq b s hb => ?_⟩
  obtain ⟨hnode, rfl⟩ := Task.code?_ofRequest.mp hb
  obtain ⟨hscope, hpart⟩ := hr.asks q hq
  exact ⟨_, by rw [hcode, hscope]; rfl, hnode ▸ hpart⟩

/-- A handler is a list of statements. -/
theorem StatementTask.Handles.resumes {t : StatementTask} {r : StatementTask × Step} (hr : t.Handles r) :
    Task.Resumes (.statement t) (.statement r.1, r.2) := by
  refine ⟨by simp only [Task.code?, hr.stmt, hr.scope], fun q hq b s hb => ?_⟩
  obtain ⟨hnode, -⟩ := Task.code?_ofRequest.mp hb
  obtain ⟨handler, hhandler, -⟩ := hr.asks q hq
  cases hhandler.symm.trans hnode

/-- **A statement that goes on** does so with its code. -/
theorem StatementTask.yields_resumes (t : StatementTask) (o : Except Error Completion) :
    Yields (fun r => Task.Resumes (.statement t) (.statement r.1, r.2)) (t.resume E o) := by
  by_cases hblock : t.state = .tryBlock
  · have hhandle : ∀ {block param handler e}, t.stmt = .tryCatch block param handler →
        Yields (fun r => Task.Resumes (.statement t) (.statement r.1, r.2)) (t.handle param handler e) := fun hstmt =>
      (handles_handle hstmt _).imp fun _ hr => hr.resumes
    unfold resume
    rw [hblock]
    cases hstmt : t.stmt with
    | tryCatch block param handler =>
      dsimp only
      cases o with
      | error e => exact hhandle hstmt
      | ok c =>
        cases c with
        | thrown v => exact hhandle hstmt
        | _ => exact .pure (asked_finish t _).resumes
    | _ => exact .fail _
  · exact (yields_asked hblock o).imp fun _ hr => hr.resumes

/-- A call asks for its body, which is a list of statements, or for expressions. -/
theorem InvocationTask.Asked.resumes {t t' : InvocationTask} {r : InvocationTask × Step} (hr : t'.Asked r) :
    Task.Resumes (.invocation t) (.invocation r.1, r.2) := by
  refine ⟨rfl, fun q hq b s hb => ?_⟩
  obtain ⟨hnode, -⟩ := Task.code?_ofRequest.mp hb
  rcases hr.asks q hq with ⟨e, he⟩ | ⟨-, -, list, -, hlist⟩
  · cases he.symm.trans hnode
  · cases hlist.symm.trans hnode

/-- **A task goes on with its code.** -/
theorem Task.yields_doing (t : Task) (hrest : ∀ l, t = .statements l → l.rest <:+ l.statements)
    (i : Option (Except Error Completion)) : (t.doing E i).Yields t.Resumes := by
  cases t with
  | statements t =>
    have hready := hrest t rfl
    cases i with
    | none => exact .map ((t.yields_start hready).imp fun _ hr => hr.resumes)
    | some o => exact .map ((t.yields_resume hready o).imp fun _ hr => hr.resumes)
  | statement t =>
    cases i with
    | none => exact .pure t.asked_start.resumes
    | some o => exact .map (t.yields_resumes o)
  | expression t =>
    have hplain : ∀ {r : ExpressionTask × Step}, ExpressionTask.Plain r.2 →
        Task.Resumes (.expression t) (.expression r.1, r.2) := fun hr => by
      refine ⟨rfl, fun q hq b s hb => ?_⟩
      obtain ⟨e, he⟩ := hr q hq
      cases he.symm.trans (Task.code?_ofRequest.mp hb).1
    cases i with
    | none => exact .map ((ExpressionTask.plain_start.within t).imp fun _ => hplain)
    | some o => exact .map (((ExpressionTask.plain_resume o).within t).imp fun _ => hplain)
  | invocation t =>
    cases i with
    | none => exact .ite (.map (t.yields_begin.imp fun _ ⟨_, hr⟩ => hr.resumes)) (.fail _)
    | some o => exact .map ((t.yields_goOn o).imp fun _ hr => hr.resumes)
  | settled o =>
    cases o with
    | ok c => exact .pure ⟨rfl, .finished c⟩
    | error e => exact .fail e

/-! ### What a boundary makes of the open tasks -/

/-- What opening a call leaves on top of the tasks `ts`: a task that runs no statements, or none. -/
def Outcome.OpensOn (ts : List Task) : Outcome Machine (Option Value) → Prop
  | .done none m => ∃ t, t.code? = none ∧ m.tasks = t :: ts
  | .done (some _) m | .failed _ m => m.tasks = ts
  | .stalled => True

namespace Machine

/-- A closure that is called runs no statements itself. -/
theorem opensOn_opening (m : Machine) (r : CallRequest) (depth : Nat) (quiet : Bool) :
    (m.opening depth quiet none (m.requestedCall r)).OpensOn m.tasks := by
  cases hc : m.requestedCall r with
  | error e => exact rfl
  | ok c =>
    obtain ⟨g, cl, -, -, htask, -⟩ := requestedCall_ok hc
    exact ⟨c.task, htask ▸ rfl, tasks_push (frames_openFrame ..)⟩

/-- The frames are given other things, and no task changes. -/
@[simp] theorem tasks_deliver (m : Machine) (o : Except Error Completion) : (m.deliver o).tasks = m.tasks := by
  show (m.frames.items.modifyHead _).map _ = m.frames.items.map _
  cases m.frames.items <;> rfl

@[simp] theorem tasks_leave (m : Machine) (f : Frame) (o : Except Error Completion) :
    (m.leave f o).tasks = m.tasks := by
  rw [tasks, frames_leave, tasks]

theorem tasks_closed (hrun : (m.closed f o base).state? = some m') : m'.tasks = m.tasks := by
  unfold closed at hrun
  split_ifs at hrun <;> cases hrun
  · exact m.tasks_leave f o
  · rw [tasks_deliver, tasks_leave]

/-- The innermost frame above the base has not started, or was made to fail before it did. -/
def Unstarted (base : Nat) (m : Machine) : Prop :=
  ∃ f fs, m.frames.above base = f :: fs ∧ (f.input = .start ∨ ∃ e, f.input = .fail e)

theorem unstarted_of_frames {st : Stack Frame} (hframes : m.frames = st.push f) (hbase : base ≤ st.size)
    (hinput : f.input = .start) : m.Unstarted base :=
  ⟨f, _, by rw [hframes, Stack.above_push hbase], .inl hinput⟩

/-- **What a boundary has made of the open tasks**, of which that of `f` was the innermost and `ts` were beneath. -/
inductive Turned (base : Nat) (f : Frame) (ts : List Task) (m : Machine) : Prop where
  /-- The innermost one is over. -/
  | closed (hm : m.tasksAbove base = ts)
  /-- The innermost one goes on with an answer to what it asked for. -/
  | answered {u : Task} (hgoes : ∀ e, f.input ≠ .fail e) (hu : u.code? = f.task.code?)
      (hm : m.tasksAbove base = u :: ts)
  /-- What the innermost one asks for is open inside it. -/
  | asked {u child : Task} (hgoes : ∀ e, f.input ≠ .fail e) (hu : u.code? = f.task.code?) (hchild : child.InPlace u)
      (hnew : child.code? = none ∨ m.Unstarted base) (hm : m.tasksAbove base = child :: u :: ts)

/-- **The code that runs at the next boundary leaves the tasks beneath it**: that of the innermost task, and that of a
native function that it calls. -/
structure Contained (host : Host) (bound base : Nat) (m : Machine) : Prop where
  ready : ∀ t ts, m.tasksAbove base = .statements t :: ts → t.rest <:+ t.statements
  work : ∀ {st : Stack Frame} {f : Frame} {i : Option (Except Error Completion)}, m.frames = st.push (f.fed i) →
    base ≤ st.size → (f.work (host.engine bound) i { m.collected with frames := st }).Leaves fun m' =>
      m'.tasks = st.items.map (·.task)
  opens : ∀ {st : Stack Frame} {f : Frame} {i : Option (Except Error Completion)} {t : Task} {q : CallRequest}
    {m₁ : Machine}, m.frames = st.push (f.fed i) → base ≤ st.size →
      f.work (host.engine bound) i { m.collected with frames := st } = .done (t, .suspended (.call q)) m₁ →
        (openCall host (host.engine bound) q (f.depth + 1) f.quiet
          { m₁ with frames := m₁.frames.push { f with task := t, input := .waiting }
                    active := some ⟨f.depth, f.quiet⟩ }).OpensOn (t :: st.items.map (·.task))

namespace Contained

/-- **What a suspended task asks for** is open inside it, or it has its answer. -/
theorem suspended (hhost : host.BySyntax) (hc : m.Contained host bound base) {st : Stack Frame} {c : Suspension}
    {m₁ m₂ : Machine} (hframes : m.frames = st.push (f.fed i)) (hbase : base ≤ st.size)
    (hts : st.items.map (·.task) = ts)
    (hdone : f.work (host.engine bound) i { m.collected with frames := st } = .done (t, .suspended c) m₁)
    (ht : f.task.Resumes (t, .suspended c))
    (hrun : (suspend host (host.engine bound) { f with task := t, input := .waiting } c m₁).state? = some m₂) :
    m₂.Turned base (f.fed i) (ts.take (ts.length - base)) := by
  have hwork := hc.work hframes hbase
  rw [hdone, hts] at hwork
  have hheight : base ≤ ts.length := by rwa [← hts, List.length_map, ← st.size_eq]
  have hgoes : ∀ e, (f.fed i).input ≠ .fail e := fun e => by cases i <;> nofun
  have hcode : t.code? = (f.fed i).task.code? := ht.code.trans (congrArg Task.code? (f.task_fed i).symm)
  have hanswered : ∀ {m₃ : Machine} {o : Except Error Completion}, m₃.tasks = t :: ts →
      Turned base (f.fed i) (ts.take (ts.length - base)) { m₃.deliver o with active := m₁.active } := fun {m₃ o} h =>
    .answered hgoes hcode (tasksAbove_append (l := [t]) ((m₃.tasks_deliver o).trans h) hheight)
  cases c with
  | branch q =>
    rw [suspend_branch hhost] at hrun
    cases hrun
    have hsize : base ≤ (m₁.frames.push { f with task := t, input := .waiting }).size := by
      rw [Stack.size_push, ← size_tasks, hwork]
      exact hheight.trans (Nat.le_succ _)
    refine .asked hgoes hcode (ht.asks q rfl) (.inr (unstarted_of_frames (frames_openFrame ..) hsize rfl)) ?_
    refine tasksAbove_append (l := [Task.ofRequest q, t]) ?_ hheight
    exact (tasks_push (frames_openFrame ..)).trans (congrArg (Task.ofRequest q :: t :: ·) hwork)
  | call q =>
    have hopens := hc.opens hframes hbase hdone
    rw [hts] at hopens
    rw [suspend_eq] at hrun
    simp only [openChild, Bind.bind, Proc.bind, Proc.attempt] at hrun
    generalize openCall host (host.engine bound) q (f.depth + 1) f.quiet
      { m₁ with frames := m₁.frames.push { f with task := t, input := .waiting }
                active := some ⟨f.depth, f.quiet⟩ } = x at hopens hrun
    rcases x with ⟨v, m₃⟩ | ⟨e, m₃⟩ | _
    · cases v with
      | some v => cases hrun; exact hanswered hopens
      | none =>
        cases hrun
        obtain ⟨u, hu, htasks⟩ := hopens
        exact .asked hgoes hcode (Task.inPlace_of_none hu) (.inl hu)
          (tasksAbove_append (m := { m₃ with active := m₁.active }) (l := [u, t]) htasks hheight)
    · cases hrun; exact hanswered hopens
    · cases hrun

/-- **What a boundary makes of the open tasks.** -/
theorem turned (hhost : host.BySyntax) (hc : m.Contained host bound base) (hsize : base < m.frames.size)
    (hrun : (advance host (host.engine bound) base m).state? = some m') :
    ∃ f fs, m.frames.above base = f :: fs ∧ m'.Turned base f (fs.map (·.task)) := by
  obtain ⟨st, f, hframes, hbase⟩ := Stack.exists_push_of_lt hsize
  generalize hts : st.items.map (·.task) = ts
  have hheight : base ≤ ts.length := by rwa [← hts, List.length_map, ← st.size_eq]
  have habove : m.frames.above base = f :: st.above base := by rw [hframes, Stack.above_push hbase]
  refine ⟨f, _, habove, ?_⟩
  have hbeneath : (st.above base).map (·.task) = ts.take (ts.length - base) := by
    rw [Stack.above, List.map_take, hts, ← hts, List.length_map, st.size_eq]
  rw [hbeneath]
  have hclosed : ∀ (m₁ : Machine) {g : Frame} {o : Except Error Completion}, m₁.tasks = ts →
      (m₁.closed g o base).state? = some m' → m'.Turned base f (ts.take (ts.length - base)) := fun _ _ _ h hrun =>
    .closed (tasksAbove_append (l := []) ((tasks_closed hrun).trans h) hheight)
  rw [advance_eq_turn hframes hbase] at hrun
  induction f using Frame.fed_cases with
  | fed f i =>
    have hwork := hc.work hframes hbase
    have hyields : (f.work (host.engine bound) i).Yields f.task.Resumes := .bind fun _ =>
      Frame.yields_running (f.task.yields_doing (fun u hu => hc.ready u _ (by
        rw [tasksAbove, habove, List.map_cons, Frame.task_fed, hu])) i)
    rw [turn_fed] at hrun
    cases hdone : f.work (host.engine bound) i { m.collected with frames := st } with
    | stalled => rw [hdone] at hrun; cases hrun
    | failed e m₁ =>
      rw [hdone] at hrun hwork
      exact hclosed _ (hwork.trans hts) hrun
    | done x m₁ =>
      rw [hdone] at hrun hwork
      obtain ⟨t, step⟩ := x
      cases step with
      | finished c => exact hclosed _ (hwork.trans hts) hrun
      | suspended c =>
        refine hc.suspended hhost hframes hbase hts hdone (hyields _ _ _ hdone) ?_
        dsimp only at hrun
        rw [← hrun]
        cases suspend host (host.engine bound) { f with task := t, input := .waiting } c m₁ <;> rfl
  | fail f e hinput =>
    rw [turn_fail hinput] at hrun
    exact hclosed { m.collected with frames := st } hts hrun
  | waiting f hinput =>
    rw [turn_waiting hinput] at hrun
    exact hclosed { m.collected with frames := st } hts hrun

end Contained

/-! ### Trails -/

/-- **What comes after a machine**: the innermost frame is driven over one boundary, or the open tasks stay, and nothing
starts. -/
inductive Proceeds (host : Host) (base : Nat) (m m' : Machine) : Prop where
  | crossed (bound : Nat) (hsize : base < m.frames.size)
      (hrun : (advance host (host.engine bound) base m).state? = some m')
  | paused (htasks : m'.tasksAbove base = m.tasksAbove base) (hwaits : m.Unstarted base → m'.Unstarted base)

/-- Aborting leaves the frames above the base, or makes the innermost of them fail if it has not started. -/
theorem abort_above {e : Error} (hrun : (abort e m).state? = some m') :
    m'.frames.above base = m.frames.above base ∨
    ∃ f fs, m.frames.above base = f :: fs ∧ m'.frames.above base = { f with input := f.input.aborted e } :: fs := by
  unfold abort at hrun
  by_cases hempty : m.frames.isEmpty = true
  · rw [if_pos hempty] at hrun
    cases hrun
    exact .inl rfl
  rw [if_neg hempty] at hrun
  cases hrun
  obtain ⟨s, f, hframes⟩ := Stack.exists_push (s := m.frames) (by
    rw [m.frames.size_eq]
    exact List.length_pos_of_ne_nil fun hnil => hempty (List.isEmpty_iff.mpr hnil))
  dsimp only
  rw [hframes, Stack.modifyTop_push]
  by_cases hbase : base ≤ s.size
  · rw [Stack.above_push hbase, Stack.above_push hbase]
    exact .inr ⟨f, _, rfl, rfl⟩
  · rw [Stack.above_eq_nil (by rw [Stack.size_push]; omega), Stack.above_eq_nil (by rw [Stack.size_push]; omega)]
    exact .inl rfl

/-- While the frames above the base stay, nothing starts. -/
theorem Proceeds.of_above (habove : m'.frames.above base = m.frames.above base) : m.Proceeds host base m' :=
  .paused (congrArg (List.map Frame.task) habove) fun ⟨f, fs, hold, hinput⟩ => ⟨f, fs, habove.trans hold, hinput⟩

theorem proceeds_aborted {e : Error} (hrun : (abort e m).state? = some m') : m.Proceeds host base m' := by
  rcases abort_above hrun with hsame | ⟨f, fs, hold, hnew⟩
  · exact .of_above hsame
  refine .paused (by rw [tasksAbove, tasksAbove, hold, hnew, List.map_cons, List.map_cons]) ?_
  rintro ⟨g, gs, htop, hinput⟩
  cases hold.symm.trans htop
  refine ⟨_, fs, hnew, .inr ⟨e, ?_⟩⟩
  rcases hinput with hinput | ⟨e', hinput⟩ <;> simp only [hinput, Input.aborted]

theorem proceeds_collected (hrun : (collectGarbage m).state? = some m') : m.Proceeds host base m' := by
  refine .of_above ?_
  unfold collectGarbage at hrun
  split_ifs at hrun <;> cases hrun <;> rfl

theorem proceeds_crossed (bound : Nat) (hrun : (advance host (host.engine bound) base m).state? = some m') :
    m.Proceeds host base m' := by
  by_cases hsize : base < m.frames.size
  · exact .crossed bound hsize hrun
  · rw [advance_noFrame (Nat.le_of_not_lt hsize)] at hrun
    cases hrun
    exact .of_above rfl

/-- **A trail of machines**, from one on which at most one frame is open above the base, and has not started. Code that
runs on the way leaves the tasks beneath it. -/
structure Trail (host : Host) (base : Nat) (run : Nat → Machine) (n : Nat) : Prop where
  fresh : ∀ f fs, (run 0).frames.above base = f :: fs → f.input = .start ∧ fs = []
  contained : ∀ i < n, ∀ bound, (run i).Contained host bound base
  proceeds : ∀ i < n, (run i).Proceeds host base (run (i + 1))

/-- The list of statements is open in the scope, above `n` other tasks. -/
def OpenAt (m : Machine) (base n : Nat) (list : List Stmt) (s : ScopeRef) : Prop :=
  ∃ t ts, t :: ts <:+ m.tasksAbove base ∧ ts.length = n ∧ t.code? = some (.statements list, s)

/-- **The list of statements is entered**, above `n` other tasks: its frame, which had not started, is driven over its
first boundary. -/
def Enters (host : Host) (base : Nat) (m m' : Machine) (n : Nat) (list : List Stmt) (s : ScopeRef) : Prop :=
  ∃ f fs bound, m.frames.above base = f :: fs ∧ f.input = .start ∧ fs.length = n ∧
    f.task.code? = some (.statements list, s) ∧ (advance host (host.engine bound) base m).state? = some m'

namespace Trail

theorem upTo (htrail : Trail host base run n) (hk : k ≤ n) : Trail host base run k :=
  ⟨htrail.fresh, fun i hi => htrail.contained i (hi.trans_le hk), fun i hi => htrail.proceeds i (hi.trans_le hk)⟩

/-- The first machine of a trail has at most one open task, which has not started. -/
theorem begins (htrail : Trail host base run n) (hopen : (run 0).tasksAbove base = t :: ts) :
    ts = [] ∧ (run 0).Unstarted base := by
  obtain ⟨f, fs, habove, -, rfl⟩ := List.map_eq_cons_iff.mp hopen
  obtain ⟨hstart, rfl⟩ := htrail.fresh f fs habove
  exact ⟨rfl, f, [], habove, .inl hstart⟩

/-- The innermost task may be exchanged for one with the same code. -/
theorem inPlace_exchange (hcode : u.code? = t.code?) (hchain : (t :: ts).IsChain Task.InPlace) :
    (u :: ts).IsChain Task.InPlace := by
  cases ts with
  | nil => exact .singleton u
  | cons x ts =>
    rw [List.isChain_cons_cons] at hchain ⊢
    exact ⟨hchain.1.congr hcode rfl, hchain.2⟩

/-- **Each statement is a part of the code in which it is open.** -/
theorem inPlace (hhost : host.BySyntax) (htrail : Trail host base run n) :
    ((run n).tasksAbove base).IsChain Task.InPlace := by
  induction n with
  | zero =>
    cases hopen : (run 0).tasksAbove base with
    | nil => exact .nil
    | cons t ts =>
      obtain ⟨rfl, -⟩ := htrail.begins hopen
      exact .singleton t
  | succ n ih =>
    have hchain := ih (htrail.upTo n.le_succ)
    rcases htrail.proceeds n n.lt_succ_self with ⟨bound, hsize, hrun⟩ | ⟨htasks, -⟩
    · obtain ⟨f, fs, habove, hturned⟩ := (htrail.contained n n.lt_succ_self bound).turned hhost hsize hrun
      rw [tasksAbove, habove, List.map_cons] at hchain
      cases hturned with
      | closed hm =>
        rw [hm]
        exact hchain.tail
      | answered _ hu hm =>
        rw [hm]
        exact inPlace_exchange hu hchain
      | asked _ hu hchild _ hm =>
        rw [hm, List.isChain_cons_cons]
        exact ⟨hchild, inPlace_exchange hu hchain⟩
    · rw [htasks]
      exact hchain

/-- The list was entered at a boundary before `n`, and has been open since. -/
def Entered (host : Host) (base : Nat) (run : Nat → Machine) (n height : Nat) (list : List Stmt) (s : ScopeRef) :
    Prop :=
  ∃ i < n, (run i).Enters host base (run (i + 1)) height list s ∧
    ∀ k, i < k → k ≤ n → (run k).OpenAt base height list s

theorem Entered.next {height : Nat} (he : Entered host base run n height list s)
    (hopen : (run (n + 1)).OpenAt base height list s) : Entered host base run (n + 1) height list s := by
  obtain ⟨i, hi, henters, hsince⟩ := he
  refine ⟨i, by omega, henters, fun k hik hk => ?_⟩
  rcases Nat.le_succ_iff.mp hk with hk | rfl
  · exact hsince k hik hk
  · exact hopen

/-- **Each task that runs the list in the scope has entered it**, but for an innermost one that has not started. -/
def AllEntered (host : Host) (base : Nat) (run : Nat → Machine) (n : Nat) (list : List Stmt) (s : ScopeRef) : Prop :=
  ∀ t ts, t :: ts <:+ (run n).tasksAbove base → t.code? = some (.statements list, s) →
    ((run n).tasksAbove base = t :: ts ∧ (run n).Unstarted base) ∨ Entered host base run n ts.length list s

namespace AllEntered

variable (he : AllEntered host base run n list s)
include he

/-- What was open beneath the innermost task was entered before. -/
theorem beneath {x : Task} {rest : List Task} (hold : (run n).tasksAbove base = x :: rest) (ht : t :: ts <:+ rest)
    (hcode : t.code? = some (.statements list, s)) (hnew : t :: ts <:+ (run (n + 1)).tasksAbove base) :
    Entered host base run (n + 1) ts.length list s := by
  rcases he t ts (hold ▸ ht.trans (List.suffix_cons x rest)) hcode with ⟨htop, -⟩ | hentered
  · have hlength := ht.length_le
    rw [(List.cons.inj (hold.symm.trans htop)).2, List.length_cons] at hlength
    omega
  · exact hentered.next ⟨t, ts, hnew, rfl, hcode⟩

/-- The innermost task enters its list when it is driven over its first boundary. -/
theorem driven (hold : (run n).frames.above base = f :: fs) (hgoes : ∀ e, f.input ≠ .fail e)
    (hrun : (advance host (host.engine bound) base (run n)).state? = some (run (n + 1)))
    (hu : u.code? = f.task.code?) (hnew : u :: fs.map (·.task) <:+ (run (n + 1)).tasksAbove base)
    (hcode : u.code? = some (.statements list, s)) :
    Entered host base run (n + 1) (fs.map Frame.task).length list s := by
  have hopen : (run (n + 1)).OpenAt base (fs.map Frame.task).length list s := ⟨u, _, hnew, rfl, hcode⟩
  have hbefore : (run n).tasksAbove base = f.task :: fs.map (·.task) := by rw [tasksAbove, hold, List.map_cons]
  rcases he _ _ ⟨[], hbefore.symm⟩ (hu ▸ hcode) with ⟨-, g, gs, htop, hinput⟩ | hentered
  · cases hold.symm.trans htop
    have hstart := hinput.resolve_right fun hfail => hgoes _ hfail.choose_spec
    refine ⟨n, n.lt_succ_self, ⟨f, fs, bound, hold, hstart, (List.length_map _).symm, hu ▸ hcode, hrun⟩,
      fun k hnk hk => ?_⟩
    obtain rfl : k = n + 1 := by omega
    exact hopen
  · exact hentered.next hopen

/-- A boundary enters at most the list of the innermost task. -/
theorem turned (hold : (run n).frames.above base = f :: fs)
    (hrun : (advance host (host.engine bound) base (run n)).state? = some (run (n + 1)))
    (hturned : (run (n + 1)).Turned base f (fs.map (·.task))) : AllEntered host base run (n + 1) list s := by
  have hbefore : (run n).tasksAbove base = f.task :: fs.map (·.task) := by rw [tasksAbove, hold, List.map_cons]
  intro t ts ht hcode
  have hin := ht
  cases hturned with
  | closed hm =>
    rw [hm] at hin
    exact .inr (he.beneath hbefore hin hcode ht)
  | answered hgoes hu hm =>
    right
    rw [hm] at hin
    rcases List.suffix_cons_iff.mp hin with heq | hbelow
    · cases heq
      exact he.driven hold hgoes hrun hu ht hcode
    · exact he.beneath hbefore hbelow hcode ht
  | asked hgoes hu _ hnew hm =>
    rw [hm] at hin
    rcases List.suffix_cons_iff.mp hin with heq | hbelow
    · cases heq
      refine .inl ⟨hm, hnew.resolve_left fun hnone => ?_⟩
      cases hnone.symm.trans hcode
    right
    rcases List.suffix_cons_iff.mp hbelow with heq | hbelow
    · cases heq
      exact he.driven hold hgoes hrun hu ht hcode
    · exact he.beneath hbefore hbelow hcode ht

/-- Nothing is entered while the open tasks stay. -/
theorem paused (htasks : (run (n + 1)).tasksAbove base = (run n).tasksAbove base)
    (hwaits : (run n).Unstarted base → (run (n + 1)).Unstarted base) : AllEntered host base run (n + 1) list s := by
  intro t ts ht hcode
  rcases he t ts (htasks ▸ ht) hcode with ⟨htop, hinput⟩ | hentered
  · exact .inl ⟨htasks.trans htop, hwaits hinput⟩
  · exact .inr (hentered.next ⟨t, ts, ht, rfl, hcode⟩)

end AllEntered

/-- **Each list that is open was entered**, and has been open since; but the innermost task may be one that has not
started. -/
theorem entered (hhost : host.BySyntax) (htrail : Trail host base run n) : AllEntered host base run n list s := by
  induction n with
  | zero =>
    intro t ts ht hcode
    cases hopen : (run 0).tasksAbove base with
    | nil =>
      rw [hopen] at ht
      cases List.suffix_nil.mp ht
    | cons x rest =>
      obtain ⟨rfl, hfresh⟩ := htrail.begins hopen
      rw [hopen] at ht
      rcases List.suffix_cons_iff.mp ht with heq | hnil
      · cases heq
        exact .inl ⟨rfl, hfresh⟩
      · cases List.suffix_nil.mp hnil
  | succ n ih =>
    have he := ih (htrail.upTo n.le_succ)
    rcases htrail.proceeds n n.lt_succ_self with ⟨bound, hsize, hrun⟩ | ⟨htasks, hwaits⟩
    · obtain ⟨f, fs, hold, hturned⟩ := (htrail.contained n n.lt_succ_self bound).turned hhost hsize hrun
      exact he.turned hold hrun hturned
    · exact he.paused htasks hwaits

end Trail

end Machine

end ScriptCore
