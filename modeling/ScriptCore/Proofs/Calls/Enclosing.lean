import ScriptCore.Proofs.Calls.Collecting

/-! # Open code inside open code

What is open inside a task declares no variable for which the task does not provide: a list of statements and a
statement declare it themselves, and a call declares it in its scope before it asks for its body. The scope is the
same all the way out to the call, but for the handlers of `try` statements, each of which runs in a scope inside that
of the statement.

* `Task.Declares`, `Task.Encloses`: the variables of a task, and those for which it provides.
* `Heap.Nested`: **a stack of tasks, each inside the next.**
* `Task.works_continues`: a task stays what it is, and what it asks for is inside it.
* `Heap.Nested.next`, `Heap.Nested.shrunk`: what acts and collections leave of the nesting.
* `turn_nests`: **one boundary keeps the open tasks nested.** -/

namespace ScriptCore

open Heap (Persists scope_eq_ok)
open Proc (within Yields)

variable {α τ : Type} {h h' : Heap} {S : Setting} {own : Handle → Prop} {w w' : World} {E : Engine} {s : ScopeRef}
  {name : String} {P : Handle → Prop} {o : Except Error Completion} {host : Host} {base : Nat} {m m' : Machine}
  {f : Frame} {a : Option Active} {frames : Stack Frame} {l : Monitor}

/-! ### What tasks declare and provide for -/

namespace Task

/-- The scope in which a task evaluates. -/
def scope? : Task → Option ScopeRef
  | .statements t => some t.scope
  | .statement t => some t.scope
  | .expression t => some t.scope
  | .invocation t => t.scope
  | .settled _ => none

/-- The names that a task declares as variables. -/
def vars : Task → List String
  | .statements t => variablesOfList t.statements
  | .statement t => t.stmt.variables
  | .expression _ | .invocation _ | .settled _ => []

/-- The task declares the name as a variable, and evaluates in the scope. -/
def Declares (t : Task) (s : ScopeRef) (name : String) : Prop := t.scope? = some s ∧ name ∈ t.vars

/-- **The task provides for the name in the scope**: what is open inside it may declare the name there. -/
def Encloses (h : Heap) (s : ScopeRef) (name : String) : Task → Prop
  | .statements t => s = t.scope ∧ name ∈ variablesOfList t.statements
  | .statement t => name ∈ t.stmt.variables ∧ (s = t.scope ∨ t.state = .tryHandler ∧ h.Inside s t.scope)
  | .invocation t => t.state = .bodyEvaluating ∧ t.scope = some s ∧ name ∈ t.closure.function.vars
  | .expression _ | .settled _ => False

/-- The task may be open inside the other. -/
def Within (h : Heap) (t u : Task) : Prop := ∀ s name, t.Declares s name → u.Encloses h s name

/-- What is still to run was there from the beginning, and the scope of a call declares the variables of the body,
unless a scope is bound to the closure. -/
def Ready (h : Heap) : Task → Prop
  | .statements t => t.rest <:+ t.statements
  | .invocation t => t.closure.boundScope = none → t.Furnished h
  | .statement _ | .expression _ | .settled _ => True

variable {t u : Task}

theorem Declares.mem_handles (ht : t.Declares s name) : s.handle ∈ t.handles := by
  obtain ⟨hs, hname⟩ := ht
  cases t with
  | statements t => cases hs; exact List.mem_cons_self ..
  | statement t => cases hs; exact List.mem_cons_self ..
  | _ => cases hname

theorem Encloses.persists (hu : u.Encloses h s name) (hp : Persists P h h') (hP : P s.handle) :
    u.Encloses h' s name := by
  cases u with
  | statement u => exact ⟨hu.1, hu.2.imp_right fun hh => ⟨hh.1, hp.inside hh.2 hP⟩⟩
  | _ => exact hu

theorem Within.persists (htu : t.Within h u) (hp : Persists P h h') (hP : ∀ x ∈ t.handles, P x) : t.Within h' u :=
  fun s name ht => (htu s name ht).persists hp (hP _ ht.mem_handles)

theorem declares_ofRequest {q : BranchRequest} :
    (ofRequest q).Declares s name ↔ q.scope = s ∧ name ∈ q.node.variables := by
  obtain ⟨kind, node, scope, options⟩ := q
  cases node <;> exact and_congr_left fun _ => ⟨Option.some.inj, congrArg some⟩

/-- What declares no variable may be open inside anything. -/
theorem within_of_vars (ht : t.vars = []) : t.Within h u := fun _ _ hd =>
  absurd (ht ▸ hd.2) List.not_mem_nil

theorem vars_ofRequest (q : BranchRequest) : (ofRequest q).vars = q.node.variables := by
  obtain ⟨kind, node, scope, options⟩ := q
  cases node <;> rfl

/-- A task that has not started is ready. -/
theorem ready_ofRequest (q : BranchRequest) : (ofRequest q).Ready h := by
  obtain ⟨kind, node, scope, options⟩ := q
  cases node with
  | statements list => exact List.suffix_refl list
  | _ => trivial

theorem ready_ofCall (f : ObjectRef) (cl : Closure) (r : CallRequest) :
    (Task.invocation (.ofRequest f cl r)).Ready h := by
  rintro - (⟨i, hi⟩ | hbody)
  · cases hi
  · cases hbody

theorem Ready.next (ht : t.Ready w.heap) (hw : w.Lawful S) (hacts : Acts S own w w') : t.Ready w'.heap := by
  cases t with
  | invocation t => exact fun hfree => InvocationTask.Furnished.next (ht hfree) hw hacts
  | _ => exact ht

end Task

/-- **What a scope declares it declares still**, if it is left. -/
theorem Heap.Declares.shrunk (hd : h.Declares s name) (hs : h.Shrinks h') (hx : h.Retains h' s.handle) :
    h'.Declares s name := by
  obtain ⟨sc, key, c, hsc, hparent, hspells, hr⟩ := hd
  have hsc' := hx _ (scope_eq_ok.mp hsc)
  have hr' := Heap.Shrinks.refers_of hr (hs.closed _ _ hsc' _ (List.mem_cons_self ..))
  exact ⟨sc, key, c, scope_eq_ok.mpr hsc', hparent, hs.persists.spells hspells (hs.retains_of_refers hr').2, hr'⟩

theorem Task.Ready.shrunk {t : Task} (ht : t.Ready h) (hs : h.Shrinks h') (hP : ∀ x ∈ t.handles, h.Retains h' x) :
    t.Ready h' := by
  cases t with
  | invocation t =>
    intro hfree hwaits
    obtain ⟨s, hscope, hvars⟩ := ht hfree hwaits
    have hmem : s.handle ∈ t.handles := by simp [InvocationTask.handles, hscope]
    exact ⟨s, hscope, fun name hname => (hvars name hname).shrunk hs (hP _ hmem)⟩
  | _ => exact ht

/-! ### Stacks of tasks -/

/-- **Each task is open inside the next**, and all can go on. -/
def Heap.Nested (h : Heap) : List Task → Prop
  | [] => True
  | t :: ts => t.Ready h ∧ (∀ u ∈ ts.head?, t.Within h u) ∧ h.Nested ts

namespace Heap.Nested

variable {t u : Task} {ts : List Task}

theorem tail (hn : h.Nested (t :: ts)) : h.Nested ts := hn.2.2

/-- The task on top is exchanged for one that declares no more. -/
theorem exchange (hn : h.Nested (t :: ts)) (hu : ∀ s name, u.Declares s name → t.Declares s name)
    (hready : u.Ready h) : h.Nested (u :: ts) :=
  ⟨hready, fun v hv s name hd => hn.2.1 v hv s name (hu s name hd), hn.2.2⟩

/-- **Acts leave the nesting as it is.** -/
theorem next (hn : w.heap.Nested ts) (hw : w.Lawful S) (hacts : Acts S own w w') : w'.heap.Nested ts := by
  induction ts with
  | nil => trivial
  | cons t ts ih =>
    exact ⟨hn.1.next hw hacts, fun u hu => (hn.2.1 u hu).persists hacts.stays fun _ _ => trivial, ih hn.2.2⟩

/-- **So do collections**, if the handles of the tasks are left. -/
theorem shrunk (hn : h.Nested ts) (hs : h.Shrinks h') (hP : ∀ t ∈ ts, ∀ x ∈ t.handles, h.Retains h' x) :
    h'.Nested ts := by
  induction ts with
  | nil => trivial
  | cons t ts ih =>
    have ht := hP t (List.mem_cons_self ..)
    exact ⟨hn.1.shrunk hs ht, fun u hu => (hn.2.1 u hu).persists hs.persists ht,
      ih hn.2.2 fun u hu => hP u (List.mem_cons_of_mem _ hu)⟩

end Heap.Nested

/-! ### What tasks come to -/

namespace Task

/-- **The task stays what it is**, and the branch that it asks for is open inside it. -/
structure Continues (h : Heap) (t : Task) (r : Task × Step) : Prop where
  declares : ∀ s name, r.1.Declares s name → t.Declares s name
  ready : r.1.Ready h
  asks : r.2.Asks fun q => (ofRequest q).Within h r.1

end Task

theorem StatementsTask.Asked.continues {t : StatementsTask} {r : StatementsTask × Step} (hr : t.Asked r) (h : Heap) :
    Task.Continues h (.statements t) (.statements r.1, r.2) := by
  refine ⟨fun s name hd => ?_, ?_, fun q hq s name hd => ?_⟩
  · exact ⟨(congrArg some hr.scope).symm.trans hd.1, show name ∈ variablesOfList _ from hr.statements ▸ hd.2⟩
  · show r.1.rest <:+ r.1.statements
    rw [hr.statements]
    exact hr.rest
  · obtain ⟨rfl, hname⟩ := Task.declares_ofRequest.mp hd
    obtain ⟨hscope, hpart⟩ := hr.asks q hq
    exact ⟨hscope.trans hr.scope.symm, hr.statements ▸ hpart.variables_subset hname⟩

namespace StatementTask

variable {t : StatementTask} {r : StatementTask × Step}

theorem declares_of (hstmt : r.1.stmt = t.stmt) (hscope : r.1.scope = t.scope) :
    ∀ s name, (Task.statement r.1).Declares s name → (Task.statement t).Declares s name := fun _ name hd =>
  ⟨(congrArg some hscope).symm.trans hd.1, show name ∈ t.stmt.variables from hstmt ▸ hd.2⟩

theorem Asked.continues (hr : t.Asked r) (h : Heap) : Task.Continues h (.statement t) (.statement r.1, r.2) := by
  refine ⟨declares_of hr.stmt hr.scope, trivial, fun q hq s name hd => ?_⟩
  obtain ⟨rfl, hname⟩ := Task.declares_ofRequest.mp hd
  obtain ⟨hscope, hpart⟩ := hr.asks q hq
  exact ⟨hr.stmt ▸ hpart.variables_subset hname, .inl (hscope.trans hr.scope.symm)⟩

/-- A handler runs in a scope inside that of the statement. -/
theorem Handles.continues (hr : t.Handles r) (hinside : r.2.Asks fun q => h.Inside q.scope t.scope) :
    Task.Continues h (.statement t) (.statement r.1, r.2) := by
  refine ⟨declares_of hr.stmt hr.scope, trivial, fun q hq s name hd => ?_⟩
  obtain ⟨rfl, hname⟩ := Task.declares_ofRequest.mp hd
  obtain ⟨list, hlist, hpart⟩ := hr.asks q hq
  refine ⟨hr.stmt ▸ hpart.variables_subset (hlist ▸ hname), .inr ⟨hr.state, ?_⟩⟩
  rw [hr.scope]
  exact hinside q hq

/-- **A statement that goes on.** -/
theorem works_continues (hE : E.Fair S) (ht : t.Proper S w) (ho : w.Outputs S o) :
    Works S own w (t.resume E o) fun w' r => Task.Continues w'.heap (.statement t) (.statement r.1, r.2) := by
  by_cases hblock : t.state = .tryBlock
  · have hhandle : ∀ {block param handler e}, t.stmt = .tryCatch block param handler → e.Public S.realm w.heap →
        Works S own w (t.handle param handler e) fun w' r =>
          Task.Continues w'.heap (.statement t) (.statement r.1, r.2) := fun hstmt he =>
      ((works_handle ht _ _ he).yields (handles_handle hstmt _)).imp
        fun _ _ _ _ hr => hr.2.continues hr.1.2
    unfold resume
    rw [hblock]
    cases hstmt : t.stmt with
    | tryCatch block param handler =>
      dsimp only
      cases o with
      | error e => exact hhandle hstmt ho
      | ok c =>
        cases c with
        | thrown v => exact hhandle (e := .throw v) hstmt fun _ hx => Error.throw.inj hx ▸ ho
        | _ => exact .pure ((asked_finish t _).continues _)
    | _ => exact .fail fun _ hu => by cases hu
  · exact ((works_resume hE ht ho).yields (yields_asked hblock o)).imp fun w' _ _ _ hr => hr.2.continues w'.heap

end StatementTask

/-- What a procedure with a part of its own delivers. -/
theorem Proc.Yields.within {Q : α → Prop} {p : Proc (τ × Machine) α} (hp : Yields Q p) (t : τ) :
    Yields (fun r => Q r.2) (within t p) := by
  intro m r m' hrun
  unfold Proc.within at hrun
  cases hcase : p (t, m) with
  | done a u =>
    rw [hcase] at hrun
    cases hrun
    exact hp _ _ _ hcase
  | failed e u => rw [hcase] at hrun; cases hrun
  | stalled => rw [hcase] at hrun; cases hrun

/-- Expressions declare nothing. -/
theorem ExpressionTask.continues_of_plain {t : ExpressionTask} {r : ExpressionTask × Step} (hr : Plain r.2) (h : Heap) :
    Task.Continues h (.expression t) (.expression r.1, r.2) :=
  ⟨fun _ _ hd => absurd hd.2 List.not_mem_nil, trivial, fun q hq =>
    let ⟨_, he⟩ := hr q hq; Task.within_of_vars ((Task.vars_ofRequest q).trans (by rw [he]; rfl))⟩

namespace InvocationTask

variable {t t' : InvocationTask} {r : InvocationTask × Step}

/-- The scope of a call provides for the variables of the body. -/
theorem Asked.continues (hr : t'.Asked r) (hf : r.1.closure.boundScope = none → r.1.Furnished h) :
    Task.Continues h (.invocation t) (.invocation r.1, r.2) := by
  refine ⟨fun _ _ hd => absurd hd.2 List.not_mem_nil, hf, fun q hq s name hd => ?_⟩
  obtain ⟨rfl, hname⟩ := Task.declares_ofRequest.mp hd
  rcases hr.asks q hq with ⟨e, he⟩ | ⟨hstate, hscope, list, hbody, hlist⟩
  · rw [he] at hname
    exact absurd hname List.not_mem_nil
  · rw [hlist] at hname
    exact ⟨hstate, hr.scope.trans hscope, hr.closure ▸ Function.mem_vars hbody hname⟩

/-- Only a call that waits goes on. -/
theorem waits_of_goOn (t : InvocationTask) (o : Except Error Completion) :
    Yields (fun _ => t.Waits) (t.goOn E o) := by
  refine .bind fun c => ?_
  cases hstate : t.state with
  | paramBinding i => exact fun _ _ _ _ => .inl ⟨i, hstate⟩
  | bodyEvaluating => exact fun _ _ _ _ => .inr hstate
  | _ => exact .fail _

end InvocationTask

/-- **A task works on as what it is**, and what it asks for is inside it. -/
theorem Task.works_continues {t : Task} (hE : E.Fair S) (ht : t.Proper S w) (hown : ∀ x, t.Owns w x → own x)
    {i : Option (Except Error Completion)} (hi : ∀ o, i = some o → w.Outputs S o) (hready : t.Ready w.heap) :
    Works S own w (t.doing E i) fun w' r => t.Continues w'.heap r := by
  cases t with
  | statements t =>
    cases i with
    | none =>
      exact .map (((StatementsTask.works_start ht).yields (t.yields_start hready)).imp
        fun w' _ _ _ hr => hr.2.continues w'.heap)
    | some o =>
      exact .map (((StatementsTask.works_resume ht (hi o rfl)).yields (t.yields_resume hready o)).imp
        fun w' _ _ _ hr => hr.2.continues w'.heap)
  | statement t =>
    cases i with
    | none => exact .pure (t.asked_start.continues _)
    | some o => exact .map (StatementTask.works_continues hE ht (hi o rfl))
  | expression t =>
    cases i with
    | none =>
      exact .map (Works.imp (Works.yields (ExpressionTask.works_start hE ht) (ExpressionTask.plain_start.within t))
        fun w' _ _ _ hr => ExpressionTask.continues_of_plain hr.2 w'.heap)
    | some o =>
      exact .map (Works.imp
        (Works.yields (ExpressionTask.works_resume hE ht (hi o rfl)) ((ExpressionTask.plain_resume o).within t))
        fun w' _ _ _ hr => ExpressionTask.continues_of_plain hr.2 w'.heap)
  | invocation t =>
    cases i with
    | none =>
      refine .ite (fun _ => .map ((InvocationTask.works_begin hE ht.shown).imp fun _ _ _ _ hr => ?_)) fun _ =>
        .fail fun _ hu => by cases hu
      exact hr.2.2.elim fun _ hasked => hasked.continues fun _ => hr.2.1
    | some o =>
      refine .lawful fun hw => .map ((((InvocationTask.works_goOn hE ht hown (hi o rfl)).yields
        (t.yields_goOn o)).yields (t.waits_of_goOn o)).imp fun w' r _ hacts hr => ?_)
      obtain ⟨⟨-, hasked⟩, hwaits⟩ := hr
      refine hasked.continues fun hfree _ => ?_
      obtain ⟨s, hscope, hvars⟩ := InvocationTask.Furnished.next (hready (hasked.closure ▸ hfree)) hw hacts hwaits
      refine ⟨s, hasked.scope.trans hscope, ?_⟩
      rw [hasked.closure]
      exact hvars
  | settled o => exact ht.elim

/-! ### One boundary -/

/-- The tasks of the open frames, the innermost first. -/
def Machine.tasks (m : Machine) : List Task := m.frames.items.map (·.task)

theorem Machine.size_tasks (m : Machine) : m.tasks.length = m.frames.size := by
  rw [tasks, List.length_map, m.frames.size_eq]

theorem Machine.tasks_push {s : Stack Frame} (hframes : m.frames = s.push f) :
    m.tasks = f.task :: s.items.map (·.task) := by
  rw [tasks, hframes]
  rfl

/-- The tasks that are open above `base`, the innermost first. -/
def Machine.tasksAbove (m : Machine) (base : Nat) : List Task := (m.frames.above base).map (·.task)

theorem Machine.tasksAbove_append {l ts : List Task} (hm : m.tasks = l ++ ts) (hbase : base ≤ ts.length) :
    m.tasksAbove base = l ++ ts.take (ts.length - base) := by
  have htake : m.tasksAbove base = m.tasks.take (m.tasks.length - base) := by
    rw [size_tasks, tasksAbove, Stack.above, List.map_take, tasks]
  rw [htake, hm, List.length_append, Nat.add_sub_assoc hbase, List.take_length_add_append]

theorem Machine.closed_nests (hn : m.heap.Nested (m.tasksAbove base)) (hbase : base ≤ m.frames.size)
    (hrun : m.closed f o base = .done .going m') : m'.heap.Nested (m'.tasksAbove base) := by
  unfold Machine.closed at hrun
  by_cases hsize : m.frames.size = base
  · rw [if_pos hsize] at hrun
    cases hrun
  · rw [if_neg hsize] at hrun
    cases hrun
    obtain ⟨t, g, hframes⟩ := Stack.exists_push (s := m.frames) (by omega)
    rw [hframes, Stack.size_push] at hbase hsize
    unfold tasksAbove at hn ⊢
    rw [hframes, Stack.above_push (by omega)] at hn
    show (m.leave f o).heap.Nested ((((m.leave f o).frames.modifyTop _).above base).map _)
    rw [m.heap_leave, m.frames_leave, hframes, Stack.modifyTop_push, Stack.above_push (by omega)]
    exact hn

theorem Machine.suspended_nests (hhost : host.BySyntax) (hbase : base ≤ m.frames.size)
    (hn : m.heap.Nested (f.task :: m.tasksAbove base)) {c : Suspension}
    (hc : ∀ q, c = .branch q → (Task.ofRequest q).Within m.heap f.task) :
    (m.suspended host f c).heap.Nested ((m.suspended host f c).tasksAbove base) := by
  have hopen : ∀ q, m.requested host c = .ok q → q.task.Ready m.heap ∧ q.task.Within m.heap f.task := by
    intro q hq
    cases c with
    | branch r =>
      cases hq.symm.trans (Machine.requested_branch hhost r)
      exact ⟨Task.ready_ofRequest r, hc r rfl⟩
    | call r =>
      obtain ⟨g, cl, -, -, htask, -⟩ := Machine.requestedCall_ok hq
      rw [htask]
      exact ⟨Task.ready_ofCall g cl r, Task.within_of_vars rfl⟩
  unfold Machine.suspended
  cases hr : m.requested host c with
  | error e =>
    show m.heap.Nested (((m.frames.push (f.fed (some (.error e)))).above base).map _)
    rw [Stack.above_push hbase]
    exact hn
  | ok q =>
    obtain ⟨hready, hwithin⟩ := hopen q hr
    dsimp only
    unfold tasksAbove Machine.opened
    rw [Machine.heap_openFrame, Machine.frames_openFrame, Stack.above_push (by rw [Stack.size_push]; omega),
      Stack.above_push hbase]
    exact ⟨hready, fun u hu => Option.some.inj hu ▸ hwithin, hn⟩

/-- **One boundary keeps the open tasks nested.** -/
theorem turn_nests (hhost : host.BySyntax) (hE : E.Fair S) (hholds : E.Holds) (hw : w.Lawful S)
    (hm : w.Describes S m) (hheld : Held a frames l m) (hbase : base ≤ frames.size)
    (hst : w.Stands S own (f :: frames.above base)) (hn : w.heap.Nested (f.task :: (frames.above base).map (·.task)))
    (hrun : turn host E base f m = .done .going m') : m'.heap.Nested (m'.tasksAbove base) := by
  induction f using Frame.fed_cases with
  | fed f i =>
    have hi : ∀ o, i = some o → w.Outputs S o := by
      rintro o rfl
      exact hst.head.input
    have hkept := f.keeps_held_work hholds i m hheld
    have htask := hst.head.task
    rw [Frame.task_fed] at htask hn
    have hworks : Works S (fun x => f.task.Owns w x ∨ w.Fresh x) w (f.task.doing E i) _ :=
      Task.works_continues hE htask (fun _ hx => .inl hx) hi hn.1
    have hwork := Frame.leads_of_works hw (fun _ hx => .inr hx) hm hworks
    rw [turn_scripted host hholds hheld] at hrun
    cases hdone : f.work E i m with
    | stalled => rw [hdone] at hrun; cases hrun
    | failed e m₁ =>
      rw [hdone] at hrun hwork hkept
      obtain ⟨w₁, hacts, hm₁, -⟩ := hwork
      have hframes : m₁.frames = frames := hkept.frames
      refine Machine.closed_nests ?_ (hframes ▸ hbase) hrun
      rw [Machine.tasksAbove, hframes, hm₁.heap]
      exact hn.tail.next hw hacts
    | done r m₁ =>
      rw [hdone] at hrun hwork hkept
      obtain ⟨w₁, hacts, hm₁, hr⟩ := hwork
      obtain ⟨t, step⟩ := r
      have hframes : m₁.frames = frames := hkept.frames
      have hrest := hn.next hw hacts
      cases step with
      | finished c =>
        refine Machine.closed_nests ?_ (hframes ▸ hbase) hrun
        rw [Machine.tasksAbove, hframes, hm₁.heap]
        exact hrest.tail
      | suspended c =>
        cases hrun
        refine Machine.suspended_nests hhost (hframes ▸ hbase) ?_ fun q hq => ?_
        · rw [Machine.tasksAbove, hframes, hm₁.heap]
          exact hrest.exchange hr.declares hr.ready
        · rw [hm₁.heap]
          exact hr.asks q (congrArg Step.suspended hq)
  | fail f e hinput =>
    rw [turn_fail hinput] at hrun
    refine Machine.closed_nests ?_ (hheld.frames ▸ hbase) hrun
    rw [Machine.tasksAbove, hheld.frames, hm.heap]
    exact hn.tail
  | waiting f hinput =>
    rw [turn_waiting hinput] at hrun
    refine Machine.closed_nests ?_ (hheld.frames ▸ hbase) hrun
    rw [Machine.tasksAbove, hheld.frames, hm.heap]
    exact hn.tail

end ScriptCore
