import ScriptCore.Proofs.Calls.Trails
import ScriptCore.Proofs.Scope.FirstStatement
import ScriptCore.Proofs.Scope.OwnBinding

/-! # Lists that are entered

When a list of statements is entered its functions are bound, before the first of its statements runs; and a declaration
that runs does nothing. So when control comes to a declaration that is a statement of a list, the name is bound to a
closure, as long as the name has stayed bound to it in between. Whether it has depends on what else ran, and on who may
write where the scope binds names.

* `Machine.Rebinds`, `Machine.keeps_closure_of_bound`: a closure that is bound stays bound, unless the name is rebound.
* `Machine.Sweeps`: what a collection leaves of what a machine holds.
* `Machine.Enters.binds`: **what a list binds when it is entered.**
* `Machine.crossed_declaration`: **a declaration that runs does nothing.**
* `Machine.Trail.declared`: **what a declaration finds bound** when control comes to it. -/

namespace ScriptCore

open Heap (scope_eq_ok object_eq_ok)

variable {host : Host} {E : Engine} {base n k bound : Nat} {m m' : Machine} {h h' : Heap} {s : ScopeRef} {sc : Scope}
  {name : String} {f : Function} {F : Function → Prop} {q : Prop} {list : List Stmt} {run : Nat → Machine}

/-! ### What stays bound -/

namespace Heap

/-- **Collecting garbage** leaves what a scope that is held binds. -/
theorem BoundToClosure.shrunk (hb : h.BoundToClosure s name F) (hs : h.Shrinks h') (hkeep : h.Retains h' s.handle) :
    h'.BoundToClosure s name F := by
  obtain ⟨v, hv, g, f, rfl, hf, hclosure⟩ := hb
  obtain ⟨hv', hheld⟩ := Heap.BoundTo.shrunk hs hv hkeep
  exact ⟨_, hv', g, f, rfl, hf, hclosure.shrunk (hheld _ (List.mem_singleton_self _))⟩

/-- A scope that is held hosts what it did. -/
theorem Hosts.shrunk (hh : h.Hosts s sc) (hs : h.Shrinks h') (hk : h'.WellKept) (hkeep : h.Retains h' s.handle) :
    h'.Hosts s sc := by
  obtain ⟨obj, ho⟩ := hh.live
  have hscope : h'.scope s = .ok sc := scope_eq_ok.mpr (hkeep _ (scope_eq_ok.mp hh.scope))
  have hobject : h.Retains h' sc.object.handle := hs.closed _ _ (scope_eq_ok.mp hscope) _ List.mem_cons_self
  refine ⟨hk, hscope, hh.target, ⟨obj, object_eq_ok.mpr (hobject _ (object_eq_ok.mp ho))⟩, fun key c hr => ?_,
    fun key key' c hr hr' => hh.apart key key' c (hs.refers hr) (hs.refers hr')⟩
  obtain ⟨d, hd⟩ := hh.cells key c (hs.refers hr)
  exact ⟨d, hs.cell_of_refers hobject (hs.refers hr) hd⟩

end Heap

namespace Machine

/-- **The move gives the name another value** in the scope; or the outermost scope binds it to a value no more. -/
inductive Rebinds (m m' : Machine) (s : ScopeRef) (name : String) : Prop where
  | written {v v' : Value} (hv : m.heap.BoundTo s name v) (hv' : m'.heap.BoundTo s name v') (hne : v ≠ v')
  | lost {v : Value} {sc : Scope} (hv : m.heap.BoundTo s name v) (hs : m.heap.scope s = .ok sc)
      (houter : sc.parent = none) (hnone : ∀ v', ¬ m'.heap.BoundTo s name v')

/-- **A closure that is bound stays bound**, unless the name is rebound, if a scope inside another keeps what it binds
and closures stay closures. -/
theorem keeps_closure_of_bound (hb : m.heap.BoundToClosure s name F) (hnot : ¬ m.Rebinds m' s name)
    (hinner : ∀ sc, m.heap.scope s = .ok sc → sc.parent ≠ none → ∃ v, m'.heap.BoundTo s name v)
    (hclosures : ∀ v, m.heap.BoundTo s name v → m.heap.IsClosure s F v → m'.heap.IsClosure s F v) :
    m'.heap.BoundToClosure s name F := by
  obtain ⟨v, hv, hclosure⟩ := hb
  obtain ⟨v', hv'⟩ : ∃ v', m'.heap.BoundTo s name v' := by
    have ⟨sc, _, _, _, _, hs, _⟩ := hv
    by_cases hparent : sc.parent = none
    · by_contra hnone
      exact hnot (.lost hv hs hparent fun v' hv' => hnone ⟨v', hv'⟩)
    · exact hinner sc hs hparent
  obtain rfl : v = v' := by_contra fun hne => hnot (.written hv hv' hne)
  exact ⟨v, hv', hclosures v hv hclosure⟩

/-- Nothing that is held is lost, and what is left is as it was. -/
structure Sweeps (m m' : Machine) : Prop where
  shrinks : m.heap.Shrinks m'.heap
  retains : ∀ x ∈ m.handles, m.heap.Retains m'.heap x

/-- The heap is the same. -/
theorem Sweeps.of_heap (hsame : m'.heap = m.heap) : m.Sweeps m' := by
  constructor
  · rw [hsame]
    exact ⟨fun _ _ hx => hx, fun _ _ _ _ _ _ hy => hy⟩
  · rw [hsame]
    exact fun _ _ _ hx => hx

theorem sweeps_swept (hv : m.heap.Valid) : m.Sweeps m.swept :=
  ⟨Heap.shrinks_collect hv m.handles, fun _ hx => Heap.retains_collect hv hx⟩

/-- Garbage may be collected first. -/
theorem sweeps_collected (hv : m.heap.Valid) (hsame : m'.heap = m.collected.heap) : m.Sweeps m' := by
  rcases m.collected_cases with h | h <;> rw [h] at hsame
  · obtain ⟨hshrinks, hretains⟩ := sweeps_swept hv
    rw [← hsame] at hshrinks hretains
    exact ⟨hshrinks, hretains⟩
  · exact .of_heap hsame

theorem collectGarbage_sweeps (hv : m.heap.Valid) (hrun : (collectGarbage m).state? = some m') : m.Sweeps m' := by
  unfold collectGarbage at hrun
  split_ifs at hrun <;> cases hrun
  · exact .of_heap rfl
  · exact sweeps_swept hv

theorem abort_sweeps {e : Error} (hrun : (abort e m).state? = some m') : m.Sweeps m' := by
  unfold abort at hrun
  split_ifs at hrun <;> cases hrun <;> exact .of_heap rfl

end Machine

/-! ### What a boundary leaves on the heap -/

/-- The scope in which an open task runs code is held. -/
theorem Frame.mem_handles_of_code {f : Frame} {node : BranchNode} (hf : f ∈ m.frames.above base)
    (hcode : f.task.code? = some (node, s)) : s.handle ∈ m.handles := by
  refine List.mem_append_right _ (List.mem_flatMap_of_mem (List.mem_of_mem_take hf) ?_)
  refine List.mem_append_left _ (List.mem_append_left _ ?_)
  cases htask : f.task with
  | statements t =>
    rw [htask] at hcode
    cases hcode
    exact List.mem_cons_self
  | statement t =>
    rw [htask] at hcode
    cases hcode
    exact List.mem_cons_self
  | _ =>
    rw [htask] at hcode
    cases hcode

/-- What a task leaves on the heap its frame leaves there. -/
theorem Frame.ends_work {I J : Heap → Prop} {f : Frame} {i : Option (Except Error Completion)} (hm : I m.heap)
    (hdoing : ∀ m₁ : Machine, m₁.heap = m.heap →
      (f.task.doing E i m₁).Ends (fun m' => I m'.heap) fun m' => J m'.heap) :
    (f.work E i m).Ends (fun m' => I m'.heap) fun m' => J m'.heap := by
  have hcrossing : (crossing i m).Ends (fun m' => I m'.heap) fun m' => m'.heap = m.heap := by
    unfold crossing
    generalize m.monitor.crossed i = crossed
    obtain ⟨r, k⟩ := crossed
    cases r
    · exact hm
    · exact rfl
  refine Proc.ends_bind hcrossing fun _ m₁ _ hm₁ => ?_
  have hran := hdoing { m₁ with active := some ⟨f.depth, f.quiet⟩ } hm₁
  unfold Frame.running
  cases hdone : f.task.doing E i { m₁ with active := some ⟨f.depth, f.quiet⟩ } <;> rw [hdone] at hran <;> exact hran

theorem Task.code?_eq_statements {t : Task} (ht : t.code? = some (.statements list, s)) :
    ∃ u, t = .statements u ∧ u.statements = list ∧ u.scope = s := by
  cases t with
  | statements u =>
    cases ht
    exact ⟨u, rfl, rfl, rfl⟩
  | _ => cases ht

/-- The task asks for no call. -/
def Step.CallsNothing (step : Step) : Prop := ∀ r, step ≠ .suspended (.call r)

namespace Step.CallsNothing

theorem finished (c : Completion) : (Step.finished c).CallsNothing := fun _ h => by cases h

theorem ask (q : BranchRequest) : (Step.ask q).CallsNothing := fun _ h => by cases h

end Step.CallsNothing

/-- A list that starts calls nothing. -/
theorem StatementsTask.yields_callsNothing (t : StatementsTask) :
    t.start.Yields fun r => r.2.CallsNothing := by
  refine .bind fun _ => .pure ?_
  unfold advance
  cases t.rest with
  | nil => exact .finished _
  | cons s rest => exact .ask _

namespace Machine

/-- Closing a frame leaves the heap. -/
theorem heap_closed {g : Frame} {out : Except Error Completion} (hrun : (m.closed g out base).state? = some m') :
    m'.heap = m.heap := by
  unfold closed at hrun
  split_ifs at hrun <;> cases hrun
  · exact m.heap_leave g out
  · exact (show ((m.leave g out).deliver out).heap = (m.leave g out).heap from rfl).trans (m.heap_leave g out)

/-- **What a task that calls nothing leaves on the heap its boundary leaves there**, and its frame is closed if it
fails. -/
theorem crossed_ends {I J : Heap → Prop} {f : Frame} {st : Stack Frame} (hhost : host.BySyntax)
    (hc : m.Contained host bound base) (hframes : m.frames = st.push f) (hbase : base ≤ st.size)
    (hI : I m.collected.heap)
    (hdoing : ∀ i, f.fed i = f → ∀ m₁ : Machine, m₁.heap = m.collected.heap →
      (f.task.doing (host.engine bound) i m₁).Ends (fun m' => I m'.heap) fun m' => J m'.heap)
    (hcalls : ∀ i, f.fed i = f → (f.task.doing (host.engine bound) i).Yields fun r => r.2.CallsNothing)
    (hrun : (advance host (host.engine bound) base m).state? = some m') :
    m'.frames.size = st.size ∧ I m'.heap ∨ J m'.heap := by
  have hclosed : ∀ (m₂ : Machine) {g : Frame} {out : Except Error Completion}, m₂.tasks = st.items.map (·.task) →
      (m₂.closed g out base).state? = some m' → m'.heap = m₂.heap ∧ m'.frames.size = st.size := by
    intro m₂ g out htasks hrun
    refine ⟨heap_closed hrun, ?_⟩
    rw [← size_tasks, tasks_closed hrun, htasks, List.length_map, st.size_eq]
  rw [advance_eq_turn hframes hbase] at hrun
  induction f using Frame.fed_cases with
  | fed f i =>
    have hfed : (f.fed i).fed i = f.fed i := by cases i <;> rfl
    have hwork := hc.work hframes hbase
    have hran := Frame.ends_work (E := host.engine bound) (f := f) (i := i) (m := { m.collected with frames := st })
      (J := J) hI fun m₁ hm₁ => by
        have hends := hdoing i hfed m₁ hm₁
        rwa [Frame.task_fed] at hends
    have hyields : (f.work (host.engine bound) i).Yields fun r => r.2.CallsNothing := .bind fun _ =>
      Frame.yields_running (by
        have hnothing := hcalls i hfed
        rwa [Frame.task_fed] at hnothing)
    rw [turn_fed] at hrun
    cases hdone : f.work (host.engine bound) i { m.collected with frames := st } with
    | stalled =>
      rw [hdone] at hrun
      cases hrun
    | failed e m₂ =>
      rw [hdone] at hrun hran hwork
      obtain ⟨hheap, hsize⟩ := hclosed _ hwork hrun
      exact .inl ⟨hsize, hheap ▸ hran⟩
    | done x m₂ =>
      rw [hdone] at hrun hran hwork
      obtain ⟨t, step⟩ := x
      right
      cases step with
      | finished c =>
        rw [(hclosed _ hwork hrun).1]
        exact hran
      | suspended c =>
        cases c with
        | call r => exact absurd rfl (hyields _ _ _ hdone r)
        | branch r =>
          dsimp only at hrun
          rw [suspend_branch hhost] at hrun
          cases hrun
          exact (congrArg J (Machine.heap_openFrame _ (.ofRequest r) r.info _ _ false)).mpr hran
  | fail f e hinput =>
    rw [turn_fail hinput] at hrun
    obtain ⟨hheap, hsize⟩ := hclosed { m.collected with frames := st } rfl hrun
    exact .inl ⟨hsize, hheap ▸ hI⟩
  | waiting f hinput =>
    rw [turn_waiting hinput] at hrun
    obtain ⟨hheap, hsize⟩ := hclosed { m.collected with frames := st } rfl hrun
    exact .inl ⟨hsize, hheap ▸ hI⟩

/-- What is open above `n` tasks is open on a larger stack. -/
theorem OpenAt.lt_size (hopen : m.OpenAt base n list s) : base + n < m.frames.size := by
  obtain ⟨t, ts, hsuffix, rfl, -⟩ := hopen
  have hlength := hsuffix.length_le
  rw [tasksAbove, List.length_map, List.length_cons, Stack.above, List.length_take] at hlength
  omega

/-- The scope of a list that is open is held. -/
theorem OpenAt.mem_handles (hopen : m.OpenAt base n list s) : s.handle ∈ m.handles := by
  obtain ⟨t, ts, hsuffix, -, hcode⟩ := hopen
  obtain ⟨f, hf, rfl⟩ := List.mem_map.mp (hsuffix.subset List.mem_cons_self)
  exact f.mem_handles_of_code hf hcode

/-! ### Entering a list -/

/-- **What a list binds when it is entered**: a closure of one of the functions stays bound, if those of the list are
among them; and if the list is open then, each name is bound to one that it declares a function under. -/
theorem Enters.binds (hhost : host.BySyntax) (hc : ∀ bound, m.Contained host bound base) (hh : m.heap.Hosts s sc)
    (henters : m.Enters host base m' k list s) (hF : ∀ f, .function f ∈ list → f.name = some name → F f)
    (hb : q → m.heap.BoundToClosure s name F) :
    (q → m'.heap.BoundToClosure s name F) ∧
      (m'.OpenAt base k list s → DeclaresUnder list name → m'.heap.BoundToClosure s name F) := by
  obtain ⟨f, fs, bound, habove, hstart, rfl, hcode, hrun⟩ := henters
  obtain ⟨st, hframes, hbase, rfl⟩ := Stack.exists_push_of_above habove
  obtain ⟨t, htask, rfl, rfl⟩ := Task.code?_eq_statements hcode
  have hheld : t.scope.handle ∈ m.handles := f.mem_handles_of_code (habove ▸ List.mem_cons_self) (by rw [htask]; rfl)
  have hhosting : Heap.Hosting t.scope sc name F q m.collected.heap := by
    obtain ⟨hshrinks, hk, hretains⟩ := m.shrinks_collected hh.kept
    exact ⟨hh.shrunk hshrinks hk (hretains _ hheld), fun hq => (hb hq).shrunk hshrinks (hretains _ hheld)⟩
  have hfed : ∀ {i : Option (Except Error Completion)}, f.fed i = f → i = none := fun {i} hi => by
    cases i with
    | none => rfl
    | some o =>
      rw [← hi] at hstart
      cases hstart
  have hended := crossed_ends (J := Heap.Hosting t.scope sc name F (q ∨ DeclaresUnder t.statements name)) hhost
    (hc bound) hframes hbase hhosting (fun i hi m₁ hm₁ => ?_) (fun i hi => ?_) hrun
  · rcases hended with ⟨hsize, hleft⟩ | hleft
    · -- the frame is closed, and the list is not open any more
      refine ⟨hleft.bound, fun hopen => ?_⟩
      have hlt := hopen.lt_size
      have hheight := Stack.size_of_above hbase
      omega
    · exact ⟨fun hq => hleft.bound (.inl hq), fun _ hdeclared => hleft.bound (.inr hdeclared)⟩
  · obtain rfl := hfed hi
    rw [htask]
    exact Proc.ends_map (StatementsTask.ends_start hF (hm₁ ▸ hhosting))
  · obtain rfl := hfed hi
    rw [htask]
    exact .map (t.yields_callsNothing)

/-- **A declaration that runs does nothing**: it is the list that has bound its function. -/
theorem crossed_declaration {t : StatementTask} {x : Frame} {fs : List Frame} (hhost : host.BySyntax)
    (hc : m.Contained host bound base) (habove : m.frames.above base = x :: fs) (htask : x.task = .statement t)
    (hstmt : t.stmt = .function f) (hrun : (advance host (host.engine bound) base m).state? = some m') :
    m'.heap = m.collected.heap := by
  obtain ⟨st, hframes, hbase, -⟩ := Stack.exists_push_of_above habove
  have hended := crossed_ends (I := (· = m.collected.heap)) (J := (· = m.collected.heap)) hhost hc hframes hbase rfl
    (fun i _ m₁ hm₁ => ?_) (fun i _ => ?_) hrun
  · rcases hended with ⟨-, hheap⟩ | hheap
    · exact hheap
    · exact hheap
  all_goals rw [htask]
  · cases i with
    | none => exact hm₁
    | some o =>
      refine Proc.ends_map ?_
      unfold StatementTask.resume
      rw [hstmt]
      cases t.state with
      | nested =>
        cases o with
        | ok c => exact hm₁
        | error e => exact hm₁
      | _ => exact hm₁
  · cases i with
    | none =>
      refine .pure ?_
      unfold StatementTask.start
      rw [hstmt]
      exact .finished _
    | some o =>
      refine .map ?_
      unfold StatementTask.resume
      rw [hstmt]
      cases t.state with
      | nested => exact .bind fun _ => .pure (.finished _)
      | _ => exact .fail _

/-- **A list that declares the function under the name is entered** in the scope. -/
def Hoists (host : Host) (base : Nat) (m m' : Machine) (s : ScopeRef) (name : String) (f : Function) : Prop :=
  f.name = some name ∧ ∃ k list, .function f ∈ list ∧ m.Enters host base m' k list s

/-! ### Along a trail -/

namespace Trail

/-- **Where a declaration stands**: as the branch of a conditional or the body of a loop, or in a list of statements. -/
theorem declared_in {t : StatementTask} {u : Task} {ts : List Task} (hhost : host.BySyntax)
    (htrail : Trail host base run n) (hopen : (run n).tasksAbove base = .statement t :: u :: ts)
    (hstmt : t.stmt = .function f) :
    (∃ v : StatementTask, u = .statement v ∧ v.scope = t.scope ∧ v.stmt.HasBranch (.function f)) ∨
      ∃ list, u.code? = some (.statements list, t.scope) ∧ .function f ∈ list := by
  have hchain := htrail.inPlace hhost
  rw [hopen, List.isChain_cons_cons] at hchain
  obtain ⟨node, hcode, hpart⟩ := hchain.1 (.function f) t.scope (by rw [Task.code?, hstmt])
  cases u with
  | statement v =>
    left
    obtain ⟨hnode, hscope⟩ := Prod.mk.inj (Option.some.inj hcode)
    rw [← hnode, BranchNode.part_statement] at hpart
    exact ⟨v, rfl, hscope, hpart⟩
  | statements v =>
    right
    obtain ⟨hnode, hscope⟩ := Prod.mk.inj (Option.some.inj hcode)
    rw [← hnode, BranchNode.part_statements] at hpart
    exact ⟨v.statements, by rw [← hscope]; rfl, hpart⟩
  | _ => cases hcode

/-- **What is needed of a scope along a trail**: it binds each name in a cell of its own when a list is entered there,
and what else happens leaves a closure bound under the name, unless it rebinds that. -/
structure Holds (host : Host) (base : Nat) (run : Nat → Machine) (n : Nat) (s : ScopeRef) (name : String) :
    Prop where
  hosts : ∀ i < n, ∀ k list, (run i).Enters host base (run (i + 1)) k list s → ∃ sc, (run i).heap.Hosts s sc
  keeps : ∀ i < n, ∀ F, s.handle ∈ (run i).handles → (run i).heap.BoundToClosure s name F →
    ¬ (run i).Rebinds (run (i + 1)) s name → (run (i + 1)).heap.BoundToClosure s name F

/-- **From the entry of a list on** each name that it declares a function under is bound to a closure of a function that
a list entered since declares under it, as long as no move but such an entry rebinds the name. -/
theorem binds_since {height i : Nat} (hhost : host.BySyntax) (htrail : Trail host base run n)
    (hholds : Holds host base run n s name) (hf : .function f ∈ list) (hname : f.name = some name)
    (henters : (run i).Enters host base (run (i + 1)) height list s)
    (hopen : ∀ k, i < k → k ≤ n → (run k).OpenAt base height list s)
    (hrebinds : ∀ k, i < k → k < n → (run k).Rebinds (run (k + 1)) s name →
      ∃ g, (run k).Hoists host base (run (k + 1)) s name g) :
    ∀ k, i < k → k ≤ n → (run k).heap.BoundToClosure s name fun g =>
      ∃ j, i ≤ j ∧ j < k ∧ (run j).Hoists host base (run (j + 1)) s name g := by
  intro k hik
  induction k, hik using Nat.le_induction with
  | base =>
    intro hi
    obtain ⟨sc, hh⟩ := hholds.hosts i hi height list henters
    have hhoists : ∀ g, .function g ∈ list → g.name = some name →
        ∃ j, i ≤ j ∧ j < i + 1 ∧ (run j).Hoists host base (run (j + 1)) s name g := fun g hg hgname =>
      ⟨i, le_rfl, i.lt_succ_self, hgname, height, list, hg, henters⟩
    exact (henters.binds hhost (htrail.contained i hi) hh hhoists False.elim).2 (hopen (i + 1) i.lt_succ_self hi)
      ⟨f, hf, hname⟩
  | succ k hik ih =>
    intro hk
    have hbound : (run k).heap.BoundToClosure s name fun g =>
        ∃ j, i ≤ j ∧ j < k + 1 ∧ (run j).Hoists host base (run (j + 1)) s name g :=
      (ih (Nat.le_of_succ_le hk)).mono fun g ⟨j, hij, hjk, hg⟩ => ⟨j, hij, hjk.trans k.lt_succ_self, hg⟩
    by_cases hrebound : (run k).Rebinds (run (k + 1)) s name
    · obtain ⟨-, -, height', list', -, henters'⟩ := hrebinds k hik hk hrebound
      obtain ⟨sc, hh⟩ := hholds.hosts k hk height' list' henters'
      refine (henters'.binds (q := True) hhost (htrail.contained k hk) hh (fun g hg hgname => ?_)
        fun _ => hbound).1 trivial
      exact ⟨k, Nat.le_of_succ_le hik, k.lt_succ_self, hgname, height', list', hg, henters'⟩
    · exact hholds.keeps k hk _ (hopen k hik (Nat.le_of_succ_le hk)).mem_handles hbound hrebound

/-- **What a declaration finds bound** when control comes to it: it is itself the branch of a conditional or the body of
a loop; or the list of which it is a statement was entered, and has been open since, and if no move in between has
rebound the name but by entering a list that declares it, too, then the name is bound to a closure, made in the scope,
of a function that such a list declares under that name. -/
theorem declared {t : StatementTask} {u : Task} {ts : List Task} (hhost : host.BySyntax)
    (htrail : Trail host base run n) (hholds : Holds host base run n t.scope name)
    (hopen : (run n).tasksAbove base = .statement t :: u :: ts) (hstmt : t.stmt = .function f)
    (hname : f.name = some name) :
    (∃ v : StatementTask, u = .statement v ∧ v.scope = t.scope ∧ v.stmt.HasBranch (.function f)) ∨
      ∃ i < n, ∃ list, .function f ∈ list ∧ (run i).Enters host base (run (i + 1)) ts.length list t.scope ∧
        (∀ k, i < k → k ≤ n → (run k).OpenAt base ts.length list t.scope) ∧
        ((∀ k, i < k → k < n → (run k).Rebinds (run (k + 1)) t.scope name →
            ∃ g, (run k).Hoists host base (run (k + 1)) t.scope name g) →
          t.scope.handle ∈ (run n).handles ∧ (run n).heap.BoundToClosure t.scope name fun g =>
            ∃ j, i ≤ j ∧ j < n ∧ (run j).Hoists host base (run (j + 1)) t.scope name g) := by
  rcases htrail.declared_in hhost hopen hstmt with hbranch | ⟨list, hlist, hf⟩
  · exact .inl hbranch
  right
  have hentered : Entered host base run n ts.length list t.scope := by
    refine (htrail.entered hhost u ts (hopen ▸ List.suffix_cons _ _) hlist).resolve_left fun htop => ?_
    have hlength := congrArg List.length (hopen.symm.trans htop.1)
    simp at hlength
  obtain ⟨i, hi, henters, hsince⟩ := hentered
  exact ⟨i, hi, list, hf, henters, hsince, fun hrebinds => ⟨(hsince n hi le_rfl).mem_handles,
    htrail.binds_since hhost hholds hf hname henters hsince hrebinds n hi le_rfl⟩⟩

end Trail

end Machine

end ScriptCore
