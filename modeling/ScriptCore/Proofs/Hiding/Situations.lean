import ScriptCore.Proofs.Hiding.Collecting
import ScriptCore.Proofs.Hiding.Queries

/-! # The situations that arise

A host makes a machine, works on it in ways that show no hidden object, has branches and calls opened, and drives them
over boundary after boundary, one run inside the other. At a boundary the code that runs may ask for more code, and so
may a native function that it calls; what is asked for is opened and driven in turn, on a machine that no boundary
shows. So the machines on which such runs begin arise as well, at any depth of nesting.

* `Heap.Stacked`: runs one inside the other, each with its tasks nested.
* `Machine.Veiled.atBoundary`, `Machine.Veiled.runs`: what holds at a boundary, and when a task runs.
* `Situation`, `Situation.Arises`: **what a host comes to.**
* `Situation.Arises.veiled`: **no hidden object is shown**, and what is open is nested. -/

namespace ScriptCore

variable {α : Type} {S : Scene} {R : Realm} {G : Ground} {T : List Task} {h h' : Heap} {E E' : Engine} {host : Host}
  {m m' m₁ n n' : Machine} {f : Frame} {q : Query} {i : Option (Except Error Completion)} {base : Nat}
  {bases : List Nat}

/-! ### Runs one inside the other -/

/-- **Runs are driven one inside the other**, each above the given number of frames, the innermost first, and the tasks
of each are open one inside the next. -/
def Heap.Stacked (h : Heap) : List Nat → List Task → Prop
  | [], _ => True
  | base :: bases, T => ∃ ts rest, T = ts ++ rest ∧ rest.length = base ∧ h.Nested ts ∧ h.Stacked bases rest

namespace Heap.Stacked

theorem sheltered (hs : h.Stacked bases T) (hh : h.Shelters h') : h'.Stacked bases T := by
  induction bases generalizing T with
  | nil => trivial
  | cons base bases ih =>
    obtain ⟨ts, rest, htasks, hlength, hnested, hrest⟩ := hs
    exact ⟨ts, rest, htasks, hlength, hnested.sheltered hh, ih hrest⟩

/-- Collections leave the runs, if the handles of the tasks are left. -/
theorem shrunk (hs : h.Stacked bases T) (hh : h.Shrinks h') (hkept : ∀ t ∈ T, ∀ x ∈ t.handles, h.Retains h' x) :
    h'.Stacked bases T := by
  induction bases generalizing T with
  | nil => trivial
  | cons base bases ih =>
    obtain ⟨ts, rest, rfl, hlength, hnested, hrest⟩ := hs
    exact ⟨ts, rest, rfl, hlength, hnested.shrunk hh fun t ht => hkept t (List.mem_append_left _ ht),
      ih hrest fun t ht => hkept t (List.mem_append_right _ ht)⟩

end Heap.Stacked

namespace Machine

/-- The tasks of the innermost run are those above its base. -/
theorem tasksAbove_eq {ts rest : List Task} (htasks : m.tasks = ts ++ rest) (hlength : rest.length = base) :
    m.tasksAbove base = ts := by
  rw [tasksAbove_append htasks hlength.ge, hlength, Nat.sub_self, List.take_zero, List.append_nil]

namespace Veiled

theorem stacked_swept (hm : m.Veiled G) (hs : m.heap.Stacked bases m.tasks) : m.swept.heap.Stacked bases m.tasks := by
  refine hs.shrunk (Heap.shrinks_collect hm.heap.valid m.handles) fun t ht x hx => ?_
  obtain ⟨f, hf, rfl⟩ := List.mem_map.mp ht
  exact Heap.retains_collect hm.heap.valid (List.mem_append_right _ (List.mem_flatMap_of_mem hf
    (List.mem_append_left _ (List.mem_append_left _ hx))))

/-- **At a boundary** the innermost frame is taken off the stack, after the collection that may be due. -/
theorem atBoundary (hm : m.Veiled ⟨R, []⟩) (hs : m.heap.Stacked (base :: bases) m.tasks) {s : Stack Frame} {f : Frame}
    (hframes : m.frames = s.push f) (hbase : base ≤ s.size) :
    ∃ T, T.length = base ∧ m.collected.heap.Stacked bases T ∧ Lifts ⟨R, []⟩ T f { m.collected with frames := s } := by
  have hstacked : m.collected.heap.Stacked (base :: bases) m.tasks := by
    rcases m.collected_cases with h | h <;> rw [h]
    · exact hm.stacked_swept hs
    · exact hs
  obtain ⟨ts, rest, htasks, rfl, hnested, hrest⟩ := hstacked
  have hcovers : m.collected.Covers ⟨R, []⟩ rest :=
    ⟨hm.collected, ts, by rw [tasks, Machine.frames_collected]; exact htasks, hnested⟩
  exact ⟨rest, rfl, hrest, hcovers.lifts ((Machine.frames_collected m).trans hframes) hbase⟩

/-- **When a task runs**, it is one that can go on, and what is open is nested. -/
theorem runs (hm : m.Veiled ⟨R, []⟩) (hs : m.heap.Stacked (base :: bases) m.tasks) (hruns : m.Runs base f i m₁) :
    Scene.Holds ⟨⟨R, []⟩, m₁.tasks⟩ m₁ ∧ m₁.heap.Clear f.task ∧ m₁.heap.Clear i ∧
      ∃ ts, m.tasksAbove base = f.task :: ts ∧ m₁.heap.Nested (f.task :: ts) := by
  obtain ⟨s, l, hframes, hbase, rfl⟩ := hruns.exists_eq
  obtain ⟨T, rfl, -, hlifts⟩ := hm.atBoundary hs hframes hbase
  obtain ⟨htask, -, hi, ts, htasks, hnested⟩ := hlifts.fed
  have habove : m.tasks = f.task :: ts ++ T := by
    rw [tasks_push hframes, Frame.task_fed]
    exact congrArg (f.task :: ·) htasks
  exact ⟨⟨hlifts.veiled.congr rfl rfl rfl, rfl, rfl⟩, htask, hi, ts, m.tasksAbove_eq habove rfl, hnested⟩

end Veiled

end Machine

/-! ### Situations -/

/-- A machine between two boundaries, with the runs that are under way on it, or one on which code asks for more. -/
inductive Situation where
  | driven (bases : List Nat) (m : Machine)
  | asked (bases : List Nat) (q : Query) (m : Machine)

/-- **The situations that arise** on a host. -/
inductive Situation.Arises (host : Host) : Situation → Prop where
  | created {limits : HeapLimits} {options : MonitorOptions} {now : Nat} {sloppy : Bool} {m : Machine}
      (hnew : Machine.create limits options now sloppy = .ok m) : Arises host (.driven [] m)
  /-- The host does something else. It shows no hidden object, and takes no frame away. -/
  | altered {bases : List Nat} {m m' : Machine} (hm : Arises host (.driven bases m)) (hh : m.heap.Shelters m'.heap)
      (hveiled : m'.Veiled ⟨m.realm, []⟩) (htasks : m'.tasks = m.tasks) : Arises host (.driven bases m')
  | collected {bases : List Nat} {m m' : Machine} (hm : Arises host (.driven bases m))
      (hrun : (collectGarbage m).state? = some m') : Arises host (.driven bases m')
  /-- The host asks for code to be run, with what is clear. -/
  | posed {bases : List Nat} {m : Machine} {q : Query} (hm : Arises host (.driven bases m)) (hq : q.Clear m.heap) :
      Arises host (.asked bases q m)
  /-- What was asked for is opened, to be driven. -/
  | opened {bases : List Nat} {q : Query} {n n' : Machine} (hn : Arises host (.asked bases q n)) (bound : Nat)
      (hopens : q.Opens host (host.engine bound) n n') : Arises host (.driven (n.frames.size :: bases) n')
  /-- The innermost run is driven over one boundary. -/
  | crossed {base : Nat} {bases : List Nat} {m m' : Machine} (hm : Arises host (.driven (base :: bases) m))
      (bound : Nat) (hrun : (advance host (host.engine bound) base m).state? = some m') :
      Arises host (.driven (base :: bases) m')
  /-- The innermost run is over. -/
  | closed {bases : List Nat} {m : Machine} (hm : Arises host (.driven (m.frames.size :: bases) m)) :
      Arises host (.driven bases m)
  /-- What runs at a boundary asks for more. -/
  | entered {base : Nat} {bases : List Nat} {m n : Machine} {q : Query} (hm : Arises host (.driven (base :: bases) m))
      (bound : Nat) (hposes : Poses (fun E => advance host E base) (host.engine bound) m q n) :
      Arises host (.asked [] q n)
  /-- A native function that running code called asks for more. -/
  | served {bases : List Nat} {callee receiver : Value} {args : List Value} {n n' : Machine} {q : Query}
      (hn : Arises host (.asked bases (.call callee receiver args) n)) (hactive : n.active.isSome = true) (bound : Nat)
      (hposes : Poses (fun E => openCall host E (n.callRequest callee receiver args) n.childContext.1
        n.childContext.2) (host.engine bound) n q n') : Arises host (.asked [] q n')

/-- No hidden object is shown, and the tasks of each run are nested. -/
def Situation.Veiled : Situation → Prop
  | .driven bases m => m.Veiled ⟨m.realm, []⟩ ∧ m.heap.Stacked bases m.tasks
  | .asked bases q m => q.Veiled m ∧ m.heap.Stacked bases m.tasks

namespace Situation

/-- What was asked for is opened. -/
theorem Veiled.opened (hhost : host.BySyntax) (hn : (asked bases q n).Veiled) (hopens : q.Opens host E n n') :
    (driven (n.frames.size :: bases) n').Veiled := by
  obtain ⟨⟨hveiled, hclear⟩, hstacked⟩ := hn
  suffices h : ∃ t, n'.Veiled ⟨n.realm, []⟩ ∧ n'.heap = n.heap ∧ n'.tasks = t :: n.tasks ∧ t.Ready n.heap by
    obtain ⟨t, hveiled', hheap, htasks, hready⟩ := h
    refine ⟨hveiled'.plain, [t], n.tasks, htasks, n.size_tasks, ?_, ?_⟩ <;> rw [hheap]
    · exact ⟨hready, by simp, trivial⟩
    · exact hstacked
  cases q with
  | branch r =>
    obtain ⟨task, htask, rfl⟩ := hopens
    cases (hhost r).symm.trans htask
    have hr : n.heap.Clear r := hclear
    obtain ⟨hveiled', htasks⟩ := hveiled.openFrame (t := Task.ofRequest r) r.info (Heap.clear_ofRequest hr)
      (Task.stored_ofRequest r) (Heap.clear_request.mp hr).2 n.childContext.1 n.childContext.2 false
    exact ⟨_, hveiled', Machine.heap_openFrame .., htasks, Task.ready_ofRequest r⟩
  | call callee receiver args =>
    have hr := hveiled.callRequest hclear.1 hclear.2.1 hclear.2.2
    obtain ⟨x, hx, rfl⟩ := openCall_opens hopens
    obtain ⟨hveiled', hheap, t, htasks, hready⟩ := hveiled.requested hr hx n.childContext.1 n.childContext.2
    exact ⟨_, hveiled', hheap, htasks, hready⟩

/-- **Crossing a boundary.** -/
theorem Veiled.crossed (hhost : host.BySyntax) (hnative : host.Tactful) (hm : (driven (base :: bases) m).Veiled)
    (bound : Nat) (hrun : (advance host (host.engine bound) base m).state? = some m') :
    (driven (base :: bases) m').Veiled := by
  obtain ⟨hveiled, hstacked⟩ := hm
  by_cases hsize : m.frames.size ≤ base
  · rw [advance_noFrame hsize] at hrun
    cases hrun
    exact ⟨hveiled, hstacked⟩
  obtain ⟨s, f, hframes, hbase⟩ := Stack.exists_push_of_lt (Nat.lt_of_not_le hsize)
  obtain ⟨T, rfl, hrest, hlifts⟩ := hveiled.atBoundary hstacked hframes hbase
  have hcrossed := hlifts.turned hhost hnative (host.engine_reticent hhost hnative bound)
  rw [advance_eq_turn hframes hbase] at hrun
  generalize turn host (host.engine bound) T.length f { m.collected with frames := s } = x at hcrossed hrun
  cases x with
  | stalled => cases hrun
  | failed e m₁ => exact hcrossed.elim
  | done y m₁ =>
    cases hrun
    cases y with
    | going =>
      obtain ⟨hh, -, ⟨hveiled', ts, htasks, hnested⟩, -⟩ := hcrossed
      exact ⟨hveiled'.plain, ts, T, htasks, rfl, hnested, hrest.sheltered hh⟩
    | finished o =>
      obtain ⟨hh, -, hveiled', htasks, -⟩ := hcrossed
      exact ⟨hveiled'.plain, [], T, htasks, rfl, trivial, hrest.sheltered hh⟩

/-- **What is asked for at a boundary** is clear. -/
theorem Veiled.entered (hhost : host.BySyntax) (hnative : host.Tactful) (hm : (driven (base :: bases) m).Veiled)
    (bound : Nat) (hposes : Poses (fun E => advance host E base) (host.engine bound) m q n) :
    (asked [] q n).Veiled := by
  obtain ⟨hveiled, hstacked⟩ := hm
  obtain ⟨E', hE', hne⟩ := hposes
  refine ⟨?_, trivial⟩
  beta_reduce at hne
  by_cases hsize : m.frames.size ≤ base
  · rw [advance_noFrame hsize, advance_noFrame hsize] at hne
    exact absurd rfl hne
  obtain ⟨s, f, hframes, hbase⟩ := Stack.exists_push_of_lt (Nat.lt_of_not_le hsize)
  obtain ⟨T, rfl, -, hlifts⟩ := hveiled.atBoundary hstacked hframes hbase
  rw [advance_eq_turn hframes hbase, advance_eq_turn hframes hbase] at hne
  exact hlifts.posed_veiled hnative (host.engine_reticent hhost hnative bound) hE' hne

/-- **In no situation that arises a hidden object is shown**, and what is open is nested. -/
theorem Arises.veiled {x : Situation} (hhost : host.BySyntax) (hnative : host.Tactful) (hx : x.Arises host) :
    x.Veiled := by
  induction hx with
  | created hnew => exact ⟨Machine.veiled_create hnew, trivial⟩
  | altered _ hh hveiled htasks ih => exact ⟨hveiled.plain, htasks ▸ ih.2.sheltered hh⟩
  | @collected bases m m' _ hrun ih =>
    obtain ⟨hveiled, hstacked⟩ := ih
    cases hactive : m.active with
    | none =>
      rw [collectGarbage_eq hactive] at hrun
      cases hrun
      exact ⟨hveiled.swept, hveiled.stacked_swept hstacked⟩
    | some a =>
      unfold collectGarbage at hrun
      rw [if_pos (by rw [hactive]; rfl)] at hrun
      cases hrun
      exact ⟨hveiled, hstacked⟩
  | posed _ hq ih => exact ⟨⟨ih.1, hq⟩, ih.2⟩
  | opened _ bound hopens ih => exact ih.opened hhost hopens
  | crossed _ bound hrun ih => exact ih.crossed hhost hnative bound hrun
  | @closed bases m _ ih =>
    obtain ⟨hveiled, ts, rest, htasks, hlength, -, hrest⟩ := ih
    have hsize := congrArg List.length htasks
    rw [m.size_tasks, List.length_append] at hsize
    obtain rfl : ts = [] := List.eq_nil_of_length_eq_zero (by omega)
    exact ⟨hveiled, htasks ▸ hrest⟩
  | entered _ bound hposes ih => exact ih.entered hhost hnative bound hposes
  | @served bases callee receiver args n n' q _ hactive bound hposes ih =>
    obtain ⟨⟨hveiled, hcallee, hreceiver, hargs⟩, -⟩ := ih
    obtain ⟨E', hE', hne⟩ := hposes
    exact ⟨openCall_posed (S := ⟨⟨n.realm, []⟩, n.tasks⟩) hnative (host.engine_reticent hhost hnative bound _) hE'
      ⟨hveiled, rfl, hactive⟩ (hveiled.callRequest hcallee hreceiver hargs) _ _ hne, trivial⟩

/-! ### What else a host does -/

/-- **What is reticent the host may do** to the heap. -/
theorem Arises.worked (hhost : host.BySyntax) (hnative : host.Tactful) (hm : (driven bases m).Arises host)
    {p : Proc Heap α} {Q : Heap → α → Prop} {x : α} (hp : Reticent ⟨⟨m.realm, []⟩, m.tasks⟩ m.heap (Run.onHeap p) Q)
    (hdone : p m.heap = .done x h') : (driven bases { m with heap := h' }).Arises host := by
  have hveiled := (hm.veiled hhost hnative).1
  -- the heap does not tell whether a task runs
  have hrun := hp { m with active := some ⟨0, false⟩ } rfl ⟨hveiled.congr rfl rfl rfl, rfl, rfl⟩
  rw [Run.onHeap_done (m := { m with active := some ⟨0, false⟩ }) hdone] at hrun
  exact hm.altered hrun.1 (hrun.2.1.veiled.congr rfl rfl rfl) rfl

/-- The innermost frame is made to fail. -/
theorem Arises.aborted (hhost : host.BySyntax) (hnative : host.Tactful) (hm : (driven bases m).Arises host) {e : Error}
    (he : m.heap.Clear e) (hrun : (abort e m).state? = some m') : (driven bases m').Arises host := by
  unfold abort at hrun
  by_cases hempty : m.frames.isEmpty = true
  · rw [if_pos hempty] at hrun
    cases hrun
    exact hm
  · rw [if_neg hempty] at hrun
    cases hrun
    have hgiven := (hm.veiled hhost hnative).1.give (k := (·.aborted e)) fun i hi => by
      cases i <;> exact he
    exact hm.altered (.refl _) hgiven.1 hgiven.2

/-- Time passes, limits are changed, or the run is interrupted. -/
theorem Arises.elapsed (hhost : host.BySyntax) (hnative : host.Tactful) (hm : (driven bases m).Arises host)
    (k : Monitor) : (driven bases { m with monitor := k }).Arises host :=
  hm.altered (.refl _) ((hm.veiled hhost hnative).1.congr rfl rfl rfl) rfl

/-- The idle host starts a program. -/
theorem Arises.started (hhost : host.BySyntax) (hnative : host.Tactful) (hm : (driven bases m).Arises host)
    (hactive : m.active = none) (body : List Stmt) :
    (driven (m.frames.size :: bases) (m.openFrame (.ofRequest (.program body m.realm.globalScope)) ⟨.program, {}⟩ 0
      false false)).Arises host := by
  have hscope := (Heap.clear_realm (hm.veiled hhost hnative).1.clear).1
  have hclear : Query.Clear m.heap (.branch (.program body m.realm.globalScope)) :=
    Heap.clear_request.mpr ⟨hscope, Heap.clear_options.mpr ⟨Heap.clear_none, Heap.clear_none⟩⟩
  refine (hm.posed hclear).opened 0 ⟨_, hhost _, ?_⟩
  unfold Machine.childContext
  rw [hactive]
  rfl

/-- Boundary after boundary. -/
theorem Arises.crossed_times {bound : Nat} (n : Nat) (hm : (driven (base :: bases) m).Arises host)
    (hrun : crossings host (host.engine bound) base n m = some m') : (driven (base :: bases) m').Arises host :=
  crossings_keep (P := fun m => (driven (base :: bases) m).Arises host)
    (fun hm hadvance => hm.crossed bound (by rw [hadvance]; rfl)) n hm hrun

end Situation

end ScriptCore
