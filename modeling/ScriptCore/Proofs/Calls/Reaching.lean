import ScriptCore.Proofs.Calls.Enclosing
import ScriptCore.Proofs.Calls.Globals

/-! # What a host can reach

A host opens branches and calls on a machine, drives what is open over its boundaries, collects garbage, aborts what
runs and lets time pass. While a task runs it has more code run by the engine, on a machine that no boundary shows.
What it asks the engine for is what its run depends on: a run that comes to something else when the engine gives
another answer has asked. So the machines on which such runs begin are reached as well, at any depth of nesting.

* `Query`, `Asks`: **what running code asks an engine for.**
* `Routine.refused`: a run that asks fails if the engine does.
* `Routine.asked_keeps`: what running code keeps true holds where it asks.
* `Routine.asked_lawfully`: running code asks for nothing but what can be run.
* `Machine.Reaches`: **the machines that a host can reach.**
* `World.Follows`, `Machine.Reaches.follows`: **on each of them the world is lawful**, and the open frames can go on. -/

namespace ScriptCore

open Heap (Binds)

variable {α : Type} {S : Setting} {own : Handle → Prop} {w w' : World} {host : Host} {E E' : Engine}
  {m m' n n' m₁ : Machine} {q : Query} {base : Nat} {f : Frame} {i : Option (Except Error Completion)}

/-! ### Asking -/

/-- What running code asks an engine for. -/
inductive Query where
  | branch (r : BranchRequest)
  | call (callee receiver : Value) (args : List Value)

/-- The engines give the same answers, but for the query on the machine `n`. -/
structure Engine.AgreesBut (q : Query) (n : Machine) (E E' : Engine) : Prop where
  evaluate : ∀ r m, ¬ (q = .branch r ∧ n = m) → E'.evaluate r m = E.evaluate r m
  call : ∀ callee receiver args m, ¬ (q = .call callee receiver args ∧ n = m) →
    E'.call callee receiver args m = E.call callee receiver args m

/-- **The run on `m` asks the engine for `q` on `n`**: it comes to something else with another answer. -/
def Asks (P : Engine → Run α) (E : Engine) (m : Machine) (q : Query) (n : Machine) : Prop :=
  ∃ E', E.AgreesBut q n E' ∧ P E' m ≠ P E m

open Classical in
/-- The engine, but that it fails when it is asked for `q` on `n`. -/
noncomputable def Engine.refusing (E : Engine) (q : Query) (n : Machine) (e : Error) (n' : Machine) : Engine :=
  { E with
    evaluate := fun r m => if q = .branch r ∧ n = m then .failed e n' else E.evaluate r m
    call := fun callee receiver args m =>
      if q = .call callee receiver args ∧ n = m then .failed e n' else E.call callee receiver args m }

theorem Engine.agreesBut_refusing (E : Engine) (q : Query) (n : Machine) (e : Error) (n' : Machine) :
    E.AgreesBut q n (E.refusing q n e n') :=
  ⟨fun _ _ hother => if_neg hother, fun _ _ _ _ hother => if_neg hother⟩

/-- **A run that asks fails if the engine does**: nothing that running code may do keeps an answer to itself. -/
theorem Routine.refused {P : Engine → Run α} (hP : Routine P) (E : Engine) (q : Query) (n : Machine) (e : Error)
    (n' : Machine) {E' : Engine} (hE' : E.AgreesBut q n E') {m : Machine} (hasks : P E' m ≠ P E m) :
    P (E.refusing q n e n') m = .failed e n' := by
  induction hP generalizing m E' with
  | pure a => exact absurd rfl hasks
  | fail e => exact absurd rfl hasks
  | onHeap hp => exact absurd rfl hasks
  | look f => exact absurd rfl hasks
  | evaluate r => exact if_pos (by_contra fun hother => hasks (hE'.evaluate r m hother))
  | call callee receiver args => exact if_pos (by_contra fun hother => hasks (hE'.call callee receiver args m hother))
  | @bind α β P F _ _ ihp ihf =>
    have hrefusing := E.agreesBut_refusing q n e n'
    beta_reduce at hasks ⊢
    by_cases hfirst : P (E.refusing q n e n') m = .failed e n'
    · exact Proc.bind_failed hfirst _
    -- the first part asks nothing of the kind, so the answers differ in the second
    have hsame : ∀ {E'}, E.AgreesBut q n E' → P E' m = P E m := fun hE' =>
      by_contra fun hne => hfirst (ihp hE' hne)
    cases hrun : P E m with
    | failed e' m₁ => exact absurd (by rw [Proc.bind_failed hrun, Proc.bind_failed ((hsame hE').trans hrun)]) hasks
    | stalled => exact absurd (by rw [Proc.bind_stalled hrun, Proc.bind_stalled ((hsame hE').trans hrun)]) hasks
    | done a m₁ =>
      rw [Proc.bind_done hrun, Proc.bind_done ((hsame hE').trans hrun)] at hasks
      rw [Proc.bind_done ((hsame hrefusing).trans hrun)]
      exact ihf a hE' hasks

/-- **What running code keeps true holds where it asks**: an engine that refuses there keeps it true, too, and the run
ends there. -/
theorem Routine.asked_keeps {I : Machine → Prop} {P : Engine → Run α} (hP : Routine P) (hE : E.Keeps I)
    (hheap : ∀ {β : Type} {p : Proc Heap β}, Heap.Routine ObjectKind.Scripted p → Proc.Keeps I (Run.onHeap p))
    (hm : I m) (hasks : Asks P E m q n) : I n := by
  have hrefusing : (E.refusing q n .outOfMemory n).Keeps I := by
    refine ⟨fun r m hm => ?_, fun callee receiver args m hm => ?_⟩
    · by_cases hhere : q = .branch r ∧ n = m
      · rw [show (E.refusing q n .outOfMemory n).evaluate r m = .failed .outOfMemory n from if_pos hhere]
        exact hhere.2 ▸ hm
      · rw [(E.agreesBut_refusing q n _ _).evaluate _ _ hhere]
        exact hE.evaluate r m hm
    · by_cases hhere : q = .call callee receiver args ∧ n = m
      · rw [show (E.refusing q n .outOfMemory n).call callee receiver args m = .failed .outOfMemory n from if_pos hhere]
        exact hhere.2 ▸ hm
      · rw [(E.agreesBut_refusing q n _ _).call _ _ _ _ hhere]
        exact hE.call callee receiver args m hm
  obtain ⟨E', hE', hne⟩ := hasks
  have hran := hP.keeps hrefusing hheap m hm
  rwa [hP.refused E q n .outOfMemory n hE' hne] at hran

/-- What is asked for can be run: its scope is live, or its values name no private object. -/
def Query.Shown (R : Realm) (h : Heap) : Query → Prop
  | .branch r => ∃ sc, h.scope r.scope = .ok sc
  | .call callee receiver args => callee.Public R h ∧ receiver.Public R h ∧ ∀ v ∈ args, v.Public R h

/-- **Running code asks only for what can be run**, and on machines of a lawful world. If it were not so, an engine
that refuses would be fair, and the run would end where no task is active. -/
theorem Routine.asked_lawfully {P : Engine → Run α} {Q : World → α → Prop} (hP : Routine P)
    (hworks : ∀ E : Engine, E.Fair S → Works S own w (P E) Q) (hE : E.Fair S) (hw : w.Lawful S)
    (hown : ∀ x, w.Fresh x → own x) (hm : w.At S m) (hasks : Asks P E m q n) :
    ∃ w₁ : World, w₁.Lawful S ∧ w₁.At S n ∧ q.Shown S.realm w₁.heap := by
  by_contra hnever
  have hfair : (E.refusing q n .outOfMemory { n with active := none }).Fair S := by
    refine ⟨fun {own w₁} e {s o} hs hw₁ hown₁ m₁ hm₁ => ?_, fun {own w₁ g u args} hg hu hargs hw₁ hown₁ m₁ hm₁ => ?_⟩
    · by_cases hhere : q = .branch (.expression e s) ∧ n = m₁
      · obtain ⟨rfl, rfl⟩ := hhere
        exact absurd ⟨w₁, hw₁, hm₁, hs.imp fun _ hsc => hsc.1⟩ hnever
      · rw [(E.agreesBut_refusing q n _ _).evaluate _ _ hhere]
        exact hE.evaluate e hs hw₁ hown₁ m₁ hm₁
    · by_cases hhere : q = .call g u args ∧ n = m₁
      · obtain ⟨rfl, rfl⟩ := hhere
        exact absurd ⟨w₁, hw₁, hm₁, hg, hu, hargs⟩ hnever
      · rw [(E.agreesBut_refusing q n _ _).call _ _ _ _ hhere]
        exact hE.call hg hu hargs hw₁ hown₁ m₁ hm₁
  obtain ⟨E', hE', hne⟩ := hasks
  have hran := hworks _ hfair hw hown m hm
  rw [hP.refused E q n .outOfMemory { n with active := none } hE' hne] at hran
  obtain ⟨w', -, hat, -⟩ := hran
  cases hat.active

/-! ### Machines that are reached -/

/-- The frame of what is asked for is opened on top of the others. -/
def Query.Opens (host : Host) (E : Engine) (n : Machine) : Query → Machine → Prop
  | .branch r, n' => ∃ task, host.branch r = .ok task ∧
      n' = n.openFrame task r.info n.childContext.1 n.childContext.2 false
  | .call callee receiver args, n' =>
      openCall host E (n.callRequest callee receiver args) n.childContext.1 n.childContext.2 n = .done none n'

namespace Machine

/-- **At the next boundary the task of the frame runs** on the machine `m₁`, with what the frame is given. -/
def Runs (m : Machine) (base : Nat) (f : Frame) (i : Option (Except Error Completion)) (m₁ : Machine) : Prop :=
  base < m.frames.size ∧ ∃ m₀ m₂ m₃ saved, collectIfDue m = .done () m₀ ∧ popFrame m₀ = .done (some (f.fed i)) m₂ ∧
    tickUnlessFailed i m₂ = .done (.ok ()) m₃ ∧ swapActive (some ⟨f.depth, f.quiet⟩) m₃ = .done saved m₁

/-- The machine on which a task runs is that of the boundary, after the collection. -/
theorem Runs.exists_eq (hruns : m.Runs base f i m₁) : ∃ (s : Stack Frame) (l : Monitor), m.frames = s.push (f.fed i) ∧
    base ≤ s.size ∧ m₁ = { m.collected with frames := s, monitor := l, active := some ⟨f.depth, f.quiet⟩ } := by
  obtain ⟨hsize, m₀, m₂, m₃, saved, hcollect, hpop, htick, hswap⟩ := hruns
  cases (collectIfDue_eq m).symm.trans hcollect
  obtain ⟨s, g, hframes, hbase⟩ := Stack.exists_push_of_lt hsize
  have htop : popFrame m.collected = .done (some g) { m.collected with frames := s } := by
    show Outcome.done m.collected.frames.top? { m.collected with frames := m.collected.frames.pop } = _
    rw [Machine.frames_collected, hframes, Stack.top?_push, Stack.pop_push]
  cases htop.symm.trans hpop
  have hcrossed := (tickUnlessFailed_eq i _).symm.trans htick
  injection hcrossed with hok hmachine
  subst hmachine
  cases hswap
  exact ⟨s, _, hframes, hbase, rfl⟩

theorem Runs.eq (hruns : m.Runs base f i m₁) :
    ∃ s : Stack Frame, m.frames = s.push (f.fed i) ∧ base ≤ s.size ∧ m₁.heap = m.collected.heap ∧
      m₁.realm = m.collected.realm ∧ m₁.active.isSome = true := by
  obtain ⟨s, l, hframes, hbase, rfl⟩ := hruns.exists_eq
  exact ⟨s, hframes, hbase, rfl, rfl, rfl⟩

/-- If there is fuel and time left, and no interrupt, the task of a frame runs with what the frame is given. -/
theorem exists_runs {s : Stack Frame} (hframes : m.frames = s.push (f.fed i)) (hbase : base ≤ s.size)
    (hgoes : (m.collected.monitor.crossed i).1 = .ok ()) : ∃ m₁, m.Runs base f i m₁ := by
  have hpop : popFrame m.collected = .done (some (f.fed i)) { m.collected with frames := s } := by
    show Outcome.done m.collected.frames.top? { m.collected with frames := m.collected.frames.pop } = _
    rw [Machine.frames_collected, hframes, Stack.top?_push, Stack.pop_push]
  have htick := tickUnlessFailed_eq i { m.collected with frames := s }
  rw [hgoes] at htick
  refine ⟨_, by rw [hframes, Stack.size_push]; omega, _, _, _, _, collectIfDue_eq m, hpop, htick, rfl⟩

/-- The task that runs is the innermost one. -/
theorem Runs.tasksAbove (hruns : m.Runs base f i m₁) : ∃ ts, m.tasksAbove base = f.task :: ts := by
  obtain ⟨s, hframes, hbase, -⟩ := hruns.eq
  refine ⟨(s.above base).map (·.task), ?_⟩
  unfold Machine.tasksAbove
  rw [hframes, Stack.above_push hbase, List.map_cons]
  cases i <;> rfl

/-- **The machines that a host can reach**, with the height above which frames are driven. -/
inductive Reaches (host : Host) : Nat → Machine → Prop where
  | prepared {m : Machine} (hm : m.Prepared host) (hidle : m.frames = .empty) : Reaches host 0 m
  /-- The host opens a branch or a call. -/
  | opened {base : Nat} {m m' : Machine} {q : Query} (hm : Reaches host base m) (bound : Nat)
      (hq : q.Shown m.realm m.heap) (hopens : q.Opens host (host.engine bound) m m') : Reaches host m.frames.size m'
  /-- The innermost frame is driven over one boundary. -/
  | crossed {base : Nat} {m m' : Machine} (hm : Reaches host base m) (bound : Nat)
      (hrun : (advance host (host.engine bound) base m).state? = some m') : Reaches host base m'
  | collected {base : Nat} {m m' : Machine} (hm : Reaches host base m)
      (hrun : (collectGarbage m).state? = some m') : Reaches host base m'
  /-- The innermost frame is made to fail. -/
  | aborted {base : Nat} {m m' : Machine} {e : Error} (hm : Reaches host base m) (he : e.Public m.realm m.heap)
      (hrun : (abort e m).state? = some m') : Reaches host base m'
  /-- Time passes, limits are changed, or the run is interrupted. -/
  | elapsed {base : Nat} {m : Machine} (hm : Reaches host base m) (k : Monitor) :
      Reaches host base { m with monitor := k }
  /-- The task of the innermost frame has more code run. -/
  | entered {base : Nat} {m m₁ n n' : Machine} {f : Frame} {i : Option (Except Error Completion)} {q : Query}
      (hm : Reaches host base m) (bound : Nat) (hruns : m.Runs base f i m₁)
      (hasks : Asks (fun E => f.task.doing E i) (host.engine bound) m₁ q n)
      (hopens : q.Opens host (host.engine bound) n n') : Reaches host n.frames.size n'

end Machine

/-! ### The world of a machine -/

/-- **The world follows the machine**: it has its heap and is lawful, and the frames above `base` stand in it, each
task inside the next. -/
structure World.Follows (S : Setting) (w : World) (base : Nat) (m : Machine) : Prop where
  lawful : w.Lawful S
  describes : w.Describes S m
  stands : w.Stands S (fun _ => True) (m.frames.above base)
  nested : w.heap.Nested (m.tasksAbove base)

namespace World.Follows

theorem nil (hw : w.Lawful S) (hm : w.Describes S m) (habove : m.frames.above base = []) : w.Follows S base m :=
  ⟨hw, hm, habove ▸ .nil, by rw [Machine.tasksAbove, habove]; trivial⟩

/-- A frame is opened. -/
theorem opened (hw : w.Lawful S) (hm : w.Describes S m) {t : Task} {info : BranchInfo} {depth : Nat}
    {quiet isCall : Bool} (ht : t.Proper S w) (hnew : ∀ x, ¬ t.Owns w x) (hready : t.Ready w.heap) :
    w.Follows S m.frames.size (m.openFrame t info depth quiet isCall) := by
  have habove : (m.openFrame t info depth quiet isCall).frames.above m.frames.size =
      [⟨t, info, depth, quiet || info.options.isQuiet, isCall, .start⟩] := by
    rw [Machine.frames_openFrame, Stack.above_push le_rfl, Stack.above_eq_nil le_rfl]
  refine ⟨hw, hm.congr (Machine.heap_openFrame ..) (Machine.realm_openFrame ..), ?_, ?_⟩
  · rw [habove]
    exact World.Stands.nil.push ⟨ht, trivial⟩ hnew
  · rw [Machine.tasksAbove, habove]
    exact ⟨hready, by simp, trivial⟩

/-- **What is asked for is opened.** -/
theorem queried (hhost : host.BySyntax) (hforbids : ∀ name, ¬ S.forbids name) (hw : w.Lawful S)
    (hm : w.Describes S n) (hq : q.Shown S.realm w.heap) (hopens : q.Opens host E n n') :
    w.Follows S n.frames.size n' := by
  cases q with
  | branch r =>
    obtain ⟨task, htask, rfl⟩ := hopens
    cases (hhost r).symm.trans htask
    obtain ⟨sc, hsc⟩ := hq
    obtain ⟨hproper, hnew⟩ := Task.proper_ofRequest (S := S) (w := w) (r := r)
      ⟨⟨sc.object, sc, hsc, rfl⟩, fun _ _ _ _ _ => hforbids _⟩
    exact opened hw hm hproper hnew (Task.ready_ofRequest r)
  | call callee receiver args =>
    have hproper : (n.callRequest callee receiver args).Proper S w := by
      obtain ⟨sc, hsc, -⟩ := hw.realm.scope
      refine ⟨hq.1, hq.2.1, hq.2.2, sc.object, sc, ?_, rfl⟩
      show w.heap.scope n.realm.globalScope = .ok sc
      rw [hm.realm]
      exact hsc
    obtain ⟨c, hc, rfl⟩ := openCall_opens hopens
    obtain ⟨htask, hnew⟩ := proper_requestedCall hw hm hproper hc
    obtain ⟨g, cl, -, -, hcall, -⟩ := Machine.requestedCall_ok hc
    exact opened (m := { n with monitor := { n.monitor with calls := c.calls } }) hw (hm.congr rfl rfl) htask hnew
      (hcall ▸ Task.ready_ofCall g cl _)

/-- **Collecting garbage.** What the realm and the frames hold is reported. -/
theorem swept (hm : w.Follows S base m) : (w.sweep m.handles).Follows S base m.swept := by
  have hrealm : ∀ x ∈ S.realm.handles, x ∈ m.handles := fun x hx =>
    List.mem_append_left _ (hm.describes.realm ▸ hx)
  have hshrinks := Heap.shrinks_collect hm.lawful.heap.valid m.handles
  have hkept : ∀ f ∈ m.frames.above base, ∀ x ∈ f.handles, w.heap.Retains (w.heap.collect m.handles) x :=
    fun f hf x hx => Heap.retains_collect hm.lawful.heap.valid
      (List.mem_append_right _ (List.mem_flatMap_of_mem (List.mem_of_mem_take hf) hx))
  refine ⟨hm.lawful.sweep hrealm, ⟨?_, hm.describes.realm⟩, hm.stands.shrunk hm.lawful hshrinks hkept,
    hm.nested.shrunk hshrinks fun t ht x hx => ?_⟩
  · show m.heap.collect m.handles = w.heap.collect m.handles
    rw [hm.describes.heap]
  · obtain ⟨f, hf, rfl⟩ := List.mem_map.mp ht
    exact hkept f hf x (List.mem_append_left _ (List.mem_append_left _ hx))

theorem collectedIfDue (hm : w.Follows S base m) : ∃ w' : World, w'.Follows S base m.collected := by
  rcases m.collected_cases with h | h
  · exact ⟨_, h ▸ hm.swept⟩
  · exact ⟨w, h.symm ▸ hm⟩

/-- At a boundary, after the collection, the frames below the innermost one are held. -/
theorem held (hm : w.Follows S base m) (s : Stack Frame) :
    Held m.collected.active s m.monitor.limits { m.collected with frames := s } := by
  obtain ⟨w₁, hm₁⟩ := hm.collectedIfDue
  exact ⟨rfl, rfl, by simp, hm₁.describes.heap ▸ hm₁.lawful.heap.scripted⟩

/-- **Crossing a boundary** above which a frame is open: after a collection, if one is due, the world is changed by
acts. -/
theorem crossed_acts (hhost : host.BySyntax) (hm : w.Follows S base m) (hsize : base < m.frames.size) (bound : Nat)
    (hrun : (advance host (host.engine bound) base m).state? = some m') : ∃ w₁ w' : World,
      w₁.Follows S base m.collected ∧ Acts S (fun _ => True) w₁ w' ∧ w'.Follows S base m' := by
  obtain ⟨s, f, hframes, hbase⟩ := Stack.exists_push_of_lt hsize
  obtain ⟨w₁, hm₁⟩ := hm.collectedIfDue
  have hstands := hm₁.stands
  have hnested := hm₁.nested
  rw [Machine.tasksAbove] at hnested
  rw [Machine.frames_collected, hframes, Stack.above_push hbase] at hstands hnested
  have hheld := hm.held s
  have hholds := host.engine_holds bound
  have hfair : (host.engine bound).Fair S := host.engine_fair hhost bound
  have hdescribes : w₁.Describes S { m.collected with frames := s } := hm₁.describes.congr rfl rfl
  have hturn := turn_leads hhost hfair hholds hm₁.lawful (fun _ _ => trivial) hdescribes hheld hbase hstands
  rw [advance_eq_turn hframes hbase] at hrun
  obtain hstalled | ⟨r, m₂, s', hdone, hrestacked, hheld'⟩ := turn_restacks host hholds hheld hbase f
  · rw [hstalled] at hrun
    cases hrun
  rw [hdone] at hrun hturn
  cases hrun
  obtain ⟨w', hacts, hm', hleaves⟩ := hturn
  refine ⟨w₁, w', hm₁, hacts, ?_⟩
  cases r with
  | finished o =>
    cases hrestacked with
    | finished _ hs =>
      exact .nil (hacts.lawful hm₁.lawful) hm' (by rw [hheld'.frames]; exact Stack.above_eq_nil hs.le)
  | going =>
    refine ⟨hacts.lawful hm₁.lawful, hm', hleaves, ?_⟩
    rw [← hm'.heap]
    exact turn_nests hhost hfair hholds hm₁.lawful hdescribes hheld hbase hstands hnested hdone

/-- **Crossing a boundary.** -/
theorem crossed (hhost : host.BySyntax) (hm : w.Follows S base m) (bound : Nat)
    (hrun : (advance host (host.engine bound) base m).state? = some m') : ∃ w' : World, w'.Follows S base m' := by
  by_cases hsize : base < m.frames.size
  · obtain ⟨-, w', -, -, hm'⟩ := hm.crossed_acts hhost hsize bound hrun
    exact ⟨w', hm'⟩
  · rw [advance_noFrame (Nat.le_of_not_lt hsize)] at hrun
    cases hrun
    exact ⟨w, hm⟩

/-- **Aborting** what runs. -/
theorem aborted (hm : w.Follows S base m) {e : Error} (he : e.Public m.realm m.heap)
    (hrun : (abort e m).state? = some m') : w.Follows S base m' := by
  unfold abort at hrun
  by_cases hempty : m.frames.isEmpty = true
  · rw [if_pos hempty] at hrun
    cases hrun
    exact hm
  · rw [if_neg hempty] at hrun
    cases hrun
    obtain ⟨s, f, hframes⟩ := Stack.exists_push (s := m.frames) (by
      rw [m.frames.size_eq]
      exact List.length_pos_of_ne_nil fun hnil => hempty (List.isEmpty_iff.mpr hnil))
    have hpublic : e.Public S.realm w.heap := by rwa [hm.describes.heap, hm.describes.realm] at he
    by_cases hbase : base ≤ s.size
    · have hstands := hm.stands
      have hnested := hm.nested
      rw [Machine.tasksAbove] at hnested
      rw [hframes, Stack.above_push hbase] at hstands hnested
      refine ⟨hm.lawful, hm.describes.congr rfl rfl, ?_, ?_⟩
      · show w.Stands S _ ((m.frames.modifyTop _).above base)
        rw [hframes, Stack.modifyTop_push, Stack.above_push hbase]
        refine hstands.give rfl ?_
        cases hinput : f.input <;> exact hpublic
      · show w.heap.Nested (((m.frames.modifyTop _).above base).map _)
        rw [hframes, Stack.modifyTop_push, Stack.above_push hbase]
        exact hnested
    · refine .nil hm.lawful (hm.describes.congr rfl rfl) (Stack.above_eq_nil ?_)
      show (m.frames.modifyTop _).size ≤ base
      rw [hframes, Stack.modifyTop_push, Stack.size_push]
      omega

/-- **When a task runs**, it is one that can go on, in a world of the machine that it runs on. -/
theorem runs (hm : w.Follows S base m) (hruns : m.Runs base f i m₁) :
    ∃ w₁ : World, w₁.Lawful S ∧ w₁.At S m₁ ∧ f.task.Proper S w₁ ∧ (∀ o, i = some o → w₁.Outputs S o) ∧
      w₁.heap.Nested (m.tasksAbove base) := by
  obtain ⟨s, hframes, hbase, hheap, hrealm, hactive⟩ := hruns.eq
  obtain ⟨w₁, hm₁⟩ := hm.collectedIfDue
  have hstands := hm₁.stands
  rw [Machine.frames_collected, hframes, Stack.above_push hbase] at hstands
  have hnested := hm₁.nested
  rw [Machine.tasksAbove, Machine.frames_collected] at hnested
  refine ⟨w₁, hm₁.lawful, ⟨hheap.trans hm₁.describes.heap, hrealm.trans hm₁.describes.realm, hactive⟩, ?_, ?_, hnested⟩
  · have htask := hstands.head.task
    cases i <;> exact htask
  · rintro o rfl
    exact hstands.head.input

/-- **What the task then asks for** can be run, in a world of the machine on which it asks. -/
theorem asked (hhost : host.BySyntax) (hm : w.Follows S base m) (bound : Nat) (hruns : m.Runs base f i m₁)
    (hasks : Asks (fun E => f.task.doing E i) (host.engine bound) m₁ q n) :
    ∃ w' : World, w'.Lawful S ∧ w'.At S n ∧ q.Shown S.realm w'.heap := by
  obtain ⟨w₁, hw₁, hat, htask, hinput, -⟩ := hm.runs hruns
  exact (f.task.routine_doing i).asked_lawfully
    (fun E hE => show Works S (fun _ => True) w₁ (f.task.doing E i) _ from
      Task.works_doing hE htask (fun _ _ => trivial) hinput)
    (host.engine_fair hhost bound) hw₁ (fun _ _ => trivial) hat hasks

end World.Follows

/-- **On each machine that a host can reach the world is lawful**, and the open frames can go on, each task inside
the next. -/
theorem Machine.Reaches.follows (hhost : host.BySyntax) (hm : m.Reaches host base) :
    ∃ w : World, w.Follows ⟨m.realm, fun _ => False⟩ base m := by
  -- the realm is the same all along the way
  have keep : ∀ {R : Realm} {w : World} {base : Nat} {m : Machine}, w.Follows ⟨R, fun _ => False⟩ base m →
      ∃ w : World, w.Follows ⟨m.realm, fun _ => False⟩ base m := fun h => by
    cases h.describes.realm
    exact ⟨_, h⟩
  induction hm with
  | prepared hm hidle =>
    obtain ⟨w, hw⟩ := hm.recounts hhost
    exact ⟨w, .nil hw.lawful hw.describes (by rw [hidle]; rfl)⟩
  | opened _ bound hq hopens ih =>
    obtain ⟨w, hw⟩ := ih
    exact keep (.queried hhost (fun _ => id) hw.lawful hw.describes (hw.describes.heap ▸ hq) hopens)
  | crossed _ bound hrun ih =>
    obtain ⟨w, hw⟩ := ih
    obtain ⟨w', hw'⟩ := hw.crossed hhost bound hrun
    exact keep hw'
  | @collected base m m' _ hrun ih =>
    obtain ⟨w, hw⟩ := ih
    cases hactive : m.active with
    | none =>
      rw [collectGarbage_eq hactive] at hrun
      cases hrun
      exact keep hw.swept
    | some a =>
      unfold collectGarbage at hrun
      rw [if_pos (by rw [hactive]; rfl)] at hrun
      cases hrun
      exact keep hw
  | aborted _ he hrun ih =>
    obtain ⟨w, hw⟩ := ih
    exact keep (hw.aborted he hrun)
  | elapsed _ k ih =>
    obtain ⟨w, hw⟩ := ih
    exact ⟨w, hw.lawful, hw.describes.congr rfl rfl, hw.stands, hw.nested⟩
  | @entered base m m₁ n n' f i q _ bound hruns hasks hopens ih =>
    obtain ⟨w, hw⟩ := ih
    obtain ⟨w₁, hw₁, hat, hq⟩ := hw.asked hhost bound hruns hasks
    exact keep (.queried hhost (fun _ => id) hw₁ ⟨hat.heap, hat.realm⟩ hq hopens)

/-! ### Running a program -/

namespace Machine.Reaches

/-- Boundary after boundary brings a machine on. -/
theorem crossed_times {bound : Nat} (n : Nat) (hm : m.Reaches host base)
    (hrun : crossings host (host.engine bound) base n m = some m') : m'.Reaches host base :=
  crossings_keep (fun hm hadvance => hm.crossed bound (by rw [hadvance]; rfl)) n hm hrun

end Machine.Reaches

/-- A program is started on a new machine. -/
theorem Machine.reaches_openedProgram {limits : HeapLimits} {body : List Stmt}
    (hopened : openedProgram limits body = some m) : m.Reaches (Host.plain []) 0 := by
  obtain ⟨m₀, hcreate, rfl⟩ := Option.map_eq_some_iff.mp hopened
  have hnew := Except.eq_ok_of_toOption hcreate
  have hheld := Machine.held_create hnew
  obtain ⟨sc, hsc, -⟩ := (Machine.recounts_create hnew fun _ => False).lawful.realm.scope
  have hopens : (Query.branch (.program body m₀.realm.globalScope)).Opens (Host.plain []) ((Host.plain []).engine 0) m₀
      (m₀.openFrame (.ofRequest (.program body m₀.realm.globalScope)) ⟨.program, {}⟩ 0 false false) := by
    refine ⟨_, Host.bySyntax_plain [] _, ?_⟩
    unfold Machine.childContext
    rw [hheld.active]
    rfl
  have hm := Machine.Reaches.opened (.prepared (.created hnew) hheld.frames) 0 (q := .branch _) ⟨sc, hsc⟩ hopens
  rwa [hheld.frames] at hm

end ScriptCore
