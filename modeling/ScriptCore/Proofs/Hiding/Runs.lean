import ScriptCore.Proofs.Drive.Isolation
import ScriptCore.Proofs.Hiding.Calls

/-! # Runs show no hidden object

A run drives frames of its own on top of those that wait, and takes them off again. Its tasks are open one inside the
other, and each shows no hidden object. Native functions are trusted not to show any: a `Tactful` one does so where it
works on the machine itself, and it has other code evaluated and called only with what is clear.

* `Task.reticent_doing`: **a task shows no hidden object**, stays what it is, and asks for what is inside it.
* `Tactful`, `Host.Tactful`: what is asked of native functions.
* `Machine.Covers`: frames on top of those that wait, each task inside the next.
* `Machine.Lifts.turned`: **one boundary**; `Machine.Covers.driven`: many of them.
* `Host.engine_reticent`: **runs show no hidden object.** -/

namespace ScriptCore

open Heap (Declares)
open Proc (within)

variable {α β : Type} {S : Scene} {G : Ground} {T ts : List Task} {h h' : Heap} {E : Engine} {host : Host}
  {m m' m₁ : Machine} {f g : Frame} {t u : Task} {v : Value} {s : ScopeRef} {name : String}
  {r : Except Error Completion} {i : Option (Except Error Completion)} {a : Option Active}

/-! ### Open code inside open code -/

theorem Task.Within.sheltered (htu : t.Within h u) (hh : h.Shelters h') : t.Within h' u := fun s name ht => by
  have hu := htu s name ht
  cases u with
  | statement u => exact ⟨hu.1, hu.2.imp_right fun hinner => ⟨hinner.1, hh.inside hinner.2⟩⟩
  | _ => exact hu

theorem Task.Ready.sheltered (ht : t.Ready h) (hh : h.Shelters h') : t.Ready h' := by
  cases t with
  | invocation t =>
    intro hfree hwaits
    obtain ⟨s, hs, hvars⟩ := ht hfree hwaits
    exact ⟨s, hs, fun name hname => (hvars name hname).next hh⟩
  | _ => exact ht

/-- **Code that shows no hidden object leaves the nesting as it is.** -/
theorem Heap.Nested.sheltered (hn : h.Nested ts) (hh : h.Shelters h') : h'.Nested ts := by
  induction ts with
  | nil => trivial
  | cons t ts ih => exact ⟨hn.1.sheltered hh, fun u hu => (hn.2.1 u hu).sheltered hh, ih hn.2.2⟩

/-! ### Tasks -/

/-- A task that is no call keeps no cells. -/
theorem Task.Stored.of_idle (ht : t.cells = []) (hsettled : ∀ o, t ≠ .settled o) : t.Stored h :=
  ⟨fun _ hc => absurd (ht ▸ hc) List.not_mem_nil, hsettled⟩

theorem Task.stored_ofRequest (q : BranchRequest) : (Task.ofRequest q).Stored h := by
  obtain ⟨kind, node, scope, options⟩ := q
  cases node <;> exact .of_idle rfl nofun

/-- **What a task hands over**: itself, still what it was, and what it asks for or ended with. -/
structure Task.Gives (h : Heap) (t : Task) (r : Task × Step) : Prop where
  clear : h.Clear r
  stored : r.1.Stored h
  continues : t.Continues h r

/-- A statement that goes on. -/
theorem StatementTask.reticent_continues {t : StatementTask} (hE : E.Reticent S) (ht : h.Clear t) (hr : h.Clear r) :
    Reticent S h (t.resume E r) fun h' x => h'.Clear x ∧ Task.Continues h' (.statement t) (.statement x.1, x.2) := by
  by_cases hblock : t.state = .tryBlock
  · have hhandle : ∀ {block param handler e}, t.stmt = .tryCatch block param handler → h.Clear e →
        Reticent S h (t.handle param handler e) fun h' x =>
          h'.Clear x ∧ Task.Continues h' (.statement t) (.statement x.1, x.2) := fun hstmt he =>
      ((reticent_handle ht _ _ he).yields (handles_handle hstmt _)).imp
        fun _ _ _ hx => ⟨hx.1.1, hx.2.continues hx.1.2⟩
    unfold resume
    rw [hblock]
    cases hstmt : t.stmt with
    | tryCatch block param handler =>
      dsimp only
      cases r with
      | error e => exact hhandle hstmt hr
      | ok c =>
        cases c with
        | thrown v => exact hhandle (e := .throw v) hstmt hr
        | _ => exact .pure ⟨clear_finish ht hr, (asked_finish t _).continues _⟩
    | _ => exact .refuse fun _ he => by cases he
  · exact ((reticent_resume hE ht hr).yields (yields_asked hblock r)).imp fun h' _ _ hx => ⟨hx.1, hx.2.continues h'⟩

/-- **A task shows no hidden object**, and what it asks for is inside it. -/
theorem Task.reticent_doing (hE : ∀ S, E.Reticent S) (ht : h.Clear t) (hstored : t.Stored h) (hready : t.Ready h)
    (hi : h.Clear i) : Reticent S h (t.doing E i) fun h' x => t.Gives h' x := by
  cases t with
  | statements t =>
    cases i with
    | none =>
      exact .map (((StatementsTask.reticent_start ht).yields (t.yields_start hready)).imp
        fun h' _ _ hx => ⟨hx.1, .of_idle rfl nofun, hx.2.continues h'⟩)
    | some r =>
      exact .map (((StatementsTask.reticent_resume ht hi).yields (t.yields_resume hready r)).imp
        fun h' _ _ hx => ⟨hx.1, .of_idle rfl nofun, hx.2.continues h'⟩)
  | statement t =>
    cases i with
    | none => exact .pure ⟨StatementTask.clear_start ht, .of_idle rfl nofun, t.asked_start.continues _⟩
    | some r =>
      exact .map ((StatementTask.reticent_continues (hE S) ht hi).imp fun _ _ _ hx => ⟨hx.1, .of_idle rfl nofun, hx.2⟩)
  | expression t =>
    cases i with
    | none =>
      exact .map (Reticent.imp (Reticent.yields (ExpressionTask.reticent_start (hE S) ht)
        (ExpressionTask.plain_start.within t)) fun h' _ _ hx =>
          ⟨hx.1, .of_idle rfl nofun, ExpressionTask.continues_of_plain hx.2 h'⟩)
    | some r =>
      exact .map (Reticent.imp (Reticent.yields (ExpressionTask.reticent_resume (hE S) ht hi)
        ((ExpressionTask.plain_resume r).within t)) fun h' _ _ hx =>
          ⟨hx.1, .of_idle rfl nofun, ExpressionTask.continues_of_plain hx.2 h'⟩)
  | invocation t =>
    cases i with
    | none =>
      refine .ite (fun _ => .map ((InvocationTask.reticent_begin hE ht).imp fun h' x _ hx => ?_)) fun _ =>
        .refuse fun _ he => by cases he
      obtain ⟨⟨hclear, hvalues⟩, hfurnished, t', hasked⟩ := hx
      exact ⟨hclear, ⟨hvalues, nofun⟩, hasked.continues hfurnished⟩
    | some r =>
      refine .map ((Reticent.yields (Reticent.yields ((InvocationTask.reticent_goOn (hE _) (List.subset_append_left _ _)
        ht hi).keeping (S := S) hstored.values) (t.yields_goOn r)) (t.waits_of_goOn r)).imp fun h' x hh hx => ?_)
      obtain ⟨⟨⟨⟨hclear, hcells⟩, hvalues⟩, hasked⟩, hwaits⟩ := hx
      refine ⟨hclear, ⟨fun c hc => hvalues c (show c ∈ t.cells from hcells ▸ hc), nofun⟩,
        hasked.continues fun hfree _ => ?_⟩
      obtain ⟨s, hscope, hvars⟩ := hready (hasked.closure ▸ hfree) hwaits
      refine ⟨s, hasked.scope.trans hscope, fun name hname => (hvars name ?_).next hh⟩
      rwa [hasked.closure] at hname
  | settled o => exact absurd rfl (hstored.unsettled o)

/-! ### Native functions -/

theorem Machine.Veiled.congr (hm : m.Veiled G) (hheap : m'.heap = m.heap) (hrealm : m'.realm = m.realm)
    (hframes : m'.frames = m.frames) : m'.Veiled G where
  heap := hheap ▸ hm.heap
  realm := hrealm.trans hm.realm
  clear := hheap ▸ hm.clear
  values := hheap ▸ hm.values
  frames := hheap ▸ hframes ▸ hm.frames

theorem Scene.Holds.withMonitor (hm : S.Holds m) (k : Monitor) : S.Holds { m with monitor := k } :=
  ⟨hm.veiled.congr rfl rfl rfl, hm.tasks, hm.active⟩

/-- What a procedure delivered or failed with. -/
def Heap.Attempted (Q : Heap → α → Prop) (h : Heap) : Except Error α → Prop
  | .ok a => Q h a
  | .error e => h.Clear e

namespace Reticent

variable {p : Run α} {Q : Heap → α → Prop}

theorem attempt (hp : Reticent S h p Q) : Reticent S h p.attempt (Heap.Attempted Q) := by
  intro m hm hS
  have hrun := hp m hm hS
  unfold Proc.attempt
  cases hcase : p m with
  | stalled => trivial
  | failed e m₁ => rw [hcase] at hrun; exact hrun
  | done a m₁ => rw [hcase] at hrun; exact hrun

end Reticent

/-- **Code that shows no hidden object.** It has other code run with what is clear, and works on the machine itself in
ways that show none. -/
inductive Tactful (S : Scene) : {α : Type} → (Engine → Run α) → Heap → (Heap → α → Prop) → Prop where
  | aside {α : Type} {p : Run α} {h : Heap} {Q : Heap → α → Prop} (hp : Reticent S h p Q) : Tactful S (fun _ => p) h Q
  | evaluate {r : BranchRequest} {h : Heap} (hr : h.Clear r) : Tactful S (fun E => E.evaluate r) h Heap.Clear
  | call {f receiver : Value} {args : List Value} {h : Heap} (hf : h.Clear f) (hreceiver : h.Clear receiver)
      (hargs : h.Clear args) : Tactful S (fun E => E.call f receiver args) h Heap.Clear
  | start (r : BranchRequest) (h : Heap) : Tactful S (fun E => E.start r) h Heap.Clear
  | step (h : Heap) : Tactful S (fun E => E.step) h Heap.Clear
  | run (h : Heap) : Tactful S (fun E => E.run) h Heap.Clear
  | execute (body : List Stmt) (h : Heap) : Tactful S (fun E => E.execute body) h Heap.Clear
  | bind {α β : Type} {P : Engine → Run α} {F : Engine → α → Run β} {h : Heap} {Q : Heap → α → Prop}
      {Q' : Heap → β → Prop} (hP : Tactful S P h Q)
      (hF : ∀ h' a, h.Shelters h' → Q h' a → Tactful S (fun E => F E a) h' Q') : Tactful S (fun E => P E >>= F E) h Q'
  | attempt {α : Type} {P : Engine → Run α} {h : Heap} {Q : Heap → α → Prop} (hP : Tactful S P h Q) :
      Tactful S (fun E => (P E).attempt) h (Heap.Attempted Q)

theorem Tactful.reticent {P : Engine → Run α} {Q : Heap → α → Prop} (hP : Tactful S P h Q) (hE : E.Reticent S) :
    Reticent S h (P E) Q := by
  induction hP with
  | aside hp => exact hp
  | evaluate hr => exact hE.evaluate hr
  | call hf hreceiver hargs => exact hE.call hf hreceiver hargs
  | start r => exact hE.start r
  | step => exact hE.step
  | run => exact hE.run
  | execute body => exact hE.execute body
  | bind _ _ ihP ihF => exact ihP.bind ihF
  | attempt _ ihP => exact ihP.attempt

/-- **The native functions of the host show no hidden object.** -/
def Host.Tactful (host : Host) : Prop := ∀ (S : Scene) (h : Heap) (entry : String) (receiver : Value)
  (args : List Value), h.Clear receiver → h.Clear args →
    ScriptCore.Tactful S (fun E => host.native entry E receiver args) h Heap.Clear

theorem reticent_enterCall (name : Option String) : Reticent S h (enterCall name) Heap.Clear := by
  intro m hm hS
  rw [enterCall_eq]
  split
  · exact ⟨hm ▸ .refl _, hS, Heap.clear_error fun _ he => by cases he⟩
  · exact ⟨hm ▸ .refl _, hS.withMonitor _, Heap.clear_unit _⟩

/-- **A native function is called.** -/
theorem tactful_callNative (hhost : host.Tactful) (n : Native) {receiver : Value} {args : List Value}
    (hreceiver : h.Clear receiver) (hargs : h.Clear args) :
    Tactful S (fun E => callNative host E n receiver args) h Heap.Clear := by
  refine (Tactful.aside (reticent_enterCall _)).bind fun h₁ _ hh _ => ?_
  refine (hhost S h₁ n.entry receiver args (hh.clear hreceiver) (hh.clear hargs)).attempt.bind fun h₂ r _ hr => ?_
  have hpop : Reticent S h₂ (modify fun m => { m with monitor := m.monitor.popCall } : Run Unit)
      fun h' _ => h' = h₂ := fun m hm hS => ⟨hm ▸ .refl _, hS.withMonitor _, hm⟩
  refine (Tactful.aside hpop).bind fun h₃ _ _ hsame => ?_
  subst hsame
  exact .aside (.ofExcept (fun a ha => by subst ha; exact hr) fun e he => by subst he; exact hr)

/-! ### Opening a call -/

theorem Heap.Secure.closure {o : ObjectRef} {cl : Closure} (hs : h.Secure) (ho : h.closure o = .ok cl) :
    h.Clear cl := by
  obtain ⟨obj, hobj, hkind⟩ := Heap.closure_eq_ok.mp ho
  have hclear := (Heap.clear_object.mp (hs.object hobj).1).2.2
  rwa [hkind] at hclear

theorem Heap.clear_frame : h.Clear f ↔ h.Clear f.task ∧ h.Clear f.info.options ∧ h.Clear f.input := by
  show h.Clear (f.task, (f.info.options, Plain.mk f.info.kind), f.input, Plain.mk f.depth, Plain.mk f.quiet,
    Plain.mk f.isCall) ↔ _
  simp

namespace Machine

/-- A frame is opened. -/
theorem Veiled.openFrame (hm : m.Veiled G) (info : BranchInfo) (ht : m.heap.Clear t) (hstored : t.Stored m.heap)
    (hinfo : m.heap.Clear info.options) (depth : Nat) (quiet isCall : Bool) :
    (m.openFrame t info depth quiet isCall).Veiled G ∧
      (m.openFrame t info depth quiet isCall).tasks = t :: m.tasks := by
  refine ⟨⟨?_, ?_, ?_, ?_, ?_⟩, ?_⟩
  · rw [heap_openFrame]; exact hm.heap
  · rw [realm_openFrame]; exact hm.realm
  · rw [heap_openFrame]; exact hm.clear
  · rw [heap_openFrame]; exact hm.values
  · rw [heap_openFrame, frames_openFrame, Stack.items_push]
    refine List.forall_mem_cons.mpr ⟨⟨Heap.clear_frame.mpr ⟨ht, hinfo, ?_⟩, hstored⟩, hm.frames⟩
    exact fun _ hr => absurd hr List.not_mem_nil
  · rw [tasks, frames_openFrame]
    rfl

/-- The request for a call from outside a program. -/
theorem Veiled.callRequest (hm : m.Veiled G) {callee receiver : Value} {args : List Value}
    (hcallee : m.heap.Clear callee) (hreceiver : m.heap.Clear receiver) (hargs : m.heap.Clear args) :
    m.heap.Clear (m.callRequest callee receiver args) := by
  have hrealm := hm.clear
  rw [← hm.realm] at hrealm
  exact Heap.clear_call.mpr ⟨hcallee, hreceiver, hargs, (Heap.clear_realm hrealm).1, Heap.clear_none⟩

/-- **What a call opens** shows no hidden object. -/
theorem Veiled.requested (hm : m.Veiled G) {q : CallRequest} {x : Opening} (hq : m.heap.Clear q)
    (hx : m.requestedCall q = .ok x) (depth : Nat) (quiet : Bool) :
    (m.opened x depth quiet).Veiled G ∧ (m.opened x depth quiet).heap = m.heap ∧
      ∃ t, (m.opened x depth quiet).tasks = .invocation t :: m.tasks ∧ (Task.invocation t).Ready m.heap := by
  obtain ⟨hcallee, hreceiver, hargs, hscope, hextra⟩ := Heap.clear_call.mp hq
  obtain ⟨o, cl, hobject, hclosure, htask, hinfo⟩ := requestedCall_ok hx
  have ho : m.heap.Clear o := by rw [hobject] at hcallee; exact hcallee
  have htask' : m.heap.Clear x.task := by
    rw [htask]
    exact Heap.clear_invocation.mpr ⟨ho, hm.heap.closure hclosure, hreceiver, hargs, hscope, hextra, Heap.clear_none,
      by simp [InvocationTask.ofRequest]⟩
  have hinfo' : m.heap.Clear x.info.options := by
    rw [hinfo]
    exact Heap.clear_options.mpr ⟨Heap.clear_none, Heap.clear_some.mpr (Heap.clear_getD hextra hcallee)⟩
  have hcounted : Veiled G { m with monitor := { m.monitor with calls := x.calls } } := hm.congr rfl rfl rfl
  have hstored : x.task.Stored m.heap := by
    rw [htask]
    exact .of_idle (by simp [Task.cells, InvocationTask.cells, InvocationTask.ofRequest]) nofun
  obtain ⟨hveiled, htasks⟩ := hcounted.openFrame x.info htask' hstored hinfo' depth quiet x.isCall
  exact ⟨hveiled, heap_openFrame .., .ofRequest o cl q, htask ▸ htasks, Task.ready_ofCall o cl q⟩

end Machine

/-- **What opening a call comes to**: its frame is on top of those that wait, or it is answered, or refused. -/
def Outcome.OpensCall (S : Scene) (h : Heap) : Outcome Machine (Option Value) → Prop
  | .done none m => m.heap = h ∧ m.Veiled S.toGround ∧ m.active.isSome = true ∧
      ∃ t, m.tasks = .invocation t :: S.tasks ∧ (Task.invocation t).Ready h
  | .done (some v) m => h.Shelters m.heap ∧ S.Holds m ∧ m.heap.Clear v
  | .failed e m => h.Shelters m.heap ∧ S.Holds m ∧ m.heap.Clear e
  | .stalled => True

/-- **A call is opened.** -/
theorem openCall_ends (hhost : host.Tactful) (hE : E.Reticent S) (hm : S.Holds m) {q : CallRequest}
    (hq : m.heap.Clear q) (depth : Nat) (quiet : Bool) : (openCall host E q depth quiet m).OpensCall S m.heap := by
  obtain ⟨-, -, n, -, -, -, hcall⟩ | hcall := openCall_cases host m q depth quiet
  · obtain ⟨-, hreceiver, hargs, -⟩ := Heap.clear_call.mp hq
    have hran := (tactful_callNative hhost n hreceiver hargs).reticent hE m rfl hm
    rw [hcall, map_eq_pure_bind, Proc.bind_eq]
    cases hcase : callNative host E n q.receiver q.args m with
    | stalled => trivial
    | failed e m₁ => rw [hcase] at hran; exact hran
    | done v m₁ => rw [hcase] at hran; exact hran
  · have hmild := m.mild_requestedCall q
    rw [hcall]
    cases hx : m.requestedCall q with
    | error e => exact ⟨.refl _, hm, Heap.clear_of_mild (hx ▸ hmild)⟩
    | ok x =>
      obtain ⟨hveiled, hheap, t, htasks, hready⟩ := hm.veiled.requested hq hx depth quiet
      refine ⟨hheap, hveiled, ?_, t, hm.tasks ▸ htasks, hready⟩
      rw [Machine.opened, Machine.active_openFrame]
      exact hm.active

/-! ### One boundary -/

/-- The machine runs code on top of the tasks that wait, each task inside the next. -/
structure Machine.Covers (G : Ground) (T : List Task) (m : Machine) : Prop where
  veiled : m.Veiled G
  tasks : ∃ ts, m.tasks = ts ++ T ∧ m.heap.Nested ts

/-- From the one machine to the other no hidden object was shown, and the same tasks wait. -/
structure Machine.Shields (G : Ground) (m m' : Machine) : Prop where
  shelters : m.heap.Shelters m'.heap
  veiled : m'.Veiled G
  tasks : m'.tasks = m.tasks
  active : m'.active = m.active

/-- What a part of a boundary may come to. -/
def Outcome.Shields (G : Ground) (m : Machine) (Q : Heap → α → Prop) : Outcome Machine α → Prop
  | .done a m' => m.Shields G m' ∧ Q m'.heap a
  | .failed e m' => m.Shields G m' ∧ m'.heap.Clear e
  | .stalled => True

/-- What a boundary may come to: there is more to drive, or the lowest of the frames closed. -/
def Outcome.Crosses (G : Ground) (T : List Task) (m : Machine) : Outcome Machine Advance → Prop
  | .done .going m' => m.heap.Shelters m'.heap ∧ m'.active = m.active ∧ m'.Covers G T ∧ T.length < m'.frames.size
  | .done (.finished o) m' => m.heap.Shelters m'.heap ∧ m'.active = m.active ∧ m'.Veiled G ∧ m'.tasks = T ∧
      m'.heap.Clear o
  | .failed _ _ => False
  | .stalled => True

theorem Outcome.Crosses.after {x : Outcome Machine Advance} (hx : x.Crosses G T m₁) (hm : m.Shields G m₁) :
    x.Crosses G T m := by
  cases x with
  | stalled => trivial
  | failed e m' => exact hx
  | done y m' => cases y <;> exact ⟨hm.shelters.trans hx.1, hx.2.1.trans hm.active, hx.2.2⟩

/-- The procedure runs with the frame counted as running. -/
theorem Frame.running_shields {p : Run α} {Q : Heap → α → Prop} (hm : m.Veiled G)
    (hp : Reticent ⟨G, m.tasks⟩ m.heap p Q) : (f.running p m).Shields G m Q := by
  have hran := hp { m with active := some ⟨f.depth, f.quiet⟩ } rfl ⟨hm.congr rfl rfl rfl, rfl, rfl⟩
  unfold Frame.running
  cases hcase : p { m with active := some ⟨f.depth, f.quiet⟩ } with
  | stalled => trivial
  | failed e m' =>
    rw [hcase] at hran
    obtain ⟨hh, hS, he⟩ := hran
    exact ⟨⟨hh, hS.veiled.congr rfl rfl rfl, hS.tasks, rfl⟩, he⟩
  | done a m' =>
    rw [hcase] at hran
    obtain ⟨hh, hS, ha⟩ := hran
    exact ⟨⟨hh, hS.veiled.congr rfl rfl rfl, hS.tasks, rfl⟩, ha⟩

/-- **What the task of a frame does at a boundary.** -/
theorem Frame.work_shields (hE : ∀ S, E.Reticent S) (hm : m.Veiled G) (hf : m.heap.Clear f.task)
    (hstored : f.task.Stored m.heap) (hready : f.task.Ready m.heap) (hi : m.heap.Clear i) :
    (f.work E i m).Shields G m f.task.Gives := by
  have hmild := m.monitor.mild_crossed i
  show Outcome.Shields G m _ (Proc.bind (crossing i) (fun _ => f.running (f.task.doing E i)) m)
  unfold Proc.bind crossing
  generalize m.monitor.crossed i = crossed at hmild
  obtain ⟨x, k⟩ := crossed
  have hcounted : Machine.Veiled G { m with monitor := k } := hm.congr rfl rfl rfl
  cases x with
  | error e => exact ⟨⟨.refl _, hcounted, rfl, rfl⟩, Heap.clear_of_mild hmild⟩
  | ok _ =>
    have hran := Frame.running_shields (f := f) hcounted (Task.reticent_doing hE hf hstored hready hi)
    dsimp only at hran ⊢
    cases hcase : f.running (f.task.doing E i) { m with monitor := k } with
    | stalled => trivial
    | failed e m' => rw [hcase] at hran; exact ⟨⟨hran.1.shelters, hran.1.veiled, hran.1.tasks, hran.1.active⟩, hran.2⟩
    | done x m' => rw [hcase] at hran; exact ⟨⟨hran.1.shelters, hran.1.veiled, hran.1.tasks, hran.1.active⟩, hran.2⟩

namespace Machine

/-- The innermost frame is given something else. -/
theorem Veiled.give (hm : m.Veiled G) {k : Input → Input} (hk : ∀ i, m.heap.Clear i → m.heap.Clear (k i)) :
    Veiled G { m with frames := m.frames.modifyTop fun f => { f with input := k f.input } } ∧
      tasks { m with frames := m.frames.modifyTop fun f => { f with input := k f.input } } = m.tasks := by
  have hframes := hm.frames
  have hitems : (m.frames.modifyTop fun f => { f with input := k f.input }).items =
    m.frames.items.modifyHead fun f => { f with input := k f.input } := rfl
  refine ⟨⟨hm.heap, hm.realm, hm.clear, hm.values, ?_⟩, ?_⟩
  · show ∀ f ∈ (m.frames.modifyTop _).items, f.Veiled m.heap
    rw [hitems]
    cases hfs : m.frames.items with
    | nil => exact fun _ hf => absurd hf List.not_mem_nil
    | cons f fs =>
      rw [hfs] at hframes
      obtain ⟨hf, hfs⟩ := List.forall_mem_cons.mp hframes
      obtain ⟨htask, hinfo, hinput⟩ := Heap.clear_frame.mp hf.clear
      exact List.forall_mem_cons.mpr ⟨⟨Heap.clear_frame.mpr ⟨htask, hinfo, hk _ hinput⟩, hf.stored⟩, hfs⟩
  · show (m.frames.modifyTop _).items.map _ = m.frames.items.map _
    rw [hitems]
    cases m.frames.items <;> rfl

/-- The frame was taken off the stack, from above the tasks that wait. -/
structure Lifts (G : Ground) (T : List Task) (f : Frame) (m : Machine) : Prop where
  veiled : m.Veiled G
  frame : f.Veiled m.heap
  tasks : ∃ ts, m.tasks = ts ++ T ∧ m.heap.Nested (f.task :: ts)

/-- A frame closes that was on top of the others. -/
theorem Veiled.closed (hm : m.Veiled G) (htasks : m.tasks = ts ++ T) (hnested : m.heap.Nested ts) (hr : m.heap.Clear r)
    (f : Frame) : (m.closed f r T.length).Crosses G T m := by
  have hsize := congrArg List.length htasks
  rw [size_tasks, List.length_append] at hsize
  have hleft : (m.leave f r).Veiled G := hm.congr (heap_leave ..) (realm_leave ..) (frames_leave ..)
  have htasks' : (m.leave f r).tasks = ts ++ T := by rw [← htasks, Machine.tasks, frames_leave, Machine.tasks]
  unfold Machine.closed
  by_cases hlast : m.frames.size = T.length
  · obtain rfl : ts = [] := List.eq_nil_of_length_eq_zero (by omega)
    rw [if_pos hlast]
    exact ⟨by rw [heap_leave]; exact .refl _, active_leave .., hleft, htasks', by rw [heap_leave]; exact hr⟩
  · rw [if_neg hlast]
    have hgiven := hleft.give (k := fun _ => .deliver r) fun _ _ => by rw [heap_leave]; exact hr
    refine ⟨by show m.heap.Shelters (m.leave f r).heap; rw [heap_leave]; exact .refl _, active_leave .., ⟨hgiven.1,
      ts, hgiven.2.trans htasks', ?_⟩, ?_⟩
    · show (m.leave f r).heap.Nested ts
      rw [heap_leave]
      exact hnested
    · show T.length < (m.leave f r).frames.size
      rw [frames_leave]
      omega

/-- A frame is put back. -/
theorem Lifts.pushed (hm : m.Lifts G T f) (a : Option Active) :
    Veiled G { m with frames := m.frames.push f, active := a } ∧
      Machine.tasks { m with frames := m.frames.push f, active := a } = f.task :: m.tasks :=
  ⟨⟨hm.veiled.heap, hm.veiled.realm, hm.veiled.clear, hm.veiled.values,
    List.forall_mem_cons.mpr ⟨hm.frame, hm.veiled.frames⟩⟩, rfl⟩

/-- **A frame is suspended**: what it asks for is open inside it, or it is given an answer. -/
theorem Lifts.suspended (hhost : host.BySyntax) (hnative : host.Tactful) (hE : ∀ S, E.Reticent S)
    (hm : m.Lifts G T f) {c : Suspension} (hc : m.heap.Clear c)
    (hasks : ∀ q, c = .branch q → (Task.ofRequest q).Within m.heap f.task) :
    Outcome.Crosses G T m
      (match suspend host E f c m with
        | .done _ m => .done .going m
        | .failed e m => .failed e m
        | .stalled => .stalled) := by
  obtain ⟨ts, htasks, hnested⟩ := hm.tasks
  obtain ⟨hveiled, hpushed⟩ := hm.pushed (some ⟨f.depth, f.quiet⟩)
  rw [htasks] at hpushed
  have hgoing : ∀ {m' : Machine} (us : List Task), m.heap.Shelters m'.heap → m'.Veiled G →
      m'.tasks = us ++ f.task :: ts ++ T → m'.heap.Nested (us ++ f.task :: ts) →
        Outcome.Crosses G T m (.done .going { m' with active := m.active }) := fun {m'} us hh hv ht hn => by
    refine ⟨hh, rfl, ⟨hv.congr rfl rfl rfl, _, ht, hn⟩, ?_⟩
    have hsize := congrArg List.length ht
    rw [size_tasks, List.append_assoc, List.length_append, List.cons_append, List.length_cons,
      List.length_append] at hsize
    show T.length < m'.frames.size
    omega
  have hdelivered : ∀ {m' : Machine} {r : Except Error Completion}, m.heap.Shelters m'.heap → m'.Veiled G →
      m'.tasks = f.task :: ts ++ T → m'.heap.Clear r →
        Outcome.Crosses G T m (.done .going { m'.deliver r with active := m.active }) := fun {_ r} hh hv ht hr => by
    have hgiven := hv.give (k := fun _ => .deliver r) fun _ _ => hr
    exact hgoing [] hh hgiven.1 (hgiven.2.trans ht) (hnested.sheltered hh)
  cases c with
  | branch q =>
    rw [suspend_branch hhost]
    have hq : m.heap.Clear q := hc
    obtain ⟨hv, ht⟩ := hveiled.openFrame (t := Task.ofRequest q) q.info (Heap.clear_ofRequest hq)
      (Task.stored_ofRequest q) (Heap.clear_request.mp hq).2
      (f.depth + 1) f.quiet false
    rw [hpushed] at ht
    refine hgoing [Task.ofRequest q] ?_ hv ht ?_
    · rw [heap_openFrame]; exact .refl _
    · rw [heap_openFrame]
      exact ⟨Task.ready_ofRequest q, fun u hu => Option.some.inj hu ▸ hasks q rfl, hnested⟩
  | call q =>
    have hopened := openCall_ends (S := ⟨G, f.task :: ts ++ T⟩) hnative (hE _)
      (m := { m with frames := m.frames.push f, active := some ⟨f.depth, f.quiet⟩ }) ⟨hveiled, hpushed, rfl⟩ (q := q) hc
      (f.depth + 1) f.quiet
    rw [suspend_eq]
    simp only [openChild, Bind.bind, Proc.bind, Proc.attempt]
    generalize openCall host E q (f.depth + 1) f.quiet
      { m with frames := m.frames.push f, active := some ⟨f.depth, f.quiet⟩ } = x at hopened
    cases x with
    | stalled => trivial
    | failed e m' =>
      obtain ⟨hh, hS, he⟩ := hopened
      exact hdelivered hh hS.veiled hS.tasks he
    | done v m' =>
      cases v with
      | some v =>
        obtain ⟨hh, hS, hv⟩ := hopened
        exact hdelivered (r := .ok (.ofValue v)) hh hS.veiled hS.tasks hv
      | none =>
        obtain ⟨hheap, hv, -, t, ht, hready⟩ := hopened
        refine hgoing [.invocation t] (by rw [hheap]; exact .refl _) hv ht ?_
        rw [hheap]
        exact ⟨hready, fun _ _ => Task.within_of_vars rfl, hnested⟩

/-- What the frame holds with what it is given. -/
theorem Lifts.fed (hm : m.Lifts G T (f.fed i)) : m.heap.Clear f.task ∧ f.task.Stored m.heap ∧ m.heap.Clear i ∧
    ∃ ts, m.tasks = ts ++ T ∧ m.heap.Nested (f.task :: ts) := by
  have htasks := hm.tasks
  obtain ⟨htask, -, hinput⟩ := Heap.clear_frame.mp hm.frame.clear
  have hstored := hm.frame.stored
  rw [Frame.task_fed] at htask hstored htasks
  refine ⟨htask, hstored, ?_, htasks⟩
  cases i with
  | none => exact Heap.clear_none
  | some r => exact hinput

/-- **What the task of the frame does at the boundary.** -/
theorem Lifts.works (hE : ∀ S, E.Reticent S) (hm : m.Lifts G T (f.fed i)) :
    (f.work E i m).Shields G m f.task.Gives := by
  obtain ⟨htask, hstored, hi, ts, -, hnested⟩ := hm.fed
  exact f.work_shields hE hm.veiled htask hstored hnested.1 hi

/-- The frame goes on with what its task has become. -/
theorem Lifts.continued (hm : m.Lifts G T (f.fed i)) (hm₁ : m.Shields G m₁) {x : Task × Step}
    (hx : f.task.Gives m₁.heap x) : m₁.Lifts G T { f with task := x.1, input := .waiting } := by
  obtain ⟨-, -, -, ts, htasks, hnested⟩ := hm.fed
  obtain ⟨-, hinfo, -⟩ := Heap.clear_frame.mp hm.frame.clear
  have hinfo' : m.heap.Clear f.info.options := by cases i <;> exact hinfo
  refine ⟨hm₁.veiled,
    ⟨Heap.clear_frame.mpr ⟨(Heap.clear_prod.mp hx.clear).1, hm₁.shelters.clear hinfo', ?_⟩, hx.stored⟩,
    ts, hm₁.tasks.trans htasks, (hnested.sheltered hm₁.shelters).exchange hx.continues.declares hx.continues.ready⟩
  exact fun _ hr => absurd hr List.not_mem_nil

/-- **One boundary shows no hidden object.** -/
theorem Lifts.turned (hhost : host.BySyntax) (hnative : host.Tactful) (hE : ∀ S, E.Reticent S)
    (hm : m.Lifts G T f) : (turn host E T.length f m).Crosses G T m := by
  induction f using Frame.fed_cases with
  | fed f i =>
    obtain ⟨ts, htasks, hnested⟩ := hm.tasks
    have hworked := hm.works hE
    rw [turn_fed]
    cases hcase : f.work E i m with
    | stalled => trivial
    | failed e m₁ =>
      rw [hcase] at hworked
      obtain ⟨hm₁, he⟩ := hworked
      exact (hm₁.veiled.closed (r := .error e) (hm₁.tasks.trans htasks) (hnested.tail.sheltered hm₁.shelters) he
        f).after hm₁
    | done x m₁ =>
      rw [hcase] at hworked
      obtain ⟨hm₁, hgives⟩ := hworked
      obtain ⟨t, step⟩ := x
      have hstep := (Heap.clear_prod.mp hgives.clear).2
      cases step with
      | finished c =>
        exact (hm₁.veiled.closed (r := .ok c) (hm₁.tasks.trans htasks) (hnested.tail.sheltered hm₁.shelters) hstep
          f).after hm₁
      | suspended c =>
        exact ((hm.continued hm₁ hgives).suspended hhost hnative hE hstep fun q hq =>
          hgives.continues.asks q (congrArg Step.suspended hq)).after hm₁
  | fail f e hinput =>
    obtain ⟨ts, htasks, hnested⟩ := hm.tasks
    rw [turn_fail hinput]
    have hclear := (Heap.clear_frame.mp hm.frame.clear).2.2
    rw [hinput] at hclear
    exact hm.veiled.closed (r := .error e) htasks hnested.tail hclear f
  | waiting f hinput =>
    obtain ⟨ts, htasks, hnested⟩ := hm.tasks
    rw [turn_waiting hinput]
    have hclear : m.heap.Clear (Error.driverState .childUnfinished) := Heap.clear_error fun _ he => by cases he
    exact hm.veiled.closed (r := .error (.driverState .childUnfinished)) htasks hnested.tail hclear f

/-! ### Many boundaries -/

/-- A frame is on top of those that wait. -/
theorem Covers.lifts {s : Stack Frame} (hm : m.Covers G T) (hframes : m.frames = s.push f) (hs : T.length ≤ s.size) :
    Lifts G T f { m with frames := s } := by
  obtain ⟨ts, htasks, hnested⟩ := hm.tasks
  have hall := hm.veiled.frames
  rw [hframes, Stack.items_push, List.forall_mem_cons] at hall
  rw [tasks_push hframes] at htasks
  refine ⟨⟨hm.veiled.heap, hm.veiled.realm, hm.veiled.clear, hm.veiled.values, hall.2⟩, hall.1, ?_⟩
  cases ts with
  | nil =>
    have hsize := congrArg List.length htasks
    rw [List.length_cons, List.length_map, List.nil_append, ← s.size_eq] at hsize
    omega
  | cons t ts =>
    obtain ⟨rfl, hrest⟩ := List.cons.inj htasks
    exact ⟨ts, hrest, hnested⟩

/-- **A run shows no hidden object**, and takes its frames off the stack. -/
theorem Covers.driven (hhost : host.BySyntax) (hnative : host.Tactful) (hE : ∀ S, E.Reticent S) (b : Nat)
    (hm : m.Covers G T) (hsize : T.length < m.frames.size) (hactive : m.active.isSome = true) :
    (drive host E T.length b m).Reticent ⟨G, T⟩ m.heap Heap.Clear := by
  induction b generalizing m with
  | zero => trivial
  | succ b ih =>
    obtain ⟨s, f, hframes, hbase⟩ := Stack.exists_push_of_lt hsize
    obtain ⟨a, ha⟩ := Option.isSome_iff_exists.mp hactive
    have hcrossed := (hm.lifts hframes hbase).turned hhost hnative hE
    rw [drive_succ, advance_eq_turn hframes hbase, collected_of_active ha]
    generalize turn host E T.length f { m with frames := s } = x at hcrossed
    cases x with
    | stalled => trivial
    | failed e m' => exact hcrossed.elim
    | done y m' =>
      cases y with
      | going =>
        obtain ⟨hh, hactive', hcovers, hsize'⟩ := hcrossed
        exact (ih hcovers hsize' (hactive' ▸ hactive)).after hh
      | finished o =>
        obtain ⟨hh, hactive', hv, ht, ho⟩ := hcrossed
        cases o <;> exact ⟨hh, ⟨hv, ht, hactive' ▸ hactive⟩, ho⟩

end Machine

/-! ### The engine -/

theorem reticent_completionValue {c : Completion} (hc : h.Clear c) :
    Reticent S h (Proc.ofExcept (completionValue c)) Heap.Clear := by
  cases c with
  | normal v => exact .pure (Heap.clear_getD hc Heap.clear_undefined)
  | returned v => exact .pure hc
  | thrown v => exact .fail hc
  | broken label v => exact .refuse fun _ he => by cases he
  | continued label v => exact .refuse fun _ he => by cases he

section Engine

variable (hhost : host.BySyntax) (hnative : host.Tactful) (hE : ∀ S, E.Reticent S)

include hhost hnative hE

theorem reticent_evaluateOn (b : Nat) {q : BranchRequest} (hq : h.Clear q) :
    Reticent S h (host.evaluateOn E b q) Heap.Clear := by
  intro m hm hS
  subst hm
  obtain ⟨hv, ht⟩ := hS.veiled.openFrame (t := Task.ofRequest q) q.info (Heap.clear_ofRequest hq)
    (Task.stored_ofRequest q) (Heap.clear_request.mp hq).2
    m.childContext.1 m.childContext.2 false
  have hsize : m.frames.size = S.tasks.length := by rw [← m.size_tasks, hS.tasks]
  rw [evaluateOn_eq, hhost q, hsize]
  have hcovers : Machine.Covers S.toGround S.tasks
      (m.openFrame (Task.ofRequest q) q.info m.childContext.1 m.childContext.2 false) :=
    ⟨hv, [Task.ofRequest q], ht.trans (by rw [hS.tasks]; rfl), Task.ready_ofRequest q, by simp, trivial⟩
  have hran := hcovers.driven hhost hnative hE b (by rw [Machine.frames_openFrame, Stack.size_push]; omega)
    (by rw [Machine.active_openFrame]; exact hS.active)
  rwa [Machine.heap_openFrame] at hran

theorem reticent_callOn (b : Nat) {callee receiver : Value} {args : List Value} (hcallee : h.Clear callee)
    (hreceiver : h.Clear receiver) (hargs : h.Clear args) :
    Reticent S h (host.callOn E b callee receiver args) Heap.Clear := by
  intro m hm hS
  subst hm
  have hq := hS.veiled.callRequest hcallee hreceiver hargs
  have hopened := openCall_ends hnative (hE S) hS hq m.childContext.1 m.childContext.2
  have hsize : m.frames.size = S.tasks.length := by rw [← m.size_tasks, hS.tasks]
  rw [callOn_eq_answered, hsize]
  cases hcase : openCall host E (m.callRequest callee receiver args) m.childContext.1 m.childContext.2 m with
  | stalled => rw [Proc.bind_stalled hcase]; trivial
  | failed e m₁ => rw [hcase] at hopened; rw [Proc.bind_failed hcase]; exact hopened
  | done v m₁ =>
    rw [hcase] at hopened
    rw [Proc.bind_done hcase]
    cases v with
    | some v => exact hopened
    | none =>
      obtain ⟨hheap, hv, hactive, t, ht, hready⟩ := hopened
      have hcovers : m₁.Covers S.toGround S.tasks :=
        ⟨hv, [.invocation t], ht, by rw [hheap]; exact ⟨hready, by simp, trivial⟩⟩
      have hran := hcovers.driven hhost hnative hE b (by rw [← m₁.size_tasks, ht]; exact Nat.lt_succ_self _) hactive
      rw [hheap] at hran
      exact Outcome.Reticent.bind hran fun _ _ _ hc => reticent_completionValue hc

theorem reticent_executeOn (b : Nat) (body : List Stmt) : Reticent S h (host.executeOn E b body) Heap.Clear := by
  intro m hm hS
  subst hm
  have hscope := (Heap.clear_realm hS.veiled.clear).1
  rw [← hS.veiled.realm] at hscope
  rw [executeOn_inside b body hS.active, Proc.bind_eq]
  refine Outcome.Reticent.bind (reticent_evaluateOn hhost hnative hE b (Heap.clear_request.mpr ⟨hscope, ?_⟩) m rfl hS)
    fun _ _ _ hc => reticent_completionValue hc
  exact Heap.clear_options.mpr ⟨Heap.clear_none, Heap.clear_none⟩

end Engine

/-- The root branch is neither started nor driven while a task runs. -/
theorem reticent_inside {p : Run α} {e : Error} {Q : Heap → α → Prop} (he : ∀ v, e ≠ .throw v)
    (hp : ∀ m, m.active.isSome = true → p m = .failed e m) : Reticent S h p Q := fun m hm hS => by
  rw [hp m hS.active]
  exact ⟨hm ▸ .refl _, hS, Heap.clear_error he⟩

/-- **Runs show no hidden object**, on top of whatever waits. -/
theorem Host.engine_reticent (hhost : host.BySyntax) (hnative : host.Tactful) (n : Nat) :
    ∀ S, (host.engine n).Reticent S := by
  have hstart : ∀ {S h} (q : BranchRequest), Reticent S h (host.startRoot q) Heap.Clear := fun q =>
    reticent_inside (e := .driverState .alreadyRunning) (fun _ he => by cases he) fun _ => startRoot_inside q
  induction n with
  | zero => exact fun S => ⟨fun _ => .stall, fun _ _ _ => .stall, hstart, .stall, .stall, fun _ => .stall⟩
  | succ n ih =>
    have hdriven : ∀ v, Error.driverState .drivenFromInside ≠ .throw v := fun _ he => by cases he
    exact fun S => ⟨fun hq => reticent_evaluateOn hhost hnative ih n hq,
      fun hf hreceiver hargs => reticent_callOn hhost hnative ih n hf hreceiver hargs, hstart,
      reticent_inside hdriven fun _ => step_inside n, reticent_inside hdriven fun _ => run_inside n,
      fun body => reticent_executeOn hhost hnative ih n body⟩

end ScriptCore
