import ScriptCore.Proofs.Calls.Invocations
import ScriptCore.Proofs.Drive.Scripted
import ScriptCore.Proofs.Renaming.Frames

/-! # Runs work by acts

A stack of frames stands in a world when every frame can go on and no two calls that wait bind names in the same
object. One boundary is acts that take only what is new and what the frame on top binds names in, so the frames
beneath it stand still; and what it asks for, ends with or fails with names no private object. So runs on top of
the open frames work by acts, and running code may rely on this.

* `Task.Proper`, `Frame.Proper`, `World.Stands`: tasks, frames and stacks that can go on.
* `Task.works_doing`, `Frame.work_leads`, `turn_leads`: **one boundary works by acts.**
* `drive_works`, `Host.engine_fair`: **runs work by acts.** -/

namespace ScriptCore

open Heap (object_eq_ok)

variable {α β : Type} {S : Setting} {own own' : Handle → Prop} {w w' : World} {E : Engine} {host : Host} {base : Nat}
  {m m' : Machine} {a : Option Active} {s below : Stack Frame} {l : Monitor} {f g : Frame} {fs : List Frame}
  {o : Except Error Completion} {x : Handle}

/-! ### Tasks -/

namespace Task

variable {t : Task}

/-- A task that can go on. -/
def Proper (S : Setting) (w : World) : Task → Prop
  | .statements t => t.Proper S w
  | .statement t => t.Proper S w
  | .expression t => t.Proper S w
  | .invocation t => t.Proper S w
  | .settled _ => False

/-- The object in which the task binds names while it waits, if it is a call. -/
def Owns (w : World) : Task → Handle → Prop
  | .invocation t => t.Owns w
  | .statements _ | .statement _ | .expression _ | .settled _ => fun _ => False

/-- What a task hands over: itself and what it asks for or ended with. -/
structure Hands (S : Setting) (own : Handle → Prop) (w : World) (r : Task × Step) : Prop where
  task : r.1.Proper S w
  step : r.2.Proper S w
  owned : ∀ x, r.1.Owns w x → own x

/-- **A task works by acts.** -/
theorem works_doing (hE : E.Fair S) (ht : t.Proper S w) (hown : ∀ x, t.Owns w x → own x)
    {i : Option (Except Error Completion)} (hi : ∀ o, i = some o → w.Outputs S o) :
    Works S own w (t.doing E i) (Hands S own) := by
  cases t with
  | statements t =>
    cases i with
    | none => exact .map ((StatementsTask.works_start ht).imp fun _ _ _ _ hr => ⟨hr.1, hr.2, fun _ hx => hx.elim⟩)
    | some o =>
      exact .map ((StatementsTask.works_resume ht (hi o rfl)).imp fun _ _ _ _ hr => ⟨hr.1, hr.2, fun _ hx => hx.elim⟩)
  | statement t =>
    cases i with
    | none => exact .pure ⟨(StatementTask.Proper.start ht).1, (StatementTask.Proper.start ht).2, fun _ hx => hx.elim⟩
    | some o =>
      exact .map ((StatementTask.works_resume hE ht (hi o rfl)).imp fun _ _ _ _ hr =>
        ⟨hr.1, hr.2, fun _ hx => hx.elim⟩)
  | expression t =>
    cases i with
    | none =>
      exact .map (Works.imp (ExpressionTask.works_start hE ht) fun _ _ _ _ hr => ⟨hr.1, hr.2, fun _ hx => hx.elim⟩)
    | some o =>
      exact .map (Works.imp (ExpressionTask.works_resume hE ht (hi o rfl)) fun _ _ _ _ hr =>
        ⟨hr.1, hr.2, fun _ hx => hx.elim⟩)
  | invocation t =>
    cases i with
    | none =>
      refine .ite (fun _ => .map ((InvocationTask.works_begin hE ht.shown).imp fun _ _ _ _ hr => ?_)) fun _ =>
        .fail fun _ hu => by cases hu
      exact ⟨hr.1.task, hr.1.step, hr.1.owned⟩
    | some o =>
      exact .map ((InvocationTask.works_goOn hE ht hown (hi o rfl)).imp fun _ _ _ _ hr => ⟨hr.task, hr.step, hr.owned⟩)
  | settled o => exact ht.elim

/-- Those who take other objects leave a task as it can go on. -/
theorem Proper.next (ht : t.Proper S w) (hw : w.Lawful S) (hacts : Acts S own w w')
    (hown : ∀ x, t.Owns w x → ¬ own x) : t.Proper S w' := by
  cases t with
  | statements t => exact StatementsTask.Proper.next ht hacts
  | statement t => exact StatementTask.Proper.next ht hacts
  | expression t => exact ExpressionTask.Proper.next ht hacts
  | invocation t => exact InvocationTask.Proper.next ht hw hacts hown
  | settled o => exact ht

/-- A task that waits goes on to bind names in the object in which it did. -/
theorem Proper.owns_of (ht : t.Proper S w) (hacts : Acts S own w w') (hx : t.Owns w' x) : t.Owns w x := by
  cases t with
  | invocation t =>
    obtain ⟨hwaits, s, o, hscope, hbinds, rfl⟩ := hx
    obtain ⟨s₀, k, hr⟩ : ∃ s k, t.OnRecord w s k := by
      rcases hwaits with ⟨i, hi⟩ | hbody
      · obtain ⟨s, k, hb⟩ := InvocationTask.Proper.binding ht i hi
        exact ⟨s, k, hb.onRecord⟩
      · obtain ⟨s, k, hr, -⟩ := InvocationTask.Proper.body ht hbody
        exact ⟨s, k, hr⟩
    cases hscope.symm.trans hr.scope
    cases hbinds.unique (hacts.binds hr.binds)
    exact ⟨hwaits, s, _, hscope, hr.binds, rfl⟩
  | _ => exact hx.elim

/-- What a task binds names in is live. -/
theorem Owns.not_fresh (hx : t.Owns w x) (hw : w.Lawful S) : ¬ w.Fresh x := by
  cases t with
  | invocation t =>
    obtain ⟨-, s, o, -, hbinds, rfl⟩ := hx
    rcases hw.heap.binds hbinds with rfl | hprivate
    · obtain ⟨obj, ho, -⟩ := hw.realm.global
      exact World.not_fresh_object ho
    · exact World.not_fresh_private hprivate
  | _ => exact hx.elim

/-- The task for a branch. -/
theorem proper_ofRequest {r : BranchRequest} (hr : r.Proper S w) :
    (ofRequest r).Proper S w ∧ ∀ x, ¬ (ofRequest r).Owns w x := by
  obtain ⟨kind, node, scope, options⟩ := r
  cases node with
  | statements list => exact ⟨⟨hr.scope, hr.spares, hr.spares, fun _ hv => by cases hv⟩, fun _ => id⟩
  | statement stmt => exact ⟨⟨hr.scope, hr.spares, fun _ hv => by cases hv⟩, fun _ => id⟩
  | expression e => exact ⟨⟨hr.scope, by simp, trivial, trivial⟩, fun _ => id⟩

end Task

/-! ### Frames -/

/-- What a frame is to be given names no private object. -/
def Input.Proper (S : Setting) (w : World) : Input → Prop
  | .start | .waiting => True
  | .deliver o => w.Outputs S o
  | .fail e => e.Public S.realm w.heap

theorem Input.Proper.next {i : Input} (hi : i.Proper S w) (hacts : Acts S own w w') : i.Proper S w' := by
  cases i with
  | deliver o => exact hacts.outputs hi
  | fail e => exact hacts.error hi
  | _ => trivial

/-- A frame that can go on. -/
structure Frame.Proper (S : Setting) (w : World) (f : Frame) : Prop where
  task : f.task.Proper S w
  input : f.input.Proper S w

/-- **Frames that can go on.** No two of the calls among them bind names in the same object. -/
structure World.Stands (S : Setting) (own : Handle → Prop) (w : World) (fs : List Frame) : Prop where
  proper : ∀ f ∈ fs, f.Proper S w
  owned : ∀ f ∈ fs, ∀ x, f.task.Owns w x → own x
  apart : fs.Pairwise fun f g => ∀ x, f.task.Owns w x → ¬ g.task.Owns w x

namespace World.Stands

theorem nil : w.Stands S own [] := ⟨by simp, by simp, .nil⟩

theorem cons (hst : w.Stands S own fs) (hf : f.Proper S w) (hown : ∀ x, f.task.Owns w x → own x)
    (hapart : ∀ g ∈ fs, ∀ x, f.task.Owns w x → ¬ g.task.Owns w x) : w.Stands S own (f :: fs) where
  proper g hg := (List.mem_cons.mp hg).elim (fun h => h ▸ hf) (hst.proper g)
  owned g hg := (List.mem_cons.mp hg).elim (fun h => h ▸ hown) (hst.owned g)
  apart := List.pairwise_cons.mpr ⟨hapart, hst.apart⟩

/-- A frame whose task has not started. -/
theorem push (hst : w.Stands S own fs) (hf : f.Proper S w) (hnew : ∀ x, ¬ f.task.Owns w x) :
    w.Stands S own (f :: fs) := hst.cons hf (fun x hx => absurd hx (hnew x)) fun _ _ x hx => absurd hx (hnew x)

theorem tail (hst : w.Stands S own (f :: fs)) : w.Stands S own fs :=
  ⟨fun g hg => hst.proper g (List.mem_cons_of_mem _ hg), fun g hg => hst.owned g (List.mem_cons_of_mem _ hg),
    (List.pairwise_cons.mp hst.apart).2⟩

theorem head (hst : w.Stands S own (f :: fs)) : f.Proper S w := hst.proper f (List.mem_cons_self ..)

/-- The frame on top is given something else. -/
theorem give (hst : w.Stands S own (f :: fs)) (htask : g.task = f.task) (hg : g.input.Proper S w) :
    w.Stands S own (g :: fs) := by
  refine hst.tail.cons ⟨htask ▸ hst.head.task, hg⟩ (fun x hx => hst.owned f (List.mem_cons_self ..) x (htask ▸ hx))
    fun g' hg' x hx => (List.pairwise_cons.mp hst.apart).1 g' hg' x (htask ▸ hx)

/-- **The frames beneath stand still** while the one on top takes what is new and what it binds names in. -/
theorem beneath (hst : w.Stands S own (f :: fs)) (hw : w.Lawful S)
    (hacts : Acts S (fun x => f.task.Owns w x ∨ w.Fresh x) w w') :
    w'.Stands S own fs ∧ ∀ g ∈ fs, ∀ x, g.task.Owns w' x → ¬ (f.task.Owns w x ∨ w.Fresh x) := by
  have hother : ∀ g ∈ fs, ∀ x, g.task.Owns w x → ¬ (f.task.Owns w x ∨ w.Fresh x) := fun g hg x hx =>
    not_or.mpr ⟨fun hf => (List.pairwise_cons.mp hst.apart).1 g hg x hf hx, hx.not_fresh hw⟩
  have hback : ∀ g ∈ fs, ∀ x, g.task.Owns w' x → g.task.Owns w x := fun g hg x hx =>
    (hst.tail.proper g hg).task.owns_of hacts hx
  refine ⟨⟨fun g hg => ?_, fun g hg x hx => hst.tail.owned g hg x (hback g hg x hx), ?_⟩,
    fun g hg x hx => hother g hg x (hback g hg x hx)⟩
  · exact ⟨(hst.tail.proper g hg).task.next hw hacts (hother g hg), (hst.tail.proper g hg).input.next hacts⟩
  · refine hst.tail.apart.imp_of_mem fun hg hg' hapart x hx hx' => ?_
    exact hapart x (hback _ hg x hx) (hback _ hg' x hx')

end World.Stands

/-! ### What a boundary comes to -/

/-- The machine has the heap of the world, and the realm. -/
structure World.Describes (S : Setting) (w : World) (m : Machine) : Prop where
  heap : m.heap = w.heap
  realm : m.realm = S.realm

theorem World.Describes.congr (hm : w.Describes S m) (hheap : m'.heap = m.heap) (hrealm : m'.realm = m.realm) :
    w.Describes S m' := ⟨hheap.trans hm.heap, hrealm.trans hm.realm⟩

/-- What a part of a run may come to that began in the world `w`: what it delivers satisfies `Q`. -/
def Outcome.Leads (S : Setting) (own : Handle → Prop) (w : World) (Q : World → α → Machine → Prop) :
    Outcome Machine α → Prop
  | .done v m => ∃ w', Acts S own w w' ∧ w'.Describes S m ∧ Q w' v m
  | .failed e m => ∃ w', Acts S own w w' ∧ w'.Describes S m ∧ e.Public S.realm w'.heap
  | .stalled => True

theorem Outcome.Leads.after {Q : World → α → Machine → Prop} {r : Outcome Machine α} (hr : r.Leads S own w' Q)
    (hacts : Acts S own w w') : r.Leads S own w Q := by
  cases r with
  | stalled => trivial
  | failed e m =>
    obtain ⟨w₂, hacts', hrest⟩ := hr
    exact ⟨w₂, hacts.trans hacts', hrest⟩
  | done v m =>
    obtain ⟨w₂, hacts', hrest⟩ := hr
    exact ⟨w₂, hacts.trans hacts', hrest⟩

/-- What stops a run is no value that the program threw. -/
theorem Monitor.mild_crossed (k : Monitor) (i : Option (Except Error Completion)) : Mild (k.crossed i).1 := by
  have htick : ∀ e k', Monitor.tick k = .failed e k' → ∀ v, e ≠ .throw v := by
    intro e k' hk v he
    unfold Monitor.tick at hk
    split at hk
    · cases hk
      cases he
    · dsimp only at hk
      split at hk
      · cases hk
        cases he
      · split at hk
        · cases hk
          cases he
        · cases hk
  unfold Monitor.crossed
  split
  · exact .ok ()
  · cases hk : Monitor.tick k with
    | done u k' => exact .ok u
    | failed e k' => exact .error (htick e k' hk)
    | stalled => exact .ok ()

/-- What the task of a frame does at a boundary it does by acts, if it works by acts. -/
theorem Frame.leads_of_works {Q : World → Task × Step → Prop} (hw : w.Lawful S) (hown : ∀ x, w.Fresh x → own x)
    (hm : w.Describes S m) {i : Option (Except Error Completion)} (hworks : Works S own w (f.task.doing E i) Q) :
    (f.work E i m).Leads S own w fun w' r _ => Q w' r := by
  have hmild := m.monitor.mild_crossed i
  unfold Frame.work
  cases hc : crossing i m with
  | stalled => rw [Proc.bind_stalled hc]; trivial
  | failed e m₁ =>
    rw [Proc.bind_failed hc]
    unfold crossing at hc
    generalize m.monitor.crossed i = crossed at hc hmild
    obtain ⟨r, k⟩ := crossed
    cases r with
    | ok u => cases hc
    | error e' =>
      cases hc
      exact ⟨w, .refl, hm.congr rfl rfl, Error.public_of_mild hmild⟩
  | done u m₁ =>
    rw [Proc.bind_done hc]
    have hm₁ : w.Describes S m₁ := by
      unfold crossing at hc
      generalize m.monitor.crossed i = crossed at hc
      obtain ⟨r, k⟩ := crossed
      cases r with
      | ok u => cases hc; exact hm.congr rfl rfl
      | error e => cases hc
    have hran := hworks hw hown { m₁ with active := some ⟨f.depth, f.quiet⟩ } ⟨hm₁.heap, hm₁.realm, rfl⟩
    unfold Frame.running
    cases hdone : f.task.doing E i { m₁ with active := some ⟨f.depth, f.quiet⟩ } with
    | stalled => trivial
    | failed e m₂ =>
      rw [hdone] at hran
      obtain ⟨w', hacts, hm', he⟩ := hran
      exact ⟨w', hacts, ⟨hm'.heap, hm'.realm⟩, he⟩
    | done r m₂ =>
      rw [hdone] at hran
      obtain ⟨w', hacts, hm', hr⟩ := hran
      exact ⟨w', hacts, ⟨hm'.heap, hm'.realm⟩, hr⟩

/-- **What the task of a frame does at a boundary** takes only what is new and what the task binds names in. -/
theorem Frame.work_leads (hE : E.Fair S) (hw : w.Lawful S) (hm : w.Describes S m) (hf : f.task.Proper S w)
    {i : Option (Except Error Completion)} (hi : ∀ o, i = some o → w.Outputs S o) :
    (f.work E i m).Leads S (fun x => f.task.Owns w x ∨ w.Fresh x) w fun w' r _ =>
      Task.Hands S (fun x => f.task.Owns w x ∨ w.Fresh x) w' r :=
  leads_of_works hw (fun _ hx => .inr hx) hm (Task.works_doing hE hf (fun _ hx => .inl hx) hi)

/-! ### What a suspended frame asks for -/

theorem Machine.mild_closureOpening (m : Machine) (f : ObjectRef) (r : CallRequest) (name : Option String) :
    Mild (m.closureOpening f r name) := by
  unfold closureOpening
  refine (Heap.mild_closure f).bind fun c => (Heap.mild_scope r.scope).bind fun sc => ?_
  split
  · exact .error fun v hv => by cases hv
  · exact .ok _

theorem Machine.mild_requestedCall (m : Machine) (r : CallRequest) : Mild (m.requestedCall r) := by
  have hrefused : Mild (do throw (.notCallable (← m.heap.describe r.callee)) : Except Error Opening) :=
    (Heap.mild_describe r.callee).bind fun _ => .error fun _ hv => by cases hv
  unfold requestedCall
  cases hcallee : r.callee with
  | object f =>
    rw [hcallee] at hrefused
    refine (Heap.mild_object f).bind fun obj => ?_
    cases obj.kind with
    | closure c =>
      dsimp only
      unfold closureCall
      cases siteName m r with
      | some name => exact m.mild_closureOpening f r _
      | none => exact (Heap.mild_functionName f).bind fun name => m.mild_closureOpening f r name
    | _ => exact hrefused
  | _ =>
    rw [hcallee] at hrefused
    exact hrefused

/-- What a call opens is the call of a closure, under the name that the call site has for it. -/
theorem Machine.requestedCall_ok {r : CallRequest} {c : Opening} (h : m.requestedCall r = .ok c) :
    ∃ f cl, r.callee = .object f ∧ m.heap.closure f = .ok cl ∧ c.task = .invocation (.ofRequest f cl r) ∧
      c.info = ⟨.call, { profileName := siteName m r, callee := some (r.extra.callee.getD r.callee) }⟩ := by
  have hopening : ∀ {f name}, m.closureOpening f r name = .ok c → ∃ cl, m.heap.closure f = .ok cl ∧
      c.task = .invocation (.ofRequest f cl r) ∧
      c.info = ⟨.call, { profileName := siteName m r, callee := some (r.extra.callee.getD r.callee) }⟩ := by
    intro f name h
    unfold closureOpening at h
    cases hcl : m.heap.closure f with
    | error e => rw [hcl] at h; cases h
    | ok cl =>
      cases hsc : m.heap.scope r.scope with
      | error e => rw [hcl, hsc] at h; cases h
      | ok sc =>
        rw [hcl, hsc] at h
        dsimp only [bind, Except.bind] at h
        split at h
        · cases h
        · cases h
          exact ⟨cl, rfl, rfl, rfl⟩
  have hrefused : (do throw (.notCallable (← m.heap.describe r.callee)) : Except Error Opening) ≠ .ok c := by
    intro h
    cases hd : m.heap.describe r.callee with
    | error e => rw [hd] at h; cases h
    | ok text => rw [hd] at h; cases h
  unfold requestedCall at h
  cases hcallee : r.callee with
  | object f =>
    rw [hcallee] at h hrefused
    dsimp only at h
    cases ho : m.heap.object f with
    | error e => rw [ho] at h; cases h
    | ok obj =>
      rw [ho] at h
      dsimp only [bind, Except.bind] at h
      cases hk : obj.kind with
      | closure cl =>
        rw [hk] at h
        dsimp only at h
        unfold closureCall at h
        cases hs : siteName m r with
        | some name =>
          rw [hs] at h
          obtain ⟨cl, hcl, hopened⟩ := hopening h
          rw [hs, hcallee] at hopened
          exact ⟨f, cl, rfl, hcl, hopened⟩
        | none =>
          rw [hs] at h
          cases hn : m.heap.functionName f with
          | error e => rw [hn] at h; cases h
          | ok name =>
            rw [hn] at h
            obtain ⟨cl, hcl, hopened⟩ := hopening h
            rw [hs, hcallee] at hopened
            exact ⟨f, cl, rfl, hcl, hopened⟩
      | _ => rw [hk] at h; exact absurd h hrefused
  | _ => rw [hcallee] at h hrefused; exact absurd h hrefused

/-- A call that can be made opens a task that can go on. -/
theorem proper_requestedCall (hw : w.Lawful S) (hm : w.Describes S m) {r : CallRequest} {c : Opening}
    (hr : r.Proper S w) (h : m.requestedCall r = .ok c) : c.task.Proper S w ∧ ∀ x, ¬ c.task.Owns w x := by
  obtain ⟨f, cl, hcallee, hclosure, htask, -⟩ := Machine.requestedCall_ok h
  rw [hm.heap] at hclosure
  have hshown := hr.callee
  rw [hcallee] at hshown
  rw [htask]
  refine ⟨⟨⟨hshown, hw.heap.closure hclosure, hr.receiver, hr.args, hr.scope⟩, fun _ hi => (by cases hi),
    fun hb => (by cases hb)⟩, fun x hx => ?_⟩
  obtain ⟨⟨_, hi⟩ | hb, -⟩ := hx
  · cases hi
  · cases hb

theorem Machine.requested_branch (hhost : host.BySyntax) (r : BranchRequest) :
    m.requested host (.branch r) = .ok ⟨m.monitor.calls, Task.ofRequest r, r.info, false⟩ := by
  show (do return ⟨m.monitor.calls, ← host.branch r, r.info, false⟩ : Except Error Opening) = _
  rw [hhost r]
  rfl

/-- A branch that a suspended task asks for is opened. -/
theorem suspend_branch (hhost : host.BySyntax) (f : Frame) (q : BranchRequest) (m : Machine) :
    suspend host E f (.branch q) m =
      .done () { ({ m with frames := m.frames.push f, active := some ⟨f.depth, f.quiet⟩ } : Machine).openFrame
        (.ofRequest q) q.info (f.depth + 1) f.quiet false with active := m.active } := by
  rw [suspend_eq]
  unfold openChild
  dsimp only
  rw [hhost q]
  rfl

/-- **What a suspended frame gets opened can go on**; or it is given a failure that shows no private object. -/
theorem proper_requested (hhost : host.BySyntax) (hw : w.Lawful S) (hm : w.Describes S m) {c : Suspension}
    (hc : Step.Proper S w (.suspended c)) :
    (∀ q, m.requested host c = .ok q → q.task.Proper S w ∧ ∀ x, ¬ q.task.Owns w x) ∧
      ∀ e, m.requested host c = .error e → e.Public S.realm w.heap := by
  cases c with
  | branch r =>
    rw [Machine.requested_branch hhost]
    exact ⟨fun q hq => Except.ok.inj hq ▸ Task.proper_ofRequest hc, fun e he => by cases he⟩
  | call r =>
    exact ⟨fun q hq => proper_requestedCall hw hm hc hq, fun e he =>
      Error.public_of_mild ((m.mild_requestedCall r).of_error (β := Opening) he)⟩

/-! ### One boundary -/

/-- What a boundary leaves to a drive down to `base`. -/
def Advance.Leaves (S : Setting) (own : Handle → Prop) (base : Nat) (w : World) : Advance → Machine → Prop
  | .finished o, _ => w.Outputs S o
  | .going, m => w.Stands S own (m.frames.above base)

theorem Machine.closed_leads (hm : w.Describes S m) (hbase : base ≤ m.frames.size)
    (hst : w.Stands S own (m.frames.above base)) (f : Frame) (ho : w.Outputs S o) :
    (m.closed f o base).Leads S own w fun w' => Advance.Leaves S own base w' := by
  unfold Machine.closed
  by_cases hsize : m.frames.size = base
  · rw [if_pos hsize]
    exact ⟨w, .refl, hm.congr (by simp) (by simp), ho⟩
  · rw [if_neg hsize]
    obtain ⟨t, g, hframes⟩ := Stack.exists_push (s := m.frames) (by omega)
    refine ⟨w, .refl, hm.congr (m.heap_leave f o) (m.realm_leave f o), ?_⟩
    rw [hframes, Stack.size_push] at hbase hsize
    rw [hframes, Stack.above_push (by omega)] at hst
    show w.Stands S own (((m.leave f o).frames.modifyTop _).above base)
    rw [m.frames_leave, hframes, Stack.modifyTop_push, Stack.above_push (by omega)]
    exact hst.give rfl ho

theorem Machine.suspended_leads (hhost : host.BySyntax) (hw : w.Lawful S) (hm : w.Describes S m)
    (hbase : base ≤ m.frames.size) (hst : w.Stands S own (f :: m.frames.above base)) {c : Suspension}
    (hc : Step.Proper S w (.suspended c)) :
    w.Describes S (m.suspended host f c) ∧ w.Stands S own ((m.suspended host f c).frames.above base) := by
  obtain ⟨hopen, herror⟩ := proper_requested hhost hw hm hc
  unfold Machine.suspended
  cases hr : m.requested host c with
  | error e =>
    refine ⟨hm.congr rfl rfl, ?_⟩
    show w.Stands S own ((m.frames.push (f.fed (some (.error e)))).above base)
    rw [Stack.above_push hbase]
    exact hst.give rfl (herror e hr)
  | ok q =>
    obtain ⟨htask, hnew⟩ := hopen q hr
    refine ⟨hm.congr (by simp [Machine.opened]) (by simp [Machine.opened]), ?_⟩
    unfold Machine.opened
    rw [Machine.frames_openFrame, Stack.above_push (by rw [Stack.size_push]; omega), Stack.above_push hbase]
    exact hst.push ⟨htask, trivial⟩ hnew

/-- **One boundary works by acts**, and leaves frames that can go on. -/
theorem turn_leads (hhost : host.BySyntax) (hE : E.Fair S) (hholds : E.Holds) (hw : w.Lawful S)
    (hown : ∀ x, w.Fresh x → own x) (hm : w.Describes S m) (hheld : Held a s l m) (hbase : base ≤ s.size)
    (hst : w.Stands S own (f :: s.above base)) :
    (turn host E base f m).Leads S own w fun w' => Advance.Leaves S own base w' := by
  induction f using Frame.fed_cases with
  | fed f i =>
    have hi : ∀ o, i = some o → w.Outputs S o := by
      rintro o rfl
      exact hst.head.input
    have hkept := f.keeps_held_work hholds i m hheld
    have htask := hst.head.task
    have howned := hst.owned _ (List.mem_cons_self ..)
    rw [Frame.task_fed] at htask howned
    have hwork := f.work_leads hE hw hm htask hi
    have hsub : ∀ x, f.task.Owns w x ∨ w.Fresh x → own x := fun x hx => hx.elim (howned x) (hown x)
    have hbeneath : ∀ {w'}, Acts S (fun x => f.task.Owns w x ∨ w.Fresh x) w w' → w'.Stands S own (s.above base) ∧
        ∀ g ∈ s.above base, ∀ x, g.task.Owns w' x → ¬ (f.task.Owns w x ∨ w.Fresh x) := by
      intro w' hacts
      rw [← f.task_fed i] at hacts ⊢
      exact hst.beneath hw hacts
    rw [turn_scripted host hholds hheld]
    cases hrun : f.work E i m with
    | stalled => trivial
    | failed e m' =>
      rw [hrun] at hwork hkept
      obtain ⟨w', hacts, hm', he⟩ := hwork
      have hframes : m'.frames = s := hkept.frames
      exact (Machine.closed_leads hm' (hframes ▸ hbase) (hframes ▸ (hbeneath hacts).1) f (o := .error e) he).after
        (hacts.mono hsub)
    | done r m' =>
      rw [hrun] at hwork hkept
      obtain ⟨w', hacts, hm', hr⟩ := hwork
      obtain ⟨t, step⟩ := r
      have hframes : m'.frames = s := hkept.frames
      obtain ⟨hrest, hother⟩ := hbeneath hacts
      cases step with
      | finished c =>
        exact (Machine.closed_leads hm' (hframes ▸ hbase) (hframes ▸ hrest) f (o := .ok c) hr.step).after
          (hacts.mono hsub)
      | suspended c =>
        have hst' : w'.Stands S own ({ f with task := t, input := .waiting } :: s.above base) :=
          hrest.cons ⟨hr.task, trivial⟩ (fun x hx => hsub x (hr.owned x hx)) fun g hg x hx hx' =>
            hother g hg x hx' (hr.owned x hx)
        obtain ⟨hm'', hst''⟩ := Machine.suspended_leads hhost (hacts.lawful hw) hm' (hframes ▸ hbase)
          (hframes ▸ hst') hr.step
        exact ⟨w', hacts.mono hsub, hm'', hst''⟩
  | fail f e hinput =>
    have hinput' := hst.head.input
    rw [hinput] at hinput'
    rw [turn_fail hinput]
    exact Machine.closed_leads hm (hheld.frames ▸ hbase) (hheld.frames ▸ hst.tail) f (o := .error e) hinput'
  | waiting f hinput =>
    rw [turn_waiting hinput]
    exact Machine.closed_leads hm (hheld.frames ▸ hbase) (hheld.frames ▸ hst.tail) f
      (o := .error (.driverState .childUnfinished)) fun v hv => by cases hv

/-! ### Runs on top of the open frames -/

/-- No object of a tidy heap is a native function. -/
theorem Heap.Tidy.scripted {h : Heap} {R : Realm} (ht : h.Tidy R) : h.Scripted := by
  intro i n obj hslot
  have hkind := ht.kinds ⟨⟨i, n⟩⟩ obj (object_eq_ok.mpr (block?_eq_some.mpr hslot))
  cases hk : obj.kind with
  | native n => rw [hk] at hkind; exact hkind.elim
  | _ => trivial

theorem World.At.held (hm : w.At S m) (hw : w.Lawful S) : Held m.active m.frames m.monitor.limits m :=
  ⟨rfl, rfl, rfl, hm.heap ▸ hw.heap.scripted⟩

/-- **A run on top of the open frames works by acts.** -/
theorem drive_works (hhost : host.BySyntax) (hE : E.Fair S) (hholds : E.Holds) : ∀ (bound : Nat) {w : World}
    {m : Machine} {s below : Stack Frame} {f : Frame}, w.Lawful S → (∀ x, w.Fresh x → own x) → w.At S m →
      m.frames = s.push f → below.Beneath s → w.Stands S own (f :: s.above below.size) →
      (drive host E below.size bound m).Works S own w fun w' c => c.Public S.realm w'.heap
  | 0, _, _, _, _, _, _, _, _, _, _, _ => trivial
  | bound + 1, w, m, s, below, f, hw, hown, hm, hframes, hbelow, hst => by
    obtain ⟨active, hactive⟩ := Option.isSome_iff_exists.mp hm.active
    have hheld : Held (some active) s m.monitor.limits { m with frames := s } :=
      ⟨hactive, rfl, rfl, hm.heap ▸ hw.heap.scripted⟩
    have hturn := turn_leads (m := { m with frames := s }) hhost hE hholds hw hown ⟨hm.heap, hm.realm⟩ hheld
      hbelow.size_le hst
    rw [drive_succ, advance_eq_turn hframes hbelow.size_le, Machine.collected_of_active hactive]
    obtain hstalled | ⟨r, m', s', hdone, hrestacked, hheld'⟩ :=
      turn_restacks host hholds hheld hbelow.size_le f
    · rw [hstalled]
      trivial
    rw [hdone] at hturn ⊢
    obtain ⟨w', hacts, hm', hleaves⟩ := hturn
    have hat : w'.At S m' := ⟨hm'.heap, hm'.realm, by rw [hheld'.active]; rfl⟩
    -- if a frame is left above the base, the run goes on with it
    have hgoing : ∀ {t : Stack Frame} {g : Frame}, m'.frames = t.push g → below.Beneath t →
        w'.Stands S own (m'.frames.above below.size) →
        (drive host E below.size bound m').Works S own w fun w' c => c.Public S.realm w'.heap := by
      intro t g htop hbeneath hst'
      rw [htop, Stack.above_push hbeneath.size_le] at hst'
      exact (drive_works hhost hE hholds bound (hacts.lawful hw) (fun x hx => hown x (hacts.fresh hx)) hat htop
        hbeneath hst').after hacts
    cases hrestacked with
    | finished o _ =>
      cases o with
      | ok c => exact ⟨w', hacts, hat, hleaves⟩
      | error e => exact ⟨w', hacts, hat, hleaves⟩
    | closed o hs ht => subst hs; exact hgoing hheld'.frames (hbelow.of_push ht) hleaves
    | answered o _ => exact hgoing hheld'.frames hbelow hleaves
    | asked child _ => exact hgoing hheld'.frames (hbelow.push _) hleaves

/-- A branch evaluated on top of the open frames works by acts. -/
theorem works_evaluateOn (hhost : host.BySyntax) (hE : E.Fair S) (hholds : E.Holds) (bound : Nat)
    {r : BranchRequest} (hr : r.Proper S w) :
    Works S own w (host.evaluateOn E bound r) fun w' c => c.Public S.realm w'.heap := by
  intro hw hown m hm
  rw [evaluateOn_eq, hhost r]
  obtain ⟨htask, hnew⟩ := Task.proper_ofRequest hr
  refine drive_works hhost hE hholds bound hw hown ⟨?_, ?_, ?_⟩ (Machine.frames_openFrame ..)
    (List.suffix_refl _) ?_
  · rw [Machine.heap_openFrame, hm.heap]
  · rw [Machine.realm_openFrame, hm.realm]
  · rw [Machine.active_openFrame, hm.active]
  · rw [Stack.above_eq_nil le_rfl]
    exact World.Stands.nil.push ⟨htask, trivial⟩ hnew

/-- The value that a completion gives a finished call. -/
theorem works_completionValue {c : Completion} (hc : c.Public S.realm w.heap) :
    Works S own w (Proc.ofExcept (completionValue c)) (World.Shows S) := by
  cases c with
  | normal v =>
    refine .pure ?_
    cases v with
    | none => trivial
    | some v => exact hc v rfl
  | returned v => exact .pure hc
  | thrown v => exact .fail fun _ hx => Error.throw.inj hx ▸ hc
  | broken label v => exact .fail fun _ hu => by cases hu
  | continued label v => exact .fail fun _ hu => by cases hu

theorem works_callOn (hhost : host.BySyntax) (hE : E.Fair S) (hholds : E.Holds) (bound : Nat) {callee receiver : Value}
    {args : List Value} (hcallee : w.Shows S callee) (hreceiver : w.Shows S receiver)
    (hargs : ∀ v ∈ args, w.Shows S v) :
    Works S own w (host.callOn E bound callee receiver args) (World.Shows S) := by
  intro hw hown m hm
  have hrequest : (m.callRequest callee receiver args).Proper S w := by
    obtain ⟨sc, hsc, -⟩ := hw.realm.scope
    refine ⟨hcallee, hreceiver, hargs, sc.object, sc, ?_, rfl⟩
    show w.heap.scope m.realm.globalScope = .ok sc
    rw [hm.realm]
    exact hsc
  rw [callOn_scripted (hm.heap ▸ hw.heap.scripted)]
  cases hq : m.requestedCall (m.callRequest callee receiver args) with
  | error e => exact ⟨w, .refl, hm, Error.public_of_mild ((m.mild_requestedCall _).of_error (β := Opening) hq)⟩
  | ok q =>
    obtain ⟨htask, hnew⟩ := proper_requestedCall hw ⟨hm.heap, hm.realm⟩ hrequest hq
    have hbelow : m.frames.Beneath m.frames := List.suffix_refl _
    have hdrive := drive_works (m := m.opened q m.childContext.1 m.childContext.2) hhost hE hholds
      bound hw hown ⟨?_, ?_, ?_⟩ (Machine.frames_openFrame ..) hbelow ?_
    · exact hdrive.bind hw hown fun _ _ _ _ _ _ _ hc => works_completionValue hc
    · exact (Machine.heap_openFrame ..).trans hm.heap
    · exact (Machine.realm_openFrame ..).trans hm.realm
    · exact (congrArg Option.isSome (Machine.active_openFrame ..)).trans hm.active
    · rw [Stack.above_eq_nil le_rfl]
      exact World.Stands.nil.push ⟨htask, trivial⟩ hnew

/-- **What a host runs works by acts**, if it evaluates branches by their syntax. -/
theorem Host.engine_fair (hhost : host.BySyntax) (k : Nat) : (host.engine k).Fair S := by
  induction k with
  | zero => exact ⟨fun _ _ _ _ => .stall, fun _ _ _ => .stall⟩
  | succ k ih =>
    refine ⟨fun e s o hs => works_evaluateOn hhost ih (host.engine_holds k) k ⟨⟨o, hs⟩, fun _ _ hf => ?_⟩,
      fun hf hr ha => works_callOn hhost ih (host.engine_holds k) k hf hr ha⟩
    exact absurd hf List.not_mem_nil

end ScriptCore
