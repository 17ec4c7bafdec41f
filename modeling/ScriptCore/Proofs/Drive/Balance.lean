import ScriptCore.Proofs.Drive.Isolation
import ScriptCore.Proofs.Drive.Unwinding

/-! # The stacks of frames and of active calls

A call is recorded when its frame is opened and forgotten when that frame closes, in other functions and past
several early exits: a call refused for its depth, a branch that the host does not evaluate, a native function
that fails, a frame that is aborted before it starts. Drives nest, and all of them share the two stacks.

What is known of the frames beneath a drive is left open: a `view` shows as much of a frame as native functions
leave alone, and at least whether it is the frame of a call. A native function that only calls back leaves the
frames as they are; one that aborts the innermost frame leaves them but for what they are given next.

* `CallsBack`: native functions that run more code only by evaluating and by calling.
* `Grown`: how the two stacks grow together.
* `turn_propped`, `Host.engine_steady`: a boundary keeps the stacks together; a run leaves both as they were.
* `Host.CallsBack.keeps_balance`: **the driver stays balanced.** -/

namespace ScriptCore

variable {α β γ : Type} {view : Frame → γ} {E : Engine} {host : Host} {m m' : Machine} {a : Option Active}
  {o : MonitorOptions} {k k' k₀ : Stack CallEntry} {s s' : Stack Frame} {v v₀ : List γ} {f g : Frame} {bound : Nat}

/-! ### Code that leaves the stacks alone -/

/-- The frame at `a` is running, and these are the options, the active calls and what is shown of the frames. -/
structure Stands (view : Frame → γ) (a : Option Active) (o : MonitorOptions) (k : Stack CallEntry) (v : List γ)
    (m : Machine) : Prop where
  active : m.active = a
  options : m.monitor.options = o
  calls : m.monitor.calls = k
  frames : m.frames.items.map view = v

/-- **The procedure leaves the frames and the active calls alone**, however it ends. -/
def Steady (view : Frame → γ) (p : Run α) : Prop := ∀ a o k v, Proc.Keeps (Stands view a o k v) p

namespace Steady

theorem pure (x : α) : Steady view (Pure.pure x : Run α) := fun _ _ _ _ => .pure x

theorem fail (e : Error) : Steady view (throw e : Run α) := fun _ _ _ _ => .fail e

theorem ofExcept (r : Except Error α) : Steady view (Proc.ofExcept r : Run α) := by
  cases r with
  | ok x => exact .pure x
  | error e => exact .fail e

theorem onHeap (p : Proc Heap α) : Steady view (Run.onHeap p) := by
  intro a o k v m h
  unfold Run.onHeap
  dsimp only
  cases p m.heap with
  | done x heap => exact ⟨h.active, h.options, h.calls, h.frames⟩
  | failed e heap => exact ⟨h.active, h.options, h.calls, h.frames⟩
  | stalled => trivial

theorem bind {p : Run α} {f : α → Run β} (hp : Steady view p) (hf : ∀ x, Steady view (f x)) :
    Steady view (p >>= f) := fun a o k v => .bind (hp a o k v) fun x => hf x a o k v

theorem attempt {p : Run α} (hp : Steady view p) : Steady view p.attempt := by
  intro a o k v m h
  have hleaves := hp a o k v m h
  unfold Proc.attempt
  cases hpm : p m with
  | done x m' => rw [hpm] at hleaves; exact hleaves
  | failed e m' => rw [hpm] at hleaves; exact hleaves
  | stalled => trivial

end Steady

/-- What the engine evaluates and calls leaves the frames and the active calls alone. -/
structure Engine.Steady (view : Frame → γ) (E : Engine) : Prop where
  evaluate : ∀ r, ScriptCore.Steady view (E.evaluate r)
  call : ∀ f receiver args, ScriptCore.Steady view (E.call f receiver args)

/-- **Code that runs more code only by evaluating and by calling.** The rest of it leaves the frames and the active
calls alone. -/
inductive CallsBack (view : Frame → γ) : {α : Type} → (Engine → Run α) → Prop where
  | aside {α : Type} {p : Run α} (hp : Steady view p) : CallsBack view fun _ => p
  | evaluate (r : BranchRequest) : CallsBack view fun E => E.evaluate r
  | call (f receiver : Value) (args : List Value) : CallsBack view fun E => E.call f receiver args
  | bind {α β : Type} {P : Engine → Run α} {F : Engine → α → Run β} (hp : CallsBack view P)
      (hf : ∀ x, CallsBack view fun E => F E x) : CallsBack view fun E => P E >>= F E
  | attempt {α : Type} {P : Engine → Run α} (hp : CallsBack view P) : CallsBack view fun E => (P E).attempt

theorem CallsBack.steady {P : Engine → Run α} (hP : CallsBack view P) (hE : E.Steady view) :
    Steady view (P E) := by
  induction hP with
  | aside hp => exact hp
  | evaluate r => exact hE.evaluate r
  | call f receiver args => exact hE.call f receiver args
  | bind _ _ ihp ihf => exact ihp.bind ihf
  | attempt _ ihp => exact ihp.attempt

/-- What tasks do is code of this kind. -/
theorem Routine.callsBack {P : Engine → Run α} (hP : Routine P) : CallsBack view P := by
  induction hP with
  | pure x => exact .aside (.pure x)
  | fail e => exact .aside (.fail e)
  | onHeap hp => exact .aside (.onHeap _)
  | look f => exact .aside fun _ _ _ _ _ h => h
  | evaluate r => exact .evaluate r
  | call f receiver args => exact .call f receiver args
  | bind _ _ ihp ihf => exact .bind ihp ihf

/-- The native functions of the host run more code only by evaluating and by calling. -/
def Host.CallsBack (view : Frame → γ) (host : Host) : Prop :=
  ∀ entry receiver args, ScriptCore.CallsBack view fun E => host.native entry E receiver args

/-! ### How the two stacks grow -/

/-- **The stacks grew together** from the calls `k₀` and from frames that show as `v₀`: with the frame of a call its
call was recorded, numbered by its depth, and nothing was recorded otherwise. At most `bound` calls are active. -/
inductive Grown (view : Frame → γ) (bound : Nat) (k₀ : Stack CallEntry) (v₀ : List γ) :
    Stack CallEntry → Stack Frame → Prop where
  | base {s : Stack Frame} (hs : s.items.map view = v₀) : Grown view bound k₀ v₀ k₀ s
  | branch {k : Stack CallEntry} {s : Stack Frame} {f : Frame} (h : Grown view bound k₀ v₀ k s)
      (hf : f.isCall = false) : Grown view bound k₀ v₀ k (s.push f)
  | call {k : Stack CallEntry} {s : Stack Frame} {f : Frame} {c : CallEntry} (h : Grown view bound k₀ v₀ k s)
      (hf : f.isCall = true) (hdepth : c.depth = k.size + 1) (hbound : k.size < bound) :
      Grown view bound k₀ v₀ (k.push c) (s.push f)

/-- The view shows whether a frame is the frame of a call. -/
def ShowsCalls (view : Frame → γ) : Prop := ∀ f g, view f = view g → f.isCall = g.isCall

namespace Grown

theorem size_le (h : Grown view bound k₀ v₀ k s) : v₀.length ≤ s.size := by
  induction h with
  | @base s hs => exact Nat.le_of_eq (by rw [← hs, List.length_map, s.size_eq])
  | branch _ _ ih => exact Nat.le_succ_of_le ih
  | call _ _ _ _ ih => exact Nat.le_succ_of_le ih

/-- Nothing has grown on the frames that were there. -/
theorem eq_of_size (h : Grown view bound k₀ v₀ k s) (hs : s.size = v₀.length) :
    k = k₀ ∧ s.items.map view = v₀ := by
  cases h with
  | base hv => exact ⟨rfl, hv⟩
  | branch h _ =>
    have := h.size_le
    rw [Stack.size_push] at hs
    omega
  | call h _ _ _ =>
    have := h.size_le
    rw [Stack.size_push] at hs
    omega

/-- A frame above those that were there is that of a branch, or that of a call and recorded. -/
theorem push_cases (h : Grown view bound k₀ v₀ k (s.push f)) (hs : v₀.length ≤ s.size) :
    (f.isCall = false ∧ Grown view bound k₀ v₀ k s) ∨
      f.isCall = true ∧ ∃ k' c, k = k'.push c ∧ c.depth = k'.size + 1 ∧ k'.size < bound ∧
        Grown view bound k₀ v₀ k' s := by
  generalize ht : s.push f = t at h
  cases h with
  | base hv =>
    have hlength := congrArg List.length hv
    rw [List.length_map, ← ht, Stack.items_push, List.length_cons, ← s.size_eq] at hlength
    omega
  | branch h hf =>
    obtain ⟨rfl, rfl⟩ := Stack.push_inj ht
    exact .inl ⟨hf, h⟩
  | call h hf hdepth hbound =>
    obtain ⟨rfl, rfl⟩ := Stack.push_inj ht
    exact .inr ⟨hf, _, _, rfl, hdepth, hbound, h⟩

/-- The frame on top closes, and its call is forgotten. -/
theorem pop (h : Grown view bound k₀ v₀ k (s.push f)) (hs : v₀.length ≤ s.size) :
    Grown view bound k₀ v₀ (if f.isCall then k.pop else k) s := by
  obtain ⟨hf, h⟩ | ⟨hf, k', c, rfl, -, -, h⟩ := h.push_cases hs
  · rw [hf]
    exact h
  · rw [hf, if_pos rfl, Stack.pop_push]
    exact h

/-- The frame on top is replaced. -/
theorem retop (h : Grown view bound k₀ v₀ k (s.push f)) (hs : v₀.length ≤ s.size) (hg : g.isCall = f.isCall) :
    Grown view bound k₀ v₀ k (s.push g) := by
  obtain ⟨hf, h⟩ | ⟨hf, k', c, rfl, hdepth, hbound, h⟩ := h.push_cases hs
  · exact .branch h (hg.trans hf)
  · exact .call h (hg.trans hf) hdepth hbound

/-- Frames that show as the same serve as well. -/
theorem congr (hview : ShowsCalls view) (h : Grown view bound k₀ v₀ k s)
    (hs : s'.items.map view = s.items.map view) : Grown view bound k₀ v₀ k s' := by
  -- What shows as a frame on others is such a frame.
  have pushed : ∀ {s t : Stack Frame} {f : Frame}, t.items.map view = (s.push f).items.map view →
      ∃ (u : Stack Frame) (g : Frame), t = u.push g ∧ g.isCall = f.isCall ∧
        u.items.map view = s.items.map view := by
    intro s t f ht
    have hsize : 0 < t.size := by
      rw [t.size_eq, ← t.items.length_map (f := view), ht, List.length_map]
      exact Nat.succ_pos _
    obtain ⟨u, g, rfl⟩ := Stack.exists_push hsize
    rw [Stack.items_push, Stack.items_push, List.map_cons, List.map_cons] at ht
    obtain ⟨hg, hu⟩ := List.cons.inj ht
    exact ⟨u, g, rfl, hview _ _ hg, hu⟩
  induction h generalizing s' with
  | base hv => exact .base (hs.trans hv)
  | branch _ hf ih =>
    obtain ⟨u, g, rfl, hg, hu⟩ := pushed hs
    exact .branch (ih hu) (hg.trans hf)
  | call _ hf hdepth hbound ih =>
    obtain ⟨u, g, rfl, hg, hu⟩ := pushed hs
    exact .call (ih hu) (hg.trans hf) hdepth hbound

theorem trans (hview : ShowsCalls view) (h : Grown view bound k₀ v₀ k s)
    (h' : Grown view bound k (s.items.map view) k' s') : Grown view bound k₀ v₀ k' s' := by
  induction h' with
  | base hs => exact h.congr hview hs
  | branch _ hf ih => exact .branch ih hf
  | call _ hf hdepth hbound ih => exact .call ih hf hdepth hbound

end Grown

/-- The frame at `a` is running, and the stacks grew from the calls `k₀` and frames that show as `v₀`. -/
structure Propped (view : Frame → γ) (a : Option Active) (o : MonitorOptions) (k₀ : Stack CallEntry) (v₀ : List γ)
    (m : Machine) : Prop where
  active : m.active = a
  options : m.monitor.options = o
  grown : Grown view o.maxDepth k₀ v₀ m.monitor.calls m.frames

theorem Stands.size (h : Stands view a o k v m) : m.frames.size = v.length := by
  rw [← h.frames, List.length_map, m.frames.size_eq]

theorem Stands.propped (h : Stands view a o k v m) : Propped view a o k v m := by
  refine ⟨h.active, h.options, ?_⟩
  rw [h.calls]
  exact .base h.frames

theorem Propped.stands (h : Propped view a o k v m) (hm : m.frames.size = v.length) : Stands view a o k v m :=
  ⟨h.active, h.options, (h.grown.eq_of_size hm).1, (h.grown.eq_of_size hm).2⟩

theorem Propped.collected (h : Propped view a o k v m) : Propped view a o k v m.collected :=
  ⟨by simpa using h.active, by simpa using h.options, by simpa using h.grown⟩

/-- The frame of a branch is opened. -/
theorem Propped.opened (h : Propped view a o k v m) (task : Task) (info : BranchInfo) (depth : Nat)
    (quiet : Bool) : Propped view a o k v (m.openFrame task info depth quiet false) := by
  refine ⟨by simpa using h.active, by simpa using h.options, ?_⟩
  rw [Machine.monitor_openFrame, Machine.frames_openFrame]
  exact .branch h.grown rfl

/-- An outcome is delivered to a frame above those that were there. -/
theorem Propped.deliver (h : Propped view a o k v m) (hm : v.length < m.frames.size)
    (r : Except Error Completion) : Propped view a o k v (m.deliver r) := by
  refine ⟨h.active, h.options, ?_⟩
  have hgrown := h.grown
  show Grown view o.maxDepth k v m.monitor.calls (m.frames.modifyTop _)
  obtain ⟨s, f, hf⟩ := Stack.exists_push (Nat.lt_of_le_of_lt (Nat.zero_le _) hm)
  rw [hf, Stack.size_push] at hm
  rw [hf] at hgrown ⊢
  rw [Stack.modifyTop_push]
  exact hgrown.retop (by omega) rfl

/-- Code that leaves the stacks alone leaves them together. -/
theorem Propped.after {p : Run α} (hview : ShowsCalls view) (hp : Steady view p) (h : Propped view a o k v m) :
    (p m).Leaves fun m' => Propped view a o k v m' ∧ m'.frames.size = m.frames.size := by
  refine (hp a o m.monitor.calls (m.frames.items.map view) m ⟨h.active, h.options, rfl, rfl⟩).imp
    fun m' h' => ⟨⟨h'.active, h'.options, ?_⟩, ?_⟩
  · rw [h'.calls]
    exact h.grown.congr hview h'.frames
  · rw [h'.size, List.length_map, m.frames.size_eq]

/-! ### Opening a call -/

/-- A call was opened: its frame is on top, or it was answered, or refused, and the stacks are as they were. -/
inductive CallOpened (view : Frame → γ) (a : Option Active) (o : MonitorOptions) (k : Stack CallEntry) (v : List γ) :
    Outcome Machine (Option Value) → Prop where
  | pending {m : Machine} (h : Propped view a o k v m) (hm : v.length < m.frames.size) :
      CallOpened view a o k v (.done none m)
  | answered {m : Machine} (w : Value) (h : Stands view a o k v m) : CallOpened view a o k v (.done (some w) m)
  | refused {m : Machine} (e : Error) (h : Stands view a o k v m) : CallOpened view a o k v (.failed e m)
  | stalled : CallOpened view a o k v .stalled

theorem CallOpened.of_leaves {p : Run Value} (h : (p m).Leaves (Stands view a o k v)) :
    CallOpened view a o k v ((some <$> p) m) := by
  rw [map_eq_pure_bind, Proc.bind_eq]
  cases hp : p m with
  | done x m' => rw [hp] at h; exact .answered x h
  | failed e m' => rw [hp] at h; exact .refused e h
  | stalled => exact .stalled

theorem Stands.refuseCall (h : Stands view a o k v m) (w : Value) :
    CallOpened view a o k v (ScriptCore.refuseCall w m) := by
  unfold ScriptCore.refuseCall
  rw [Run.readHeap_bind]
  cases m.heap.describe w <;> exact .refused _ h

/-- What a call of a closure opens is recorded, unless as many calls as may be are active. -/
theorem Machine.closureCall_recorded {c : ObjectRef} {r : CallRequest} {x : Opening}
    (h : m.closureCall c r = .ok x) : m.monitor.calls.size < m.monitor.options.maxDepth ∧ x.isCall = true ∧
      ∃ name, x.calls = m.monitor.calls.push ⟨name, m.monitor.calls.size + 1⟩ := by
  have opening : ∀ {name : Option String}, m.closureOpening c r name = .ok x →
      m.monitor.calls.size < m.monitor.options.maxDepth ∧ x.isCall = true ∧
        ∃ name, x.calls = m.monitor.calls.push ⟨name, m.monitor.calls.size + 1⟩ := by
    intro name h
    unfold closureOpening at h
    cases hclosure : m.heap.closure c with
    | error e => rw [hclosure] at h; cases h
    | ok closure =>
      cases hscope : m.heap.scope r.scope with
      | error e => rw [hclosure, hscope] at h; cases h
      | ok scope =>
        rw [hclosure, hscope] at h
        simp only [ok_bind] at h
        by_cases hdepth : m.monitor.options.maxDepth ≤ m.monitor.depth
        · rw [if_pos hdepth] at h
          cases h
        · rw [if_neg hdepth] at h
          cases h
          exact ⟨Nat.lt_of_not_le hdepth, rfl, name, rfl⟩
  unfold closureCall at h
  cases hsite : siteName m r with
  | some name => rw [hsite] at h; exact opening h
  | none =>
    rw [hsite] at h
    cases hname : m.heap.functionName c with
    | error e => rw [hname] at h; cases h
    | ok name => rw [hname] at h; exact opening h

/-- A native function runs among the active calls, and is forgotten however it ends. -/
theorem steady_callNative (hhost : host.CallsBack view) (hE : E.Steady view) (n : Native) (receiver : Value)
    (args : List Value) : Steady view (callNative host E n receiver args) := by
  intro a o k v m h
  unfold callNative
  by_cases hdepth : m.monitor.options.maxDepth ≤ m.monitor.depth
  · have henter : enterCall (some n.name) m = .failed (m.monitor.stop .stackOverflow) m := by
      rw [enterCall_eq, if_pos hdepth]
    rw [Proc.bind_failed henter]
    exact h
  · rw [Proc.bind_done (by rw [enterCall_eq, if_neg hdepth])]
    have popped : ∀ (r : Except Error Value) (m₁ : Machine),
        Stands view a o (k.push ⟨some n.name, m.monitor.depth + 1⟩) v m₁ →
          ((do modify fun m => { m with monitor := m.monitor.popCall }; Proc.ofExcept r : Run Value) m₁).Leaves
            (Stands view a o k v) := by
      intro r m₁ h₁
      refine Steady.ofExcept r a o k v _ ⟨h₁.active, h₁.options, ?_, h₁.frames⟩
      show m₁.monitor.calls.pop = k
      rw [h₁.calls, Stack.pop_push]
    have hran := (hhost n.entry receiver args).steady hE a o (k.push ⟨some n.name, m.monitor.depth + 1⟩) v
      { m with monitor := { m.monitor with
        calls := m.monitor.calls.push ⟨some n.name, m.monitor.depth + 1⟩ } }
      ⟨h.active, h.options, by rw [← h.calls], h.frames⟩
    rw [Proc.bind_eq]
    unfold Proc.attempt
    generalize host.native n.entry E receiver args _ = ran at hran
    cases ran with
    | done x m₁ => exact popped (.ok x) m₁ hran
    | failed e m₁ => exact popped (.error e) m₁ hran
    | stalled => trivial

/-- **A call is opened and recorded**, or it leaves the stacks as they were. -/
theorem openCall_opened (hhost : host.CallsBack view) (hE : E.Steady view) (h : Stands view a o k v m)
    (r : CallRequest) (depth : Nat) (quiet : Bool) :
    CallOpened view a o k v (openCall host E r depth quiet m) := by
  cases hcallee : r.callee with
  | object c =>
    cases hc : m.heap.object c with
    | error e =>
      unfold openCall
      rw [hcallee]
      simp only [Run.readHeap_bind, hc]
      exact .refused e h
    | ok x =>
      rw [openCall_object hcallee hc]
      cases x.kind with
      | ordinary => exact h.refuseCall _
      | array => exact h.refuseCall _
      | native n => exact CallOpened.of_leaves (steady_callNative hhost hE n r.receiver r.args a o k v m h)
      | closure _ =>
        show CallOpened view a o k v ((openClosure c r depth quiet >>= fun _ => pure none) m)
        rw [Proc.bind_eq, openClosure_eq_closureCall]
        cases hcall : m.closureCall c r with
        | error e => exact .refused e h
        | ok x =>
          obtain ⟨hbound, hx, name, hcalls⟩ := Machine.closureCall_recorded hcall
          rw [h.calls, h.options] at hbound
          have hgrown : Grown view o.maxDepth k v k m.frames := .base h.frames
          refine .pending ⟨?_, ?_, ?_⟩ ?_
          · show (m.opened x depth quiet).active = a
            simpa [Machine.opened] using h.active
          · show (m.opened x depth quiet).monitor.options = o
            simpa [Machine.opened] using h.options
          · show Grown view o.maxDepth k v (m.opened x depth quiet).monitor.calls (m.opened x depth quiet).frames
            unfold Machine.opened
            rw [Machine.monitor_openFrame, Machine.frames_openFrame, hcalls, h.calls]
            exact .call hgrown hx rfl hbound
          · show v.length < (m.opened x depth quiet).frames.size
            unfold Machine.opened
            rw [Machine.frames_openFrame, Stack.size_push]
            exact Nat.lt_succ_of_le hgrown.size_le
  | _ =>
    rw [openCall_other (by simp [hcallee])]
    exact hcallee ▸ h.refuseCall _

/-! ### One boundary -/

/-- **Opening what a suspended frame asks for** keeps the stacks together. -/
theorem openChild_propped (hview : ShowsCalls view) (hhost : host.CallsBack view) (hE : E.Steady view)
    (h : Propped view a o k v m) (hm : v.length < m.frames.size) (c : Suspension) (depth : Nat) (quiet : Bool) :
    (openChild host E c depth quiet m).Leaves fun m' =>
      Propped view a o k v m' ∧ v.length < m'.frames.size := by
  have delivered : ∀ (r : Except Error Completion) (m₁ : Machine),
      Stands view a o m.monitor.calls (m.frames.items.map view) m₁ →
        Propped view a o k v (m₁.deliver r) ∧ v.length < (m₁.deliver r).frames.size := by
    intro r m₁ h₁
    have hsize : v.length < m₁.frames.size := by
      rwa [h₁.size, List.length_map, ← m.frames.size_eq]
    have hpropped : Propped view a o k v m₁ :=
      ⟨h₁.active, h₁.options, h.grown.trans hview (h₁.propped.grown)⟩
    exact ⟨hpropped.deliver hsize r, hsize⟩
  have hstands : Stands view a o m.monitor.calls (m.frames.items.map view) m :=
    ⟨h.active, h.options, rfl, rfl⟩
  cases c with
  | branch r =>
    unfold openChild
    dsimp only
    cases host.branch r with
    | ok task =>
      refine ⟨h.opened task r.info depth quiet, ?_⟩
      rw [Machine.frames_openFrame]
      exact Nat.lt_succ_of_lt hm
    | error e => exact delivered _ m hstands
  | call r =>
    have hopened := openCall_opened hhost hE hstands r depth quiet
    simp only [openChild, Bind.bind, Proc.bind, Proc.attempt]
    generalize openCall host E r depth quiet m = x at hopened
    cases hopened with
    | refused e h₁ => exact delivered _ _ h₁
    | answered w h₁ => exact delivered _ _ h₁
    | stalled => trivial
    | pending h₁ hsize =>
      rw [List.length_map, ← m.frames.size_eq] at hsize
      exact ⟨⟨h₁.active, h₁.options, h.grown.trans hview h₁.grown⟩, Nat.lt_trans hm hsize⟩

/-- What a boundary came to: a frame above those that were there is left, or the stacks are as they were. -/
def TurnEnds (view : Frame → γ) (a : Option Active) (o : MonitorOptions) (k : Stack CallEntry) (v : List γ) :
    Outcome Machine Advance → Prop
  | .done .going m => Propped view a o k v m ∧ v.length < m.frames.size
  | .done (.finished _) m => Stands view a o k v m
  | .failed _ _ => False
  | .stalled => True

/-- The frame was taken off the stack, from above those that were there. -/
structure Lifted (view : Frame → γ) (a : Option Active) (o : MonitorOptions) (k : Stack CallEntry) (v : List γ)
    (f : Frame) (m : Machine) : Prop where
  active : m.active = a
  options : m.monitor.options = o
  grown : Grown view o.maxDepth k v m.monitor.calls (m.frames.push f)
  above : v.length ≤ m.frames.size

theorem Lifted.after {p : Run α} (hview : ShowsCalls view) (hp : Steady view p) (h : Lifted view a o k v f m) :
    (p m).Leaves (Lifted view a o k v f) := by
  refine (hp a o m.monitor.calls (m.frames.items.map view) m ⟨h.active, h.options, rfl, rfl⟩).imp
    fun m' h' => ⟨h'.active, h'.options, ?_, ?_⟩
  · rw [h'.calls]
    refine h.grown.congr hview ?_
    rw [Stack.items_push, Stack.items_push, List.map_cons, List.map_cons, h'.frames]
  · rw [h'.size, List.length_map, ← m.frames.size_eq]
    exact h.above

/-- A frame closes. -/
theorem Lifted.closed (h : Lifted view a o k v f m) (r : Except Error Completion) :
    TurnEnds view a o k v (m.closed f r v.length) := by
  have habove := h.above
  have hleft : Propped view a o k v (m.leave f r) := by
    refine ⟨by simpa using h.active, ?_, ?_⟩
    · rw [Machine.monitor_leave]
      split <;> exact h.options
    · have hcalls : (m.leave f r).monitor.calls = if f.isCall then m.monitor.calls.pop else m.monitor.calls := by
        rw [Machine.monitor_leave]
        split <;> rfl
      rw [hcalls, Machine.frames_leave]
      exact h.grown.pop habove
  unfold Machine.closed
  by_cases hsize : m.frames.size = v.length
  · rw [if_pos hsize]
    exact hleft.stands (by rw [Machine.frames_leave, hsize])
  · rw [if_neg hsize]
    have hgoing : v.length < (m.leave f r).frames.size := by
      rw [Machine.frames_leave]
      omega
    exact ⟨hleft.deliver hgoing r, hgoing⟩

/-- A frame is suspended. -/
theorem Lifted.suspended (hview : ShowsCalls view) (hhost : host.CallsBack view) (hE : E.Steady view)
    (h : Lifted view a o k v f m) (hg : g.isCall = f.isCall) (c : Suspension) :
    TurnEnds view a o k v
      (match suspend host E g c m with
        | .done _ m => .done .going m
        | .failed e m => .failed e m
        | .stalled => .stalled) := by
  have hpushed : Propped view (some ⟨g.depth, g.quiet⟩) o k v
      { m with frames := m.frames.push g, active := some ⟨g.depth, g.quiet⟩ } :=
    ⟨rfl, h.options, h.grown.retop h.above hg⟩
  have hopened := openChild_propped hview hhost hE hpushed (Nat.lt_succ_of_le h.above) c (g.depth + 1) g.quiet
  rw [suspend_eq]
  cases hx : openChild host E c (g.depth + 1) g.quiet
    { m with frames := m.frames.push g, active := some ⟨g.depth, g.quiet⟩ } with
  | done u m₁ =>
    rw [hx] at hopened
    exact ⟨⟨h.active, hopened.1.options, hopened.1.grown⟩, hopened.2⟩
  | failed e m₁ => exact absurd hx (unfailing_openChild c _ _ _ e m₁)
  | stalled => trivial

theorem steady_crossing (i : Option (Except Error Completion)) : Steady view (crossing i) := by
  intro a o k v m h
  have hcrossed : (m.monitor.crossed i).2.options = m.monitor.options ∧
      (m.monitor.crossed i).2.calls = m.monitor.calls := by
    unfold Monitor.crossed Monitor.tick
    split
    · exact ⟨rfl, rfl⟩
    · cases Monitor.spend m.monitor.budget.fuel with
      | none => exact ⟨rfl, rfl⟩
      | some fuel =>
        cases m.monitor.interrupted with
        | true => exact ⟨rfl, rfl⟩
        | false => dsimp only; cases Budget.deadlinePassed _ _ _ <;> exact ⟨rfl, rfl⟩
  unfold crossing
  generalize m.monitor.crossed i = crossed at hcrossed
  obtain ⟨r, l⟩ := crossed
  cases r <;> exact ⟨h.active, hcrossed.1.trans h.options, hcrossed.2.trans h.calls, h.frames⟩

theorem Frame.steady_running (f : Frame) {p : Run α} (hp : Steady view p) : Steady view (f.running p) := by
  intro a o k v m h
  have hran := hp (some ⟨f.depth, f.quiet⟩) o k v { m with active := some ⟨f.depth, f.quiet⟩ }
    ⟨rfl, h.options, h.calls, h.frames⟩
  unfold Frame.running
  generalize p _ = ran at hran
  cases ran with
  | done x m₁ => exact ⟨h.active, hran.options, hran.calls, hran.frames⟩
  | failed e m₁ => exact ⟨h.active, hran.options, hran.calls, hran.frames⟩
  | stalled => trivial

theorem Frame.steady_work (hE : E.Steady view) (f : Frame) (i : Option (Except Error Completion)) :
    Steady view (f.work E i) :=
  (steady_crossing i).bind fun _ => f.steady_running ((f.task.routine_doing i).callsBack.steady hE)

/-- **One boundary keeps the stacks together.** -/
theorem Lifted.turned (hview : ShowsCalls view) (hhost : host.CallsBack view) (hE : E.Steady view)
    (h : Lifted view a o k v f m) : TurnEnds view a o k v (turn host E v.length f m) := by
  induction f using Frame.fed_cases with
  | fed f i =>
    have hworked := h.after hview (f.steady_work hE i)
    have lifted : ∀ {m'}, Lifted view a o k v (f.fed i) m' → Lifted view a o k v f m' := fun h' =>
      ⟨h'.active, h'.options, h'.grown.retop h'.above (by cases i <;> rfl), h'.above⟩
    rw [turn_fed]
    generalize f.work E i m = x at hworked
    cases x with
    | stalled => trivial
    | failed e m₁ => exact (lifted hworked).closed _
    | done r m₁ =>
      obtain ⟨t, step⟩ := r
      cases step with
      | finished c => exact (lifted hworked).closed _
      | suspended c =>
        exact (lifted hworked).suspended hview hhost hE (g := { f with task := t, input := .waiting }) rfl c
  | fail f e hinput =>
    rw [turn_fail hinput]
    exact h.closed _
  | waiting f hinput =>
    rw [turn_waiting hinput]
    exact h.closed _

/-! ### Many boundaries -/

/-- A boundary of a drive. -/
theorem advance_turned (hview : ShowsCalls view) (hhost : host.CallsBack view) (hE : E.Steady view)
    (h : Propped view a o k v m) (hm : v.length < m.frames.size) :
    TurnEnds view a o k v (advance host E v.length m) := by
  obtain ⟨s, f, hf⟩ := Stack.exists_push (Nat.lt_of_le_of_lt (Nat.zero_le _) hm)
  have hs : v.length ≤ s.size := by
    rw [hf, Stack.size_push] at hm
    omega
  rw [advance_eq_turn hf hs]
  have hc := h.collected
  have hgrown := hc.grown
  rw [Machine.frames_collected, hf] at hgrown
  exact Lifted.turned hview hhost hE ⟨hc.active, hc.options, hgrown, hs⟩

/-- **A drive takes its own frames and their calls off the stacks**, and leaves the others. -/
theorem drive_stands (hview : ShowsCalls view) (hhost : host.CallsBack view) (hE : E.Steady view) (b : Nat)
    (h : Propped view a o k v m) (hm : v.length < m.frames.size) :
    (drive host E v.length b m).Leaves (Stands view a o k v) := by
  induction b generalizing m with
  | zero => trivial
  | succ b ih =>
    have hturned := advance_turned hview hhost hE h hm
    rw [drive_succ]
    generalize advance host E v.length m = x at hturned
    cases x with
    | stalled => trivial
    | failed e m₁ => exact hturned.elim
    | done r m₁ =>
      cases r with
      | going => exact ih hturned.1 hturned.2
      | finished r => cases r <;> exact hturned

theorem steady_evaluateOn (hview : ShowsCalls view) (hhost : host.CallsBack view) (hE : E.Steady view) (b : Nat)
    (r : BranchRequest) : Steady view (host.evaluateOn E b r) := by
  intro a o k v m h
  rw [evaluateOn_eq, h.size]
  cases host.branch r with
  | error e => exact h
  | ok task =>
    refine drive_stands hview hhost hE b (h.propped.opened task r.info _ _) ?_
    rw [Machine.frames_openFrame, Stack.size_push, h.size]
    exact Nat.lt_succ_self _

theorem steady_callOn (hview : ShowsCalls view) (hhost : host.CallsBack view) (hE : E.Steady view) (b : Nat)
    (callee receiver : Value) (args : List Value) : Steady view (host.callOn E b callee receiver args) := by
  intro a o k v m h
  have hopened := openCall_opened hhost hE h (m.callRequest callee receiver args) m.childContext.1 m.childContext.2
  rw [callOn_eq_answered, Proc.bind_eq, h.size]
  generalize openCall host E _ _ _ m = x at hopened
  cases hopened with
  | refused e h₁ => exact h₁
  | answered w h₁ => exact h₁
  | stalled => trivial
  | @pending m₁ h₁ hsize =>
    show Outcome.Leaves _ (Proc.bind (drive host E v.length b) (fun c => Proc.ofExcept (completionValue c)) m₁)
    exact (drive_stands hview hhost hE b h₁ hsize).bind fun c => Steady.ofExcept _ a o k v

/-- **What is evaluated or called leaves the stacks as they were.** -/
theorem Host.engine_steady (hview : ShowsCalls view) (hhost : host.CallsBack view) (n : Nat) :
    (host.engine n).Steady view := by
  induction n with
  | zero => exact ⟨fun _ _ _ _ _ _ _ => trivial, fun _ _ _ _ _ _ _ _ _ => trivial⟩
  | succ n ih => exact ⟨steady_evaluateOn hview hhost ih n, steady_callOn hview hhost ih n⟩

/-! ### The driver -/

/-- **The machines of a host that has control**: it starts, steps, runs and executes programs, evaluates, calls,
aborts and cancels, in any order and whatever comes of it. Between, it does anything that leaves the frames and
the active calls alone. -/
inductive Machine.Hosted (view : Frame → γ) (host : Host) : Machine → Prop where
  | create {limits : HeapLimits} {options : MonitorOptions} {now : Nat} {sloppy : Bool} {m : Machine}
      (h : Machine.create limits options now sloppy = .ok m) : Hosted view host m
  | start {m m' : Machine} (hm : Hosted view host m) (bound : Nat) (r : BranchRequest)
      (h : ((host.engine bound).start r m).state? = some m') : Hosted view host m'
  | step {m m' : Machine} (hm : Hosted view host m) (bound : Nat)
      (h : ((host.engine bound).step m).state? = some m') : Hosted view host m'
  | run {m m' : Machine} (hm : Hosted view host m) (bound : Nat)
      (h : ((host.engine bound).run m).state? = some m') : Hosted view host m'
  | execute {m m' : Machine} (hm : Hosted view host m) (bound : Nat) (body : List Stmt)
      (h : ((host.engine bound).execute body m).state? = some m') : Hosted view host m'
  | evaluate {m m' : Machine} (hm : Hosted view host m) (bound : Nat) (r : BranchRequest)
      (h : ((host.engine bound).evaluate r m).state? = some m') : Hosted view host m'
  | call {m m' : Machine} (hm : Hosted view host m) (bound : Nat) (callee receiver : Value) (args : List Value)
      (h : ((host.engine bound).call callee receiver args m).state? = some m') : Hosted view host m'
  | abort {m m' : Machine} (hm : Hosted view host m) (e : Error) (h : (abort e m).state? = some m') :
      Hosted view host m'
  | cancel {m m' : Machine} (hm : Hosted view host m) (h : (cancel m).state? = some m') : Hosted view host m'
  | aside {α : Type} {m m' : Machine} (hm : Hosted view host m) {p : Run α} (hp : Steady view p)
      (h : (p m).state? = some m') : Hosted view host m'

/-- **Balance**: no task is running; there are as many active calls as frames of calls; from the outermost on they
are numbered by their depth; and no more are active than may be. -/
structure Machine.Balanced (m : Machine) : Prop where
  active : m.active = none
  calls : m.monitor.calls.size = m.frames.items.countP Frame.isCall
  depths : ∀ i c, m.monitor.trace[i]? = some c → c.depth = i + 1
  bounded : m.monitor.calls.size ≤ m.monitor.options.maxDepth

/-- Stacks that grew from nothing are balanced. -/
theorem Propped.balanced (h : Propped view none o .empty [] m) : m.Balanced := by
  obtain ⟨hactive, rfl, hgrown⟩ := h
  -- The claims about the two stacks, by how the stacks grew.
  have counted : ∀ {k : Stack CallEntry} {s : Stack Frame},
      Grown view m.monitor.options.maxDepth .empty [] k s → k.size = s.items.countP Frame.isCall ∧
        (∀ i c, k.items.reverse[i]? = some c → c.depth = i + 1) ∧ k.size ≤ m.monitor.options.maxDepth := by
    intro k s h
    induction h with
    | base hs =>
      refine ⟨?_, fun i c hc => ?_, Nat.zero_le _⟩
      · rw [List.map_eq_nil_iff.mp hs]
        rfl
      · cases hc
    | branch _ hf ih =>
      refine ⟨?_, ih.2⟩
      rw [Stack.items_push, List.countP_cons_of_neg (by simp [hf])]
      exact ih.1
    | @call k s f c _ hf hdepth hbound ih =>
      refine ⟨?_, fun i d hd => ?_, hbound⟩
      · rw [Stack.size_push, Stack.items_push, List.countP_cons_of_pos hf, ih.1]
      · rw [Stack.items_push, List.reverse_cons] at hd
        obtain hlt | hge := Nat.lt_or_ge i k.items.reverse.length
        · rw [List.getElem?_append_left hlt] at hd
          exact ih.2.1 i d hd
        · rw [List.getElem?_append_right hge] at hd
          have hi : i = k.items.reverse.length := by
            have := (List.getElem?_eq_some_iff.mp hd).1
            rw [List.length_singleton] at this
            omega
          rw [hi, Nat.sub_self] at hd
          cases hd
          rw [hdepth, hi, List.length_reverse, k.size_eq]
  obtain ⟨hcalls, hdepths, hbounded⟩ := counted hgrown
  exact ⟨hactive, hcalls, hdepths, hbounded⟩

section

variable (hview : ShowsCalls view) (hhost : host.CallsBack view)

/-- The root branch is opened where no frame is, or the start is refused. -/
theorem startRoot_cases (host : Host) (m : Machine) (r : BranchRequest) :
    (∃ e, host.startRoot r m = .failed e m) ∨
      ∃ task, host.startRoot r m = .done () (m.openFrame task r.info 0 false false) := by
  have hget : (get : Run Machine) m = .done m m := rfl
  unfold Host.startRoot
  rw [Proc.bind_done hget]
  split
  · exact .inl ⟨_, rfl⟩
  · cases host.branch r with
    | error e => exact .inl ⟨e, rfl⟩
    | ok task => exact .inr ⟨task, rfl⟩

theorem Propped.start (h : Propped view none o k v m) (r : BranchRequest) :
    (host.startRoot r m).Leaves (Propped view none o k v) := by
  obtain ⟨e, hstart⟩ | ⟨task, hstart⟩ := startRoot_cases host m r
  · rw [hstart]
    exact h
  · rw [hstart]
    exact h.opened task r.info 0 false

theorem Propped.abort (h : Propped view none o .empty [] m) (e : Error) :
    (ScriptCore.abort e m).Leaves (Propped view none o .empty []) := by
  obtain hempty | hpos := Nat.eq_zero_or_pos m.frames.size
  · have hframes : m.frames.isEmpty = true := by
      rw [m.frames.size_eq, List.length_eq_zero_iff] at hempty
      show m.frames.items.isEmpty = true
      rw [hempty]
      rfl
    unfold ScriptCore.abort
    rw [if_pos hframes]
    exact h
  · obtain ⟨s, f, hf⟩ := Stack.exists_push hpos
    have hgrown := h.grown
    rw [hf] at hgrown
    rw [abort_push hf]
    exact ⟨h.active, h.options, hgrown.retop (Nat.zero_le _) rfl⟩

theorem Stack.size_of_isEmpty {t : Stack α} (ht : t.isEmpty = true) : t.size = 0 := by
  rw [t.size_eq, List.isEmpty_iff.mp ht]
  rfl

theorem Stack.size_pos {t : Stack α} (ht : ¬ t.isEmpty = true) : 0 < t.size := by
  rw [t.size_eq]
  exact List.length_pos_iff.mpr fun hnil => ht (List.isEmpty_iff.mpr hnil)

/-- A host that has control drives the root branch, or is told that there is none. -/
theorem requireControl_cases (hactive : m.active = none) :
    (requireControl m = .done () m ∧ 0 < m.frames.size) ∨
      ∃ e, requireControl m = .failed e m ∧ m.frames.size = 0 := by
  have hget : (get : Run Machine) m = .done m m := rfl
  unfold requireControl
  rw [Proc.bind_done hget, hactive, if_neg (by simp)]
  by_cases hframes : m.frames.isEmpty = true
  · rw [if_pos hframes]
    exact .inr ⟨_, rfl, Stack.size_of_isEmpty hframes⟩
  · rw [if_neg hframes]
    exact .inl ⟨rfl, Stack.size_pos hframes⟩

include hview hhost in
theorem Propped.driveVisible (hE : E.Steady view) (b : Nat) (h : Propped view none o .empty [] m)
    (hm : 0 < m.frames.size) : (driveVisible host E b m).Leaves (Propped view none o .empty []) := by
  induction b generalizing m with
  | zero => trivial
  | succ b ih =>
    have hturned : TurnEnds view none o .empty [] (advance host E 0 m) := advance_turned hview hhost hE h hm
    unfold ScriptCore.driveVisible
    generalize advance host E 0 m = x at hturned
    cases x with
    | stalled => trivial
    | failed e m₁ => exact hturned.elim
    | done r m₁ =>
      cases r with
      | finished r => cases r <;> exact hturned.propped
      | going =>
        dsimp only
        by_cases hquiet : m₁.isQuiet = true
        · rw [if_pos hquiet]
          exact ih hturned.1 hturned.2
        · rw [if_neg hquiet]
          exact hturned.1

include hview hhost in
theorem Propped.step (h : Propped view none o .empty [] m) :
    ∀ n, ((host.engine n).step m).Leaves (Propped view none o .empty [])
  | 0 => trivial
  | n + 1 => by
    unfold Host.engine
    dsimp only
    obtain ⟨hcontrol, hm⟩ | ⟨e, hcontrol, hm⟩ := requireControl_cases h.active
    · rw [hcontrol]
      exact h.driveVisible hview hhost (Host.engine_steady hview hhost n) n hm
    · rw [hcontrol]
      exact h

include hview hhost in
/-- A run of the root branch takes all frames off the stack. -/
theorem Propped.run (h : Propped view none o .empty [] m) :
    ∀ n, ((host.engine n).run m).Leaves (Stands view none o .empty [])
  | 0 => trivial
  | n + 1 => by
    unfold Host.engine
    dsimp only
    obtain ⟨hcontrol, hm⟩ | ⟨e, hcontrol, hm⟩ := requireControl_cases h.active
    · rw [hcontrol]
      exact drive_stands hview hhost (Host.engine_steady hview hhost n) n h hm
    · rw [hcontrol]
      exact h.stands hm

include hview hhost in
/-- Executing a program takes the frames off the stack that it opened. -/
theorem Propped.execute (h : Propped view none o .empty [] m) (body : List Stmt) :
    ∀ n, ((host.engine n).execute body m).Leaves fun m' =>
      Propped view none o .empty [] m' ∧ (m.frames.size = 0 → m'.frames.size = 0)
  | 0 => trivial
  | n + 1 => by
    show (host.executeOn (host.engine n) n body m).Leaves _
    rw [executeOn_of_inactive h.active]
    generalize ({ BranchRequest.program body m.realm.globalScope with
      options := { returnLastValue := true } } : BranchRequest) = r
    obtain ⟨e, hstart⟩ | ⟨task, hstart⟩ := startRoot_cases host m r
    · rw [Proc.bind_failed hstart]
      exact ⟨h, id⟩
    · have hopened : 0 < (m.openFrame task r.info 0 false false).frames.size := by
        rw [Machine.frames_openFrame]
        exact Nat.succ_pos _
      have hdriven := drive_stands hview hhost (Host.engine_steady hview hhost n) n (h.opened task r.info 0 false)
        hopened
      rw [Proc.bind_done hstart]
      have hended : ((drive host (host.engine n) 0 n (m.openFrame task r.info 0 false false)).bind fun c =>
          (Proc.ofExcept (completionValue c) : Run Value)).Leaves (Stands view none o .empty []) :=
        hdriven.bind fun c => Steady.ofExcept _ none o .empty []
      refine Outcome.Leaves.imp (J := fun m' => Propped view none o .empty [] m' ∧
        (m.frames.size = 0 → m'.frames.size = 0)) hended fun m' h' => ⟨h'.propped, fun _ => h'.size⟩

include hview hhost in
/-- What the host evaluates or calls keeps the stacks together. -/
theorem Machine.Hosted.propped (h : m.Hosted view host) : ∃ o, Propped view none o .empty [] m := by
  induction h with
  | @create limits options now sloppy m h =>
    have hheld := Machine.held_create h
    refine ⟨m.monitor.options, hheld.active, rfl, ?_⟩
    have hcalls : m.monitor.calls = .empty := by
      obtain ⟨realm, heap, -, rfl⟩ := Machine.create_eq_ok h
      rfl
    rw [hcalls, hheld.frames]
    exact .base rfl
  | start _ bound r h ih =>
    obtain ⟨o, ih⟩ := ih
    exact ⟨o, (ih.start r).of_state (by cases bound <;> exact h)⟩
  | step _ bound h ih => exact ih.imp fun o ih => (ih.step hview hhost bound).of_state h
  | run _ bound h ih => exact ih.imp fun o ih => ((ih.run hview hhost bound).of_state h).propped
  | execute _ bound body h ih => exact ih.imp fun o ih => ((ih.execute hview hhost body bound).of_state h).1
  | evaluate _ bound r h ih =>
    exact ih.imp fun o ih => ((ih.after hview ((Host.engine_steady hview hhost bound).evaluate r)).of_state h).1
  | call _ bound callee receiver args h ih =>
    exact ih.imp fun o ih =>
      ((ih.after hview ((Host.engine_steady hview hhost bound).call callee receiver args)).of_state h).1
  | abort _ e h ih => exact ih.imp fun o ih => (ih.abort e).of_state h
  | cancel _ h ih => exact ih.imp fun o ih => (ih.abort _).of_state h
  | aside _ hp h ih => exact ih.imp fun o ih => ((ih.after hview hp).of_state h).1

end

/-- What the view shows of the frames, how many there are, and the active calls are the same. -/
structure Machine.SameStacks (view : Frame → γ) (m m' : Machine) : Prop where
  size : m'.frames.size = m.frames.size
  frames : m'.frames.items.map view = m.frames.items.map view
  calls : m'.monitor.calls = m.monitor.calls

theorem Steady.sameStacks {p : Run α} (hp : Steady view p) (m : Machine) :
    (p m).Leaves (m.SameStacks view) := by
  refine (hp m.active m.monitor.options m.monitor.calls (m.frames.items.map view) m ⟨rfl, rfl, rfl, rfl⟩).imp
    fun m' h' => ⟨?_, h'.frames, h'.calls⟩
  rw [h'.size, List.length_map, m.frames.size_eq]

/-- **The driver stays balanced.** Let native functions run more code only by evaluating and by calling, and leave
what `view` shows of the frames alone otherwise.

* Every machine of a host that has control is balanced, whatever the host did and whatever came of it.
* A run of the root branch leaves no frames, and neither does the execution of a program where none was open.
* Evaluating and calling, also from inside a task, leave the frames that were open and the active calls as they
  were. -/
theorem Host.CallsBack.keeps_balance (hview : ShowsCalls view) (hhost : host.CallsBack view) :
    (∀ m : Machine, m.Hosted view host → m.Balanced ∧ ∀ n,
      ((host.engine n).run m).Leaves (fun m' => m'.frames.size = 0) ∧
      (m.frames.size = 0 → ∀ body, ((host.engine n).execute body m).Leaves fun m' => m'.frames.size = 0)) ∧
    ∀ (m : Machine) n, (∀ r, ((host.engine n).evaluate r m).Leaves (m.SameStacks view)) ∧
      ∀ callee receiver args, ((host.engine n).call callee receiver args m).Leaves (m.SameStacks view) := by
  refine ⟨fun m hm => ?_, fun m n => ⟨fun r => ?_, fun callee receiver args => ?_⟩⟩
  · obtain ⟨o, h⟩ := hm.propped hview hhost
    exact ⟨h.balanced, fun n => ⟨(h.run hview hhost n).imp fun m' h' => h'.size,
      fun hsize body => (h.execute hview hhost body n).imp fun m' h' => h'.2 hsize⟩⟩
  · exact ((Host.engine_steady hview hhost n).evaluate r).sameStacks m
  · exact ((Host.engine_steady hview hhost n).call callee receiver args).sameStacks m

/-- The host whose native functions call what they are given first, with all that they are given. -/
def Host.calling : Host where
  branch r := .ok (Task.ofRequest r)
  native _ E receiver args := E.call (args.headD .undefined) receiver args

/-- A native function that is given itself calls itself until too many calls are active. It fails, and leaves the
stacks as they were. -/
theorem Host.CallsBack.keeps_balance_calling : ∃ (m m' : Machine) (f : Value), ShowsCalls (id : Frame → Frame) ∧
    Host.calling.CallsBack id ∧ m.Hosted id Host.calling ∧
    ((Host.calling.engine 5).call f .undefined [f] m).state? = some m' ∧ m'.Balanced ∧ m.SameStacks id m' := by
  have hview : ShowsCalls (id : Frame → Frame) := fun _ _ h => congrArg Frame.isCall h
  have hhost : Host.calling.CallsBack (id : Frame → Frame) := fun _ _ _ => .call _ _ _
  have hruns : ((Machine.create .standard { maxDepth := 3 } 0 true).toOption.bind fun m =>
      (allocNative ⟨"self", 0, "self"⟩ m).done?.map fun x =>
        ((Host.calling.engine 5).call (.object x.1) .undefined [.object x.1] x.2).state?.isSome) =
        some true := by decide +kernel
  obtain ⟨m, hm, hruns⟩ := Option.bind_eq_some_iff.mp hruns
  obtain ⟨⟨f, m₁⟩, hf, hruns⟩ := Option.map_eq_some_iff.mp hruns
  obtain ⟨m', hm'⟩ := Option.isSome_iff_exists.mp hruns
  have hcreated : Machine.create .standard { maxDepth := 3 } 0 true = .ok m := by
    cases hcreate : Machine.create .standard { maxDepth := 3 } 0 true with
    | error e => rw [hcreate] at hm; cases hm
    | ok m₀ => rw [hcreate] at hm; cases hm; rfl
  have hsteady : Steady (id : Frame → Frame) (allocNative ⟨"self", 0, "self"⟩) :=
    .bind (fun _ _ _ _ _ h => h) fun _ => .bind (.onHeap _) fun f =>
      .bind ((routine_defineFunctionNames f _ _).callsBack.steady (Host.engine_steady hview hhost 0)) fun _ =>
        .pure f
  have hhosted : m₁.Hosted (id : Frame → Frame) Host.calling :=
    .aside (.create hcreated) hsteady (by rw [Outcome.eq_done hf]; rfl)
  have hbalanced := Host.CallsBack.keeps_balance hview hhost
  have hleft := (hbalanced.2 m₁ 5).2 (.object f) .undefined [.object f]
  refine ⟨m₁, m', .object f, hview, hhost, hhosted, hm', (hbalanced.1 m' (.call hhosted 5 _ _ _ hm')).1, ?_⟩
  generalize (Host.calling.engine 5).call (.object f) .undefined [.object f] m₁ = x at hm' hleft
  cases x <;> cases hm' <;> exact hleft

end ScriptCore
