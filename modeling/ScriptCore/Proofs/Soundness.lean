import ScriptCore.Proofs.Renaming.Programs

/-! # Programs never meet an internal error

A machine compared with itself, in lockstep, is alike to itself exactly when every reference in it names
a block of the right kind and every frame is where its task can go on. So what keeps machines alike keeps
them sound, and no error that is alike to another is internal: neither a handle that does not resolve nor
frames that are driven out of order.

* `Machine.Sound`: what holds between two boundaries.
* `Machine.Reachable`: what a host can bring a new machine to by starting and executing programs, driving
  them and collecting garbage.
* `Machine.Reachable.inStep`: **every reachable machine is sound**, and so is what each operation of the
  host makes of it. -/

namespace ScriptCore

variable {ρ : Renaming} {host : Host} {m m' : Machine} {n : Nat} {α : Type}

/-! ### Sound machines -/

/-- The reference names a block of its kind. -/
def Heap.Names (h : Heap) (r : Ref) : Prop := ∃ b, h.block? r.handle = some b ∧ b.kind = r.kind

/-- Between two boundaries every reference names a block of its kind, no frame is given an internal error,
the innermost frame can be driven, all others wait, and an expression that waits for its last operand will
look at none but those. -/
structure Machine.Sound (m : Machine) : Prop where
  heap : m.heap.Valid
  blocks : ∀ x b, m.heap.block? x = some b → ∀ r ∈ refs b, m.heap.Names r
  realm : ∀ r ∈ refs m.realm, m.heap.Names r
  frames : ∀ f ∈ m.frames.items, ∀ r ∈ refs f, m.heap.Names r
  inputs : ∀ f ∈ m.frames.items, ∀ e, f.input = .deliver (.error e) ∨ f.input = .fail e →
    e.isInternal = false
  innermost : ∀ f rest, m.frames.items = f :: rest → f.Fits ∧ ∀ g ∈ rest, g.Waits
  operands : ∀ f ∈ m.frames.items, ∀ t, f.task = .expression t →
    (f.input = .waiting ∨ ∃ o, f.input = .deliver o) → t.phase ≠ .awaitCall → t.pending = [] →
    ∀ i, t.expr.Reads t.phase i → i < t.values.length + 1
  active : m.active = none

/-- Both sides are one run. -/
def Mode.same : Mode := ⟨True, False⟩

/-- The machine is alike to itself: no frame is open, or the innermost is driven next. -/
inductive Machine.InStep (m : Machine) : Prop where
  | idle {ρ : Renaming} (h : Machine.At .same none .empty .empty ρ m m)
  | running {ρ : Renaming} {n : Nat} (h : Driven .same none .empty .empty ρ n m m)

theorem Error.isInternal_of_alike {e e' : Error} (h : Renamable.Alike ρ e e') : e.isInternal = false := by
  cases h with
  | throw _ => rfl
  | same hi _ => exact hi

/-- What is alike to anything refers to blocks of the right kind. -/
theorem Heap.Alike.names [Renamable α] {M : Mode} {a b : α} {h h' : Heap} (hh : Heap.Alike M ρ h h')
    (ha : Renamable.Alike ρ a b) {r : Ref} (hr : r ∈ refs a) : h.Names r := by
  obtain ⟨y, hy, -⟩ := ha.paired_left hr
  obtain ⟨b, -, hb, -, hk, -⟩ := hh.blocks _ _ _ hy
  exact ⟨b, hb, hk⟩

theorem Heap.Alike.names_of_block {M : Mode} {h h' : Heap} (hh : Heap.Alike M ρ h h') (hM : M.lockstep) {x : Handle}
    {b : Block} (hb : h.block? x = some b) {r : Ref} (hr : r ∈ refs b) : h.Names r := by
  obtain ⟨b', c, hb', -, -, hbc⟩ := hh.blocks _ _ _ ((hh.lockstep hM).total x b hb)
  cases hb.symm.trans hb'
  exact hh.names hbc hr

theorem Frame.input_not_internal {f f' : Frame} (hf : Alike ρ f f') {e : Error}
    (h : f.input = .deliver (.error e) ∨ f.input = .fail e) : e.isInternal = false := by
  obtain ⟨-, -, hinput, -⟩ := Frame.alike_iff.mp hf
  generalize f.input = x, f'.input = y at hinput h
  cases hinput with
  | start => rcases h with h | h <;> cases h
  | waiting => rcases h with h | h <;> cases h
  | fail he =>
    rcases h with h | h <;> cases h
    exact Error.isInternal_of_alike he
  | deliver ho =>
    rcases h with h | h <;> cases h
    cases ho with
    | error he => exact Error.isInternal_of_alike he

/-- The frame waits for what is above it, and every reference in it names a block of its kind. -/
def Frame.Rests (h : Heap) (f : Frame) : Prop := f.Waits ∧ ∀ r ∈ refs f, h.Names r

/-- Where all frames beneath a pile rest, those of the pile do. -/
theorem Piled.rests {M : Mode} {b₁ b₂ s₁ s₂ : Stack Frame} {h h' : Heap} (hs : Piled ρ b₁ b₂ n s₁ s₂)
    (hh : Heap.Alike M ρ h h') (hbelow : ∀ f ∈ b₁.items, f.Rests h) : ∀ f ∈ s₁.items, f.Rests h := by
  induction hs with
  | base => exact hbelow
  | push _ hg hw ih =>
    intro f hf
    rcases List.mem_cons.mp hf with rfl | hf
    · exact ⟨hw, fun r hr => hh.names hg hr⟩
    · exact ih f hf

/-- A frame that waits, or was given what it waited for, has a task that can be resumed. -/
theorem Frame.resumable {f : Frame} (h : f.Fits ∨ f.Waits)
    (hinput : f.input = .waiting ∨ ∃ o, f.input = .deliver o) : f.task.Resumable := by
  rcases h with h | h
  · unfold Frame.Fits at h
    rcases hinput with hinput | ⟨o, hinput⟩
    · rw [hinput] at h
      exact h.elim
    · rwa [hinput] at h
  · exact h.2

/-- **An expression that waits for its last operand looks at none but those.** -/
theorem Frame.operands_read {f : Frame} {t : ExpressionTask} (h : f.Fits ∨ f.Waits)
    (hinput : f.input = .waiting ∨ ∃ o, f.input = .deliver o) (ht : f.task = .expression t)
    (hphase : t.phase ≠ .awaitCall) (hpending : t.pending = []) {i : Nat}
    (hr : t.expr.Reads t.phase i) : i < t.values.length + 1 := by
  have hres := Frame.resumable h hinput
  rw [ht] at hres
  have htakes := Or.resolve_left (show t.Resumable from hres) hphase
  rw [hpending] at htakes
  exact htakes.reads_lt hr

/-- **A machine on which a frame is driven next is sound**, but that a task may be running, if all frames beneath rest. -/
theorem Driven.sound {M : Mode} {a : Option Active} {b₁ b₂ : Stack Frame} (hd : Driven M a b₁ b₂ ρ n m m')
    (hM : M.lockstep) (hbelow : ∀ f ∈ b₁.items, f.Rests m.heap) : Machine.Sound { m with active := none } := by
  obtain @⟨f, f', s₁, s₂, hm, hs, hf, hfits⟩ := hd
  have hitems : m.frames.items = f :: s₁.items := by rw [hm.left.1, Stack.items_push]
  have hrest := hs.rests hm.heap hbelow
  have hall : ∀ g ∈ m.frames.items, g = f ∨ g.Rests m.heap := fun g hg =>
    (List.mem_cons.mp (hitems ▸ hg)).imp_right (hrest g)
  refine ⟨hm.heap.left, fun x b hb r hr => hm.heap.names_of_block hM hb hr, fun r hr => hm.heap.names hm.realm hr,
    fun g hg r hr => ?_, fun g hg e he => ?_, fun g rest hg => ?_, fun g hg t ht hinput hphase hpending i => ?_, rfl⟩
  · rcases hall g hg with rfl | hg
    · exact hm.heap.names hf hr
    · exact hg.2 r hr
  · rcases hall g hg with rfl | hg
    · exact Frame.input_not_internal hf he
    · rw [hg.1.1] at he
      rcases he with he | he <;> cases he
  · cases hitems.symm.trans hg
    exact ⟨hfits, fun g hg => (hrest g hg).1⟩
  · refine Frame.operands_read ?_ hinput ht hphase hpending
    rcases hall g hg with rfl | hg
    · exact .inl hfits
    · exact .inr hg.1

/-- **A machine that is alike to itself is sound.** -/
theorem Machine.InStep.sound (h : m.InStep) : m.Sound := by
  cases h with
  | @idle ρ h =>
    have hitems : m.frames.items = [] := by rw [h.left.1]; rfl
    refine ⟨h.heap.left, fun x b hb r hr => h.heap.names_of_block trivial hb hr, fun r hr => ?_, ?_, ?_, ?_, ?_,
      h.left.2⟩
    · exact h.heap.names h.realm hr
    · rw [hitems]; exact fun f hf => by cases hf
    · rw [hitems]; exact fun f hf => by cases hf
    · rw [hitems]; exact fun f rest hf => by cases hf
    · rw [hitems]; exact fun f hf => by cases hf
  | running hd =>
    have hsound := hd.sound trivial fun f hf => absurd hf List.not_mem_nil
    have hactive := hd.active.1
    obtain ⟨_, _, _, _, _, _, _⟩ := m
    cases hactive
    exact hsound

/-! ### What the host does -/

/-- A procedure of the host leaves a machine in step, and does not fail with an internal error. -/
inductive Fares : Outcome Machine α → Prop where
  | done {a : α} {m : Machine} (hm : m.InStep) : Fares (.done a m)
  | failed {e : Error} {m : Machine} (hm : m.InStep) (he : e.isInternal = false) : Fares (.failed e m)
  | stalled : Fares .stalled

theorem Machine.InStep.swept (h : m.InStep) : m.swept.InStep := by
  cases h with
  | idle h =>
    have hk := Kept.swept h.heap.left
    exact .idle (h.kept hk hk fun _ => ⟨⟨rfl, rfl, rfl, fun _ => rfl⟩, fun _ hx => hx⟩)
  | running h =>
    obtain ⟨ρ', h⟩ := h.swept_self
    exact .running h

theorem Host.sim_engine_self (hhost : host.BySyntax) (k : Nat) :
    Engine.Sim .same (host.engine k) (host.engine k) :=
  host.sim_engine hhost k k fun h => h.elim

/-- What one boundary does to a machine in step. -/
inductive Goes : Outcome Machine Advance → Prop where
  | going {ρ : Renaming} {n : Nat} {m : Machine} (hm : Driven .same none .empty .empty ρ n m m) :
      Goes (.done .going m)
  | finished {ρ : Renaming} {o : Except Error Completion} {m : Machine}
      (hm : Machine.At .same none .empty .empty ρ m m) (ho : ∀ e, o = .error e → e.isInternal = false) :
      Goes (.done (.finished o) m)
  | stalled : Goes .stalled

theorem goes_of_turned {o o' : Outcome Machine Advance} (h : Turned .same none .empty .empty ρ n o o')
    (heq : o = o') : Goes o := by
  cases h with
  | going _ hm _ =>
    cases heq
    exact .going hm
  | finished _ hm ho =>
    cases heq
    refine .finished hm fun e he => ?_
    subst he
    cases ho with
    | error he => exact Error.isInternal_of_alike he
  | leftFull hM _ => exact absurd trivial hM
  | rightFull hM _ => exact absurd trivial hM
  | leftStalled => exact .stalled
  | rightStalled _ => rw [heq]; exact .stalled

/-- **One boundary keeps a machine in step.** -/
theorem goes_advance (hhost : host.BySyntax) (k : Nat) (hd : Driven .same none .empty .empty ρ n m m) :
    Goes (advance host (host.engine k) 0 m) := by
  obtain ⟨ρ', h⟩ := hd.turned hhost (host.sim_engine_self hhost k) fun _ => rfl
  exact goes_of_turned h rfl

theorem fares_ending {f : Completion → α} {o : Except Error Completion}
    (hm : Machine.At .same none .empty .empty ρ m m) (ho : ∀ e, o = .error e → e.isInternal = false) :
    Fares (ending f o m) := by
  cases o with
  | ok c => exact .done (.idle hm)
  | error e => exact .failed (.idle hm) (ho e rfl)

/-- **Driving to the end.** -/
theorem fares_drive (hhost : host.BySyntax) (k : Nat) : ∀ (bound : Nat) {ρ : Renaming} {n : Nat}
    {m : Machine}, Driven .same none .empty .empty ρ n m m → Fares (drive host (host.engine k) 0 bound m)
  | 0, _, _, _, _ => .stalled
  | bound + 1, _, _, m, hd => by
    have h := goes_advance hhost k hd
    rw [drive_succ]
    generalize advance host (host.engine k) 0 m = o at h
    cases h with
    | going hm => exact fares_drive hhost k bound hm
    | finished hm ho => exact fares_ending hm ho
    | stalled => exact .stalled

/-- Driving to the next visible boundary. -/
theorem fares_driveVisible (hhost : host.BySyntax) (k : Nat) : ∀ (bound : Nat) {ρ : Renaming} {n : Nat}
    {m : Machine}, Driven .same none .empty .empty ρ n m m →
      Fares (driveVisible host (host.engine k) bound m)
  | 0, _, _, _, _ => .stalled
  | bound + 1, _, _, m, hd => by
    have h := goes_advance hhost k hd
    unfold driveVisible
    generalize advance host (host.engine k) 0 m = o at h
    cases h with
    | going hm =>
      dsimp only
      split
      · exact fares_driveVisible hhost k bound hm
      · exact .done (.running hm)
    | finished hm ho => exact fares_ending hm ho
    | stalled => exact .stalled

theorem Driven.isEmpty_frames {M : Mode} {m₁ m₂ : Machine} (hd : Driven M none .empty .empty ρ n m₁ m₂) :
    m₁.frames.isEmpty = false ∧ m₂.frames.isEmpty = false := by
  obtain ⟨hm, -⟩ := hd
  rw [hm.left.1, hm.right.1]
  exact ⟨rfl, rfl⟩

/-- The end of an executed program. -/
theorem fares_endingValue {o : Outcome Machine Completion} (h : Fares o) : Fares (endingValue o) := by
  cases h with
  | failed hm he => exact .failed hm he
  | stalled => exact .stalled
  | @done c m hm =>
    cases c with
    | normal v => exact .done hm
    | returned v => exact .done hm
    | thrown v => exact .failed hm rfl
    | broken l v => exact .failed hm rfl
    | continued l v => exact .failed hm rfl

/-! ### Reachable machines -/

theorem Fares.inStep {o : Outcome Machine α} (h : Fares o) (hm : o.state? = some m) : m.InStep := by
  cases h with
  | done hs => cases hm; exact hs
  | failed hs _ => cases hm; exact hs
  | stalled => cases hm

/-- The machines that a host brings a new machine to: it starts and executes programs in the global scope,
steps and runs them, and collects garbage, in any order. -/
inductive Machine.Reachable (host : Host) : Machine → Prop where
  | create {limits : HeapLimits} {options : MonitorOptions} {now : Nat} {sloppy : Bool} {m : Machine}
      (h : Machine.create limits options now sloppy = .ok m) : Reachable host m
  | start {m m' : Machine} (hm : Reachable host m) (body : List Stmt) {options : BranchOptions}
      (ho : options.IsBare) (h : (host.startRoot (m.program body options) m).state? = some m') :
      Reachable host m'
  | step {m m' : Machine} (hm : Reachable host m) (bound : Nat)
      (h : ((host.engine bound).step m).state? = some m') : Reachable host m'
  | run {m m' : Machine} (hm : Reachable host m) (bound : Nat)
      (h : ((host.engine bound).run m).state? = some m') : Reachable host m'
  | execute {m m' : Machine} (hm : Reachable host m) (bound : Nat) (body : List Stmt)
      (h : ((host.engine bound).execute body m).state? = some m') : Reachable host m'
  | collect {m m' : Machine} (hm : Reachable host m) (h : (collectGarbage m).state? = some m') :
      Reachable host m'

namespace Machine.InStep

theorem of_create {limits : HeapLimits} {options : MonitorOptions} {now : Nat} {sloppy : Bool}
    (h : Machine.create limits options now sloppy = .ok m) : m.InStep := by
  obtain ⟨ρ, hm⟩ := at_create (M := .same) (fun _ => rfl) h h
  exact .idle hm

theorem start (h : m.InStep) (hhost : host.BySyntax) (body : List Stmt) {options : BranchOptions}
    (ho : options.IsBare) (hm : (host.startRoot (m.program body options) m).state? = some m') :
    m'.InStep := by
  cases h with
  | idle h =>
    rw [startRoot_eq hhost h.left.1 h.left.2] at hm
    cases hm
    exact .running (driven_openProgram h body ho)
  | running hd =>
    rw [startRoot_running hd.isEmpty_frames.1] at hm
    cases hm
    exact .running hd

/-- A step of a machine with a frame. -/
theorem fares_step (hhost : host.BySyntax) (hd : Driven .same none .empty .empty ρ n m m) :
    ∀ bound : Nat, Fares ((host.engine bound).step m)
  | 0 => .stalled
  | bound + 1 => by
    rw [step_running host hd.isEmpty_frames.1 hd.active.1]
    exact fares_driveVisible hhost bound bound hd

/-- A run of a machine with a frame. -/
theorem fares_run (hhost : host.BySyntax) (hd : Driven .same none .empty .empty ρ n m m) :
    ∀ bound : Nat, Fares ((host.engine bound).run m)
  | 0 => .stalled
  | bound + 1 => by
    rw [run_running host hd.isEmpty_frames.1 hd.active.1]
    exact fares_drive hhost bound bound hd

/-- A program executed on a machine without frames. -/
theorem fares_execute (hhost : host.BySyntax) (h : Machine.At .same none .empty .empty ρ m m)
    (body : List Stmt) : ∀ bound : Nat, Fares ((host.engine bound).execute body m)
  | 0 => .stalled
  | bound + 1 => by
    show Fares (host.executeOn (host.engine bound) bound body m)
    rw [executeOn_eq hhost h.left.1 h.left.2]
    exact fares_endingValue (fares_drive hhost bound bound (driven_openProgram h body ⟨rfl, rfl⟩))

theorem step (h : m.InStep) (hhost : host.BySyntax) (bound : Nat)
    (hm : ((host.engine bound).step m).state? = some m') : m'.InStep := by
  cases h with
  | running hd => exact (fares_step hhost hd bound).inStep hm
  | idle h =>
    cases bound with
    | zero => cases hm
    | succ bound =>
      rw [(step_run_idle host h.left.1 h.left.2 bound).1] at hm
      cases hm
      exact .idle h

theorem run (h : m.InStep) (hhost : host.BySyntax) (bound : Nat)
    (hm : ((host.engine bound).run m).state? = some m') : m'.InStep := by
  cases h with
  | running hd => exact (fares_run hhost hd bound).inStep hm
  | idle h =>
    cases bound with
    | zero => cases hm
    | succ bound =>
      rw [(step_run_idle host h.left.1 h.left.2 bound).2] at hm
      cases hm
      exact .idle h

theorem execute (h : m.InStep) (hhost : host.BySyntax) (bound : Nat) (body : List Stmt)
    (hm : ((host.engine bound).execute body m).state? = some m') : m'.InStep := by
  cases h with
  | idle h => exact (fares_execute hhost h body bound).inStep hm
  | running hd =>
    cases bound with
    | zero => cases hm
    | succ bound =>
      change (host.executeOn (host.engine bound) bound body m).state? = some m' at hm
      rw [executeOn_running hd.isEmpty_frames.1 hd.active.1] at hm
      cases hm
      exact .running hd

theorem active (h : m.InStep) : m.active = none := h.sound.active

end Machine.InStep

/-- **Every reachable machine is in step.** -/
theorem Machine.Reachable.inStep (hhost : host.BySyntax) (h : m.Reachable host) : m.InStep := by
  induction h with
  | create h => exact .of_create h
  | start _ body ho h ih => exact ih.start hhost body ho h
  | step _ bound h ih => exact ih.step hhost bound h
  | run _ bound h ih => exact ih.run hhost bound h
  | execute _ bound body h ih => exact ih.execute hhost bound body h
  | collect _ h ih =>
    rw [collectGarbage_eq ih.active] at h
    cases h
    exact ih.swept

theorem Fares.not_internal {o : Outcome Machine α} {e : Error} (h : Fares o) (ho : o = .failed e m) :
    e.isInternal = false := by
  cases h with
  | done _ => cases ho
  | failed _ he => cases ho; exact he
  | stalled => cases ho

end ScriptCore
