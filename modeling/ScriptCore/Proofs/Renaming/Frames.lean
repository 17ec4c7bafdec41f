import ScriptCore.Proofs.Drive.Turn
import ScriptCore.Proofs.Renaming.Tasks

/-! # Frames that are alike

Above the frames that a drive started on stands a pile of frames that wait for what is above them, and on
top of it a frame that is driven next. If one of two sides runs out of memory it unwinds: nothing
intercepts that failure, so each frame of the pile hands it on, one boundary for each.

* `Unwinds.proceed`: a side that ran out of memory closes its frames and ends so.
* `opened_call`, `driven_openChild`: calls and branches are opened alike. -/

namespace ScriptCore

variable {M : Mode} {ρ ρ' : Renaming} {host : Host} {E E₁ E₂ : Engine} {m m₁ m₂ : Machine}
  {a : Option Active} {s s₁ s₂ b b₁ b₂ : Stack Frame} {f f' g g' : Frame} {n : Nat}

/-! ### Machines that are alike at a boundary -/

/-- The machines are alike, with frames `s₁` and `s₂` on their stacks. -/
structure Machine.At (M : Mode) (a : Option Active) (s₁ s₂ : Stack Frame) (ρ : Renaming)
    (m₁ m₂ : Machine) : Prop where
  heap : Heap.Alike M ρ m₁.heap m₂.heap
  realm : Alike ρ m₁.realm m₂.realm
  monitor : m₁.monitor = m₂.monitor
  left : m₁.frames = s₁ ∧ m₁.active = a
  right : m₂.frames = s₂ ∧ m₂.active = a

theorem Machine.At.running {x : Active} (h : Machine.At M (some x) s₁ s₂ ρ m₁ m₂) :
    Machine.Running M ⟨s₁, s₂, x⟩ ρ m₁ m₂ :=
  ⟨h.heap, h.realm, h.monitor, h.left, h.right⟩

theorem Machine.Running.at {i : Site} (h : Machine.Running M i ρ m₁ m₂) :
    Machine.At M (some i.active) i.left i.right ρ m₁ m₂ :=
  ⟨h.heap, h.realm, h.monitor, h.left, h.right⟩

/-- The frame waits for what is above it. -/
def Frame.Waits (f : Frame) : Prop := f.input = .waiting ∧ f.task.Resumable

/-- The frame can be driven. -/
def Frame.Fits (f : Frame) : Prop :=
  match f.input with
  | .start => f.task.Fresh
  | .deliver _ => f.task.Resumable
  | .fail _ => True
  | .waiting => False

theorem Frame.alike_iff : Alike ρ f f' ↔ Alike ρ f.task f'.task ∧ Alike ρ f.info f'.info ∧
    Alike ρ f.input f'.input ∧ f.depth = f'.depth ∧ f.quiet = f'.quiet ∧ f.isCall = f'.isCall :=
  Iff.rfl

theorem Task.Resumable.of_alike {t t' : Task} (h : t.Resumable) (ht : Renamable.Alike ρ t t') :
    t'.Resumable := by
  cases ht with
  | statements _ => trivial
  | @statement s s' hs =>
    obtain ⟨-, -, hstmt, hstate⟩ := StatementTask.alike_iff.mp hs
    have h : s.stmt.Waits s.state := h
    rwa [hstmt, hstate] at h
  | @expression s s' hs =>
    obtain ⟨-, hv, -, -, he, hp, hph⟩ := ExpressionTask.alike_iff.mp hs
    have h : s.phase = .awaitCall ∨ s.expr.Takes s.phase (s.values.length + 1 + s.pending.length) := h
    rwa [hph, he, hp, hv.length_eq] at h
  | @invocation s s' hs =>
    obtain ⟨-, -, -, -, -, -, hscope, hcells, hstate, -⟩ := InvocationTask.alike_iff.mp hs
    have hfunction := InvocationTask.function_eq hs
    have h : s.Resumable := h
    obtain ⟨⟨hset, hlen⟩, hwait⟩ := h
    rw [hfunction, hcells.length_eq] at hlen
    rw [hstate, hfunction] at hwait
    refine ⟨⟨?_, hlen⟩, hwait⟩
    generalize s.scope = x, s'.scope = y at hscope hset
    cases hscope with
    | none => cases hset
    | some _ => rfl

theorem Frame.Waits.of_alike (h : f.Waits) (hf : Alike ρ f f') : f'.Waits := by
  obtain ⟨htask, -, hinput, -⟩ := Frame.alike_iff.mp hf
  refine ⟨?_, h.2.of_alike htask⟩
  rw [h.1] at hinput
  generalize f'.input = x at hinput
  cases hinput
  rfl

/-! ### Piles of waiting frames -/

/-- The stack is `n` waiting frames on top of `b`. -/
inductive Waiting (b : Stack Frame) : Nat → Stack Frame → Prop where
  | base : Waiting b 0 b
  | push {n : Nat} {s : Stack Frame} {f : Frame} (hs : Waiting b n s) (hf : f.Waits) :
      Waiting b (n + 1) (s.push f)

theorem Waiting.size_eq (h : Waiting b n s) : s.size = b.size + n := by
  induction h with
  | base => rfl
  | push _ _ ih => rw [Stack.size_push, ih, Nat.add_assoc]

/-- Two stacks are equally many waiting frames, alike one by one, on top of `b₁` and `b₂`. -/
inductive Piled (ρ : Renaming) (b₁ b₂ : Stack Frame) : Nat → Stack Frame → Stack Frame → Prop where
  | base : Piled ρ b₁ b₂ 0 b₁ b₂
  | push {n : Nat} {s₁ s₂ : Stack Frame} {f f' : Frame} (hs : Piled ρ b₁ b₂ n s₁ s₂)
      (hf : Alike ρ f f') (hw : f.Waits) : Piled ρ b₁ b₂ (n + 1) (s₁.push f) (s₂.push f')

namespace Piled

theorem mono (h : Piled ρ b₁ b₂ n s₁ s₂) (hρ : ρ ≤ ρ') : Piled ρ' b₁ b₂ n s₁ s₂ := by
  induction h with
  | base => exact .base
  | push _ hf hw ih => exact .push ih (hf.mono hρ) hw

theorem left (h : Piled ρ b₁ b₂ n s₁ s₂) : Waiting b₁ n s₁ := by
  induction h with
  | base => exact .base
  | push _ _ hw ih => exact .push ih hw

theorem right (h : Piled ρ b₁ b₂ n s₁ s₂) : Waiting b₂ n s₂ := by
  induction h with
  | base => exact .base
  | push _ hf hw ih => exact .push ih (hw.of_alike hf)

end Piled

/-- The machines are alike, and above the piles stand frames that are driven next. -/
inductive Driven (M : Mode) (a : Option Active) (b₁ b₂ : Stack Frame) (ρ : Renaming) (n : Nat)
    (m₁ m₂ : Machine) : Prop where
  | intro {f f' : Frame} {s₁ s₂ : Stack Frame} (hm : Machine.At M a (s₁.push f) (s₂.push f') ρ m₁ m₂)
      (hs : Piled ρ b₁ b₂ n s₁ s₂) (hf : Alike ρ f f') (hfits : f.Fits)

/-! ### Unwinding -/

/-- What driving a frame comes to while a machine that ran out of memory unwinds: `n` frames are left, or
the lowest has closed. -/
inductive Unwinds (b : Stack Frame) (a : Option Active) : Nat → Outcome Machine Advance → Prop where
  | going {n : Nat} {s : Stack Frame} {f : Frame} {m : Machine} (hs : Waiting b n s)
      (hinput : f.input = .deliver (.error .outOfMemory)) (htask : f.task.Resumable)
      (hframes : m.frames = s.push f) (hactive : m.active = a) : Unwinds b a (n + 1) (.done .going m)
  | finished {m : Machine} (hframes : m.frames = b) (hactive : m.active = a) :
      Unwinds b a 0 (.done (.finished (.error .outOfMemory)) m)

/-- A frame that closes because memory ran out hands the failure on. -/
theorem unwinds_close (hs : Waiting b n s) (hm : m.frames = s ∧ m.active = a) (f : Frame) :
    Unwinds b a n (.done (m.close f (.error .outOfMemory) b.size).1
      (m.close f (.error .outOfMemory) b.size).2) := by
  obtain ⟨hframes, hactive⟩ := hm
  rw [Machine.close_eq, hframes, hs.size_eq]
  cases hs with
  | base => simpa using Unwinds.finished (by simpa using hframes) (by simpa using hactive)
  | @push n s f' hs hf =>
    rw [if_neg (by omega)]
    refine .going (f := { f' with input := .deliver (.error .outOfMemory) }) hs rfl hf.2 ?_ ?_
    · show (m.leave f _).frames.modifyTop _ = _
      rw [Machine.frames_leave, hframes, Stack.modifyTop_push]
    · show (m.leave f _).active = a
      rw [Machine.active_leave, hactive]

/-- A failure that nothing intercepts costs nothing and leaves the machine alone. -/
theorem feed_uncatchable {e : Error} (he : e.isCatchable = false) (hinput : f.input = .deliver (.error e))
    (htask : f.task.Resumable) (m : Machine) : ∃ g, feed E f m = .done (.error e, g) m := by
  obtain ⟨u, hu⟩ := Task.resume_uncatchable (E := E) he htask
    { m with active := some ⟨f.depth, f.quiet⟩ }
  refine ⟨{ f with input := .waiting, task := u }, ?_⟩
  unfold feed
  rw [hinput]
  show runTask E { f with input := .waiting } (some (.error e)) m = _
  have htick : tickUnlessFailed (some (.error e)) m = .done (.ok ()) m := rfl
  simp only [runTask_eq, htick, Frame.act, hu]

theorem advance_unwinds (host : Host) (E : Engine) (hs : Waiting b n s)
    (hinput : f.input = .deliver (.error .outOfMemory)) (htask : f.task.Resumable)
    (hframes : m.frames = s.push f) (hactive : m.active = a) :
    Unwinds b a n (advance host E b.size m) := by
  rw [advance_eq_turn hframes (by rw [hs.size_eq]; omega)]
  obtain ⟨g, hg⟩ := feed_uncatchable (E := E) rfl hinput htask { m.collected with frames := s }
  unfold turn
  rw [hg]
  exact unwinds_close hs ⟨rfl, by simpa using hactive⟩ g

/-- **A machine that unwinds** ends with the failure and with its surroundings as they were, if it has one
boundary for each frame; otherwise it stalls. -/
theorem Unwinds.proceed (host : Host) (E : Engine) : ∀ (bound n : Nat) (o : Outcome Machine Advance),
    Unwinds b a n o →
    (∃ m, proceed host E b.size bound o = .failed .outOfMemory m ∧ m.frames = b ∧ m.active = a) ∨
      proceed host E b.size bound o = .stalled ∧ bound < n
  | _, _, _, .finished hframes hactive => .inl ⟨_, rfl, hframes, hactive⟩
  | 0, _, _, .going _ _ _ _ _ => .inr ⟨rfl, Nat.succ_pos _⟩
  | bound + 1, _, _, .going hs hinput htask hframes hactive => by
    have h := advance_unwinds host E hs hinput htask hframes hactive
    rcases Unwinds.proceed host E bound _ _ h with hfull | ⟨hstall, hlt⟩
    · exact .inl (by simpa only [ScriptCore.proceed, drive_succ] using hfull)
    · exact .inr ⟨by simpa only [ScriptCore.proceed, drive_succ] using hstall, Nat.succ_lt_succ hlt⟩

/-! ### Opening children -/

/-- The host evaluates every branch by its syntax. -/
def Host.BySyntax (host : Host) : Prop := ∀ r, host.branch r = .ok (Task.ofRequest r)

theorem Task.alike_ofRequest {r r' : BranchRequest} (h : Renamable.Alike ρ r r') :
    Renamable.Alike ρ (Task.ofRequest r) (Task.ofRequest r') := by
  obtain ⟨kind, node, scope, options⟩ := r
  obtain ⟨kind', node', scope', options'⟩ := r'
  obtain ⟨hs, ho, hkind, hnode⟩ := h
  obtain rfl : kind = kind' := hkind
  obtain rfl : node = node' := hnode
  cases node with
  | statements list => exact .statements ⟨hs, ho, .none, rfl, rfl, rfl⟩
  | statement stmt => exact .statement ⟨hs, .none, rfl, rfl⟩
  | expression e => exact .expression ⟨hs, .nil, .undefined, .undefined, rfl, rfl, rfl⟩

theorem BranchRequest.alike_info {r r' : BranchRequest} (h : Alike ρ r r') : Alike ρ r.info r'.info :=
  ⟨h.2.1, h.2.2.1⟩

theorem Task.fresh_ofRequest (r : BranchRequest) : (Task.ofRequest r).Fresh := by
  obtain ⟨kind, node, scope, options⟩ := r
  cases node with
  | statements list => trivial
  | statement stmt => trivial
  | expression e => exact ⟨rfl, rfl, rfl⟩

/-- Opening frames with tasks that are alike. -/
theorem at_openFrame {t t' : Task} {i i' : BranchInfo} (hm : Machine.At M a s₁ s₂ ρ m₁ m₂)
    (ht : Alike ρ t t') (hi : Alike ρ i i') (depth : Nat) (quiet isCall : Bool) :
    ∃ g g', Machine.At M a (s₁.push g) (s₂.push g') ρ (m₁.openFrame t i depth quiet isCall)
      (m₂.openFrame t' i' depth quiet isCall) ∧ Alike ρ g g' ∧ g.task = t ∧ g.input = .start := by
  have hquiet : i.options.isQuiet = i'.options.isQuiet := by
    have hpower : i.options.yieldPower = i'.options.yieldPower := hi.1.2.2.2.2
    unfold BranchOptions.isQuiet
    rw [hpower]
  refine ⟨⟨t, i, depth, quiet || i.options.isQuiet, isCall, .start⟩,
    ⟨t', i', depth, quiet || i'.options.isQuiet, isCall, .start⟩, ⟨?_, ?_, ?_, ?_, ?_⟩, ?_, rfl, rfl⟩
  · simpa using hm.heap
  · simpa using hm.realm
  · simpa using hm.monitor
  · simp [hm.left.1, hm.left.2]
  · simp [hm.right.1, hm.right.2]
  · exact ⟨ht, hi, .start, rfl, by rw [hquiet]; rfl, rfl⟩

/-- Two calls are opened alike: both are refused, or both get a frame. -/
inductive Opened (M : Mode) (a : Option Active) (s₁ s₂ : Stack Frame) (ρ : Renaming)
    (m₁ m₂ : Machine) : Outcome Machine (Option Value) → Outcome Machine (Option Value) → Prop where
  | refused {e e' : Error} (he : Alike ρ e e') :
      Opened M a s₁ s₂ ρ m₁ m₂ (.failed e m₁) (.failed e' m₂)
  | opened {g g' : Frame} {m₁' m₂' : Machine}
      (hm : Machine.At M a (s₁.push g) (s₂.push g') ρ m₁' m₂') (hg : Alike ρ g g') (hfits : g.Fits) :
      Opened M a s₁ s₂ ρ m₁ m₂ (.done none m₁') (.done none m₂')

theorem refuseCall_eq (m : Machine) (v : Value) : refuseCall v m =
    match m.heap.describe v with
    | .ok text => .failed (.notCallable text) m
    | .error e => .failed e m := by
  show Proc.bind (Run.readHeap fun h => h.describe v) _ m = _
  simp only [Proc.bind, Run.readHeap, Proc.reads]
  cases m.heap.describe v <;> rfl

theorem opened_refuse {v w : Value} (hm : Machine.At M a s₁ s₂ ρ m₁ m₂) (hv : Alike ρ v w) :
    Opened M a s₁ s₂ ρ m₁ m₂ (refuseCall v m₁) (refuseCall w m₂) := by
  have hd := hm.heap.describe hv
  rw [refuseCall_eq, refuseCall_eq]
  generalize m₁.heap.describe v = x, m₂.heap.describe w = y at hd
  cases hd with
  | @ok x y hxy =>
    obtain rfl : x = y := hxy
    exact .refused (.same rfl nofun)
  | error he => exact .refused he

theorem openClosure_none_eq (f : ObjectRef) (r : CallRequest) (depth : Nat) (quiet : Bool) (m : Machine) :
    (do openClosure f r depth quiet; return none : Run (Option Value)) m =
      match openClosure f r depth quiet m with
      | .done _ m => .done none m
      | .failed e m => .failed e m
      | .stalled => .stalled := by
  show Proc.bind (openClosure f r depth quiet) _ m = _
  simp only [Proc.bind]
  cases openClosure f r depth quiet m <;> rfl

theorem opened_closure {f f' : ObjectRef} {c c' : Closure} {r r' : CallRequest}
    (hm : Machine.At M a s₁ s₂ ρ m₁ m₂) (hr : Alike ρ r r') (hf : Alike ρ f f')
    (hc : Alike ρ c c') (hclosure₁ : m₁.heap.closure f = .ok c) (hclosure₂ : m₂.heap.closure f' = .ok c')
    (depth : Nat) (quiet : Bool) :
    Opened M a s₁ s₂ ρ m₁ m₂
      ((do openClosure f r depth quiet; return none : Run (Option Value)) m₁)
      ((do openClosure f' r' depth quiet; return none : Run (Option Value)) m₂) := by
  obtain ⟨hcallee, hreceiver, hargs, hscope, hextra⟩ := hr
  obtain ⟨hxcallee, hxname⟩ := hextra
  obtain ⟨name, hname₁, hname₂⟩ := hm.heap.functionName hf
  obtain ⟨sc₁, sc₂, hsc₁, hsc₂, -⟩ := hm.heap.scope hscope
  have hsite : siteName m₁ r = siteName m₂ r' := by
    unfold siteName
    rw [hm.monitor, show r.extra.profileName = r'.extra.profileName from hxname]
  have htask : Alike ρ (InvocationTask.ofRequest f c r) (InvocationTask.ofRequest f' c' r') :=
    ⟨hf, hc, hreceiver, hargs, hscope, ⟨hxcallee, hxname⟩, .none, .nil, rfl, rfl⟩
  rw [openClosure_none_eq, openClosure_none_eq, openClosure_eq hname₁ hclosure₁ hsc₁, openClosure_eq hname₂ hclosure₂ hsc₂, ← hsite,
    enterCall_eq, enterCall_eq, ← hm.monitor]
  by_cases hdeep : m₁.monitor.options.maxDepth ≤ m₁.monitor.depth
  · simp only [hdeep, if_true]
    exact .refused (.same rfl nofun)
  · simp only [hdeep, if_false]
    have hentered : Machine.At M a s₁ s₂ ρ
        { m₁ with monitor := { m₁.monitor with
          calls := m₁.monitor.calls.push ⟨(siteName m₁ r).or name, m₁.monitor.depth + 1⟩ } }
        { m₂ with monitor := { m₁.monitor with
          calls := m₁.monitor.calls.push ⟨(siteName m₁ r).or name, m₁.monitor.depth + 1⟩ } } :=
      ⟨hm.heap, hm.realm, rfl, hm.left, hm.right⟩
    have hinfo : Alike ρ
        (BranchInfo.mk .call { profileName := siteName m₁ r, callee := some (r.extra.callee.getD r.callee) })
        ⟨.call, { profileName := siteName m₁ r, callee := some (r'.extra.callee.getD r'.callee) }⟩ :=
      ⟨⟨.none, .some (alike_getD hxcallee hcallee), rfl, rfl, rfl⟩, rfl⟩
    obtain ⟨g, g', hat, hg, hgt, hgi⟩ :=
      at_openFrame hentered (.invocation htask) hinfo depth quiet true
    refine .opened hat hg ?_
    unfold Frame.Fits
    rw [hgi, hgt]
    rfl

/-- **Calls are opened alike.** -/
theorem opened_call (host : Host) (E₁ E₂ : Engine) {r r' : CallRequest}
    (hm : Machine.At M a s₁ s₂ ρ m₁ m₂) (hr : Alike ρ r r')
    (depth : Nat) (quiet : Bool) :
    Opened M a s₁ s₂ ρ m₁ m₂ (openCall host E₁ r depth quiet m₁) (openCall host E₂ r' depth quiet m₂) := by
  have hcallee : Alike ρ r.callee r'.callee := hr.1
  have refuse := opened_refuse hm hcallee
  generalize hv : r.callee = v, hw : r'.callee = w at hcallee
  cases hcallee with
  | @object o p ho =>
    obtain ⟨x, y, hx, hy, hxy⟩ := hm.heap.object ho
    obtain ⟨-, -, hkind, -⟩ := Object.alike_iff.mp hxy
    rw [openCall_object hv hx, openCall_object hw hy]
    have hclosure₁ : ∀ c, x.kind = .closure c → m₁.heap.closure o = .ok c := by
      intro c hc
      simp only [Heap.closure, hx, ok_bind, hc]
      rfl
    have hclosure₂ : ∀ c, y.kind = .closure c → m₂.heap.closure p = .ok c := by
      intro c hc
      simp only [Heap.closure, hy, ok_bind, hc]
      rfl
    generalize x.kind = k, y.kind = l at hkind hclosure₁ hclosure₂
    cases hkind with
    | ordinary => exact refuse
    | array => exact refuse
    | closure hc =>
      exact opened_closure hm hr ho hc (hclosure₁ _ rfl) (hclosure₂ _ rfl) depth quiet
  | undefined => rw [openCall_other (by simp [hv]), openCall_other (by simp [hw])]; exact refuse
  | null => rw [openCall_other (by simp [hv]), openCall_other (by simp [hw])]; exact refuse
  | bool x => rw [openCall_other (by simp [hv]), openCall_other (by simp [hw])]; exact refuse
  | number x => rw [openCall_other (by simp [hv]), openCall_other (by simp [hw])]; exact refuse
  | string hs => rw [openCall_other (by simp [hv]), openCall_other (by simp [hw])]; exact refuse

/-- Handing outcomes that are alike to waiting frames. -/
theorem driven_deliver {o o' : Except Error Completion}
    (hm : Machine.At M a (s₁.push g) (s₂.push g') ρ m₁ m₂) (hs : Piled ρ b₁ b₂ n s₁ s₂)
    (hg : Alike ρ g g') (hw : g.Waits) (ho : Alike ρ o o') :
    Driven M a b₁ b₂ ρ n (m₁.deliver o) (m₂.deliver o') := by
  obtain ⟨htask, hinfo, -, hrest⟩ := Frame.alike_iff.mp hg
  have hat : Machine.At M a (s₁.push { g with input := .deliver o })
      (s₂.push { g' with input := .deliver o' }) ρ (m₁.deliver o) (m₂.deliver o') := by
    refine ⟨hm.heap, hm.realm, hm.monitor, ⟨?_, hm.left.2⟩, ⟨?_, hm.right.2⟩⟩
    · show m₁.frames.modifyTop _ = _
      rw [hm.left.1, Stack.modifyTop_push]
    · show m₂.frames.modifyTop _ = _
      rw [hm.right.1, Stack.modifyTop_push]
  exact ⟨hat, hs, ⟨htask, hinfo, .deliver ho, hrest⟩, hw.2⟩

/-- Children are opened alike, above a frame that waits for them or gets the refusal at once. -/
theorem driven_openChild (E₁ E₂ : Engine) (hhost : host.BySyntax) {c c' : Suspension}
    (hm : Machine.At M a (s₁.push g) (s₂.push g') ρ m₁ m₂) (hs : Piled ρ b₁ b₂ n s₁ s₂)
    (hg : Alike ρ g g') (hw : g.Waits) (hc : Alike ρ c c') (depth : Nat) (quiet : Bool) :
    ∃ m₁' m₂' k, openChild host E₁ c depth quiet m₁ = .done () m₁' ∧
      openChild host E₂ c' depth quiet m₂ = .done () m₂' ∧ Driven M a b₁ b₂ ρ k m₁' m₂' ∧ k ≤ n + 1 := by
  cases hc with
  | @branch r r' hr =>
    obtain ⟨x, x', hat, hx, hxt, hxi⟩ :=
      at_openFrame hm (Task.alike_ofRequest hr) (BranchRequest.alike_info hr) depth quiet false
    have hopen : ∀ (E : Engine) (r : BranchRequest) (m : Machine),
        openChild host E (.branch r) depth quiet m =
          .done () (m.openFrame (Task.ofRequest r) r.info depth quiet false) := by
      intro E r m
      simp only [openChild, hhost r]
      rfl
    refine ⟨_, _, n + 1, hopen E₁ r m₁, hopen E₂ r' m₂, ⟨hat, .push hs hg hw, hx, ?_⟩, Nat.le_refl _⟩
    unfold Frame.Fits
    rw [hxi, hxt]
    exact Task.fresh_ofRequest r
  | @call r r' hr =>
    have hopen : ∀ (E : Engine) (r : CallRequest) (m : Machine),
        openChild host E (.call r) depth quiet m =
          match openCall host E r depth quiet m with
          | .done none m => .done () m
          | .done (some v) m => .done () (m.deliver (.ok (.ofValue v)))
          | .failed e m => .done () (m.deliver (.error e))
          | .stalled => .stalled := by
      intro E r m
      show Proc.bind (Proc.attempt (openCall host E r depth quiet)) _ m = _
      simp only [Proc.bind, Proc.attempt]
      cases openCall host E r depth quiet m with
      | done v m => cases v <;> rfl
      | failed e m => rfl
      | stalled => rfl
    have hcall := opened_call host E₁ E₂ hm hr depth quiet
    rw [hopen, hopen]
    generalize openCall host E₁ r depth quiet m₁ = o, openCall host E₂ r' depth quiet m₂ = o' at hcall
    cases hcall with
    | refused he =>
      exact ⟨_, _, n, rfl, rfl, driven_deliver hm hs hg hw (.error he), Nat.le_succ n⟩
    | opened hat hx hfits =>
      exact ⟨_, _, n + 1, rfl, rfl, ⟨hat, .push hs hg hw, hx, hfits⟩, Nat.le_refl _⟩

end ScriptCore
