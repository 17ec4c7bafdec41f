import ScriptCore.Proofs.Drive.Nesting

/-! # Aborts

An abort changes what the innermost frame is given next. A host that has control is heard: the frame is the next
to be driven, and it is driven with the failure, or closes with it if it was not started. A native function that a
task called is not: the frame that it aborts waits, and is given the answer of the native function, or the outcome
of another frame, in the place of the failure.

What is needed for this of the frames beneath is that their tasks can take an outcome. Native functions may abort
frames, so they leave the `footing` of a frame alone and not what the frame is given.

* `Machine.Ready`, `Machine.Poised`: frames that can take an outcome.
* `turn_poised`, `Machine.Hosted.poised`: so it is wherever the host has control.
* `Machine.Doomed`: frames that unwind with a failure, and `Doomed.run`, `Doomed.step`.
* `Host.CallsBack.aborts_arrive`: **an abort of the host arrives**; `native_cancel_lost`: that of a native function
  does not. -/

namespace ScriptCore

variable {α : Type} {E : Engine} {host : Host} {m m' : Machine} {s s' : Stack Frame} {f g : Frame} {base : Nat}
  {e : Error}

/-! ### Frames that can take an outcome -/

/-- The frame was started before. -/
def Frame.started (f : Frame) : Bool :=
  match f.input with
  | .start | .fail _ => false
  | .deliver _ | .waiting => true

/-- What an abort leaves of a frame. -/
def Frame.footing (f : Frame) : Frame × Bool := (f.shown, f.started)

theorem showsCalls_footing : ShowsCalls Frame.footing := by
  rintro ⟨task, info, depth, quiet, isCall, input⟩ ⟨task', info', depth', quiet', isCall', input'⟩ h
  cases (Prod.mk.inj h).1
  rfl

theorem Frame.task_of_footing (h : f.footing = g.footing) : f.task = g.task :=
  congrArg (fun x : Frame × Bool => x.1.task) h

theorem Frame.started_of_footing (h : f.footing = g.footing) : f.started = g.started := congrArg Prod.snd h

theorem Frame.footing_aborted (f : Frame) (e : Error) :
    ({ f with input := f.input.aborted e } : Frame).footing = f.footing := by
  obtain ⟨task, info, depth, quiet, isCall, input⟩ := f
  cases input <;> rfl

/-- An abort leaves the footing of the frames alone. -/
theorem steady_abort (e : Error) : Steady Frame.footing (abort e) := by
  intro a o k v m h
  unfold abort
  split
  · exact h
  · refine ⟨h.active, h.options, h.calls, ?_⟩
    rw [← h.frames]
    show (m.frames.items.modifyHead _).map Frame.footing = _
    cases m.frames.items with
    | nil => rfl
    | cons f rest => exact congrArg (· :: _) (f.footing_aborted e)

theorem steady_cancel : Steady Frame.footing cancel := fun a o k v m h => steady_abort _ a o k v m h

/-- There are `base` frames, and the tasks of those above can take an outcome. -/
structure Machine.Ready (base : Nat) (m : Machine) : Prop where
  size : base ≤ m.frames.size
  forwards : ∀ g ∈ m.frames.above base, g.task.Forwards

/-- There is a frame above `base`; its task can take an outcome if it was started, and so can those of the others
above `base`. -/
def Machine.Poised (base : Nat) (m : Machine) : Prop :=
  ∃ (s : Stack Frame) (f : Frame), m.frames = s.push f ∧ base ≤ s.size ∧ (f.started = true → f.task.Forwards) ∧
    ∀ g ∈ s.above base, g.task.Forwards

namespace Machine

/-- What leaves the footing of the frames alone leaves them ready. -/
theorem Ready.congr (h : m.Ready base) (hs : m'.frames.items.map Frame.footing = m.frames.items.map Frame.footing) :
    m'.Ready base := by
  have hsize : m'.frames.size = m.frames.size := by
    rw [m'.frames.size_eq, m.frames.size_eq, ← List.length_map (f := Frame.footing), hs, List.length_map]
  refine ⟨hsize ▸ h.size, fun g hg => ?_⟩
  have habove : (m'.frames.above base).map Frame.footing = (m.frames.above base).map Frame.footing := by
    unfold Stack.above
    rw [List.map_take, List.map_take, hs, hsize]
  obtain ⟨f, hf, hfg⟩ := List.mem_map.mp (habove ▸ List.mem_map_of_mem hg)
  rw [← Frame.task_of_footing hfg]
  exact h.forwards f hf

theorem Ready.after {P : Run α} (hP : Steady Frame.footing P) (h : m.Ready base) :
    (P m).Leaves (Machine.Ready base) :=
  (hP.sameStacks m).imp fun _ h' => h.congr h'.frames

theorem Ready.push (h : m.Ready base) (hf : f.task.Forwards) :
    ({ m with frames := m.frames.push f } : Machine).Ready base := by
  refine ⟨Nat.le_succ_of_le h.size, fun g hg => ?_⟩
  rw [Stack.above_push h.size] at hg
  obtain rfl | hg := List.mem_cons.mp hg
  · exact hf
  · exact h.forwards g hg

theorem Ready.running (h : m.Ready base) (a : Option Active) : ({ m with active := a } : Machine).Ready base :=
  ⟨h.size, h.forwards⟩

theorem Ready.opened (h : m.Ready base) (task : Task) (info : BranchInfo) (depth : Nat) (quiet isCall : Bool) :
    (m.openFrame task info depth quiet isCall).Poised base :=
  ⟨m.frames, _, frames_openFrame .., h.size, nofun, h.forwards⟩

theorem Ready.deliver (h : m.Ready base) (hm : base < m.frames.size) (o : Except Error Completion) :
    (m.deliver o).Poised base := by
  obtain ⟨s, f, hf⟩ := Stack.exists_push (Nat.lt_of_le_of_lt (Nat.zero_le _) hm)
  have hs : base ≤ s.size := by
    rw [hf, Stack.size_push] at hm
    omega
  have hforwards := h.forwards
  rw [hf, Stack.above_push hs] at hforwards
  refine ⟨s, f.fed (some o), ?_, hs, fun _ => hforwards f (List.mem_cons_self ..),
    fun g hg => hforwards g (List.mem_cons_of_mem f hg)⟩
  show m.frames.modifyTop _ = _
  rw [hf, Stack.modifyTop_push]
  rfl

theorem Poised.congr (h : m.Poised base) (hs : m'.frames.items.map Frame.footing = m.frames.items.map Frame.footing) :
    m'.Poised base := by
  obtain ⟨s, f, hf, hbase, hstarted, hforwards⟩ := h
  have hpos : 0 < m'.frames.size := by
    rw [m'.frames.size_eq, ← List.length_map (f := Frame.footing), hs, List.length_map, hf]
    exact Nat.succ_pos _
  obtain ⟨t, g, hg⟩ := Stack.exists_push hpos
  rw [hf, hg, Stack.items_push, Stack.items_push, List.map_cons, List.map_cons] at hs
  obtain ⟨hfooting, ht⟩ := List.cons.inj hs
  have hready : ({ m with frames := s } : Machine).Ready base := ⟨hbase, hforwards⟩
  have hready' : ({ m with frames := t } : Machine).Ready base := hready.congr ht
  refine ⟨t, g, hg, hready'.size, fun hg' => ?_, hready'.forwards⟩
  rw [Frame.task_of_footing hfooting]
  exact hstarted ((Frame.started_of_footing hfooting).symm.trans hg')

theorem Poised.after {P : Run α} (hP : Steady Frame.footing P) (h : m.Poised base) :
    (P m).Leaves (Machine.Poised base) :=
  (hP.sameStacks m).imp fun _ h' => h.congr h'.frames

end Machine

/-! ### One boundary -/

/-- If the drive goes on, the frames can take an outcome. -/
def GoesOn (base : Nat) : Outcome Machine Advance → Prop
  | .done .going m => m.Poised base
  | _ => True

theorem Machine.Ready.closed (h : m.Ready base) (f : Frame) (o : Except Error Completion) :
    GoesOn base (m.closed f o base) := by
  unfold Machine.closed
  by_cases hsize : m.frames.size = base
  · rw [if_pos hsize]
    trivial
  · rw [if_neg hsize]
    have hleft : (m.leave f o).Ready base := h.congr (by rw [Machine.frames_leave])
    have hbase := h.size
    refine hleft.deliver ?_ o
    rw [Machine.frames_leave]
    omega

/-- Opening what a suspended frame asks for, or delivering what is known at once. -/
theorem Machine.Ready.openChild (hhost : host.CallsBack Frame.footing) (hE : E.Steady Frame.footing)
    (h : m.Ready base) (hm : base < m.frames.size) (c : Suspension) (depth : Nat) (quiet : Bool) :
    (openChild host E c depth quiet m).Leaves (Machine.Poised base) := by
  cases c with
  | branch r =>
    unfold ScriptCore.openChild
    dsimp only
    cases host.branch r with
    | ok task => exact h.opened task r.info depth quiet false
    | error e => exact h.deliver hm _
  | call r =>
    simp only [ScriptCore.openChild, Bind.bind, Proc.bind, Proc.attempt]
    obtain ⟨-, -, n, -, -, -, hcall⟩ | hcall := openCall_cases host m r depth quiet
    · have hran := (steady_callNative hhost hE n r.receiver r.args).sameStacks m
      have delivered : ∀ (o : Except Error Completion) {m' : Machine}, m.SameStacks Frame.footing m' →
          (m'.deliver o).Poised base := fun o m' h' => (h.congr h'.frames).deliver (h'.size ▸ hm) o
      rw [hcall, map_eq_pure_bind, Proc.bind_eq]
      cases hx : callNative host E n r.receiver r.args m with
      | done w m' => rw [hx] at hran; exact delivered _ hran
      | failed e m' => rw [hx] at hran; exact delivered _ hran
      | stalled => trivial
    · rw [hcall]
      cases m.requestedCall r with
      | error e => exact h.deliver hm _
      | ok x =>
        exact Machine.Ready.opened (m := { m with monitor := { m.monitor with calls := x.calls } })
          ⟨h.size, h.forwards⟩ x.task x.info depth quiet x.isCall

/-- **One boundary leaves frames that can take an outcome.** -/
theorem turn_poised (hhost : host.CallsBack Frame.footing) (hE : E.Steady Frame.footing) (h : m.Ready base)
    (f : Frame) : GoesOn base (turn host E base f m) := by
  induction f using Frame.fed_cases with
  | fed f i =>
    have hworked := h.after (f.steady_work hE i)
    rw [turn_fed]
    cases hw : f.work E i m with
    | stalled => trivial
    | failed e m₁ => rw [hw] at hworked; exact Machine.Ready.closed hworked f _
    | done r m₁ =>
      rw [hw] at hworked
      obtain ⟨t, step⟩ := r
      cases step with
      | finished c => exact Machine.Ready.closed hworked f _
      | suspended c =>
        have hforwards := Frame.forwards_of_work hw
        have hpushed := Machine.Ready.push (f := { f with task := t, input := .waiting }) hworked hforwards
        have hopened := (hpushed.running (some ⟨f.depth, f.quiet⟩)).openChild hhost hE (Nat.lt_succ_of_le (Machine.Ready.size hworked)) c
          (f.depth + 1) f.quiet
        simp only [suspend_eq]
        generalize openChild host E c _ _ _ = x at hopened
        cases x with
        | done u m₂ => exact hopened
        | failed e m₂ => trivial
        | stalled => trivial
  | fail f e hinput =>
    rw [turn_fail hinput]
    exact h.closed f _
  | waiting f hinput =>
    rw [turn_waiting hinput]
    exact h.closed f _

theorem Machine.Poised.advanced (hhost : host.CallsBack Frame.footing) (hE : E.Steady Frame.footing)
    (h : m.Poised base) : GoesOn base (advance host E base m) := by
  obtain ⟨s, f, hf, hbase, -, hforwards⟩ := h
  rw [advance_eq_turn hf hbase]
  exact turn_poised hhost hE ⟨hbase, hforwards⟩ f

/-! ### Wherever the host has control -/

/-- No frame is open, or the frames can take an outcome. -/
def Machine.Waits (m : Machine) : Prop := m.frames.size = 0 ∨ m.Poised 0

theorem Machine.Waits.after {P : Run α} (hP : Steady Frame.footing P) (h : m.Waits) : (P m).Leaves Machine.Waits := by
  obtain h | h := h
  · exact (hP.sameStacks m).imp fun m' h' => .inl (h'.size.trans h)
  · exact (h.after hP).imp fun m' h' => .inr h'

theorem startRoot_refused (host : Host) (hm : 0 < m.frames.size) (r : BranchRequest) :
    host.startRoot r m = .failed (.driverState .alreadyRunning) m := by
  have hget : (get : Run Machine) m = .done m m := rfl
  have hframes : m.frames.isEmpty = false := by
    obtain ⟨s, f, hf⟩ := Stack.exists_push hm
    rw [hf, Stack.isEmpty_push]
  unfold Host.startRoot
  rw [Proc.bind_done hget, hframes]
  rfl

theorem Machine.Waits.started (h : m.Waits) (r : BranchRequest) : (host.startRoot r m).Leaves Machine.Waits := by
  obtain hempty | hpos := Nat.eq_zero_or_pos m.frames.size
  · obtain ⟨e, hstart⟩ | ⟨task, hstart⟩ := startRoot_cases host m r
    · rw [hstart]
      exact h
    · have hready : m.Ready 0 := by
        refine ⟨Nat.zero_le _, fun g hg => ?_⟩
        rw [Stack.above_eq_nil (Nat.le_of_eq hempty)] at hg
        exact absurd hg List.not_mem_nil
      rw [hstart]
      exact .inr (hready.opened task r.info 0 false false)
  · rw [startRoot_refused host hpos]
    exact h

/-- No program is executed where frames are open. -/
theorem execute_refused (hactive : m.active = none) (hm : 0 < m.frames.size) (body : List Stmt) :
    ∀ n, ((host.engine n).execute body m).Leaves fun m' => m' = m
  | 0 => trivial
  | n + 1 => by
    show (host.executeOn (host.engine n) n body m).Leaves _
    rw [executeOn_of_inactive hactive, Proc.bind_failed (startRoot_refused host hm _)]
    rfl

section

variable (hhost : host.CallsBack Frame.footing)

include hhost in
theorem Machine.Poised.stepped {o : MonitorOptions} (hE : E.Steady Frame.footing) (b : Nat)
    (hm : Propped Frame.footing none o .empty [] m) (h : m.Poised 0) :
    (driveVisible host E b m).Leaves Machine.Waits := by
  induction b generalizing m with
  | zero => trivial
  | succ b ih =>
    have hpos : 0 < m.frames.size := by
      obtain ⟨s, f, hf, -⟩ := h
      rw [hf]
      exact Nat.succ_pos _
    have hturned : TurnEnds Frame.footing none o .empty [] (advance host E 0 m) :=
      advance_turned showsCalls_footing hhost hE hm hpos
    have hgoing := h.advanced hhost hE
    unfold ScriptCore.driveVisible
    generalize advance host E 0 m = x at hturned hgoing
    cases x with
    | stalled => trivial
    | failed e m₁ => exact hturned.elim
    | done r m₁ =>
      cases r with
      | finished r => cases r <;> exact .inl (Stands.size hturned)
      | going =>
        dsimp only
        by_cases hquiet : m₁.isQuiet = true
        · rw [if_pos hquiet]
          exact ih hturned.1 hgoing
        · rw [if_neg hquiet]
          exact .inr hgoing

include hhost in
theorem Machine.Waits.step {o : MonitorOptions} (h : m.Waits) (hm : Propped Frame.footing none o .empty [] m) :
    ∀ n, ((host.engine n).step m).Leaves Machine.Waits
  | 0 => trivial
  | n + 1 => by
    unfold Host.engine
    dsimp only
    obtain ⟨hcontrol, hpos⟩ | ⟨e, hcontrol, -⟩ := requireControl_cases hm.active
    · rw [hcontrol]
      exact (h.resolve_left (Nat.ne_of_gt hpos)).stepped hhost
        (Host.engine_steady showsCalls_footing hhost n) n hm
    · rw [hcontrol]
      exact h

include hhost in
/-- **Wherever the host has control, the frames can take an outcome.** -/
theorem Machine.Hosted.waits (h : m.Hosted Frame.footing host) : m.Waits := by
  have hE := Host.engine_steady showsCalls_footing hhost
  induction h with
  | create h => exact .inl (congrArg Stack.size (Machine.held_create h).frames)
  | start _ bound r h ih => exact (ih.started r).of_state (by cases bound <;> exact h)
  | step hm bound h ih =>
    obtain ⟨o, hpropped⟩ := hm.propped showsCalls_footing hhost
    exact (ih.step hhost hpropped bound).of_state h
  | run hm bound h ih =>
    obtain ⟨o, hpropped⟩ := hm.propped showsCalls_footing hhost
    exact .inl ((hpropped.run showsCalls_footing hhost bound).of_state h).size
  | @execute m m' hm bound body h ih =>
    obtain ⟨o, hpropped⟩ := hm.propped showsCalls_footing hhost
    obtain hempty | hpos := Nat.eq_zero_or_pos m.frames.size
    · exact .inl (((hpropped.execute showsCalls_footing hhost body bound).of_state h).2 hempty)
    · exact (execute_refused hpropped.active hpos body bound).of_state h ▸ ih
  | evaluate _ bound r h ih => exact (ih.after ((hE bound).evaluate r)).of_state h
  | call _ bound callee receiver args h ih => exact (ih.after ((hE bound).call callee receiver args)).of_state h
  | abort _ e h ih => exact (ih.after (steady_abort e)).of_state h
  | cancel _ h ih => exact (ih.after steady_cancel).of_state h
  | aside _ hp h ih => exact (ih.after hp).of_state h

end

/-! ### Frames that unwind -/

/-- **The frames unwind with the failure**: the host has control, the innermost frame was given the failure, no frame
keeps it, and the tasks of the others can take an outcome. -/
structure Machine.Doomed (e : Error) (m : Machine) : Prop where
  active : m.active = none
  hidden : e.isCatchable = false
  frames : ∃ (s : Stack Frame) (f : Frame), m.frames = s.push f ∧ f.Given e ∧ f.Able ∧
    ∀ g ∈ s.above 0, g.task.Forwards

namespace Machine.Doomed

/-- A boundary closes the innermost frame; it was the last, or those beneath unwind. -/
theorem advance (h : m.Doomed e) (host : Host) (E : Engine) : ∃ m', m'.frames.size < m.frames.size ∧
    ((ScriptCore.advance host E 0 m = .done (.finished (.error e)) m' ∧ m'.frames.size = 0) ∨
      ScriptCore.advance host E 0 m = .done .going m' ∧ m'.Doomed e) := by
  obtain ⟨s, f, hf, hgiven, hable, hforwards⟩ := h.frames
  rw [advance_given hf (Nat.zero_le _) hgiven hable (.inl h.hidden), hf, Stack.size_push]
  by_cases hsize : s.size = 0
  · rw [if_pos hsize]
    exact ⟨_, by rw [frames_dropped hf]; exact Nat.lt_succ_self _, .inl ⟨rfl, by rw [frames_dropped hf, hsize]⟩⟩
  · rw [if_neg hsize]
    obtain ⟨t, g, rfl⟩ := Stack.exists_push (Nat.pos_of_ne_zero hsize)
    rw [Stack.above_push (Nat.zero_le _)] at hforwards
    refine ⟨_, by rw [frames_unwind hf]; exact Nat.lt_succ_self _, .inr ⟨rfl, ?_, h.hidden, t, _,
      frames_unwind hf e, g.given_fed e, Frame.able_fed (hforwards g (List.mem_cons_self ..)) _,
      fun x hx => hforwards x (List.mem_cons_of_mem g hx)⟩⟩
    show (m.dropped e).active = none
    rw [dropped_eq hf, active_leave]
    show m.collected.active = none
    rw [active_collected, h.active]

theorem driven (host : Host) (E : Engine) : ∀ {b : Nat} {m : Machine}, m.Doomed e → m.frames.size ≤ b →
    ∃ m', drive host E 0 b m = .failed e m' ∧ m'.frames.size = 0
  | 0, m, h, hb => by
    obtain ⟨s, f, hf, -⟩ := h.frames
    rw [hf, Stack.size_push] at hb
    omega
  | b + 1, m, h, hb => by
    rw [drive_succ]
    obtain ⟨m', hsize, ⟨hadvance, hempty⟩ | ⟨hadvance, h'⟩⟩ := h.advance host E
    · rw [hadvance]
      exact ⟨m', rfl, hempty⟩
    · rw [hadvance]
      exact h'.driven host E (by omega)

theorem stepped (host : Host) (E : Engine) : ∀ {b : Nat} {m : Machine}, m.Doomed e → m.frames.size ≤ b →
    (∃ m', driveVisible host E b m = .failed e m' ∧ m'.frames.size = 0) ∨
      ∃ m', driveVisible host E b m = .done none m' ∧ m'.Doomed e ∧ m'.frames.size < m.frames.size
  | 0, m, h, hb => by
    obtain ⟨s, f, hf, -⟩ := h.frames
    rw [hf, Stack.size_push] at hb
    omega
  | b + 1, m, h, hb => by
    unfold driveVisible
    obtain ⟨m', hsize, ⟨hadvance, hempty⟩ | ⟨hadvance, h'⟩⟩ := h.advance host E
    · rw [hadvance]
      exact .inl ⟨m', rfl, hempty⟩
    · rw [hadvance]
      dsimp only
      by_cases hquiet : m'.isQuiet = true
      · rw [if_pos hquiet]
        obtain hfailed | ⟨m₁, hgoing, h₁, hsize₁⟩ := h'.stepped host E (b := b) (by omega)
        · exact .inl hfailed
        · exact .inr ⟨m₁, hgoing, h₁, by omega⟩
      · rw [if_neg hquiet]
        exact .inr ⟨m', rfl, h', hsize⟩

theorem control (h : m.Doomed e) : requireControl m = .done () m := by
  obtain ⟨s, f, hf, -⟩ := h.frames
  obtain ⟨hcontrol, -⟩ | ⟨e', -, hempty⟩ := requireControl_cases h.active
  · exact hcontrol
  · rw [hf, Stack.size_push] at hempty
    omega

/-- **A run ends with the failure**, and no frame is left. -/
theorem run (h : m.Doomed e) (host : Host) {n : Nat} (hn : m.frames.size ≤ n) :
    ∃ m', (host.engine (n + 1)).run m = .failed e m' ∧ m'.frames.size = 0 := by
  unfold Host.engine
  dsimp only
  rw [h.control]
  exact h.driven host _ hn

/-- **A step ends with the failure**, or leaves fewer frames that unwind with it. -/
theorem step (h : m.Doomed e) (host : Host) {n : Nat} (hn : m.frames.size ≤ n) :
    (∃ m', (host.engine (n + 1)).step m = .failed e m' ∧ m'.frames.size = 0) ∨
      ∃ m', (host.engine (n + 1)).step m = .done none m' ∧ m'.Doomed e ∧ m'.frames.size < m.frames.size := by
  unfold Host.engine
  dsimp only
  rw [h.control]
  exact h.stepped host _ hn

end Machine.Doomed

/-! ### Aborts of the host -/

/-- A frame that was aborted closes with the failure if it was not started, and otherwise its task is given it. -/
theorem advance_aborted (host : Host) (E : Engine) (hm : m.frames = s.push { f with input := f.input.aborted e }) :
    advance host E 0 m =
      if f.started then turn host E 0 (f.fed (some (.error e))) { m.collected with frames := s }
      else ({ m.collected with frames := s } : Machine).closed f (.error e) 0 := by
  rw [advance_eq_turn hm (Nat.zero_le _)]
  obtain ⟨task, info, depth, quiet, isCall, input⟩ := f
  cases input with
  | start => exact turn_fail rfl _
  | fail e' => exact turn_fail rfl _
  | deliver o => rfl
  | waiting => rfl

/-- The error of a cancellation. -/
def Machine.cancellation (m : Machine) : Error := .termination .cancelled m.monitor.trace

/-- **An abort of the host arrives.** Let native functions run more code only by evaluating and by calling, and leave
the footing of the frames alone otherwise; they may abort. Wherever the host has control, an abort is refused if no
frame is open, and otherwise changes what the innermost frame is given, and nothing else. Whatever happens then that
leaves the frames as they are:

* The next boundary closes the frame with the failure if it was not started, and otherwise gives its task the failure
  to go on with.
* If the failure is one that no program may see, such as a cancellation, the frames unwind with it: a run ends with
  it, and so does a step, or it leaves fewer frames that unwind. -/
theorem Host.CallsBack.aborts_arrive (hhost : host.CallsBack Frame.footing) (hm : m.Hosted Frame.footing host) :
    cancel m = abort m.cancellation m ∧ m.cancellation.isCatchable = false ∧ m.active = none ∧
    ((m.frames.size = 0 ∧ ∀ e, abort e m = .failed (.driverState .notRunning) m) ∨
      ∃ (s : Stack Frame) (f : Frame), m.frames = s.push f ∧ ∀ e,
        abort e m = .done () { m with frames := s.push { f with input := f.input.aborted e } } ∧
        ∀ m' : Machine, m'.frames = s.push { f with input := f.input.aborted e } →
          (∀ n, advance host (host.engine n) 0 m' =
            if f.started then turn host (host.engine n) 0 (f.fed (some (.error e))) { m'.collected with frames := s }
            else ({ m'.collected with frames := s } : Machine).closed f (.error e) 0) ∧
          (e.isCatchable = false → m'.active = none → m'.Doomed e)) ∧
    ∀ e (m' : Machine), m'.Doomed e → ∀ n, m'.frames.size ≤ n →
      (∃ m₁, (host.engine (n + 1)).run m' = .failed e m₁ ∧ m₁.frames.size = 0) ∧
      ((∃ m₁, (host.engine (n + 1)).step m' = .failed e m₁ ∧ m₁.frames.size = 0) ∨
        ∃ m₁, (host.engine (n + 1)).step m' = .done none m₁ ∧ m₁.Doomed e ∧
          m₁.frames.size < m'.frames.size) := by
  obtain ⟨o, hpropped⟩ := hm.propped showsCalls_footing hhost
  refine ⟨rfl, rfl, hpropped.active, ?_, fun e m' h n hn => ⟨h.run host hn, h.step host hn⟩⟩
  obtain hempty | ⟨s, f, hf, -, hstarted, hforwards⟩ := hm.waits hhost
  · refine .inl ⟨hempty, fun e => ?_⟩
    have hframes : m.frames.isEmpty = true := by
      rw [m.frames.size_eq, List.length_eq_zero_iff] at hempty
      exact List.isEmpty_iff.mpr hempty
    unfold abort
    rw [if_pos hframes]
  · refine .inr ⟨s, f, hf, fun e => ⟨abort_push hf e, fun m' hm' => ⟨fun n => advance_aborted host _ hm',
      fun hhidden hactive => ⟨hactive, hhidden, s, _, hm', f.given_aborted e, ?_, hforwards⟩⟩⟩⟩
    unfold Frame.started at hstarted
    unfold Frame.Able
    cases hinput : f.input with
    | start => trivial
    | fail e' => trivial
    | deliver o => exact hstarted (by rw [hinput])
    | waiting => exact hstarted (by rw [hinput])

/-- The host whose native functions cancel. -/
def Host.cancelling : Host where
  branch r := .ok (Task.ofRequest r)
  native _ _ _ _ := do cancel; return .bool true

/-- A loop that would not end is stepped twice and cancelled; the run ends with the cancellation. -/
theorem Host.CallsBack.aborts_arrive_loop : ∃ m m' m₁ : Machine, Host.cancelling.CallsBack Frame.footing ∧
    m.Hosted Frame.footing Host.cancelling ∧ cancel m = .done () m' ∧ m'.Doomed m.cancellation ∧
    (Host.cancelling.engine 4).run m' = .failed m.cancellation m₁ ∧ m₁.frames.size = 0 := by
  have hhost : Host.cancelling.CallsBack Frame.footing := fun _ _ _ => .aside (steady_cancel.bind fun _ => .pure _)
  have hruns : ((Machine.create .standard {} 0 true).toOption.bind fun m₀ =>
      ((Host.cancelling.engine 4).start
        (.program [.whileLoop (.bool true) (.block [])] m₀.realm.globalScope) m₀).state?.bind fun m₁ =>
        ((Host.cancelling.engine 4).step m₁).state?.bind fun m₂ =>
          ((Host.cancelling.engine 4).step m₂).state?.map fun m => decide (m.frames.size = 3)) = some true := by
    decide +kernel
  obtain ⟨m₀, hcreate, hruns⟩ := Option.bind_eq_some_iff.mp hruns
  obtain ⟨m₁, hstart, hruns⟩ := Option.bind_eq_some_iff.mp hruns
  obtain ⟨m₂, hstep, hruns⟩ := Option.bind_eq_some_iff.mp hruns
  obtain ⟨m, hstep', hsize⟩ := Option.map_eq_some_iff.mp hruns
  rw [decide_eq_true_eq] at hsize
  have hcreated : Machine.create .standard {} 0 true = .ok m₀ := by
    cases hc : Machine.create .standard {} 0 true with
    | error e => rw [hc] at hcreate; cases hcreate
    | ok m => rw [hc] at hcreate; cases hcreate; rfl
  have hhosted : m.Hosted Frame.footing Host.cancelling :=
    .step (.step (.start (.create hcreated) 4 _ hstart) 4 hstep) 4 hstep'
  obtain ⟨hcancel, hhidden, hactive, ⟨hempty, -⟩ | ⟨s, f, hf, habort⟩, hdoomed⟩ :=
    Host.CallsBack.aborts_arrive hhost hhosted
  · omega
  obtain ⟨hdone, harrives⟩ := habort m.cancellation
  have h := (harrives { m with frames := s.push { f with input := f.input.aborted m.cancellation } } rfl).2
    hhidden hactive
  have hsmall : (s.push { f with input := f.input.aborted m.cancellation }).size ≤ 3 := by
    rw [← hsize, hf]
    exact Nat.le_refl _
  obtain ⟨⟨m', hrun, hempty⟩, -⟩ := hdoomed _ _ h 3 hsmall
  exact ⟨m, _, m', hhost, hhosted, hcancel.trans hdone, h, hrun, hempty⟩

/-- **A cancellation that a native function asks for is lost.** The function is told that it was accepted, and
answers `true`; that takes its place, and the program ends with it. -/
theorem native_cancel_lost : ∃ m m' : Machine, m.frames.size = 0 ∧ m.active = none ∧
    (∀ E receiver args, (Host.plain []).native "cancel" E receiver args = do cancel; return .bool true) ∧
    ((Host.plain []).engine 9).execute [.expr (.call (.ident "cancel") [])] m = .done (.bool true) m' := by
  have hruns : ((machineWith "cancel" none).bind fun m =>
      (((Host.plain []).engine 9).execute [.expr (.call (.ident "cancel") [])] m).done?.map fun x =>
        m.frames.size == 0 && m.active.isNone && decide (x.1 = .bool true)) = some true := by decide +kernel
  obtain ⟨m, -, hruns⟩ := Option.bind_eq_some_iff.mp hruns
  obtain ⟨⟨v, m'⟩, hdone, hruns⟩ := Option.map_eq_some_iff.mp hruns
  simp only [Bool.and_eq_true, beq_iff_eq, decide_eq_true_eq, Option.isNone_iff_eq_none] at hruns
  obtain ⟨⟨hidle, hactive⟩, rfl⟩ := hruns
  exact ⟨m, m', hidle, hactive, fun _ _ _ => rfl, Outcome.eq_done hdone⟩

end ScriptCore
