import ScriptCore.Host.Dispatch
import ScriptCore.Proofs.Drive.Scripted

/-! # Failures unwind the frames

A frame that is given a failure closes with it at its next boundary, and the frame below is given the same
failure. Nothing else happens on the way: no task runs, no fuel is spent, and the heap changes only by the
collections that are due. That goes on down to the lowest frame, unless the program may see the failure and
a `try` statement whose block is running is given it.

* `advance_given`, `drive_given`: a frame that is given a failure closes with it, and so do those below it.
* `Reached`: the machines that a drive can come to, whatever its host does between two boundaries.
* `drive_raises`, `advance_refused`: where failures come from.
* `Routine.first_failure`: a failure of code that a task runs is the failure of the task.
* `Reached.failures_unwind`: **failures unwind the frames untouched.** -/

namespace ScriptCore

variable {α : Type} {E : Engine} {host : Host} {base : Nat} {m m' : Machine} {f g : Frame} {e : Error}
  {s : Stack Frame}

/-! ### Frames that are given a failure -/

namespace Frame

/-- The frame has been given the failure `e`. -/
def Given (f : Frame) (e : Error) : Prop := f.input = .deliver (.error e) ∨ f.input = .fail e

/-- The frame can be driven: it does not wait, and if it has been started its task can take an outcome. -/
def Able (f : Frame) : Prop :=
  match f.input with
  | .start | .fail _ => True
  | .deliver _ => f.task.Forwards
  | .waiting => False

theorem able_fed (hf : f.task.Forwards) (o : Except Error Completion) : (f.fed (some o)).Able := hf

theorem given_fed (f : Frame) (e : Error) : (f.fed (some (.error e))).Given e := .inl rfl

end Frame

/-- None of the frames keeps the failure: the program may not see it, or none is a `try` statement whose block
is running. -/
def Error.Passes (e : Error) (fs : List Frame) : Prop := e.isCatchable = false ∨ ∀ g ∈ fs, ¬ g.task.Catches

namespace Error.Passes

variable {fs : List Frame}

theorem head (h : e.Passes (f :: fs)) : e.isCatchable = false ∨ ¬ f.task.Catches :=
  h.imp_right fun hfs => hfs f (List.mem_cons_self ..)

theorem tail (h : e.Passes (f :: fs)) : e.Passes fs :=
  h.imp_right fun hfs g hg => hfs g (List.mem_cons_of_mem f hg)

theorem fed (h : e.Passes (f :: fs)) (o : Except Error Completion) : e.Passes (f.fed (some o) :: fs) := by
  refine h.imp_right fun hfs g hg => ?_
  obtain rfl | hg := List.mem_cons.mp hg
  · exact hfs f (List.mem_cons_self ..)
  · exact hfs g (List.mem_cons_of_mem f hg)

end Error.Passes

namespace Machine

/-- The innermost frame closed with a failure. -/
def dropped (e : Error) (m : Machine) : Machine :=
  match m.frames.top? with
  | some f => ({ m.collected with frames := m.frames.pop } : Machine).leave f (.error e)
  | none => m

/-- The innermost frame closed with a failure, and the next one is given it. -/
def unwind (e : Error) (m : Machine) : Machine := (m.dropped e).deliver (.error e)

/-- `n` frames closed with a failure, and the next one is given it. -/
def unwound (e : Error) : Nat → Machine → Machine
  | 0, m => m
  | n + 1, m => unwound e n (m.unwind e)

theorem dropped_eq (hm : m.frames = s.push f) (e : Error) :
    m.dropped e = ({ m.collected with frames := s } : Machine).leave f (.error e) := by
  unfold dropped
  rw [hm, Stack.top?_push, Stack.pop_push]

theorem frames_dropped (hm : m.frames = s.push f) (e : Error) : (m.dropped e).frames = s := by
  rw [dropped_eq hm, frames_leave]

theorem frames_unwind {t : Stack Frame} (hm : m.frames = (t.push g).push f) (e : Error) :
    (m.unwind e).frames = t.push (g.fed (some (.error e))) := by
  show (m.dropped e).frames.modifyTop _ = _
  rw [frames_dropped hm, Stack.modifyTop_push]
  rfl

end Machine

/-- **A frame that is given a failure closes with it**, and the frame below is given it. -/
theorem advance_given (hm : m.frames = s.push f) (hbase : base ≤ s.size) (hgiven : f.Given e) (hable : f.Able)
    (hpass : e.isCatchable = false ∨ ¬ f.task.Catches) :
    advance host E base m =
      if s.size = base then .done (.finished (.error e)) (m.dropped e) else .done .going (m.unwind e) := by
  have hclosed : ({ m.collected with frames := s } : Machine).closed f (.error e) base =
      if s.size = base then .done (.finished (.error e)) (m.dropped e) else .done .going (m.unwind e) := by
    unfold Machine.closed Machine.unwind
    rw [Machine.dropped_eq hm]
  rw [advance_eq_turn hm hbase, ← hclosed]
  obtain hinput | hinput := hgiven
  · have hforwards : f.task.Forwards := by
      unfold Frame.Able at hable
      rwa [hinput] at hable
    have hturn := turn_fed host E base f (some (.error e)) { m.collected with frames := s }
    rw [Frame.fed_of_deliver hinput] at hturn
    rw [hturn, Frame.work_error hforwards hpass]
  · exact turn_fail hinput _

/-- **A failure unwinds the frames** down to the lowest, one at each boundary. -/
theorem drive_given (host : Host) (E : Engine) {rest : List Frame} {b : Nat}
    (habove : m.frames.above base = f :: rest) (hgiven : f.Given e) (hable : f.Able)
    (hrest : ∀ g ∈ rest, g.task.Forwards) (hpass : e.Passes (f :: rest)) (hb : rest.length < b) :
    drive host E base b m = .failed e ((m.unwound e rest.length).dropped e) := by
  induction rest generalizing m f b with
  | nil =>
    obtain ⟨b, rfl⟩ := Nat.exists_eq_add_of_lt hb
    obtain ⟨s, hm, hbase, hs⟩ := Stack.exists_push_of_above habove
    have hsize : s.size = base := by
      rw [Stack.size_of_above hbase, hs]
      rfl
    rw [drive_succ, advance_given hm hbase hgiven hable hpass.head, if_pos hsize]
    rfl
  | cons g rest ih =>
    obtain ⟨b, rfl⟩ := Nat.exists_eq_add_of_le' (show 1 ≤ b from Nat.lt_of_le_of_lt (Nat.zero_le _) hb)
    obtain ⟨s, hm, hbase, hs⟩ := Stack.exists_push_of_above habove
    obtain ⟨t, rfl, ht, htrest⟩ := Stack.exists_push_of_above hs
    have hgoing : ¬ (t.push g).size = base := by
      rw [Stack.size_push]
      omega
    rw [drive_succ, advance_given hm hbase hgiven hable hpass.head, if_neg hgoing]
    have hunwound : (m.unwind e).frames.above base = g.fed (some (.error e)) :: rest := by
      rw [Machine.frames_unwind hm, Stack.above_push ht, htrest]
    exact ih hunwound (g.given_fed e) (Frame.able_fed (hrest g (List.mem_cons_self ..)) _)
      (fun x hx => hrest x (List.mem_cons_of_mem g hx)) (hpass.tail.fed _) (by simpa using hb)

/-! ### Nothing else happens -/

/-- The second heap came about by collections alone. -/
inductive Heap.Collected (h : Heap) : Heap → Prop where
  | refl : Collected h h
  | collect {h' : Heap} (reported : List Handle) (hc : Collected h h') : Collected h (h'.collect reported)

/-- From one machine to the other no fuel was spent and no code ran; the heap is the same, or a collection was
due and it came about by collections alone. -/
structure Machine.Idled (m m' : Machine) : Prop where
  active : m'.active = m.active
  realm : m'.realm = m.realm
  console : m'.console = m.console
  budget : m'.monitor.budget = m.monitor.budget
  boundaries : m'.monitor.boundaries = m.monitor.boundaries
  heap : m'.heap = m.heap ∨
    (m.active = none ∧ m.heap.needsCollection = true ∧ m.heap.Collected m'.heap)

namespace Machine

theorem Idled.refl (m : Machine) : m.Idled m := ⟨rfl, rfl, rfl, rfl, rfl, .inl rfl⟩

theorem Idled.deliver (h : m.Idled m') (o : Except Error Completion) : m.Idled (m'.deliver o) :=
  ⟨h.active, h.realm, h.console, h.budget, h.boundaries, h.heap⟩

theorem Idled.collected (h : m.Idled m') : m.Idled m'.collected := by
  unfold Machine.collected
  by_cases hdue : (m'.active.isNone && m'.heap.needsCollection) = true
  · rw [if_pos hdue]
    rw [Bool.and_eq_true, h.active] at hdue
    refine ⟨h.active, h.realm, h.console, h.budget, h.boundaries, .inr ?_⟩
    obtain heq | ⟨hactive, hneeds, hc⟩ := h.heap
    · rw [heq] at hdue ⊢
      exact ⟨Option.isNone_iff_eq_none.mp hdue.1, hdue.2, .collect _ .refl⟩
    · exact ⟨hactive, hneeds, .collect _ hc⟩
  · rw [if_neg hdue]
    exact h

theorem Idled.leave (h : m.Idled m') (f : Frame) (o : Except Error Completion) : m.Idled (m'.leave f o) := by
  unfold Machine.leave
  cases f.isCall <;> cases f.quiet <;> exact ⟨h.active, h.realm, h.console, h.budget, h.boundaries, h.heap⟩

theorem Idled.dropped (h : m.Idled m') (e : Error) : m.Idled (m'.dropped e) := by
  unfold Machine.dropped
  cases m'.frames.top? with
  | none => exact h
  | some f =>
    have hc := h.collected
    have hpopped : m.Idled { m'.collected with frames := m'.frames.pop } :=
      ⟨hc.active, hc.realm, hc.console, hc.budget, hc.boundaries, hc.heap⟩
    exact hpopped.leave f (.error e)

theorem Idled.unwound (h : m.Idled m') (e : Error) (n : Nat) : m.Idled (m'.unwound e n) := by
  induction n generalizing m' with
  | zero => exact h
  | succ n ih => exact ih ((h.dropped e).deliver _)

end Machine

/-! ### What a drive can come to -/

/-- **A drive down to `base` can come to the machine**: a frame was opened on `base` others, boundaries were
crossed, and between them the host aborted, or did anything that left the frames alone and gave the program
no native functions. -/
inductive Reached (host : Host) (base : Nat) : Machine → Prop where
  | opened {m : Machine} (hm : m.frames.size = base) (hs : m.heap.Scripted) (task : Task) (info : BranchInfo)
      (depth : Nat) (quiet isCall : Bool) : Reached host base (m.openFrame task info depth quiet isCall)
  | crossed {m m' : Machine} (h : Reached host base m) (bound : Nat)
      (hgoing : advance host (host.engine bound) base m = .done .going m') : Reached host base m'
  | aborted {m m' : Machine} (h : Reached host base m) (e : Error) (habort : abort e m = .done () m') :
      Reached host base m'
  | changed {m m' : Machine} (h : Reached host base m) (hframes : m'.frames = m.frames)
      (hs : m'.heap.Scripted) : Reached host base m'

/-- There is a frame above `base`; the innermost can be driven, and the tasks of the others above `base` can
take an outcome. -/
def Machine.Orderly (base : Nat) (m : Machine) : Prop :=
  ∃ f rest, m.frames.above base = f :: rest ∧ f.Able ∧ ∀ g ∈ rest, g.task.Forwards

theorem Machine.orderly_push {m : Machine} (hm : m.frames = s.push f) (hbase : base ≤ s.size) (hf : f.Able)
    (hs : ∀ g ∈ s.above base, g.task.Forwards) : m.Orderly base :=
  ⟨f, s.above base, by rw [hm, Stack.above_push hbase], hf, hs⟩

theorem Machine.Orderly.pop (h : m.Orderly base) : ∃ (s : Stack Frame) (f : Frame),
    m.frames = s.push f ∧ base ≤ s.size ∧ f.Able ∧ ∀ g ∈ s.above base, g.task.Forwards := by
  obtain ⟨f, rest, habove, hf, hrest⟩ := h
  obtain ⟨s, hm, hbase, rfl⟩ := Stack.exists_push_of_above habove
  exact ⟨s, f, hm, hbase, hf, hrest⟩

/-- What a boundary leaves on top can be driven, and the tasks of the frames beneath can take an outcome. -/
theorem Restacked.orderly {s' : Stack Frame} (h : Restacked base s .going s') (hbase : base ≤ s.size)
    (hrest : ∀ g ∈ s.above base, g.task.Forwards) : ∃ (t : Stack Frame) (g : Frame),
      s' = t.push g ∧ base ≤ t.size ∧ g.Able ∧ ∀ x ∈ t.above base, x.task.Forwards := by
  cases h with
  | @closed t g o hst ht =>
    subst hst
    rw [Stack.above_push ht] at hrest
    exact ⟨t, _, rfl, ht, Frame.able_fed (hrest g (List.mem_cons_self ..)) o,
      fun x hx => hrest x (List.mem_cons_of_mem g hx)⟩
  | @answered g o hg => exact ⟨s, _, rfl, hbase, Frame.able_fed hg o, hrest⟩
  | @asked g child hg =>
    refine ⟨s.push g, _, rfl, Nat.le_succ_of_le hbase, trivial, fun x hx => ?_⟩
    rw [Stack.above_push hbase] at hx
    obtain rfl | hx := List.mem_cons.mp hx
    · exact hg
    · exact hrest x hx

/-- A boundary leaves the frames in order. -/
theorem Machine.Orderly.advance {bound : Nat} (h : m.Orderly base) (hs : m.heap.Scripted)
    (hgoing : advance host (host.engine bound) base m = .done .going m') :
    m'.Orderly base ∧ m'.heap.Scripted := by
  obtain ⟨s, f, hm, hbase, -, hrest⟩ := h.pop
  have hheld : Held m.active (s.push f) m.monitor.limits m := ⟨rfl, hm, rfl, hs⟩
  rw [advance_eq_turn hm hbase] at hgoing
  obtain hstalled | ⟨r, m₁, s', hturn, hrestacked, hheld'⟩ :=
    turn_restacks host (host.engine_holds bound) hheld.popped hbase f
  · rw [hstalled] at hgoing
    cases hgoing
  · cases hturn.symm.trans hgoing
    obtain ⟨t, g, rfl, ht, hg, hforwards⟩ := hrestacked.orderly hbase hrest
    exact ⟨Machine.orderly_push hheld'.frames ht hg hforwards, hheld'.heap⟩

theorem Frame.Able.aborted (hf : f.Able) (e : Error) :
    ({ f with input := f.input.aborted e } : Frame).Able := by
  unfold Frame.Able at hf ⊢
  cases hinput : f.input with
  | start => exact trivial
  | fail e => exact trivial
  | deliver o => rw [hinput] at hf; exact hf
  | waiting => rw [hinput] at hf; exact hf.elim

/-- An abort gives the innermost frame the failure. -/
theorem abort_push (hm : m.frames = s.push f) (e : Error) :
    abort e m = .done () { m with frames := s.push { f with input := f.input.aborted e } } := by
  have hframes : m.frames.isEmpty = false := by rw [hm, Stack.isEmpty_push]
  unfold abort
  simp only [hframes]
  rw [hm, Stack.modifyTop_push]
  rfl

theorem Frame.given_aborted (f : Frame) (e : Error) :
    ({ f with input := f.input.aborted e } : Frame).Given e := by
  unfold Frame.Given
  cases f.input with
  | start => exact .inr rfl
  | fail e' => exact .inr rfl
  | deliver o => exact .inl rfl
  | waiting => exact .inl rfl

/-- **Every machine that a drive can come to has its frames in order.** -/
theorem Reached.orderly (h : Reached host base m) : m.Orderly base ∧ m.heap.Scripted := by
  induction h with
  | @opened m hm hs task info depth quiet isCall =>
    refine ⟨Machine.orderly_push (Machine.frames_openFrame ..) (Nat.le_of_eq hm.symm) trivial fun g hg => ?_,
      by simpa using hs⟩
    rw [Stack.above_eq_nil (Nat.le_of_eq hm)] at hg
    cases hg
  | crossed _ bound hgoing ih => exact ih.1.advance ih.2 hgoing
  | @aborted m m' _ e habort ih =>
    obtain ⟨horderly, hs⟩ := ih
    obtain ⟨t, f, hm, hbase, hf, hrest⟩ := horderly.pop
    cases (abort_push hm e).symm.trans habort
    exact ⟨Machine.orderly_push rfl hbase (hf.aborted e) hrest, hs⟩
  | changed _ hframes hs ih =>
    obtain ⟨f, rest, habove, hf, hrest⟩ := ih.1
    exact ⟨⟨f, rest, by rw [hframes, habove], hf, hrest⟩, hs⟩

/-! ### Code that a task runs -/

/-- The procedure, which now stalls where it failed. -/
def Proc.muted {σ : Type} (p : Proc σ α) : Proc σ α := fun s =>
  match p s with
  | .failed _ _ => .stalled
  | o => o

/-- The engine whose runs stall where those of the given one fail. -/
def Engine.muted (E : Engine) : Engine :=
  { E with evaluate := fun r => (E.evaluate r).muted
           call := fun f receiver args => (E.call f receiver args).muted }

/-- A run of the engine fails and leaves the machine. -/
inductive Engine.Fails (E : Engine) (e : Error) (m' : Machine) : Prop where
  | evaluate {r : BranchRequest} {m : Machine} (h : E.evaluate r m = .failed e m')
  | call {f receiver : Value} {args : List Value} {m : Machine} (h : E.call f receiver args m = .failed e m')

theorem Proc.muted_of_not_failed {σ : Type} {p : Proc σ α} {x : σ} (h : ∀ e x', p x ≠ .failed e x') :
    p x = p.muted x := by
  unfold Proc.muted
  cases hp : p x with
  | done v x' => rfl
  | failed e x' => exact absurd hp (h e x')
  | stalled => rfl

/-- **Running code does not see failures of the code that it runs**: it does what it does if no such code
fails, or it fails as that code did, at once. -/
theorem Routine.first_failure {P : Engine → Run α} (hP : Routine P) (E : Engine) (m : Machine) :
    P E m = P E.muted m ∨ ∃ e m', E.Fails e m' ∧ P E m = .failed e m' := by
  induction hP generalizing m with
  | pure v => exact .inl rfl
  | fail e => exact .inl rfl
  | onHeap hp => exact .inl rfl
  | look f => exact .inl rfl
  | evaluate r =>
    by_cases hfails : ∃ e m', E.evaluate r m = .failed e m'
    · obtain ⟨e, m', h⟩ := hfails
      exact .inr ⟨e, m', .evaluate h, h⟩
    · exact .inl (Proc.muted_of_not_failed fun e m' h => hfails ⟨e, m', h⟩)
  | call f receiver args =>
    by_cases hfails : ∃ e m', E.call f receiver args m = .failed e m'
    · obtain ⟨e, m', h⟩ := hfails
      exact .inr ⟨e, m', .call h, h⟩
    · exact .inl (Proc.muted_of_not_failed fun e m' h => hfails ⟨e, m', h⟩)
  | @bind _ _ P F _ _ ihp ihf =>
    show (P E >>= F E) m = (P E.muted >>= F E.muted) m ∨ ∃ e m', E.Fails e m' ∧ (P E >>= F E) m = .failed e m'
    obtain hp | ⟨e, m', hfails, hp⟩ := ihp m
    · cases hdone : P E m with
      | done v m₁ =>
        rw [Proc.bind_done hdone, Proc.bind_done (hp.symm.trans hdone)]
        exact ihf v m₁
      | failed e m₁ =>
        rw [Proc.bind_failed hdone, Proc.bind_failed (hp.symm.trans hdone)]
        exact .inl rfl
      | stalled =>
        rw [Proc.bind_stalled hdone, Proc.bind_stalled (hp.symm.trans hdone)]
        exact .inl rfl
    · exact .inr ⟨e, m', hfails, Proc.bind_failed hp _⟩

/-! ### Down to the lowest frame -/

variable {i : Option (Except Error Completion)} {m₁ : Machine}

/-- **A drive whose innermost frame closes with a failure fails with it.** -/
theorem proceed_closed (host : Host) (E : Engine) {b : Nat} (hm : m.frames = s) (hbase : base ≤ s.size)
    (hrest : ∀ g ∈ s.above base, g.task.Forwards) (hpass : e.Passes (s.above base)) (hb : s.size ≤ base + b)
    (f : Frame) : ∃ m', proceed host E base b (m.closed f (.error e) base) = .failed e m' ∧ m.Idled m' := by
  have hleft : m.Idled (m.leave f (.error e)) := (Machine.Idled.refl m).leave f _
  unfold Machine.closed
  rw [hm]
  by_cases hsize : s.size = base
  · rw [if_pos hsize]
    exact ⟨_, rfl, hleft⟩
  · rw [if_neg hsize]
    obtain ⟨t, g, rfl⟩ := Stack.exists_push (s := s) (by omega)
    have ht : base ≤ t.size := by rw [Stack.size_push] at hbase hsize; omega
    rw [Stack.above_push ht] at hrest hpass
    rw [Stack.size_push, Stack.size_of_above ht] at hb
    have hgiven : ((m.leave f (.error e)).deliver (.error e)).frames.above base =
        g.fed (some (.error e)) :: t.above base := by
      show ((m.leave f (.error e)).frames.modifyTop _).above base = _
      rw [Machine.frames_leave, hm, Stack.modifyTop_push, Stack.above_push ht]
      rfl
    have hdrive := drive_given host E (b := b) hgiven (g.given_fed e)
      (Frame.able_fed (hrest g (List.mem_cons_self ..)) _) (fun x hx => hrest x (List.mem_cons_of_mem g hx))
      (hpass.fed _) (by omega)
    exact ⟨_, hdrive, ((hleft.deliver _).unwound e _).dropped e⟩

/-- **A failure that a frame raises unwinds the frames below it.** -/
theorem drive_raises {b bound : Nat} (hm : m.frames = s.push (f.fed i)) (hs : m.heap.Scripted)
    (hbase : base ≤ s.size) (hrest : ∀ g ∈ s.above base, g.task.Forwards)
    (hraises : f.work (host.engine bound) i { m.collected with frames := s } = .failed e m₁)
    (hpass : e.Passes (s.above base)) (hb : m.frames.size ≤ base + b) :
    m₁.frames = s ∧ advance host (host.engine bound) base m = m₁.closed f (.error e) base ∧
      ∃ m', drive host (host.engine bound) base b m = .failed e m' ∧ m₁.Idled m' := by
  have hheld : Held m.active (s.push (f.fed i)) m.monitor.limits m := ⟨rfl, hm, rfl, hs⟩
  have hframes : m₁.frames = s := by
    have hwork := f.keeps_held_work (host.engine_holds bound) i _ hheld.popped
    rw [hraises] at hwork
    exact hwork.frames
  have hadvance : advance host (host.engine bound) base m = m₁.closed f (.error e) base := by
    rw [advance_eq_turn hm hbase, turn_fed, hraises]
  refine ⟨hframes, hadvance, ?_⟩
  rw [hm, Stack.size_push] at hb
  obtain ⟨b, rfl⟩ := Nat.exists_eq_add_of_le' (show 1 ≤ b by omega)
  rw [drive_succ, hadvance]
  exact proceed_closed host (host.engine bound) hframes hbase hrest hpass (by omega) f

/-- **A frame whose request is refused is given the failure.** -/
theorem advance_refused {bound : Nat} {t : Task} {c : Suspension} (hm : m.frames = s.push (f.fed i))
    (hs : m.heap.Scripted) (hbase : base ≤ s.size)
    (hsuspended : f.work (host.engine bound) i { m.collected with frames := s } = .done (t, .suspended c) m₁)
    (hrefused : m₁.requested host c = .error e) :
    advance host (host.engine bound) base m =
      .done .going { m₁ with frames := s.push (({ f with task := t } : Frame).fed (some (.error e))) } := by
  have hheld : Held m.active (s.push (f.fed i)) m.monitor.limits m := ⟨rfl, hm, rfl, hs⟩
  have hwork := f.keeps_held_work (host.engine_holds bound) i _ hheld.popped
  rw [hsuspended] at hwork
  have hframes : m₁.frames = s := hwork.frames
  rw [advance_eq_turn hm hbase, turn_scripted host (host.engine_holds bound) hheld.popped, hsuspended]
  unfold Frame.settle Machine.suspended
  simp only [hrefused, hframes]
  rfl

/-- A failure that was given to the innermost frame unwinds all frames above `base`. -/
theorem Reached.drive_given {b : Nat} (h : Reached host base m) (bound : Nat) (hm : m.frames = s.push f)
    (hgiven : f.Given e) (hpass : e.Passes (f :: s.above base)) (hb : m.frames.size ≤ base + b) :
    drive host (host.engine bound) base b m = .failed e ((m.unwound e (s.above base).length).dropped e) := by
  obtain ⟨t, g, hpush, hbase, hable, hrest⟩ := h.orderly.1.pop
  obtain ⟨rfl, rfl⟩ := Stack.push_inj (hm.symm.trans hpush)
  refine ScriptCore.drive_given host (host.engine bound) ?_ hgiven hable hrest hpass ?_
  · rw [hm, Stack.above_push hbase]
  · have hsize := Stack.size_of_above hbase
    rw [hm, Stack.size_push] at hb
    omega

/-- **Failures unwind the frames untouched**, wherever a drive has come to. The innermost frame gives way to a
failure that it was given, by the frame above it, by a refused request or by the host; so does every frame
below it that does not keep the failure, each at its own boundary. No code runs on the way, and the heap
changes by due collections alone. A failure that a frame raises unwinds the frames below it in the same way,
and a failure of code that its task runs is a failure of the task. -/
theorem Reached.failures_unwind (h : Reached host base m) (bound : Nat) :
    ∃ (s : Stack Frame) (f : Frame), m.frames = s.push f ∧ base ≤ s.size ∧
      (∀ e, f.Given e → e.Passes [f] →
        m.Idled (m.dropped e) ∧ (m.dropped e).frames = s ∧ advance host (host.engine bound) base m =
          if s.size = base then .done (.finished (.error e)) (m.dropped e) else .done .going (m.unwind e)) ∧
      (∀ e b, f.Given e → e.Passes (f :: s.above base) → m.frames.size ≤ base + b →
        m.Idled ((m.unwound e (s.above base).length).dropped e) ∧
          drive host (host.engine bound) base b m =
            .failed e ((m.unwound e (s.above base).length).dropped e)) ∧
      (∀ e (g : Frame) i (m₁ : Machine) b, f = g.fed i →
        g.work (host.engine bound) i { m.collected with frames := s } = .failed e m₁ →
        e.Passes (s.above base) → m.frames.size ≤ base + b →
        m₁.frames = s ∧ advance host (host.engine bound) base m = m₁.closed g (.error e) base ∧
          ∃ m', drive host (host.engine bound) base b m = .failed e m' ∧ m₁.Idled m') ∧
      (∀ e (g : Frame) i t c (m₁ : Machine), f = g.fed i →
        g.work (host.engine bound) i { m.collected with frames := s } = .done (t, .suspended c) m₁ →
        m₁.requested host c = .error e →
        advance host (host.engine bound) base m =
          .done .going { m₁ with frames := s.push (({ g with task := t } : Frame).fed (some (.error e))) }) ∧
      (∀ e, abort e m = .done () { m with frames := s.push { f with input := f.input.aborted e } } ∧
        ({ f with input := f.input.aborted e } : Frame).Given e) ∧
      ∀ (t : Task) (i : Option (Except Error Completion)) (x : Machine),
        t.doing (host.engine bound) i x = t.doing (host.engine bound).muted i x ∨
          ∃ e x', (host.engine bound).Fails e x' ∧ t.doing (host.engine bound) i x = .failed e x' := by
  obtain ⟨horderly, hs⟩ := h.orderly
  obtain ⟨s, f, hm, hbase, hable, hrest⟩ := horderly.pop
  refine ⟨s, f, hm, hbase, fun e hgiven hpass => ?_, fun e b hgiven hpass hb => ?_, ?_, ?_, fun e => ?_, ?_⟩
  · exact ⟨(Machine.Idled.refl m).dropped e, Machine.frames_dropped hm e,
      advance_given hm hbase hgiven hable hpass.head⟩
  · exact ⟨((Machine.Idled.refl m).unwound e _).dropped e, h.drive_given bound hm hgiven hpass hb⟩
  · intro e g i m₁ b hf hraises hpass hb
    exact drive_raises (hf ▸ hm) hs hbase hrest hraises hpass hb
  · intro e g i t c m₁ hf hsuspended hrefused
    exact advance_refused (hf ▸ hm) hs hbase hsuspended hrefused
  · exact ⟨abort_push hm e, f.given_aborted e⟩
  · exact fun t i x => (t.routine_doing i).first_failure (host.engine bound) x

/-! ### Programs on new machines -/

/-- The machine some boundaries later, if the drive is still going. -/
def crossings (host : Host) (E : Engine) (base : Nat) : Nat → Machine → Option Machine
  | 0, m => some m
  | n + 1, m =>
    match advance host E base m with
    | .done .going m' => crossings host E base n m'
    | _ => none

/-- **What one boundary keeps, many keep.** -/
theorem crossings_keep {E : Engine} {P : Machine → Prop}
    (hkeep : ∀ {m m' : Machine}, P m → advance host E base m = .done .going m' → P m') :
    ∀ (n : Nat) {m : Machine}, P m → crossings host E base n m = some m' → P m'
  | 0, _, hm, hrun => by cases hrun; exact hm
  | n + 1, m, hm, hrun => by
    unfold crossings at hrun
    cases hadvance : advance host E base m with
    | done r m₁ =>
      rw [hadvance] at hrun
      cases r with
      | going => exact crossings_keep hkeep n (hkeep hm hadvance) hrun
      | finished o => cases hrun
    | failed e m₁ => rw [hadvance] at hrun; cases hrun
    | stalled => rw [hadvance] at hrun; cases hrun

theorem Reached.crossings {n bound : Nat} (h : Reached host base m)
    (hm : ScriptCore.crossings host (host.engine bound) base n m = some m') : Reached host base m' :=
  crossings_keep (fun h hadvance => h.crossed bound hadvance) n h hm

/-- A new machine with a program to run. -/
def openedProgram (limits : HeapLimits) (body : List Stmt) : Option Machine :=
  (Machine.create limits {} 0 true).toOption.map fun m =>
    m.openFrame (.ofRequest (.program body m.realm.globalScope)) ⟨.program, {}⟩ 0 false false

theorem reached_openedProgram {limits : HeapLimits} {body : List Stmt}
    (h : openedProgram limits body = some m) :
    Reached (Host.plain []) 0 m ∧ m.monitor.limits = (Monitor.ofOptions {} 0).limits := by
  obtain ⟨m₀, hcreate, rfl⟩ := Option.map_eq_some_iff.mp h
  have hheld : Held none .empty (Monitor.ofOptions {} 0).limits m₀ := by
    cases hm : Machine.create limits {} 0 true with
    | error e => rw [hm] at hcreate; cases hcreate
    | ok m₁ => rw [hm] at hcreate; cases hcreate; exact Machine.held_create hm
  refine ⟨.opened (congrArg Stack.size hheld.frames) hheld.heap .., ?_⟩
  rw [Machine.monitor_openFrame]
  exact hheld.limits

/-- A new machine with a program that was cancelled after some boundaries. -/
def cancelledProgram (limits : HeapLimits) (body : List Stmt) (n : Nat) : Option Machine :=
  (openedProgram limits body).bind fun m =>
    (crossings (Host.plain []) ((Host.plain []).engine 1) 0 n m).bind fun m => (cancel m).state?

theorem reached_cancelledProgram {limits : HeapLimits} {body : List Stmt} {n : Nat}
    (h : cancelledProgram limits body n = some m) : Reached (Host.plain []) 0 m ∧
      ∃ (s : Stack Frame) (f : Frame) (calls : List CallEntry),
        m.frames = s.push f ∧ f.Given (.termination .cancelled calls) := by
  obtain ⟨m₀, hopened, h⟩ := Option.bind_eq_some_iff.mp h
  obtain ⟨m₁, hcrossed, h⟩ := Option.bind_eq_some_iff.mp h
  have hreached := (reached_openedProgram hopened).1.crossings hcrossed
  obtain ⟨s, f, hframes, -⟩ := hreached.orderly.1.pop
  have hcancel : cancel m₁ = _ := abort_push hframes (m₁.monitor.stop .cancelled)
  rw [hcancel] at h
  cases h
  exact ⟨hreached.aborted _ hcancel, s, _, _, rfl, f.given_aborted _⟩

/-- An endless loop inside a `try` statement. -/
def guardedLoop : List Stmt := [.tryCatch [.whileLoop (.bool true) (.block [])] (some "e") []]

instance : DecidablePred Task.Catches := fun t =>
  match t with
  | .statement t => inferInstanceAs (Decidable (t.state = .tryBlock))
  | .statements _ | .expression _ | .invocation _ | .settled _ => inferInstanceAs (Decidable False)

/-- The loop is cancelled: the cancellation unwinds all frames, that of the `try` statement among them. -/
theorem Reached.failures_unwind_cancelled : ∃ (m m' : Machine) (e : Error), Reached (Host.plain []) 0 m ∧
    (∃ g ∈ m.frames.items, g.task.Catches) ∧
    drive (Host.plain []) ((Host.plain []).engine 1) 0 9 m = .failed e m' ∧ m.Idled m' := by
  have hruns : ((cancelledProgram .standard guardedLoop 8).map fun m =>
      decide (∃ g ∈ m.frames.items, g.task.Catches) && decide (m.frames.size ≤ 9)) = some true := by
    decide +kernel
  obtain ⟨m, hm, hcatches⟩ := Option.map_eq_some_iff.mp hruns
  rw [Bool.and_eq_true, decide_eq_true_eq, decide_eq_true_eq] at hcatches
  obtain ⟨hreached, s, f, calls, hframes, hgiven⟩ := reached_cancelledProgram hm
  obtain ⟨s', f', hframes', -, -, hdrive, -⟩ := Reached.failures_unwind hreached 1
  obtain ⟨rfl, rfl⟩ := Stack.push_inj (hframes.symm.trans hframes')
  obtain ⟨hidled, hfailed⟩ := hdrive _ 9 hgiven (.inl rfl) hcatches.2
  exact ⟨m, _, _, hreached, hcatches.1, hfailed, hidled⟩

/-- **Unwinding may collect garbage**: a cancelled program leaves fewer allocations than it had when it was
cancelled. -/
theorem unwinding_collects : ∃ (m m' : Machine) (s : Stack Frame) (f : Frame) (e : Error),
    Reached (Host.plain []) 0 m ∧ m.frames = s.push f ∧ f.Given e ∧ e.isCatchable = false ∧
    drive (Host.plain []) ((Host.plain []).engine 1) 0 9 m = .failed e m' ∧ m'.heap.live < m.heap.live := by
  have hruns : ((cancelledProgram ⟨16777216, 31⟩ [.expr (.object [])] 3).bind fun m =>
      (drive (Host.plain []) ((Host.plain []).engine 1) 0 9 m).state?.map fun m' =>
        decide (m'.heap.live < m.heap.live) && decide (m.frames.size ≤ 9)) = some true := by decide +kernel
  obtain ⟨m, hm, hruns⟩ := Option.bind_eq_some_iff.mp hruns
  obtain ⟨m', hm', hlive⟩ := Option.map_eq_some_iff.mp hruns
  rw [Bool.and_eq_true, decide_eq_true_eq, decide_eq_true_eq] at hlive
  obtain ⟨hreached, s, f, calls, hframes, hgiven⟩ := reached_cancelledProgram hm
  have hdrive := hreached.drive_given (b := 9) 1 hframes hgiven (.inl rfl) (by simpa using hlive.2)
  rw [hdrive] at hm'
  cases hm'
  exact ⟨m, _, s, f, _, hreached, hframes, hgiven, rfl, hdrive, hlive.1⟩

end ScriptCore
