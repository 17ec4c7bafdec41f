import ScriptCore.Host.Natives
import ScriptCore.Proofs.Drive.Recursion

/-! # The stack of frames refines recursion

Driving a machine is compared with `Host.recursion`, which holds what is pending in its own recursion. At
each boundary the innermost frame does what the evaluator does with it up to its next call of itself; a run
of one frame on the stack splits into the runs of its children and its own legs in between, and these are
the runs of the evaluator.

* `lap_matched`: **one boundary on the stack is one leg of the evaluator.**
* `Runs.join`, `Runs.split`: runs of frames on top of each other.
* `Host.engine_tracks`, `Host.recursion_tracks`: machine and evaluator let running code do the same.
* `drive_refines_recursion`: **a drive ends exactly if the recursion does, with the same outcome and machine**,
  and requests have the same outcome whether they are made when suspended or while running. -/

namespace ScriptCore

variable {L R : Prop} {E E₁ E₂ : Engine} {host : Host} {base : Nat} {below : Stack Frame}

/-! ### One boundary of one frame -/

/-- Drives a frame that is off the stack over one boundary: its outcome if it closed, and nothing if it is
back on the stack. What an outcome means to the frames below is left open. -/
def lap (host : Host) (engine : Engine) (f : Frame) : Run (Option (Except Error Completion)) := do
  match ← feed engine f with
  | (.ok (.suspended c), f) =>
    suspend host engine f c
    return none
  | (.ok (.finished c), f) => return some (← f.exit (.ok c))
  | (.error e, f) => return some (← f.exit (.error e))

theorem turn_eq_lap (f : Frame) (m : Machine) :
    turn host E base f m =
      match lap host E f m with
      | .done (some o) m =>
        if m.frames.size = base then .done (.finished o) m else .done .going (m.deliver o)
      | .done none m => .done .going m
      | .failed e m => .failed e m
      | .stalled => .stalled := by
  unfold turn lap
  simp only [Bind.bind, Proc.bind]
  cases feed E f m with
  | failed e m => rfl
  | stalled => rfl
  | done r m =>
    obtain ⟨r, g⟩ := r
    cases r with
    | error e =>
      simp only [Machine.close_eq, Proc.bind, Frame.exit, Machine.frames_leave, Proc.pure_apply]
      split <;> rfl
    | ok step =>
      cases step with
      | finished c =>
        simp only [Machine.close_eq, Proc.bind, Frame.exit, Machine.frames_leave, Proc.pure_apply]
        split <;> rfl
      | suspended c =>
        simp only [Proc.bind]
        cases suspend host E g c m <;> rfl

/-- How far the evaluator comes with a frame before it calls itself. -/
inductive Leg where
  | closed (outcome : Except Error Completion)
  /-- The frame asked for something that was answered at once. -/
  | answered (f : Frame) (outcome : Except Error Completion)
  /-- The frame `f` asked for the frame `g`. -/
  | asked (f g : Frame)

/-- Runs the task of a frame, and begins what it asks for. -/
def leg (host : Host) (engine : Engine) (f : Frame) (o : Option (Except Error Completion)) :
    Run Leg := do
  match ← runTask engine { f with input := .waiting } o with
  | (.ok (.suspended c), f) =>
    match ← request host engine f c with
    | .inl outcome => return .answered f outcome
    | .inr g => return .asked f g
  | (.ok (.finished c), f) => return .closed (← f.exit (.ok c))
  | (.error e, f) => return .closed (← f.exit (.error e))

/-- How the evaluator goes on from there. -/
def Evaluator.follow (v : Evaluator) : Leg → Run (Except Error Completion)
  | .closed outcome => return outcome
  | .answered f outcome => v.run f (some outcome)
  | .asked f g => do
    let outcome ← v.run g none
    v.run f (some outcome)

theorem Evaluator.advance_eq_leg (v : Evaluator) (f : Frame) (o : Option (Except Error Completion)) :
    v.advance host f o = (leg host v.engine f o >>= v.follow) := by
  unfold advance leg child
  simp only [bind_assoc]
  refine bind_congr fun r => ?_
  obtain ⟨r, g⟩ := r
  cases r with
  | error e => rfl
  | ok step =>
    cases step with
    | finished c => rfl
    | suspended c =>
      simp only [bind_assoc]
      refine bind_congr fun answer => ?_
      cases answer <;> rfl

/-- One boundary of a frame above `s` and the same leg of the evaluator, in a machine with frames `t`. -/
inductive Matched (L R : Prop) (a : Option Active) (s t : Stack Frame) :
    Outcome Machine (Option (Except Error Completion)) → Outcome Machine Leg → Prop where
  | closed {o : Except Error Completion} {x : Machine} (ha : x.active = a) :
      Matched L R a s t (.done (some o) { x with frames := s }) (.done (.closed o) { x with frames := t })
  | answered {f : Frame} {o : Except Error Completion} {x : Machine} (ha : x.active = a) :
      Matched L R a s t (.done none { x with frames := s.push (f.fed (some o)) })
        (.done (.answered f o) { x with frames := t })
  | asked {f g : Frame} {x : Machine} (ha : x.active = a) :
      Matched L R a s t (.done none { x with frames := (s.push f).push (g.fed none) })
        (.done (.asked f g) { x with frames := t })
  | stalled : Matched L R a s t .stalled .stalled
  | left {o : Outcome Machine Leg} (h : L) : Matched L R a s t .stalled o
  | right {o : Outcome Machine (Option (Except Error Completion))} (h : R) :
      Matched L R a s t o .stalled

/-- **One boundary on the stack is one leg of the evaluator.** -/
theorem lap_matched (hhost : host.Reentrant) (h : Engine.Tracks L R E₁ E₂) (f : Frame)
    (o : Option (Except Error Completion)) (m : Machine) (s t : Stack Frame) :
    Matched L R m.active s t (lap host E₁ (f.fed o) { m with frames := s })
      (leg host E₂ f o { m with frames := t }) := by
  have htask := runTask_tracked m s t h { f with input := .waiting } o
  have closes : ∀ (o : Except Error Completion) (u u' : Task) (x : Machine), x.active = m.active →
      Matched L R m.active s t
        (.done (some o) (Machine.leave { x with frames := s } { f with task := u, input := .waiting } o))
        (.done (.closed o)
          (Machine.leave { x with frames := t } { f with task := u', input := .waiting } o)) := by
    intro o u u' x ha
    rw [x.leave_withFrames _ o s, x.leave_withFrames _ o t]
    exact .closed ((x.active_leave f o).trans ha)
  unfold lap leg
  simp only [Bind.bind, Proc.bind, feed_fed]
  generalize runTask E₁ { f with input := .waiting } o { m with frames := s } = x,
    runTask E₂ { f with input := .waiting } o { m with frames := t } = y at htask
  cases htask with
  | stalled => exact .stalled
  | left h => exact .left h
  | right h => exact .right h
  | @finished c u u' x ha => exact closes (.ok c) u u' x ha
  | @failed e u u' x ha => exact closes (.error e) u u' x ha
  | @suspended c u x ha =>
    generalize ({ f with task := u, input := .waiting } : Frame) = g
    have hrequest := request_tracked hhost h g c x (s.push g) t
    simp only [Proc.bind, suspend_eq_request]
    generalize hy : request host E₁ g c { x with frames := s.push g } = y,
      request host E₂ g c { x with frames := t } = z at hrequest
    rw [ha] at hrequest
    cases hrequest with
    | failed _ => exact absurd hy (unfailing_request g c _ _ _)
    | stalled => exact .stalled
    | left h => exact .left h
    | right h => exact .right h
    | @done answer y hactive =>
      cases answer with
      | inl o => exact .answered (x := y) hactive
      | inr g' => exact .asked (x := y) hactive

/-! ### Runs over many boundaries -/

/-- The frames above `base` run over `b` boundaries, none of which collects garbage, until the lowest of
them closes. -/
inductive Runs (host : Host) (engine : Engine) (base : Nat) :
    Nat → Machine → Except Error Completion → Machine → Prop where
  | last {m m' : Machine} {s : Stack Frame} {f : Frame} {i : Option (Except Error Completion)}
      {o : Except Error Completion} (hm : m.frames = s.push (f.fed i))
      (hlap : lap host engine (f.fed i) { m with frames := s } = .done (some o) m')
      (hbase : m'.frames.size = base) : Runs host engine base 1 m o m'
  | close {b : Nat} {m m₁ m' : Machine} {s : Stack Frame} {f : Frame}
      {i : Option (Except Error Completion)} {o o₁ : Except Error Completion}
      (hm : m.frames = s.push (f.fed i))
      (hlap : lap host engine (f.fed i) { m with frames := s } = .done (some o₁) m₁)
      (hbase : base < m₁.frames.size) (hrest : Runs host engine base b (m₁.deliver o₁) o m') :
      Runs host engine base (b + 1) m o m'
  | go {b : Nat} {m m₁ m' : Machine} {s : Stack Frame} {f : Frame}
      {i : Option (Except Error Completion)} {o : Except Error Completion}
      (hm : m.frames = s.push (f.fed i))
      (hlap : lap host engine (f.fed i) { m with frames := s } = .done none m₁)
      (hrest : Runs host engine base b m₁ o m') : Runs host engine base (b + 1) m o m'

namespace Runs

variable {b : Nat} {m m' : Machine} {o : Except Error Completion}

/-- The first boundary of a run. -/
theorem first {s : Stack Frame} {f : Frame} {i : Option (Except Error Completion)}
    (h : Runs host E base b m o m') (hm : m.frames = s.push (f.fed i)) :
    ∃ b₀, b = b₀ + 1 ∧
      ((lap host E (f.fed i) { m with frames := s } = .done (some o) m' ∧ m'.frames.size = base) ∨
      (∃ o₁ m₁, lap host E (f.fed i) { m with frames := s } = .done (some o₁) m₁ ∧
        base < m₁.frames.size ∧ Runs host E base b₀ (m₁.deliver o₁) o m') ∨
      (∃ m₁, lap host E (f.fed i) { m with frames := s } = .done none m₁ ∧
        Runs host E base b₀ m₁ o m')) := by
  cases h with
  | last hm' hlap hbase =>
    obtain ⟨rfl, hf⟩ := Stack.push_inj (hm.symm.trans hm')
    exact ⟨0, rfl, .inl ⟨hf ▸ hlap, hbase⟩⟩
  | @close b _ m₁ _ _ _ _ _ o₁ hm' hlap hbase hrest =>
    obtain ⟨rfl, hf⟩ := Stack.push_inj (hm.symm.trans hm')
    exact ⟨b, rfl, .inr (.inl ⟨o₁, m₁, hf ▸ hlap, hbase, hrest⟩)⟩
  | @go b _ m₁ _ _ _ _ _ hm' hlap hrest =>
    obtain ⟨rfl, hf⟩ := Stack.push_inj (hm.symm.trans hm')
    exact ⟨b, rfl, .inr (.inr ⟨m₁, hf ▸ hlap, hrest⟩)⟩

/-- **Two runs on top of each other**: what the upper one ends with is delivered to the frame below it. -/
theorem join {b₁ b₂ : Nat} {m₁ : Machine} {o₁ : Except Error Completion}
    (h₁ : Runs host E (base + 1) b₁ m o₁ m₁) (h₂ : Runs host E base b₂ (m₁.deliver o₁) o m') :
    Runs host E base (b₁ + b₂) m o m' := by
  induction h₁ with
  | last hm hlap hbase =>
    rw [Nat.add_comm]
    exact .close hm hlap (by omega) h₂
  | close hm hlap hbase _ ih =>
    rw [Nat.add_right_comm]
    exact .close hm hlap (by omega) (ih h₂)
  | go hm hlap _ ih =>
    rw [Nat.add_right_comm]
    exact .go hm hlap (ih h₂)

/-- **A run with two frames above `base` is two runs**: the upper frame's, and what follows it. -/
theorem split (hhost : host.Reentrant) (hE : Engine.Tracks True False E E₂)
    (h : Runs host E base b m o m') (hm : base + 1 < m.frames.size) :
    ∃ b₁ b₂ o₁ m₁, b₁ + b₂ = b ∧ Runs host E (base + 1) b₁ m o₁ m₁ ∧
      Runs host E base b₂ (m₁.deliver o₁) o m' := by
  induction h with
  | @last m m' s f i o hframes hlap hbase =>
    have hmatched := lap_matched hhost hE f i m s s
    rw [hlap] at hmatched
    rw [hframes, Stack.size_push] at hm
    generalize leg host E₂ f i _ = y at hmatched
    cases hmatched with
    | closed ha =>
      dsimp only at hbase
      omega
    | right h => exact h.elim
  | @close b m m₁ m' s f i o o₁ hframes hlap hbase hrest ih =>
    have hmatched := lap_matched hhost hE f i m s s
    rw [hlap] at hmatched
    rw [hframes, Stack.size_push] at hm
    generalize leg host E₂ f i _ = y at hmatched
    cases hmatched with
    | closed ha =>
      by_cases hs : s.size = base + 1
      · exact ⟨1, b, o₁, _, Nat.add_comm 1 b, .last hframes hlap hs, hrest⟩
      · have hlt : base + 1 < s.size := by omega
        obtain ⟨b₁, b₂, o₂, m₂, rfl, h₁, h₂⟩ := ih hlt
        exact ⟨b₁ + 1, b₂, o₂, m₂, by omega, .close hframes hlap hlt h₁, h₂⟩
    | right h => exact h.elim
  | @go b m m₁ m' s f i o hframes hlap hrest ih =>
    have hmatched := lap_matched hhost hE f i m s s
    rw [hlap] at hmatched
    rw [hframes, Stack.size_push] at hm
    generalize leg host E₂ f i _ = y at hmatched
    have hlt : base + 1 < m₁.frames.size := by
      cases hmatched with
      | answered ha => exact hm
      | asked ha => exact Nat.lt_succ_of_lt hm
      | right h => exact h.elim
    obtain ⟨b₁, b₂, o₂, m₂, rfl, h₁, h₂⟩ := ih hlt
    exact ⟨b₁ + 1, b₂, o₂, m₂, by omega, .go hframes hlap h₁, h₂⟩

end Runs

/-! ### Drives without collections -/

/-- Garbage is collected at the next boundary. -/
def Machine.collectionDue (m : Machine) : Bool := m.active.isNone && m.heap.needsCollection

theorem Machine.collectionDue_of_active {m : Machine} {a : Active} (h : m.active = some a) :
    m.collectionDue = false := by
  unfold Machine.collectionDue
  rw [h]
  rfl

theorem Machine.collected_of_not_due {m : Machine} (h : m.collectionDue = false) : m.collected = m := by
  unfold Machine.collected
  rw [show (m.active.isNone && m.heap.needsCollection) = false from h]
  rfl

/-- A drive of the frames above `base` passes from one machine to another. -/
inductive Passes (host : Host) (engine : Engine) (base : Nat) : Machine → Machine → Prop where
  | here {m : Machine} : Passes host engine base m m
  | on {m m₁ m' : Machine} (hgoing : advance host engine base m = .done .going m₁)
      (hrest : Passes host engine base m₁ m') : Passes host engine base m m'

/-- **No boundary of the drive collects garbage.** -/
def Undisturbed (host : Host) (engine : Engine) (base : Nat) (m : Machine) : Prop :=
  ∀ m', Passes host engine base m m' → m'.collectionDue = false

/-- The innermost frame has been given what it waits for, and the frames of `below` are beneath it. -/
def Ready (below : Stack Frame) (m : Machine) : Prop :=
  ∃ (s : Stack Frame) (f : Frame) (i : Option (Except Error Completion)),
    m.frames = s.push (f.fed i) ∧ below.Beneath s

namespace Ready

variable {m : Machine}

theorem le_size {s : Stack Frame} {f : Frame} (h : Ready below m) (hm : m.frames = s.push f) :
    below.size ≤ s.size := by
  obtain ⟨s', f', i, hm', hbelow⟩ := h
  obtain ⟨rfl, -⟩ := Stack.push_inj (hm.symm.trans hm')
  exact hbelow.size_le

theorem beneath (h : Ready below m) : below.Beneath m.frames := by
  obtain ⟨s, f, i, hm, hbelow⟩ := h
  rw [hm]
  exact hbelow.push _

theorem deliver (hbelow : below.Beneath m.frames) (h : below.size < m.frames.size)
    (o : Except Error Completion) : Ready below (m.deliver o) := by
  obtain ⟨heap, realm, monitor, ⟨items, size, rfl⟩, active, observed, console⟩ := m
  cases items with
  | nil => exact absurd h (Nat.not_lt_zero _)
  | cons f rest =>
    refine ⟨⟨rest, rest.length, rfl⟩, f, some o, Stack.ext rfl, ?_⟩
    obtain heq | hsuffix := List.suffix_cons_iff.mp hbelow
    · rw [below.size_eq, heq] at h
      exact absurd h (Nat.lt_irrefl _)
    · exact hsuffix

end Ready

/-- A boundary that collects nothing is a lap of the innermost frame. -/
theorem advance_eq_lap {m : Machine} {s : Stack Frame} {f : Frame} (hm : m.frames = s.push f)
    (hbase : base ≤ s.size) (hdue : m.collectionDue = false) :
    advance host E base m =
      match lap host E f { m with frames := s } with
      | .done (some o) m =>
        if m.frames.size = base then .done (.finished o) m else .done .going (m.deliver o)
      | .done none m => .done .going m
      | .failed e m => .failed e m
      | .stalled => .stalled := by
  rw [advance_eq_turn hm hbase, Machine.collected_of_not_due hdue, turn_eq_lap]

/-- What a drive goes on from is ready again, with the same frames below. -/
theorem Ready.advance_going (hhost : host.Reentrant) (hE : Engine.Tracks True False E E₂)
    {m m₁ : Machine} (h : Ready below m) (hdue : m.collectionDue = false)
    (hgoing : advance host E below.size m = .done .going m₁) :
    Ready below m₁ ∧ m₁.active = m.active := by
  obtain ⟨s, f, i, hm, hbelow⟩ := h
  have hbase : below.size ≤ s.size := s.size_eq ▸ hbelow.size_le
  rw [advance_eq_lap hm hbase hdue] at hgoing
  have hmatched := lap_matched hhost hE f i m s s
  generalize lap host E (f.fed i) { m with frames := s } = x, leg host E₂ f i _ = y at hgoing hmatched
  cases hmatched with
  | @closed o x ha =>
    dsimp only at hgoing
    split at hgoing
    · cases hgoing
    · cases hgoing
      exact ⟨.deliver hbelow (Nat.lt_of_le_of_ne hbase (Ne.symm ‹_›)) o, ha⟩
  | answered ha =>
    cases hgoing
    exact ⟨⟨s, _, _, rfl, hbelow⟩, ha⟩
  | asked ha =>
    cases hgoing
    exact ⟨⟨_, _, none, rfl, hbelow.push _⟩, ha⟩
  | stalled => cases hgoing
  | left => cases hgoing
  | right h => exact h.elim

theorem Undisturbed.on {m m₁ : Machine} (h : Undisturbed host E base m)
    (hgoing : advance host E base m = .done .going m₁) : Undisturbed host E base m₁ :=
  fun m' hm' => h m' (.on hgoing hm')

/-- **Nothing is collected inside a running task.** -/
theorem Undisturbed.of_active (hhost : host.Reentrant) (hE : Engine.Tracks True False E E₂) {m : Machine}
    {a : Active} (hready : Ready below m) (ha : m.active = some a) :
    Undisturbed host E below.size m := by
  intro m' hm'
  induction hm' with
  | here => exact Machine.collectionDue_of_active ha
  | on hgoing _ ih =>
    obtain ⟨hready, hactive⟩ :=
      hready.advance_going hhost hE (Machine.collectionDue_of_active ha) hgoing
    exact ih hready (hactive.trans ha)

/-- A drive that ends is a run. -/
theorem Runs.of_drive (hhost : host.Reentrant) (hE : Engine.Tracks True False E E₂) {b : Nat}
    {m m' : Machine} {o : Except Error Completion} (hready : Ready below m)
    (hquiet : Undisturbed host E below.size m) (h : drive host E below.size b m = ending id o m') :
    ∃ b' ≤ b, Runs host E below.size b' m o m' := by
  induction b generalizing m with
  | zero => exact absurd h.symm ending_ne_stalled
  | succ b ih =>
    have hdue := hquiet m .here
    have next : ∀ m₁, advance host E below.size m = .done .going m₁ →
        ∃ b' ≤ b, Runs host E below.size b' m₁ o m' := by
      intro m₁ hgoing
      rw [drive_succ, hgoing] at h
      exact ih (hready.advance_going hhost hE hdue hgoing).1 (hquiet.on hgoing) h
    obtain ⟨s, f, i, hm, hbelow⟩ := hready
    have hbase : below.size ≤ s.size := s.size_eq ▸ hbelow.size_le
    have hadvance : advance host E below.size m = _ := advance_eq_lap hm hbase hdue
    have hmatched := lap_matched hhost hE f i m s s
    generalize hlap : lap host E (f.fed i) { m with frames := s } = x, leg host E₂ f i _ = y
      at hadvance hmatched
    cases hmatched with
    | @closed o₁ x ha =>
      by_cases hs : s.size = below.size
      · simp only [hs, if_true] at hadvance
        rw [drive_succ, hadvance] at h
        obtain ⟨rfl, rfl⟩ := ending_inj h
        exact ⟨1, by omega, .last hm hlap hs⟩
      · simp only [hs, if_false] at hadvance
        obtain ⟨b', hb, hrest⟩ := next _ hadvance
        exact ⟨b' + 1, by omega, .close hm hlap (Nat.lt_of_le_of_ne hbase (Ne.symm hs)) hrest⟩
    | answered ha =>
      obtain ⟨b', hb, hrest⟩ := next _ hadvance
      exact ⟨b' + 1, by omega, .go hm hlap hrest⟩
    | asked ha =>
      obtain ⟨b', hb, hrest⟩ := next _ hadvance
      exact ⟨b' + 1, by omega, .go hm hlap hrest⟩
    | stalled | left =>
      rw [drive_succ, hadvance] at h
      exact absurd h.symm ending_ne_stalled
    | right h => exact h.elim

/-- A run is a drive that ends, if the bound allows for it. -/
theorem Runs.drive_eq (hhost : host.Reentrant) (hE : Engine.Tracks True False E E₂) {b b' : Nat}
    {m m' : Machine} {o : Except Error Completion} (h : Runs host E below.size b' m o m')
    (hready : Ready below m) (hquiet : Undisturbed host E below.size m) (hb : b' ≤ b) :
    drive host E below.size b m = ending id o m' := by
  induction h generalizing b with
  | @last m m' s f i o hm hlap hbase =>
    obtain ⟨b, rfl⟩ := Nat.exists_eq_add_of_le' hb
    have hadvance : advance host E below.size m = _ :=
      advance_eq_lap hm (hready.le_size hm) (hquiet m .here)
    simp only [hlap, hbase, if_true] at hadvance
    rw [drive_succ, hadvance]
    rfl
  | @close b' m m₁ m' s f i o o₁ hm hlap hbase hrest ih =>
    obtain ⟨b, rfl⟩ := Nat.exists_eq_add_of_le' (Nat.le_trans (Nat.le_add_left 1 b') hb)
    have hadvance : advance host E below.size m = _ :=
      advance_eq_lap hm (hready.le_size hm) (hquiet m .here)
    simp only [hlap, Nat.ne_of_gt hbase, if_false] at hadvance
    rw [drive_succ, hadvance]
    exact ih (hready.advance_going hhost hE (hquiet m .here) hadvance).1 (hquiet.on hadvance)
      (Nat.le_of_succ_le_succ hb)
  | @go b' m m₁ m' s f i o hm hlap hrest ih =>
    obtain ⟨b, rfl⟩ := Nat.exists_eq_add_of_le' (Nat.le_trans (Nat.le_add_left 1 b') hb)
    have hadvance : advance host E below.size m = _ :=
      advance_eq_lap hm (hready.le_size hm) (hquiet m .here)
    simp only [hlap] at hadvance
    rw [drive_succ, hadvance]
    exact ih (hready.advance_going hhost hE (hquiet m .here) hadvance).1 (hquiet.on hadvance)
      (Nat.le_of_succ_le_succ hb)

/-! ### Both evaluations agree -/

theorem Host.recursion_run (n : Nat) (f : Frame) (i : Option (Except Error Completion)) :
    (host.recursion (n + 1)).run f i =
      (leg host (host.recursion n).engine f i >>= (host.recursion n).follow) :=
  (host.recursion n).advance_eq_leg f i

/-- A run of one frame is a run of the evaluator, if the bound of the evaluator is large enough. -/
theorem Runs.recursion {G : Nat} (hhost : host.Reentrant)
    (hE : ∀ j ≥ G, Engine.Tracks True False E (host.recursion j).engine) {b : Nat} {f : Frame}
    {i : Option (Except Error Completion)} {m m' : Machine} {s : Stack Frame}
    {o : Except Error Completion}
    (h : Runs host E s.size b { m with frames := s.push (f.fed i) } o m') (t : Stack Frame) {n : Nat}
    (hn : G + b ≤ n) :
    ∃ x : Machine, x.active = m.active ∧ m' = { x with frames := s } ∧
      (host.recursion n).run f i { m with frames := t } = .done o { x with frames := t } := by
  induction b using Nat.strongRecOn generalizing f i m m' s o t n with
  | ind b ih =>
  -- Both sides run the same first leg; what is left to run on the stack takes fewer boundaries.
  obtain ⟨b₀, rfl, hfirst⟩ := h.first rfl
  obtain ⟨n, rfl⟩ := Nat.exists_eq_add_of_le' (show 1 ≤ n by omega)
  have hmatched := lap_matched hhost (hE n (by omega)) f i m s t
  generalize hlap : lap host E (f.fed i) { m with frames := s } = y,
    hleg : leg host (host.recursion n).engine f i { m with frames := t } = z at hmatched hfirst
  cases hmatched with
  | @closed o₁ x ha =>
    obtain ⟨hdone, -⟩ | ⟨o₂, m₁, hdone, hbase, -⟩ | ⟨m₁, hgoing, -⟩ := hfirst
    · cases hdone
      exact ⟨x, ha, rfl, by rw [Host.recursion_run]; exact Proc.bind_done hleg _⟩
    · cases hdone
      exact absurd hbase (Nat.lt_irrefl _)
    · cases hgoing
  | @answered g o₁ x ha =>
    obtain ⟨hdone, -⟩ | ⟨o₂, m₁, hdone, -, -⟩ | ⟨m₁, hgoing, hrest⟩ := hfirst
    · cases hdone
    · cases hdone
    · cases hgoing
      obtain ⟨x', ha', hm', hrun⟩ := ih b₀ (by omega) hrest t (n := n) (by omega)
      refine ⟨x', ha'.trans ha, hm', ?_⟩
      rw [Host.recursion_run]
      exact (Proc.bind_done hleg _).trans hrun
  | @asked g c x ha =>
    obtain ⟨hdone, -⟩ | ⟨o₂, m₁, hdone, -, -⟩ | ⟨m₁, hgoing, hrest⟩ := hfirst
    · cases hdone
    · cases hdone
    · cases hgoing
      obtain ⟨b₁, b₂, o₂, m₂, rfl, h₁, h₂⟩ := hrest.split hhost (hE n (by omega)) (by simp)
      obtain ⟨x₁, ha₁, rfl, hrun₁⟩ := ih b₁ (by omega) (s := s.push g) h₁ t (n := n) (by omega)
      have hresumed : Runs host E s.size b₂ { x₁ with frames := s.push (g.fed (some o₂)) } o m' := h₂
      obtain ⟨x₂, ha₂, rfl, hrun₂⟩ := ih b₂ (by omega) hresumed t (n := n) (by omega)
      refine ⟨x₂, ha₂.trans (ha₁.trans ha), rfl, ?_⟩
      rw [Host.recursion_run]
      exact (Proc.bind_done hleg _).trans ((Proc.bind_done hrun₁ _).trans hrun₂)
  | stalled | left => obtain ⟨hdone, -⟩ | ⟨o₂, m₁, hdone, -, -⟩ | ⟨m₁, hgoing, -⟩ := hfirst <;> contradiction
  | right h => exact h.elim

/-! ### Nested runs -/

/-- Inside a running task, driving a new frame to its end does what the evaluator does with it. -/
def DrivesAs (L R : Prop) (host : Host) (engine : Engine) (bound : Nat) (v : Evaluator) : Prop :=
  ∀ (f : Frame) (m : Machine) (a : Active) (s t : Stack Frame), m.active = some a →
    Tracked L R (some a) s t
      (drive host engine s.size bound { m with frames := s.push (f.fed none) })
      ((v.run f none >>= fun outcome => Proc.ofExcept outcome : Run Completion) { m with frames := t })

theorem tracks_evaluateOn {b : Nat} {v : Evaluator} (h : DrivesAs L R host E b v) (r : BranchRequest) :
    Tracks L R (host.evaluateOn E b r) (v.evaluate host r) := by
  intro a s t m ha
  rw [evaluateOn_eq, Evaluator.evaluate_eq]
  cases host.branch r with
  | error e => exact .failed ha
  | ok task =>
    let f := Frame.fresh task r.info m.childContext.1 m.childContext.2 false
    have hopen : ({ m with frames := s } : Machine).openFrame task r.info m.childContext.1 m.childContext.2 false =
        { m.enter f with frames := s.push (f.fed none) } := by
      rw [Machine.openFrame_eq]
      exact congrArg (fun x : Machine => { x with frames := s.push (f.fed none) }) (m.enter_withFrames f s)
    have hrun := h f (m.enter f) a s t ((m.active_enter f).trans ha)
    rw [← hopen, ← m.enter_withFrames f t] at hrun
    exact hrun

theorem tracks_callOn (hhost : host.Reentrant) {b : Nat} {v : Evaluator}
    (hE : Engine.Tracks L R E v.engine) (h : DrivesAs L R host E b v) (callee receiver : Value)
    (args : List Value) :
    Tracks L R (host.callOn E b callee receiver args) (v.call host callee receiver args) := by
  intro a s t m ha
  have hcall := tracks_enterCallee hhost hE (m.callRequest callee receiver args) m.childContext.1
    m.childContext.2 a s t m ha
  have hrequest : ∀ s, Machine.callRequest { m with frames := s } callee receiver args =
      m.callRequest callee receiver args := fun _ => rfl
  have hcontext : ∀ s, Machine.childContext { m with frames := s } = m.childContext := fun _ => rfl
  rw [callOn_eq, Evaluator.call_eq]
  simp only [hrequest, hcontext]
  generalize enterCallee host E (m.callRequest callee receiver args) m.childContext.1
      m.childContext.2 { m with frames := s } = x,
    enterCallee host v.engine (m.callRequest callee receiver args) m.childContext.1
      m.childContext.2 { m with frames := t } = y at hcall
  cases hcall with
  | @done opened x hx =>
    cases opened with
    | inl v => exact .done hx
    | inr f => exact (h f x a s t hx).bind fun c => .ofExcept (completionValue c)
  | failed hx => exact .failed hx
  | stalled => exact .stalled
  | left h => exact .left h
  | right h => exact .right h

theorem Tracked.ending {a : Option Active} {s t : Stack Frame} {x : Machine} (hx : x.active = a)
    (o : Except Error Completion) : Tracked L R a s t (ending id o { x with frames := s })
      (ScriptCore.ending id o { x with frames := t }) := by
  cases o with
  | ok c => exact .done hx
  | error e => exact .failed hx

/-- A drive that ends does what the evaluator does. -/
theorem drivesAs_of_engine {G b n : Nat} (hhost : host.Reentrant)
    (hE : ∀ j ≥ G, Engine.Tracks True False E (host.recursion j).engine) (hn : G + b ≤ n) :
    DrivesAs True False host E b (host.recursion n) := by
  intro f m a s t ha
  by_cases hstalled : drive host E s.size b { m with frames := s.push (f.fed none) } = .stalled
  · rw [hstalled]
    exact .left trivial
  · obtain ⟨o, m', hdrive⟩ := exists_ending hstalled
    have hready : Ready s { m with frames := s.push (f.fed none) } :=
      ⟨s, f, none, rfl, List.suffix_refl _⟩
    have htracks := hE n (by omega)
    obtain ⟨b', hb', hruns⟩ :=
      Runs.of_drive hhost htracks hready (.of_active hhost htracks hready ha) hdrive
    obtain ⟨x, hx, rfl, hrun⟩ := hruns.recursion hhost hE t (n := n) (by omega)
    rw [hdrive, Proc.bind_done hrun, ofExcept_eq_ending]
    exact .ending (hx.trans ha) o

/-- **What the machine lets running code do, the evaluator lets it do.** -/
theorem Host.engine_tracks (hhost : host.Reentrant) (k : Nat) :
    ∃ G, ∀ j ≥ G, Engine.Tracks True False (host.engine k) (host.recursion j).engine := by
  induction k with
  | zero => exact ⟨0, fun j _ => ⟨fun _ _ _ _ _ _ => .left trivial, fun _ _ _ _ _ _ _ _ => .left trivial⟩⟩
  | succ k ih =>
    obtain ⟨G, hG⟩ := ih
    refine ⟨G + k + 1, fun j hj => ?_⟩
    obtain ⟨j, rfl⟩ := Nat.exists_eq_add_of_le' (Nat.le_trans (Nat.le_add_left 1 (G + k)) hj)
    have hdrives := drivesAs_of_engine hhost hG (Nat.le_of_succ_le_succ hj)
    exact ⟨tracks_evaluateOn hdrives, tracks_callOn hhost (hG j (by omega)) hdrives⟩

/-- What the evaluator does with a frame is a run of it, over fewer than `B` boundaries. -/
def RunsAs (host : Host) (engine : Engine) (B : Nat) (v : Evaluator) : Prop :=
  ∀ (f : Frame) (i : Option (Except Error Completion)) (m : Machine) (s t : Stack Frame),
    v.run f i { m with frames := t } = .stalled ∨
    ∃ (o : Except Error Completion) (x : Machine), x.active = m.active ∧
      v.run f i { m with frames := t } = .done o { x with frames := t } ∧
      ∃ b < B, Runs host engine s.size b { m with frames := s.push (f.fed i) } o { x with frames := s }

/-- An evaluation that ends does what driving does. -/
theorem RunsAs.drivesAs {B k : Nat} {v : Evaluator} (hhost : host.Reentrant)
    (h : RunsAs host (host.engine k) B v) (hk : B ≤ k) :
    DrivesAs False True host (host.engine k) k v := by
  intro f m a s t ha
  obtain ⟨G, hG⟩ := host.engine_tracks hhost k
  have hready : Ready s { m with frames := s.push (f.fed none) } :=
    ⟨s, f, none, rfl, List.suffix_refl _⟩
  obtain hstalled | ⟨o, x, hx, hrun, b, hb, hruns⟩ := h f none m s t
  · rw [Proc.bind_stalled hstalled]
    exact .right trivial
  · have hquiet := Undisturbed.of_active hhost (hG G (Nat.le_refl _)) hready ha
    rw [hruns.drive_eq hhost (hG G (Nat.le_refl _)) hready hquiet (by omega), Proc.bind_done hrun,
      ofExcept_eq_ending]
    exact .ending (hx.trans ha) o

/-- One more level of the recursion. -/
theorem RunsAs.succ {B n : Nat} (hhost : host.Reentrant) (h : RunsAs host E B (host.recursion n))
    (hE : Engine.Tracks False True E (host.recursion n).engine) :
    RunsAs host E (2 * B + 2) (host.recursion (n + 1)) := by
  intro f i m s t
  have hmatched := lap_matched hhost hE f i m s t
  rw [Host.recursion_run]
  generalize hlap : lap host E (f.fed i) { m with frames := s } = y,
    hleg : leg host (host.recursion n).engine f i { m with frames := t } = z at hmatched
  cases hmatched with
  | @closed o x ha =>
    exact .inr ⟨o, x, ha, Proc.bind_done hleg _, 1, by omega, .last rfl hlap rfl⟩
  | @answered g o x ha =>
    rw [Proc.bind_done hleg]
    obtain hstalled | ⟨o', x', ha', hrun, b, hb, hruns⟩ := h g (some o) x s t
    · exact .inl hstalled
    · exact .inr ⟨o', x', ha'.trans ha, hrun, b + 1, by omega, .go rfl hlap hruns⟩
  | @asked g c x ha =>
    rw [Proc.bind_done hleg]
    obtain hstalled | ⟨o₁, x₁, ha₁, hrun₁, b₁, hb₁, hruns₁⟩ := h c none x (s.push g) t
    · exact .inl (Proc.bind_stalled hstalled _)
    · obtain hstalled | ⟨o₂, x₂, ha₂, hrun₂, b₂, hb₂, hruns₂⟩ := h g (some o₁) x₁ s t
      · exact .inl ((Proc.bind_done hrun₁ _).trans hstalled)
      · exact .inr ⟨o₂, x₂, ha₂.trans (ha₁.trans ha), (Proc.bind_done hrun₁ _).trans hrun₂,
          b₁ + b₂ + 1, by omega, .go rfl hlap (hruns₁.join hruns₂)⟩
  | stalled | right => exact .inl (Proc.bind_stalled hleg _)
  | left h => exact h.elim

/-- **What the evaluator lets running code do, the machine lets it do.** -/
theorem Host.recursion_tracks (hhost : host.Reentrant) (n : Nat) :
    ∃ B, ∀ k ≥ B, Engine.Tracks False True (host.engine k) (host.recursion n).engine ∧
      RunsAs host (host.engine k) B (host.recursion n) := by
  induction n with
  | zero =>
    exact ⟨0, fun k _ => ⟨⟨fun _ _ _ _ _ _ => .right trivial, fun _ _ _ _ _ _ _ _ => .right trivial⟩,
      fun _ _ _ _ _ => .inl rfl⟩⟩
  | succ n ih =>
    obtain ⟨B, hB⟩ := ih
    refine ⟨2 * B + 2, fun k hk => ?_⟩
    obtain ⟨k, rfl⟩ := Nat.exists_eq_add_of_le' (show 1 ≤ k by omega)
    obtain ⟨hE, hruns⟩ := hB k (by omega)
    have hdrives := hruns.drivesAs hhost (by omega)
    obtain ⟨hE', hruns'⟩ := hB (k + 1) (by omega)
    exact ⟨⟨tracks_evaluateOn hdrives, tracks_callOn hhost hE hdrives⟩, hruns'.succ hhost hE'⟩

/-! ### The stack refines the recursion -/

section Opened

variable {m : Machine} {task : Task} {info : BranchInfo} {depth : Nat} {quiet isCall : Bool}

theorem Ready.openFrame (m : Machine) (task : Task) (info : BranchInfo) (depth : Nat) (quiet isCall : Bool) :
    Ready m.frames (m.openFrame task info depth quiet isCall) :=
  ⟨m.frames, .fresh task info depth quiet isCall, none, by rw [Machine.openFrame_eq], List.suffix_refl _⟩

/-- The evaluator runs the frame that the machine opened. -/
theorem Evaluator.perform_eq (v : Evaluator) (m : Machine) (task : Task) (info : BranchInfo) (depth : Nat)
    (quiet isCall : Bool) : v.perform task info depth quiet isCall m =
      v.run (.fresh task info depth quiet isCall) none
        { m.enter (.fresh task info depth quiet isCall) with frames := m.frames } := by
  rw [← m.frames_enter (.fresh task info depth quiet isCall)]
  rfl

/-- What a drive of an opened frame ends with, the evaluator ends with. -/
theorem perform_of_drive (hhost : host.Reentrant) {k b : Nat} {o : Except Error Completion} {m' : Machine}
    (hquiet : Undisturbed host (host.engine k) m.frames.size (m.openFrame task info depth quiet isCall))
    (h : drive host (host.engine k) m.frames.size b (m.openFrame task info depth quiet isCall) =
      ending id o m') :
    ∃ n, (host.recursion n).perform task info depth quiet isCall m = .done o m' := by
  obtain ⟨G, hG⟩ := host.engine_tracks hhost k
  obtain ⟨b', -, hruns⟩ := Runs.of_drive hhost (hG G (Nat.le_refl G)) (.openFrame ..) hquiet h
  rw [Machine.openFrame_eq] at hruns
  obtain ⟨x, -, rfl, hrun⟩ := hruns.recursion hhost hG m.frames (Nat.le_refl (G + b'))
  exact ⟨G + b', (Evaluator.perform_eq ..).trans hrun⟩

/-- What the evaluator ends with, a drive of the opened frame ends with; the frames below are as before. -/
theorem drive_of_perform (hhost : host.Reentrant) {n : Nat} {o : Except Error Completion} {m' : Machine}
    (hquiet : ∀ k, Undisturbed host (host.engine k) m.frames.size
      (m.openFrame task info depth quiet isCall))
    (h : (host.recursion n).perform task info depth quiet isCall m = .done o m') :
    m'.frames = m.frames ∧ ∃ k b, drive host (host.engine k) m.frames.size b
      (m.openFrame task info depth quiet isCall) = ending id o m' := by
  rw [Evaluator.perform_eq] at h
  obtain ⟨B, hB⟩ := host.recursion_tracks hhost n
  obtain ⟨-, hruns⟩ := hB B (Nat.le_refl B)
  obtain hstalled | ⟨o', x, -, hrun, b, -, hruns⟩ := hruns (.fresh task info depth quiet isCall) none
    (m.enter (.fresh task info depth quiet isCall)) m.frames m.frames
  · rw [hstalled] at h
    cases h
  · rw [hrun] at h
    cases h
    rw [← Machine.openFrame_eq] at hruns
    obtain ⟨G, hG⟩ := host.engine_tracks hhost B
    exact ⟨rfl, B, b, hruns.drive_eq hhost (hG G (Nat.le_refl G)) (.openFrame ..) (hquiet _)
      (Nat.le_refl b)⟩

/-- No boundary of a drive touches the frames below. -/
theorem Passes.beneath (hhost : host.Reentrant) (hE : Engine.Tracks True False E E₂) {m m' : Machine}
    (hready : Ready below m) (hquiet : Undisturbed host E below.size m)
    (h : Passes host E below.size m m') : below.Beneath m'.frames := by
  induction h with
  | here => exact hready.beneath
  | @on m m₁ m' hgoing _ ih =>
    exact ih (hready.advance_going hhost hE (hquiet m .here) hgoing).1 (hquiet.on hgoing)

end Opened

/-! ### Requests while suspended and while running -/

section Requests

variable {m x : Machine} {f : Frame} {c : Suspension} {o : Except Error Completion}

/-- Suspending a frame and beginning what it asks for come to the same: an answer, or a frame to run. -/
theorem suspend_matched (hhost : host.Reentrant) (h : Engine.Tracks L R E₁ E₂) (f : Frame) (c : Suspension)
    (m : Machine) :
    (∃ (o : Except Error Completion) (x : Machine),
      suspend host E₁ f c m = .done () { x with frames := m.frames.push (f.fed (some o)) } ∧
      request host E₂ f c m = .done (.inl o) { x with frames := m.frames }) ∨
    (∃ (g : Frame) (x : Machine),
      suspend host E₁ f c m = .done () { x with frames := (m.frames.push f).push (g.fed none) } ∧
      request host E₂ f c m = .done (.inr g) { x with frames := m.frames }) ∨
    (suspend host E₁ f c m = .stalled ∧ (L ∨ request host E₂ f c m = .stalled)) ∨
    (request host E₂ f c m = .stalled ∧ R) := by
  have htracked := request_tracked hhost h f c m (m.frames.push f) m.frames
  rw [suspend_eq_request]
  generalize hy : request host E₁ f c { m with frames := m.frames.push f } = y,
    request host E₂ f c m = z at htracked
  cases htracked with
  | @done answer x _ =>
    cases answer with
    | inl o => exact .inl ⟨o, x, rfl, rfl⟩
    | inr g => exact .inr (.inl ⟨g, x, rfl, rfl⟩)
  | failed _ => exact absurd hy (unfailing_request f c _ _ _)
  | stalled => exact .inr (.inr (.inl ⟨rfl, .inr rfl⟩))
  | left h => exact .inr (.inr (.inl ⟨rfl, .inl h⟩))
  | right h => exact .inr (.inr (.inr ⟨rfl, h⟩))

/-- A frame that is off the stack and is suspended on `c` receives the outcome `o`: at once, or when the
frame that was opened above it closes. The machine is given with the frame off the stack again. -/
inductive Receives (host : Host) (engine : Engine) (f : Frame) (c : Suspension) (m : Machine)
    (o : Except Error Completion) : Machine → Prop where
  | atOnce (x : Machine)
      (h : suspend host engine f c m = .done () { x with frames := m.frames.push (f.fed (some o)) }) :
      Receives host engine f c m o { x with frames := m.frames }
  | later (m₁ x : Machine) (b : Nat)
      (h : suspend host engine f c m = .done () m₁) (hsize : m.frames.size + 1 < m₁.frames.size)
      (hdrive : drive host engine (m.frames.size + 1) b m₁ =
        ending id o { x with frames := m.frames.push f }) :
      Receives host engine f c m o { x with frames := m.frames }

/-- No boundary collects garbage from when `f` is suspended on `c` until it receives the outcome. -/
def UndisturbedChild (host : Host) (f : Frame) (c : Suspension) (m : Machine) : Prop :=
  ∀ k m₁, suspend host (host.engine k) f c m = .done () m₁ →
    Undisturbed host (host.engine k) (m.frames.size + 1) m₁

theorem Machine.withFrames_inj {x y : Machine} {s : Stack Frame}
    (h : ({ x with frames := s } : Machine) = { y with frames := s }) (t : Stack Frame) :
    ({ x with frames := t } : Machine) = { y with frames := t } :=
  congrArg (fun z : Machine => { z with frames := t }) h

theorem Ready.asked (m : Machine) (f g : Frame) :
    Ready (m.frames.push f) { x with frames := (m.frames.push f).push (g.fed none) } :=
  ⟨m.frames.push f, g, none, rfl, List.suffix_refl _⟩

/-- What a suspended frame receives is the outcome of its child in the recursion. -/
theorem child_of_receives (hhost : host.Reentrant) {k : Nat} (hquiet : UndisturbedChild host f c m)
    (h : Receives host (host.engine k) f c m o x) :
    ∃ n, (host.recursion n).child host f c m = .done o x := by
  obtain ⟨G, hG⟩ := host.engine_tracks hhost k
  cases h with
  | atOnce x hsuspend =>
    refine ⟨G, ?_⟩
    obtain ⟨o', x', hs, hr⟩ | ⟨g, x', hs, -⟩ | ⟨hs, -⟩ | ⟨-, hfalse⟩ :=
      suspend_matched hhost (hG G (Nat.le_refl G)) f c m
    · injection hsuspend.symm.trans hs with _ hsame
      obtain ⟨-, hfed⟩ := Stack.push_inj (congrArg Machine.frames hsame)
      injection congrArg Frame.input hfed with ho
      rw [ho, Machine.withFrames_inj (s := m.frames.push (f.fed (some o'))) (ho ▸ hsame) m.frames]
      exact Proc.bind_done hr _
    · injection hsuspend.symm.trans hs with _ hsame
      have hsize := congrArg (fun y : Machine => y.frames.size) hsame
      simp at hsize
    · cases hs.symm.trans hsuspend
    · exact hfalse.elim
  | later m₁ x b hsuspend hsize hdrive =>
    have hquiet := hquiet k m₁ hsuspend
    have begun : ∀ j ≥ G, ∃ (g : Frame) (y : Machine),
        m₁ = { y with frames := (m.frames.push f).push (g.fed none) } ∧
        request host (host.recursion j).engine f c m = .done (.inr g) { y with frames := m.frames } := by
      intro j hj
      obtain ⟨o', x', hs, -⟩ | ⟨g, x', hs, hr⟩ | ⟨hs, -⟩ | ⟨-, hfalse⟩ := suspend_matched hhost (hG j hj) f c m
      · injection hsuspend.symm.trans hs with _ hsame
        rw [hsame] at hsize
        exact absurd hsize (Nat.lt_irrefl _)
      · injection hsuspend.symm.trans hs with _ hsame
        exact ⟨g, x', hsame, hr⟩
      · cases hs.symm.trans hsuspend
      · exact hfalse.elim
    have hready : Ready (m.frames.push f) m₁ := by
      obtain ⟨g, y, rfl, -⟩ := begun G (Nat.le_refl G)
      exact .asked m f g
    obtain ⟨b', -, hruns⟩ := Runs.of_drive hhost (hG G (Nat.le_refl G)) hready hquiet hdrive
    obtain ⟨g, y, rfl, hr⟩ := begun (G + b') (Nat.le_add_right G b')
    obtain ⟨x', -, hx, hrun⟩ := hruns.recursion hhost hG m.frames (Nat.le_refl (G + b'))
    refine ⟨G + b', ?_⟩
    rw [Machine.withFrames_inj hx m.frames]
    exact (Proc.bind_done hr _).trans hrun

/-- The outcome of a child in the recursion is what the suspended frame receives. -/
theorem receives_of_child (hhost : host.Reentrant) {n : Nat} (hquiet : UndisturbedChild host f c m)
    (h : (host.recursion n).child host f c m = .done o x) :
    ∃ k, Receives host (host.engine k) f c m o x := by
  obtain ⟨B, hB⟩ := host.recursion_tracks hhost n
  obtain ⟨hE, hruns⟩ := hB B (Nat.le_refl B)
  refine ⟨B, ?_⟩
  obtain ⟨o', x', hs, hr⟩ | ⟨g, x', hs, hr⟩ | ⟨-, hfalse | hr⟩ | ⟨hr, -⟩ := suspend_matched hhost hE f c m
  · cases (Proc.bind_done hr _).symm.trans h
    exact .atOnce x' hs
  · have hrun := (Proc.bind_done hr _).symm.trans h
    obtain hstalled | ⟨o', y, -, hrun', b, -, hruns⟩ := hruns g none x' (m.frames.push f) m.frames
    · cases hstalled.symm.trans hrun
    · cases hrun'.symm.trans hrun
      obtain ⟨G, hG⟩ := host.engine_tracks hhost B
      have hdrive := hruns.drive_eq hhost (hG G (Nat.le_refl G)) (.asked m f g) (hquiet _ _ hs)
        (Nat.le_refl b)
      exact .later _ y b hs (by simp) hdrive
  · exact hfalse.elim
  · cases (Proc.bind_stalled hr _).symm.trans h
  · cases (Proc.bind_stalled hr _).symm.trans h

/-- What running code does on engines that track each other. -/
theorem Tracks.running_attempt {α : Type} {p q : Run α} (h : Tracks L R p q) (a : Active) (m : Machine) :
    running a p.attempt m = running a q.attempt m ∨ (L ∧ running a p.attempt m = .stalled) ∨
      (R ∧ running a q.attempt m = .stalled) := by
  have htracked := h a m.frames m.frames { m with active := some a } rfl
  dsimp only at htracked
  simp only [running_eq, Proc.attempt]
  generalize p { m with active := some a } = x, q { m with active := some a } = y at htracked
  cases htracked with
  | done _ => exact .inl rfl
  | failed _ => exact .inl rfl
  | stalled => exact .inl rfl
  | left h => exact .inr (.inl ⟨h, rfl⟩)
  | right h => exact .inr (.inr ⟨h, rfl⟩)

/-- **What ends on the machine ends in the recursion, and the other way round**, if the engines track each
other that way. -/
theorem exists_running_iff {α : Type} {p q : Nat → Run α}
    (hpq : ∀ k, ∃ n, Tracks True False (p k) (q n)) (hqp : ∀ n, ∃ k, Tracks False True (p k) (q n))
    (a : Active) (m : Machine) (r : Except Error α) (x : Machine) :
    (∃ k, running a (p k).attempt m = .done r x) ↔ ∃ n, running a (q n).attempt m = .done r x := by
  constructor
  · rintro ⟨k, hk⟩
    obtain ⟨n, hn⟩ := hpq k
    obtain heq | ⟨-, hstalled⟩ | ⟨hfalse, -⟩ := hn.running_attempt a m
    · exact ⟨n, heq.symm.trans hk⟩
    · cases hstalled.symm.trans hk
    · exact hfalse.elim
  · rintro ⟨n, hn⟩
    obtain ⟨k, hk⟩ := hqp n
    obtain heq | ⟨hfalse, -⟩ | ⟨-, hstalled⟩ := hk.running_attempt a m
    · exact ⟨k, heq.trans hn⟩
    · exact hfalse.elim
    · cases hstalled.symm.trans hn

/-- A branch that running code evaluates ends as the child of a frame that is suspended on it. -/
theorem evaluate_iff_child (hhost : host.Reentrant) (r : BranchRequest) (f : Frame) (m : Machine)
    (o : Except Error Completion) (x : Machine) :
    (∃ k, running ⟨f.depth, f.quiet⟩ ((host.engine k).evaluate r).attempt m = .done o x) ↔
      ∃ n, (host.recursion n).child host f (.branch r) m = .done o x := by
  have hchild : ∀ n, (host.recursion n).child host f (.branch r) m =
      running ⟨f.depth, f.quiet⟩ ((host.recursion n).evaluate host r).attempt m := fun n =>
    congrArg (fun p : Run (Except Error Completion) => p m)
      (Evaluator.child_branch (host.unlocated_recursion n) (host.unfailing_recursion n) f r)
  simp only [hchild]
  refine exists_running_iff (fun k => ?_) (fun n => ?_) _ m o x
  · obtain ⟨G, hG⟩ := host.engine_tracks hhost k
    exact ⟨G, (hG (G + 1) (Nat.le_succ G)).evaluate r⟩
  · obtain ⟨B, hB⟩ := host.recursion_tracks hhost (n + 1)
    exact ⟨B, (hB B (Nat.le_refl B)).1.evaluate r⟩

/-- A value that running code calls ends as the child of a frame that is suspended on the call. -/
theorem call_iff_child (hhost : host.Reentrant) (callee receiver : Value) (args : List Value) (f : Frame)
    (m : Machine) (v : Except Error Value) (x : Machine) :
    (∃ k, running ⟨f.depth, f.quiet⟩ ((host.engine k).call callee receiver args).attempt m = .done v x) ↔
      ∃ n o, (host.recursion n).child host f (.call (m.callRequest callee receiver args)) m = .done o x ∧
        v = o >>= completionValue := by
  have hchild : ∀ n, (∃ o, (host.recursion n).child host f (.call (m.callRequest callee receiver args)) m =
      .done o x ∧ v = o >>= completionValue) ↔
      running ⟨f.depth, f.quiet⟩ ((host.recursion n).call host callee receiver args).attempt m =
        .done v x := by
    intro n
    rw [← Evaluator.child_call (host.unlocated_recursion n) (host.unfailing_recursion n)]
    have hfail : ((host.recursion n).child host f
        (.call (m.callRequest callee receiver args))).Unfailing :=
      Evaluator.unfailing_child (host.unfailing_recursion n) f _
    simp only [Bind.bind, Proc.bind]
    cases hc : (host.recursion n).child host f (.call (m.callRequest callee receiver args)) m with
    | done o y =>
      constructor
      · rintro ⟨_, hsame, rfl⟩
        cases hsame
        rfl
      · intro h
        cases h
        exact ⟨o, rfl, rfl⟩
    | failed e y => exact absurd hc (hfail m e y)
    | stalled =>
      constructor
      · rintro ⟨_, hsame, -⟩
        cases hsame
      · intro h
        cases h
  rw [exists_congr hchild]
  refine exists_running_iff (fun k => ?_) (fun n => ?_) _ m v x
  · obtain ⟨G, hG⟩ := host.engine_tracks hhost k
    exact ⟨G, (hG (G + 1) (Nat.le_succ G)).call callee receiver args⟩
  · obtain ⟨B, hB⟩ := host.recursion_tracks hhost (n + 1)
    exact ⟨B, (hB B (Nat.le_refl B)).1.call callee receiver args⟩

end Requests

/-! ### The main result -/

/-- **The stack of frames refines structural recursion.** Take any machine, whatever its frames, and any
task, and suppose that no boundary collects garbage.

* Opening a frame for the task and driving the machine down to where it was ends with an outcome and a
  machine exactly if the recursive evaluation of the task does, and the frames of that machine are the
  frames of the first one.
* No boundary on the way touches the frames below.
* A frame that is suspended on a branch or on a call receives the outcome that its task gets when it has
  the same branch evaluated, or the same value called, while it runs. -/
theorem drive_refines_recursion (hhost : host.Reentrant) (m : Machine) (task : Task) (info : BranchInfo)
    (depth : Nat) (quiet isCall : Bool)
    (hquiet : ∀ k, Undisturbed host (host.engine k) m.frames.size
      (m.openFrame task info depth quiet isCall)) :
    (∀ o m', (∃ k b, drive host (host.engine k) m.frames.size b
        (m.openFrame task info depth quiet isCall) = ending id o m') ↔
      ∃ n, (host.recursion n).perform task info depth quiet isCall m = .done o m') ∧
    (∀ k b o m', drive host (host.engine k) m.frames.size b (m.openFrame task info depth quiet isCall) =
      ending id o m' → m'.frames = m.frames) ∧
    (∀ k m', Passes host (host.engine k) m.frames.size (m.openFrame task info depth quiet isCall) m' →
      m.frames.Beneath m'.frames) ∧
    (∀ f r o x, UndisturbedChild host f (.branch r) m →
      ((∃ k, Receives host (host.engine k) f (.branch r) m o x) ↔
        ∃ k, running ⟨f.depth, f.quiet⟩ ((host.engine k).evaluate r).attempt m = .done o x)) ∧
    (∀ f callee receiver args v x,
      UndisturbedChild host f (.call (m.callRequest callee receiver args)) m →
      ((∃ k o, Receives host (host.engine k) f (.call (m.callRequest callee receiver args)) m o x ∧
          v = o >>= completionValue) ↔
        ∃ k, running ⟨f.depth, f.quiet⟩ ((host.engine k).call callee receiver args).attempt m =
          .done v x)) := by
  refine ⟨fun o m' => ⟨?_, ?_⟩, ?_, ?_, ?_, ?_⟩
  · rintro ⟨k, b, h⟩
    exact perform_of_drive hhost (hquiet k) h
  · rintro ⟨n, h⟩
    exact (drive_of_perform hhost hquiet h).2
  · intro k b o m' h
    obtain ⟨n, hn⟩ := perform_of_drive hhost (hquiet k) h
    exact (drive_of_perform hhost hquiet hn).1
  · intro k m' h
    obtain ⟨G, hG⟩ := host.engine_tracks hhost k
    exact h.beneath hhost (hG G (Nat.le_refl G)) (.openFrame ..) (hquiet k)
  · intro f r o x hchild
    rw [evaluate_iff_child hhost]
    exact ⟨fun ⟨_, h⟩ => child_of_receives hhost hchild h, fun ⟨_, h⟩ => receives_of_child hhost hchild h⟩
  · intro f callee receiver args v x hchild
    rw [call_iff_child hhost]
    constructor
    · rintro ⟨k, o, h, hv⟩
      obtain ⟨n, hn⟩ := child_of_receives hhost hchild h
      exact ⟨n, o, hn, hv⟩
    · rintro ⟨n, o, h, hv⟩
      obtain ⟨k, hk⟩ := receives_of_child hhost hchild h
      exact ⟨k, o, hk, hv⟩

/-- A host whose native functions call their first argument. -/
def applyingHost : Host where
  branch r := .ok (Task.ofRequest r)
  native _ engine _ args := Natives.apply engine args

theorem applyingHost_reentrant : applyingHost.Reentrant := fun _ _ _ _ h _ _ _ => h.call _ _ _

/-- The task of a program that calls a closure. -/
def callingTask (scope : ScopeRef) : Task :=
  .ofRequest (.program [.expr (.call (.function ⟨none, [], .expression .null, false, true, false⟩) [])] scope)

/-- Inside a running task, the program runs on the stack to an end that the recursion comes to as well. -/
theorem drive_refines_recursion_call : ∃ (m : Machine) (o : Except Error Completion) (m' : Machine),
    m.active = some ⟨0, false⟩ ∧
    drive applyingHost (applyingHost.engine 30) m.frames.size 30
      (m.openFrame (callingTask m.realm.globalScope) ⟨.program, {}⟩ 1 false false) = ending id o m' ∧
    ∃ n, (applyingHost.recursion n).perform (callingTask m.realm.globalScope) ⟨.program, {}⟩ 1 false false m =
      .done o m' := by
  have hruns : (match Machine.create .standard {} 0 true with
      | .ok m =>
        match drive applyingHost (applyingHost.engine 30) m.frames.size 30
          (({ m with active := some ⟨0, false⟩ } : Machine).openFrame (callingTask m.realm.globalScope)
            ⟨.program, {}⟩ 1 false false) with
        | .stalled => false
        | _ => true
      | .error _ => false) = true := by decide +kernel
  cases hm : Machine.create .standard {} 0 true with
  | error e => rw [hm] at hruns; cases hruns
  | ok m =>
    rw [hm] at hruns
    dsimp only at hruns
    generalize hx : ({ m with active := some ⟨0, false⟩ } : Machine) = x at hruns
    have hactive : x.active = some ⟨0, false⟩ := by rw [← hx]
    obtain ⟨o, m', hdrive⟩ := exists_ending (x := drive applyingHost (applyingHost.engine 30) x.frames.size 30
        (x.openFrame (callingTask x.realm.globalScope) ⟨.program, {}⟩ 1 false false)) (by
      intro hstalled
      rw [← hx] at hruns hstalled
      rw [hstalled] at hruns
      cases hruns)
    have hquiet : ∀ k, Undisturbed applyingHost (applyingHost.engine k) x.frames.size
        (x.openFrame (callingTask x.realm.globalScope) ⟨.program, {}⟩ 1 false false) := by
      intro k
      obtain ⟨G, hG⟩ := applyingHost.engine_tracks applyingHost_reentrant k
      exact .of_active applyingHost_reentrant (hG G (Nat.le_refl G)) (.openFrame ..)
        ((x.active_openFrame ..).trans hactive)
    exact ⟨x, o, m', hactive, hdrive,
      ((drive_refines_recursion applyingHost_reentrant x _ _ _ _ _ hquiet).1 o m').mp ⟨30, 30, hdrive⟩⟩

end ScriptCore
