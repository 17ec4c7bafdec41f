import ScriptCore.Proofs.Drive.Unwinding

/-! # Fuel

A program that no deadline and no interrupt stops takes the same way with every amount of fuel, for as long
as there is any: fuel is looked at nowhere but where a boundary is accounted for. What a run spends is the
number of boundaries that it accounts for, those of the runs inside it included; with less, it is stopped and
unwinds.

* `Metered`: a run spends a certain amount of fuel, ends alike with every amount that suffices, and runs out of
  less.
* `Metered.andThen`: what one run spends adds up with what the next does.
* `drive_meters`, `Host.engine_meters`: **every run is metered.**
* `Reached.fuel_exact`: how a run depends on its fuel. -/

namespace ScriptCore

variable {α β : Type} {E : Engine} {host : Host} {base : Nat} {m : Machine} {a : Option Active}
  {s : Stack Frame} {l : Monitor} {start : UInt64}

/-! ### Machines with other fuel -/

namespace Machine

/-- The machine with another amount of fuel, unlimited if it is missing. -/
def withFuel (m : Machine) (n : Option Nat) : Machine :=
  { m with monitor := { m.monitor with budget := { m.monitor.budget with fuel := n } } }

variable (m) (n : Option Nat)

theorem collected_withFuel : (m.withFuel n).collected = m.collected.withFuel n := by
  unfold collected
  show (if (m.active.isNone && m.heap.needsCollection) = true then _ else _) = _
  split <;> rfl

theorem openFrame_withFuel (task : Task) (info : BranchInfo) (depth : Nat) (quiet isCall : Bool) :
    (m.withFuel n).openFrame task info depth quiet isCall =
      (m.openFrame task info depth quiet isCall).withFuel n := by
  unfold openFrame
  cases quiet || info.options.isQuiet <;> rfl

theorem opened_withFuel (o : Opening) (depth : Nat) (quiet : Bool) :
    (m.withFuel n).opened o depth quiet = (m.opened o depth quiet).withFuel n :=
  openFrame_withFuel { m with monitor := { m.monitor with calls := o.calls } } n ..

theorem leave_withFuel (f : Frame) (o : Except Error Completion) :
    (m.withFuel n).leave f o = (m.leave f o).withFuel n := by
  unfold leave
  cases f.isCall <;> cases f.quiet <;> rfl

theorem callRequest_withFuel (callee receiver : Value) (args : List Value) :
    (m.withFuel n).callRequest callee receiver args = m.callRequest callee receiver args := rfl

theorem requestedCall_withFuel (r : CallRequest) : (m.withFuel n).requestedCall r = m.requestedCall r := rfl

theorem requested_withFuel (host : Host) (c : Suspension) :
    (m.withFuel n).requested host c = m.requested host c := by
  cases c <;> rfl

theorem suspended_withFuel (host : Host) (f : Frame) (c : Suspension) :
    (m.withFuel n).suspended host f c = (m.suspended host f c).withFuel n := by
  unfold suspended
  rw [requested_withFuel]
  cases m.requested host c with
  | error e => rfl
  | ok o => exact opened_withFuel { m with frames := m.frames.push f } n ..

end Machine

theorem Held.withFuel (h : Held a s l m) (n : Option Nat) : Held a s l (m.withFuel n) :=
  ⟨h.active, h.frames, h.limits, h.heap⟩

theorem Held.of_withFuel {n : Option Nat} (h : Held a s l (m.withFuel n)) : Held a s l m :=
  ⟨h.active, h.frames, h.limits, h.heap⟩

/-- No deadline and no interrupt stops a run. -/
def Monitor.Unhurried (k : Monitor) : Prop := k.budget.deadline = none ∧ k.interrupted = false

/-! ### What a run spends -/

/-- The run was stopped because all fuel was spent. -/
def Outcome.Exhausted (o : Outcome Machine α) : Prop :=
  ∃ calls m, o = .failed (.termination .outOfFuel calls) m ∧ m.monitor.budget.fuel = some 0

/-- **A run, by the fuel that it starts with.** Either it stalls, if it does not run out before; or there is an
amount that it spends, the boundaries that it accounts for. With that or more it ends alike, and what is left is
the difference; with less it runs out, which shows as `out`. -/
inductive Metered (out : Outcome Machine α → Prop) (start : UInt64) (run : Option Nat → Outcome Machine α) :
    Prop where
  | stalled (hfree : run none = .stalled) (hlimited : ∀ n, run (some n) = .stalled ∨ out (run (some n)))
  | ended (k : Nat) (r : Except Error α) (m : Machine)
      (hboundaries : m.monitor.boundaries = start + UInt64.ofNat k)
      (henough : ∀ n : Option Nat, run (n.map (k + ·)) = Proc.ofExcept r (m.withFuel n))
      (hout : ∀ n < k, out (run (some n)))

namespace Metered

variable {out : Outcome Machine α → Prop} {run : Option Nat → Outcome Machine α}

/-- A run that spends nothing. -/
theorem steady {r : Except Error α} (hrun : ∀ n, run n = Proc.ofExcept r (m.withFuel n)) :
    Metered out m.monitor.boundaries run := by
  refine .ended 0 r m (UInt64.add_zero _).symm (fun n => ?_) fun n hn => absurd hn (Nat.not_lt_zero n)
  rw [← hrun n]
  cases n with
  | none => rfl
  | some n => rw [Option.map_some, Nat.zero_add]

theorem never (hrun : ∀ n, run n = .stalled) : Metered out start run :=
  .stalled (hrun none) fun n => .inl (hrun (some n))

/-- **What one run spends adds up with what the next does.** -/
theorem andThen {out' : Outcome Machine β → Prop} {F : Outcome Machine α → Outcome Machine β}
    (h : Metered out start run) (hstalled : F .stalled = .stalled)
    (hout : ∀ n, out (run (some n)) →
      out' (F (run (some n))) ∨ (F (run (some n)) = .stalled ∧ F (run none) = .stalled))
    (hnext : ∀ r (m : Machine), run none = Proc.ofExcept r (m.withFuel none) →
      Metered out' m.monitor.boundaries fun n => F (Proc.ofExcept r (m.withFuel n))) :
    Metered out' start fun n => F (run n) := by
  cases h with
  | stalled hfree hlimited =>
    refine .stalled (by rw [hfree, hstalled]) fun n => ?_
    obtain hn | hn := hlimited n
    · exact .inl (by rw [hn, hstalled])
    · obtain hn | hn := hout n hn
      · exact .inr hn
      · exact .inl hn.1
  | ended k r m hboundaries henough hless =>
    have hfirst : run none = Proc.ofExcept r (m.withFuel none) := henough none
    have hrest : ∀ j, run (some (k + j)) = Proc.ofExcept r (m.withFuel (some j)) := fun j => henough (some j)
    cases hnext r m hfirst with
    | stalled hfree hlimited =>
      refine .stalled (by rw [hfirst, hfree]) fun n => ?_
      obtain hn | ⟨j, rfl⟩ := Nat.lt_or_ge n k |>.imp_right Nat.exists_eq_add_of_le
      · obtain hn | hn := hout n (hless n hn)
        · exact .inr hn
        · exact .inl hn.1
      · rw [hrest j]
        exact hlimited j
    | ended k' r' m' hboundaries' henough' hless' =>
      refine .ended (k + k') r' m' ?_ (fun n => ?_) fun n hn => ?_
      · rw [hboundaries', hboundaries, UInt64.ofNat_add, UInt64.add_assoc]
      · have hn : n.map (k + k' + ·) = (n.map (k' + ·)).map (k + ·) := by
          cases n with
          | none => rfl
          | some n => simp only [Option.map_some, Nat.add_assoc]
        rw [hn, henough, henough']
      · obtain hn' | ⟨j, rfl⟩ := Nat.lt_or_ge n k |>.imp_right Nat.exists_eq_add_of_le
        · refine (hout n (hless n hn')).resolve_right fun hboth => ?_
          have hfree := henough' none
          rw [Option.map_none, ← hfirst, hboth.2] at hfree
          cases r' <;> cases hfree
        · rw [hrest j]
          exact hless' j (by omega)

end Metered

/-! ### Code that runs inside a task -/

/-- The procedure spends fuel as a run does, from machines of which `Held` is true. -/
def Proc.Meters (a : Option Active) (s : Stack Frame) (l : Monitor) (p : Run α) : Prop :=
  ∀ m, Held a s l m → Metered Outcome.Exhausted m.monitor.boundaries fun n => p (m.withFuel n)

theorem Outcome.Exhausted.bind {o : Outcome Machine α} (h : o.Exhausted) (f : α → Run β) :
    (o.bind f).Exhausted := by
  obtain ⟨calls, m, rfl, hm⟩ := h
  exact ⟨calls, m, rfl, hm⟩

namespace Proc.Meters

theorem pure (v : α) : Proc.Meters a s l (Pure.pure v) := fun _ _ => .steady (r := .ok v) fun _ => rfl

theorem fail (e : Error) : Proc.Meters a s l (throw e : Run α) := fun _ _ =>
  .steady (r := .error e) fun _ => rfl

theorem onHeap (p : Proc Heap α) : Proc.Meters a s l (Run.onHeap p) := by
  intro m _
  cases hp : p m.heap with
  | done v heap =>
    exact .steady (m := { m with heap }) (r := .ok v) fun n => by simp only [Run.onHeap, Machine.withFuel, hp]; rfl
  | failed e heap =>
    exact .steady (m := { m with heap }) (r := .error e) fun n => by
      simp only [Run.onHeap, Machine.withFuel, hp]; rfl
  | stalled => exact .never fun n => by simp only [Run.onHeap, Machine.withFuel, hp]

theorem bind {p : Run α} {f : α → Run β} (hp : Proc.Meters a s l p) (hkeeps : Proc.Keeps (Held a s l) p)
    (hf : ∀ v, Proc.Meters a s l (f v)) : Proc.Meters a s l (p >>= f) := by
  intro m h
  simp only [Proc.bind_eq]
  refine (hp m h).andThen (F := fun o => o.bind f) rfl (fun n hn => .inl (hn.bind f)) fun r m' hm' => ?_
  cases r with
  | error e => exact .steady (r := .error e) fun n => rfl
  | ok v =>
    have hheld := hkeeps _ (h.withFuel none)
    rw [hm'] at hheld
    exact hf v m' (Held.of_withFuel hheld)

end Proc.Meters

/-- Runs of the engine inside a task are metered, if no deadline and no interrupt stops them. -/
structure Engine.Meters (E : Engine) : Prop where
  evaluate : ∀ (a : Active) (s : Stack Frame) (l : Monitor) (r : BranchRequest), l.Unhurried →
    Proc.Meters (some a) s l (E.evaluate r)
  call : ∀ (a : Active) (s : Stack Frame) (l : Monitor) (f receiver : Value) (args : List Value),
    l.Unhurried → Proc.Meters (some a) s l (E.call f receiver args)

/-- **Running code is metered**, if what it has evaluated and called is. -/
theorem Routine.meters {P : Engine → Run α} (hP : Routine P) (hE : E.Holds) (hM : E.Meters) (hl : l.Unhurried)
    (a : Active) (s : Stack Frame) : Proc.Meters (some a) s l (P E) := by
  induction hP with
  | pure v => exact .pure v
  | fail e => exact .fail e
  | @onHeap _ p _ => exact .onHeap p
  | look f => exact fun m _ => .steady (r := .ok (f m.realm m.monitor.options.debug)) fun _ => rfl
  | evaluate r => exact hM.evaluate a s l r hl
  | call f receiver args => exact hM.call a s l f receiver args hl
  | bind hp _ ihp ihf => exact ihp.bind (hp.keeps_held hE a s l) ihf

/-! ### One boundary -/

/-- Accounting for a boundary spends one unit, unless a failure is handed on. -/
theorem meters_crossing (hl : l.Unhurried) (i : Option (Except Error Completion)) :
    Proc.Meters a s l (crossing i) := by
  have ticked : ∀ i, (∀ e, i ≠ some (.error e)) → Proc.Meters a s l (crossing i) := by
    intro i hi m h
    have hhurry : m.monitor.budget.deadline = none ∧ m.monitor.interrupted = false := by
      rw [← h.limits] at hl
      exact hl
    have htick : ∀ n : Option Nat, Monitor.tick (m.withFuel (n.map (1 + ·))).monitor =
        .done () (({ m with monitor := { m.monitor with boundaries := m.monitor.boundaries + 1 } } :
          Machine).withFuel n).monitor := by
      intro n
      have hspend : Monitor.spend (n.map (1 + ·)) = some n := by
        cases n with
        | none => rfl
        | some n => rw [Option.map_some, Nat.add_comm]; rfl
      simp only [Monitor.tick, Machine.withFuel, hspend, hhurry, Budget.deadlinePassed]
      rfl
    refine .ended 1 (.ok ()) { m with monitor := { m.monitor with boundaries := m.monitor.boundaries + 1 } } rfl
      (fun n => ?_) fun n hn => ?_
    · unfold crossing
      rw [Monitor.crossed_eq hi, htick]
      rfl
    · obtain rfl : n = 0 := by omega
      refine ⟨m.monitor.trace, m.withFuel (some 0), ?_, rfl⟩
      unfold crossing
      rw [Monitor.crossed_eq hi]
      rfl
  cases i with
  | none => exact ticked none nofun
  | some o =>
    cases o with
    | ok c => exact ticked _ nofun
    | error e => exact fun _ _ => .steady (r := .ok ()) fun _ => rfl

theorem Frame.running_eq (f : Frame) (p : Run α) (m : Machine) :
    f.running p m = (p { m with active := some ⟨f.depth, f.quiet⟩ }).withActive m.active := by
  unfold Frame.running Outcome.withActive
  cases p { m with active := some ⟨f.depth, f.quiet⟩ } <;> rfl

theorem Frame.meters_running (f : Frame) {p : Run α} (hp : Proc.Meters (some ⟨f.depth, f.quiet⟩) s l p) :
    Proc.Meters a s l (f.running p) := by
  intro m h
  simp only [Frame.running_eq]
  refine (hp { m with active := some ⟨f.depth, f.quiet⟩ } ⟨rfl, h.frames, h.limits, h.heap⟩).andThen
    (F := fun o => o.withActive m.active) rfl (fun n hn => .inl ?_) fun r m' _ => ?_
  · obtain ⟨calls, x, hx, hfuel⟩ := hn
    rw [hx]
    exact ⟨calls, _, rfl, hfuel⟩
  · exact .steady (m := { m' with active := m.active }) (r := r) fun n => by cases r <;> rfl

/-- What the task of a frame does at a boundary is metered. -/
theorem Frame.meters_work (hE : E.Holds) (hM : E.Meters) (hl : l.Unhurried) (f : Frame)
    (i : Option (Except Error Completion)) : Proc.Meters a s l (f.work E i) :=
  (meters_crossing hl i).bind (keeps_held_crossing i) fun _ =>
    f.meters_running ((f.task.routine_doing i).meters hE hM hl _ s)

/-- A frame closed because all fuel was spent, and left the frames `s`. -/
def RunsOut (base : Nat) (s : Stack Frame) (o : Outcome Machine Advance) : Prop :=
  ∃ (calls : List CallEntry) (f : Frame) (m : Machine),
    o = m.closed f (.error (.termination .outOfFuel calls)) base ∧ m.monitor.budget.fuel = some 0 ∧ m.frames = s

theorem steady_closed {out : Outcome Machine Advance → Prop} (m : Machine) (f : Frame)
    (o : Except Error Completion) (base : Nat) :
    Metered out m.monitor.boundaries fun n => (m.withFuel n).closed f o base := by
  unfold Machine.closed
  show Metered out _ fun n => if m.frames.size = base then _ else _
  have hboundaries : (m.leave f o).monitor.boundaries = m.monitor.boundaries := by
    rw [Machine.monitor_leave]
    split <;> rfl
  rw [← hboundaries]
  by_cases hsize : m.frames.size = base
  · simp only [hsize, if_true, Machine.leave_withFuel]
    exact .steady (r := .ok (.finished o)) fun n => rfl
  · simp only [hsize, if_false, Machine.leave_withFuel]
    exact .steady (m := (m.leave f o).deliver o) (r := .ok .going) fun n => rfl

theorem Machine.boundaries_suspended (host : Host) (m : Machine) (f : Frame) (c : Suspension) :
    (m.suspended host f c).monitor.boundaries = m.monitor.boundaries := by
  unfold Machine.suspended
  cases m.requested host c with
  | error e => rfl
  | ok o => simp only [Machine.opened, Machine.monitor_openFrame]

theorem steady_suspended {out : Outcome Machine Advance → Prop} (host : Host) (m : Machine) (f : Frame)
    (c : Suspension) : Metered out m.monitor.boundaries fun n =>
      .done .going ((m.withFuel n).suspended host f c) := by
  rw [← m.boundaries_suspended host f c]
  simp only [Machine.suspended_withFuel]
  exact .steady (r := .ok .going) fun n => rfl

/-- **One boundary is metered.** -/
theorem turn_meters (host : Host) (hE : E.Holds) (hM : E.Meters) (hl : l.Unhurried) (h : Held a s l m)
    (base : Nat) (f : Frame) : Metered (RunsOut base s) m.monitor.boundaries fun n =>
      turn host E base f (m.withFuel n) := by
  induction f using Frame.fed_cases with
  | fed f i =>
    have hturn : ∀ n, turn host E base (f.fed i) (m.withFuel n) =
        f.settle host base (f.work E i (m.withFuel n)) := fun n =>
      turn_scripted host hE (h.withFuel n) base f i
    simp only [hturn]
    refine (f.meters_work hE hM hl i m h).andThen (F := f.settle host base) rfl (fun n hn => .inl ?_)
      fun r m' _ => ?_
    · obtain ⟨calls, x, hx, hfuel⟩ := hn
      have hheld := f.keeps_held_work hE i _ (h.withFuel (some n))
      rw [hx] at hheld ⊢
      exact ⟨calls, f, x, rfl, hfuel, hheld.frames⟩
    · cases r with
      | error e => exact steady_closed m' f (.error e) base
      | ok r =>
        obtain ⟨t, step⟩ := r
        cases step with
        | finished c => exact steady_closed m' f (.ok c) base
        | suspended c => exact steady_suspended host m' { f with task := t, input := .waiting } c
  | fail f e hinput =>
    simp only [turn_fail hinput]
    exact steady_closed m f _ base
  | waiting f hinput =>
    simp only [turn_waiting hinput]
    exact steady_closed m f _ base

/-! ### Many boundaries -/

/-- A drive stalls that has more frames to close than boundaries to cross. -/
theorem drive_stalls (host : Host) (hE : E.Holds) {f : Frame} {b : Nat} (h : Held a (s.push f) l m)
    (hb : base + b ≤ s.size) : drive host E base b m = .stalled := by
  induction b generalizing m s f with
  | zero => rfl
  | succ b ih =>
    have hbase : base ≤ s.size := by omega
    rw [drive_succ, advance_eq_turn h.frames hbase]
    obtain hstalled | ⟨r, m', s', hturn, hrestacked, hheld⟩ := turn_restacks host hE h.popped hbase f
    · rw [hstalled]
      rfl
    · rw [hturn]
      cases hrestacked with
      | finished o hs => omega
      | closed o hs ht =>
        subst hs
        rw [Stack.size_push] at hb
        exact ih hheld (by omega)
      | answered o hg => exact ih hheld (by omega)
      | asked child hg => exact ih hheld (by rw [Stack.size_push]; omega)

/-- **A drive is metered.** -/
theorem drive_meters (host : Host) (hE : E.Holds) (hM : E.Meters) (hl : l.Unhurried) {f : Frame} (b : Nat)
    (h : Held a (s.push f) l m) (hbase : base ≤ s.size) (hrest : ∀ g ∈ s.above base, g.task.Forwards) :
    Metered Outcome.Exhausted m.monitor.boundaries fun n => drive host E base b (m.withFuel n) := by
  induction b generalizing m s f with
  | zero => exact .never fun n => rfl
  | succ b ih =>
    have hdrive : ∀ n, drive host E base (b + 1) (m.withFuel n) = proceed host E base b
        (turn host E base f (({ m.collected with frames := s } : Machine).withFuel n)) := by
      intro n
      rw [drive_succ, advance_eq_turn (h.withFuel n).frames hbase, Machine.collected_withFuel]
      rfl
    have hturn := turn_meters host hE hM hl h.popped base f
    have hboundaries : ({ m.collected with frames := s } : Machine).monitor.boundaries = m.monitor.boundaries := by
      show m.collected.monitor.boundaries = _
      rw [Machine.monitor_collected]
    rw [hboundaries] at hturn
    simp only [hdrive]
    refine hturn.andThen (F := proceed host E base b) rfl (fun n hn => ?_) fun r m' hm' => ?_
    · -- The frames that are left unwind, if there are boundaries enough to close them.
      by_cases hb : base + (b + 1) ≤ s.size
      · refine .inr ⟨?_, ?_⟩
        · rw [← hdrive, drive_stalls host hE (h.withFuel _) hb]
        · rw [← hdrive, drive_stalls host hE (h.withFuel _) hb]
      · obtain ⟨calls, g, x, hx, hfuel, hframes⟩ := hn
        obtain ⟨x', hx', hidled⟩ := proceed_closed host E (b := b) (e := .termination .outOfFuel calls) hframes
          hbase hrest (.inl rfl) (by omega) g
        rw [hx, hx']
        exact .inl ⟨calls, x', rfl, by rw [hidled.budget, hfuel]⟩
    · obtain hstalled | ⟨r', m₁, s', hdone, hrestacked, hheld⟩ :=
        turn_restacks host hE (h.popped.withFuel none) hbase f
      · rw [hstalled] at hm'
        cases r <;> cases hm'
      · cases r with
        | error e => exact .steady (r := .error e) fun n => rfl
        | ok r =>
          cases hdone.symm.trans hm'
          cases r' with
          | finished o =>
            cases o with
            | ok c => exact .steady (r := .ok c) fun n => rfl
            | error e => exact .steady (r := .error e) fun n => rfl
          | going =>
            obtain ⟨t, g, rfl, ht, -, hforwards⟩ := hrestacked.orderly hbase hrest
            exact ih (Held.of_withFuel hheld) ht hforwards

/-! ### Runs on top of the open frames -/

/-- A drive of a frame that was just opened is metered. -/
theorem meters_opened (host : Host) (hE : E.Holds) (hM : E.Meters) (hl : l.Unhurried) (h : Held a s l m)
    (b : Nat) (o : Opening) (depth : Nat) (quiet : Bool) :
    Metered Outcome.Exhausted m.monitor.boundaries fun n =>
      drive host E s.size b ((m.withFuel n).opened o depth quiet) := by
  obtain ⟨g, hg⟩ := h.opened o depth quiet
  have hboundaries : (m.opened o depth quiet).monitor.boundaries = m.monitor.boundaries := by
    simp only [Machine.opened, Machine.monitor_openFrame]
  rw [← hboundaries]
  simp only [Machine.opened_withFuel]
  refine drive_meters host hE hM hl b hg (Nat.le_refl _) fun x hx => ?_
  rw [Stack.above_eq_nil (Nat.le_refl _)] at hx
  cases hx

/-- **What runs inside a task is metered.** -/
theorem Host.engine_meters (host : Host) (k : Nat) : (host.engine k).Meters := by
  induction k with
  | zero => exact ⟨fun _ _ _ _ _ _ _ => .never fun _ => rfl, fun _ _ _ _ _ _ _ _ _ => .never fun _ => rfl⟩
  | succ k ih =>
    refine ⟨fun a s l r hl m h => ?_, fun a s l f receiver args hl m h => ?_⟩
    · show Metered _ _ fun n => host.evaluateOn (host.engine k) k r (m.withFuel n)
      simp only [evaluateOn_eq]
      cases host.branch r with
      | error e => exact .steady (r := .error e) fun n => rfl
      | ok task =>
        have hopened := meters_opened host (host.engine_holds k) ih hl h k
          ⟨m.monitor.calls, task, r.info, false⟩ m.childContext.1 m.childContext.2
        rw [← h.frames] at hopened
        exact hopened
    · show Metered _ _ fun n => host.callOn (host.engine k) k f receiver args (m.withFuel n)
      simp only [callOn_scripted (h.withFuel _).heap, Machine.requestedCall_withFuel,
        Machine.callRequest_withFuel]
      cases m.requestedCall (m.callRequest f receiver args) with
      | error e => exact .steady (r := .error e) fun n => rfl
      | ok o =>
        have hopened := meters_opened host (host.engine_holds k) ih hl h k o m.childContext.1 m.childContext.2
        rw [← h.frames] at hopened
        refine hopened.andThen (F := fun o => o.bind fun c => Proc.ofExcept (completionValue c)) rfl
          (fun n hn => .inl (hn.bind _)) fun r m' _ => ?_
        cases r with
        | error e => exact .steady (r := .error e) fun n => rfl
        | ok c => exact .steady (r := completionValue c) fun n => rfl

/-! ### How a run depends on its fuel -/

theorem ending_of_state {x : Outcome Machine Completion} (h : x.state? = some m) : ∃ o, x = ending id o m := by
  cases x with
  | done c m' => cases h; exact ⟨.ok c, rfl⟩
  | failed e m' => cases h; exact ⟨.error e, rfl⟩
  | stalled => cases h

/-- **Fuel is accounted for exactly**, wherever a drive has come to that no deadline and no interrupt stops. If it
ends without a limit, there is a number of boundaries that it accounts for. With that much fuel or more it ends
in the same way, on the same machine, and what is left is the difference; with less it is stopped, and nothing is
left. And if it ends in another way than by running out, more fuel, or no limit, changes nothing but what is
left. -/
theorem Reached.fuel_exact (h : Reached host base m) (hm : m.monitor.Unhurried) (bound b : Nat) :
    (∀ o m', drive host (host.engine bound) base b (m.withFuel none) = ending id o m' →
      ∃ k, m'.monitor.boundaries = m.monitor.boundaries + UInt64.ofNat k ∧
        (∀ n, k ≤ n → drive host (host.engine bound) base b (m.withFuel (some n)) =
          ending id o (m'.withFuel (some (n - k)))) ∧
        ∀ n, n < k → ∃ calls m'', drive host (host.engine bound) base b (m.withFuel (some n)) =
          .failed (.termination .outOfFuel calls) m'' ∧ m''.monitor.budget.fuel = some 0) ∧
    ∀ n o m', drive host (host.engine bound) base b (m.withFuel (some n)) = ending id o m' →
      (∀ calls, o ≠ .error (.termination .outOfFuel calls)) →
      ∃ j, m'.monitor.budget.fuel = some j ∧
        drive host (host.engine bound) base b (m.withFuel none) = ending id o (m'.withFuel none) ∧
        ∀ d, drive host (host.engine bound) base b (m.withFuel (some (n + d))) =
          ending id o (m'.withFuel (some (j + d))) := by
  obtain ⟨horderly, hs⟩ := h.orderly
  obtain ⟨s, f, hframes, hbase, -, hrest⟩ := horderly.pop
  have hheld : Held m.active (s.push f) m.monitor.limits m := ⟨rfl, hframes, rfl, hs⟩
  have hunhurried : m.monitor.limits.Unhurried := hm
  have hmetered := drive_meters host (host.engine_holds bound) (host.engine_meters bound) hunhurried b hheld hbase
    hrest
  cases hmetered with
  | stalled hfree hlimited =>
    refine ⟨fun o m' hrun => ?_, fun n o m' hrun ho => ?_⟩
    · rw [hfree] at hrun
      cases o <;> cases hrun
    · obtain hn | ⟨calls, x, hn, -⟩ := hlimited n
      · rw [hn] at hrun
        cases o <;> cases hrun
      · cases o <;> cases hn.symm.trans hrun
        exact absurd rfl (ho calls)
  | ended k r x hboundaries henough hout =>
    simp only [ofExcept_eq_ending] at henough
    have hsome : ∀ j, drive host (host.engine bound) base b (m.withFuel (some (k + j))) =
        ending id r (x.withFuel (some j)) := fun j => henough (some j)
    refine ⟨fun o m' hrun => ?_, fun n o m' hrun ho => ?_⟩
    · obtain ⟨rfl, rfl⟩ := ending_inj ((henough none).symm.trans hrun)
      refine ⟨k, hboundaries, fun n hn => ?_, fun n hn => hout n hn⟩
      obtain ⟨j, rfl⟩ := Nat.exists_eq_add_of_le hn
      rw [hsome, Nat.add_sub_cancel_left]
      rfl
    · obtain hn | hn := Nat.lt_or_ge n k
      · obtain ⟨calls, x, hn, -⟩ := hout n hn
        cases o <;> cases hn.symm.trans hrun
        exact absurd rfl (ho calls)
      · obtain ⟨j, rfl⟩ := Nat.exists_eq_add_of_le hn
        obtain ⟨rfl, rfl⟩ := ending_inj ((hsome j).symm.trans hrun)
        refine ⟨j, rfl, henough none, fun d => ?_⟩
        rw [Nat.add_assoc, hsome]
        rfl

/-- A program that converts an object by a method of its own. -/
def convertingProgram : List Stmt :=
  [.tryCatch [.expr (.binary .add (.string "")
    (.object [("valueOf", .function ⟨none, [], .expression (.string "x"), false, true, false⟩)]))] none []]

/-- The program ends without a limit; it ends in the same way if the fuel just suffices, and not if it has none. -/
theorem Reached.fuel_exact_converting : ∃ (m m' : Machine) (o : Except Error Completion) (k : Nat),
    Reached (Host.plain []) 0 m ∧ m.monitor.Unhurried ∧
    drive (Host.plain []) ((Host.plain []).engine 20) 0 20 (m.withFuel none) = ending id o m' ∧ 0 < k ∧
    drive (Host.plain []) ((Host.plain []).engine 20) 0 20 (m.withFuel (some k)) =
      ending id o (m'.withFuel (some 0)) ∧
    ∃ calls m'', drive (Host.plain []) ((Host.plain []).engine 20) 0 20 (m.withFuel (some 0)) =
      .failed (.termination .outOfFuel calls) m'' := by
  have hruns : ((openedProgram .standard convertingProgram).bind fun m =>
      (drive (Host.plain []) ((Host.plain []).engine 20) 0 20 (m.withFuel none)).state?.map fun m' =>
        decide (m'.monitor.boundaries ≠ m.monitor.boundaries)) = some true := by decide +kernel
  obtain ⟨m, hm, hruns⟩ := Option.bind_eq_some_iff.mp hruns
  obtain ⟨m', hm', hboundaries⟩ := Option.map_eq_some_iff.mp hruns
  rw [decide_eq_true_eq] at hboundaries
  obtain ⟨hreached, hlimits⟩ := reached_openedProgram hm
  have hunhurried : m.monitor.Unhurried := by
    have hnew : (Monitor.ofOptions {} 0).limits.Unhurried := ⟨rfl, rfl⟩
    rw [← hlimits] at hnew
    exact hnew
  obtain ⟨o, hrun⟩ := ending_of_state hm'
  obtain ⟨k, hk, henough, hless⟩ := (Reached.fuel_exact hreached hunhurried 20 20).1 o m' hrun
  have hpos : 0 < k := by
    refine Nat.pos_of_ne_zero fun hzero => hboundaries ?_
    rw [hk, hzero]
    exact UInt64.add_zero _
  obtain ⟨calls, m'', hstopped, -⟩ := hless 0 hpos
  refine ⟨m, m', o, k, hreached, hunhurried, hrun, hpos, ?_, calls, m'', hstopped⟩
  rw [henough k (Nat.le_refl k), Nat.sub_self]

end ScriptCore
