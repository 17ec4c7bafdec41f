import ScriptCore.Proofs.Drive.Scripted
import ScriptCore.Proofs.Heap.Generations

/-! # What runs keep of the heap

Where there are no native functions, a run does nothing to the heap but what routines and collections do.
So whatever these keep true of it, every run keeps true, at the outermost level as well as inside a task.

* `Heap.Invariant`: what routines and collections keep.
* `drive_tended`, `callOn_tended`: **a run keeps the invariants of the heap**, and the realm as it is.
* `Heap.invariant_roots`: the values that the host keeps alive are of this sort. -/

namespace ScriptCore

variable {α : Type} {E : Engine} {host : Host} {I : Heap → Prop} {r : Realm} {m : Machine}

/-- What programs and collections keep true of a heap. -/
structure Heap.Invariant (I : Heap → Prop) : Prop where
  routine : ∀ {α : Type} {p : Proc Heap α}, Heap.Routine ObjectKind.Scripted p → Proc.Keeps I p
  collect : ∀ (h : Heap) (reported : List Handle), I h → I (h.collect reported)

/-- The machine has this realm and no native functions, and its heap satisfies the invariant. -/
structure Tended (I : Heap → Prop) (r : Realm) (m : Machine) : Prop where
  realm : m.realm = r
  scripted : m.heap.Scripted
  heap : I m.heap

theorem Tended.held (h : Tended I r m) : Held m.active m.frames m.monitor.limits m :=
  ⟨rfl, rfl, rfl, h.scripted⟩

/-- Machines with the realm and the heap of one that is tended. -/
theorem Tended.congr {m' : Machine} (h : Tended I r m) (hrealm : m'.realm = m.realm)
    (hheap : m'.heap = m.heap) : Tended I r m' :=
  ⟨hrealm.trans h.realm, hheap ▸ h.scripted, hheap ▸ h.heap⟩

/-! ### Running code -/

/-- Code that the engine runs keeps the invariant. -/
structure Engine.Tends (I : Heap → Prop) (r : Realm) (E : Engine) : Prop where
  evaluate : ∀ q : BranchRequest, Proc.Keeps (Tended I r) (E.evaluate q)
  call : ∀ (f receiver : Value) (args : List Value), Proc.Keeps (Tended I r) (E.call f receiver args)

theorem keeps_tended_onHeap (hI : Heap.Invariant I) {p : Proc Heap α}
    (hp : Heap.Routine ObjectKind.Scripted p) : Proc.Keeps (Tended I r) (Run.onHeap p) := by
  intro m h
  have hs := hp.keeps_scripted m.heap h.scripted
  have hi := hI.routine hp m.heap h.heap
  unfold Run.onHeap
  dsimp only
  cases hpm : p m.heap with
  | done v heap => rw [hpm] at hs hi; exact ⟨h.realm, hs, hi⟩
  | failed e heap => rw [hpm] at hs hi; exact ⟨h.realm, hs, hi⟩
  | stalled => trivial

/-- **Running code keeps the invariant**, if what it has evaluated and called does. -/
theorem Routine.keeps_tended (hI : Heap.Invariant I) (hE : E.Tends I r) {P : Engine → Run α}
    (hP : Routine P) : Proc.Keeps (Tended I r) (P E) :=
  hP.keeps ⟨hE.evaluate, hE.call⟩ (keeps_tended_onHeap hI)

/-! ### One boundary -/

theorem keeps_tended_crossing (i : Option (Except Error Completion)) :
    Proc.Keeps (Tended I r) (crossing i) := by
  intro m h
  unfold crossing
  generalize m.monitor.crossed i = crossed
  obtain ⟨o, k⟩ := crossed
  cases o <;> exact h.congr rfl rfl

theorem Frame.keeps_tended_running (f : Frame) {p : Run α} (hp : Proc.Keeps (Tended I r) p) :
    Proc.Keeps (Tended I r) (f.running p) := by
  intro m h
  have hrun := hp { m with active := some ⟨f.depth, f.quiet⟩ } (h.congr rfl rfl)
  unfold Frame.running
  cases hpm : p { m with active := some ⟨f.depth, f.quiet⟩ } with
  | stalled => trivial
  | failed e m' => rw [hpm] at hrun; exact hrun.congr rfl rfl
  | done v m' => rw [hpm] at hrun; exact hrun.congr rfl rfl

theorem Frame.keeps_tended_work (hI : Heap.Invariant I) (hE : E.Tends I r) (f : Frame)
    (i : Option (Except Error Completion)) : Proc.Keeps (Tended I r) (f.work E i) :=
  (keeps_tended_crossing i).bind fun _ =>
    f.keeps_tended_running ((f.task.routine_doing i).keeps_tended hI hE)

theorem Tended.closed (h : Tended I r m) (f : Frame) (o : Except Error Completion) (base : Nat) :
    (m.closed f o base).Leaves (Tended I r) := by
  have hleft : Tended I r (m.leave f o) := h.congr (by simp) (by simp)
  unfold Machine.closed
  split
  · exact hleft
  · exact hleft.congr rfl rfl

theorem Tended.opened (h : Tended I r m) (o : Opening) (depth : Nat) (quiet : Bool) :
    Tended I r (m.opened o depth quiet) :=
  h.congr (by simp [Machine.opened]) (by simp [Machine.opened])

theorem Tended.suspended (h : Tended I r m) (host : Host) (f : Frame) (c : Suspension) :
    Tended I r (m.suspended host f c) := by
  unfold Machine.suspended
  cases m.requested host c with
  | ok o =>
    have hpushed : Tended I r { m with frames := m.frames.push f } := h.congr rfl rfl
    exact hpushed.opened o _ _
  | error e => exact h.congr rfl rfl

/-- **One boundary keeps the invariant.** -/
theorem turn_tended (hI : Heap.Invariant I) (hE : E.Tends I r) (hholds : E.Holds) (base : Nat) (f : Frame)
    (h : Tended I r m) : (turn host E base f m).Leaves (Tended I r) := by
  induction f using Frame.fed_cases with
  | fed f i =>
    have hwork := f.keeps_tended_work hI hE i m h
    rw [turn_scripted host hholds h.held]
    cases hw : f.work E i m with
    | stalled => trivial
    | failed e m' => rw [hw] at hwork; exact hwork.closed f _ base
    | done v m' =>
      rw [hw] at hwork
      obtain ⟨t, step⟩ := v
      cases step with
      | finished c => exact hwork.closed f _ base
      | suspended c => exact hwork.suspended host _ c
  | fail f e hinput => rw [turn_fail hinput]; exact h.closed f _ base
  | waiting f hinput => rw [turn_waiting hinput]; exact h.closed f _ base

theorem Tended.collected (hI : Heap.Invariant I) (h : Tended I r m) : Tended I r m.collected := by
  unfold Machine.collected
  split
  · exact ⟨h.realm, h.scripted.collect _, hI.collect _ _ h.heap⟩
  · exact h

theorem advance_tended (host : Host) (hI : Heap.Invariant I) (hE : E.Tends I r) (hholds : E.Holds) {base : Nat}
    {s : Stack Frame} {f : Frame} (hframes : m.frames = s.push f) (hbase : base ≤ s.size)
    (h : Tended I r m) : (advance host E base m).Leaves (Tended I r) := by
  rw [advance_eq_turn hframes hbase]
  exact turn_tended hI hE hholds base f ((h.collected hI).congr rfl rfl)

/-! ### Runs -/

/-- **A drive keeps the invariant.** -/
theorem drive_tended (host : Host) (hI : Heap.Invariant I) (hE : E.Tends I r) (hholds : E.Holds) (b : Nat)
    {s below : Stack Frame} {f : Frame} (hframes : m.frames = s.push f) (hbelow : below.Beneath s)
    (h : Tended I r m) : (drive host E below.size b m).Leaves (Tended I r) := by
  induction b generalizing m s f with
  | zero => trivial
  | succ b ih =>
    have hbase := hbelow.size_le
    have hheld : Held m.active (s.push f) m.monitor.limits m := hframes ▸ h.held
    have hadvance := advance_tended host hI hE hholds hframes hbase h
    rw [drive_succ]
    rw [advance_eq_turn hframes hbase] at hadvance ⊢
    obtain hstalled | ⟨a, m', s', hturn, hrestacked, hheld'⟩ :=
      turn_restacks host hholds hheld.popped hbase f
    · rw [hstalled]
      trivial
    · rw [hturn] at hadvance ⊢
      cases hrestacked with
      | finished o _ => cases o <;> exact hadvance
      | closed o hs _ => subst hs; exact ih hheld'.frames (hbelow.of_push ‹_›) hadvance
      | answered o _ => exact ih hheld'.frames hbelow hadvance
      | asked child _ => exact ih hheld'.frames (hbelow.push _) hadvance

theorem callOn_tended (hI : Heap.Invariant I) (hE : E.Tends I r) (hholds : E.Holds) (b : Nat)
    (f receiver : Value) (args : List Value) : Proc.Keeps (Tended I r) (host.callOn E b f receiver args) := by
  intro m h
  rw [callOn_scripted h.scripted]
  cases m.requestedCall (m.callRequest f receiver args) with
  | error e => exact h
  | ok o =>
    obtain ⟨g, hg⟩ := h.held.opened o m.childContext.1 m.childContext.2
    refine (drive_tended host hI hE hholds b hg.frames (List.suffix_refl _) (h.opened o _ _)).bind
      fun c m' h' => ?_
    cases completionValue c <;> exact h'

/-- **Code that a host runs keeps the invariants of the heap.** -/
theorem Host.engine_tends (hI : Heap.Invariant I) (r : Realm) (host : Host) (k : Nat) :
    (host.engine k).Tends I r := by
  induction k with
  | zero => exact ⟨fun _ _ _ => trivial, fun _ _ _ _ _ => trivial⟩
  | succ k ih =>
    refine ⟨fun q m h => ?_, fun f receiver args => callOn_tended hI ih (host.engine_holds k) k f receiver args⟩
    show (host.evaluateOn (host.engine k) k q m).Leaves _
    rw [evaluateOn_eq]
    cases host.branch q with
    | error e => exact h
    | ok task =>
      obtain ⟨g, hg⟩ := h.held.opened ⟨m.monitor.calls, task, q.info, false⟩ m.childContext.1 m.childContext.2
      exact drive_tended host hI ih (host.engine_holds k) k hg.frames (List.suffix_refl _)
        (h.opened ⟨m.monitor.calls, task, q.info, false⟩ _ _)

/-- A new machine satisfies the invariants of new heaps. -/
theorem Machine.tended_create {I : Heap → Prop} (hI : Heap.Invariant I) {limits : HeapLimits}
    {options : MonitorOptions} {now : Nat} {sloppy : Bool} (hempty : I (Heap.empty limits))
    (h : Machine.create limits options now sloppy = .ok m) : Tended I m.realm m := by
  have hcreate : (Realm.create sloppy (Heap.empty limits)).Leaves I :=
    hI.routine (Realm.routine_create trivial sloppy) _ hempty
  refine ⟨rfl, (held_create h).heap, ?_⟩
  obtain ⟨realm, heap, hdone, rfl⟩ := create_eq_ok h
  rwa [hdone] at hcreate

/-! ### The values that the host keeps alive -/

/-- Neither programs nor collections change what the host keeps alive. -/
theorem Heap.invariant_roots (roots : Array (Option Value)) :
    Heap.Invariant fun h => h.roots = roots where
  routine hp :=
    hp.keeps_of_put (fun b _ => keeps_beside_alloc (fun _ _ _ _ _ hr => hr) b) (fun _ _ hr => hr)
      fun _ _ _ hr _ => hr
  collect h reported hr := (roots_collect h reported).trans hr

/-- Neither programs nor collections touch the list of holes among the roots. -/
theorem Heap.invariant_rooted : Heap.Invariant Heap.Rooted where
  routine hp := hp.keeps_of_put (fun b _ => keeps_beside_alloc (fun _ _ _ _ _ hr => ⟨hr.1, hr.2⟩) b)
    (fun _ _ hr => ⟨hr.1, hr.2⟩) fun _ _ _ hr _ => ⟨hr.1, hr.2⟩
  collect _ reported hr := hr.collect reported

end ScriptCore
