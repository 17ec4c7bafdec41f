import ScriptCore.Proofs.Calls.Reaching
import ScriptCore.Proofs.Calls.Trails

/-! # Courses of a machine

A host drives what is open on a machine over its boundaries; between them it collects garbage, makes what runs fail, or
lets time pass. The machines that come about one after the other are a course. Where there are no native functions, what
runs leaves the open frames alone, so that a course is a trail.

* `Machine.Moves`, `Machine.Course`: what a host does while it drives what is open.
* `Machine.Reaches.exists_course`: **what a host reaches it reaches by a course.**
* `Machine.driven`, `Machine.Course.of_openedProgram`: running a program is a course.
* `World.Follows.contained`, `Machine.Course.trail`: **a course is a trail.** -/

namespace ScriptCore

variable {S : Setting} {w : World} {host : Host} {E : Engine} {base n k : Nat} {m m' n₁ n₂ : Machine} {q : Query}
  {run : Nat → Machine}

/-! ### Moves of a host -/

/-- What is asked for is open alone above the others, and has not started. -/
theorem Query.Opens.fresh (hopens : q.Opens host E n₁ n₂) :
    ∀ f fs, n₂.frames.above n₁.frames.size = f :: fs → f.input = .start ∧ fs = [] := by
  have hframe : ∀ {m : Machine} {task info depth quiet isCall}, m.frames = n₁.frames →
      ∀ f fs, (m.openFrame task info depth quiet isCall).frames.above n₁.frames.size = f :: fs →
        f.input = .start ∧ fs = [] := by
    intro m task info depth quiet isCall hsame f fs habove
    rw [Machine.frames_openFrame, hsame, Stack.above_push le_rfl, Stack.above_eq_nil le_rfl] at habove
    cases habove
    exact ⟨rfl, rfl⟩
  cases q with
  | branch r =>
    obtain ⟨task, -, rfl⟩ := hopens
    exact hframe rfl
  | call callee receiver args =>
    obtain ⟨c, -, rfl⟩ := openCall_opens hopens
    exact hframe rfl

namespace Machine

/-- **What a host does with a machine** while it drives what is open above `base`. -/
inductive Moves (host : Host) (base : Nat) (m : Machine) : Machine → Prop where
  /-- The innermost frame is driven over one boundary. -/
  | crossed {m' : Machine} (bound : Nat) (hrun : (advance host (host.engine bound) base m).state? = some m') :
      Moves host base m m'
  | collected {m' : Machine} (hrun : (collectGarbage m).state? = some m') : Moves host base m m'
  /-- The innermost frame is made to fail. -/
  | aborted {m' : Machine} {e : Error} (he : e.Public m.realm m.heap) (hrun : (abort e m).state? = some m') :
      Moves host base m m'
  /-- Time passes, limits are changed, or the run is interrupted. -/
  | elapsed (k : Monitor) : Moves host base m { m with monitor := k }

theorem Moves.reaches (hmove : m.Moves host base m') (hm : m.Reaches host base) : m'.Reaches host base := by
  cases hmove with
  | crossed bound hrun => exact hm.crossed bound hrun
  | collected hrun => exact hm.collected hrun
  | aborted he hrun => exact hm.aborted he hrun
  | elapsed k => exact hm.elapsed k

/-- **A course of a machine**: from one on which at most one frame is open above the base, and has not started, each
machine comes about by a move from the one before. -/
structure Course (host : Host) (base : Nat) (run : Nat → Machine) (n : Nat) : Prop where
  reaches : (run 0).Reaches host base
  fresh : ∀ f fs, (run 0).frames.above base = f :: fs → f.input = .start ∧ fs = []
  moves : ∀ i < n, (run i).Moves host base (run (i + 1))

namespace Course

theorem of_reaches (hm : m.Reaches host base)
    (hfresh : ∀ f fs, m.frames.above base = f :: fs → f.input = .start ∧ fs = []) : Course host base (fun _ => m) 0 :=
  ⟨hm, hfresh, fun _ hi => absurd hi (Nat.not_lt_zero _)⟩

theorem upTo (hcourse : Course host base run n) (hk : k ≤ n) : Course host base run k :=
  ⟨hcourse.reaches, hcourse.fresh, fun i hi => hcourse.moves i (hi.trans_le hk)⟩

theorem reaches_at (hcourse : Course host base run n) : ∀ i ≤ n, (run i).Reaches host base := by
  intro i hi
  induction i with
  | zero => exact hcourse.reaches
  | succ i ih => exact (hcourse.moves i hi).reaches (ih (Nat.le_of_succ_le hi))

/-- One more move. -/
theorem extend (hcourse : Course host base run n) (hmove : (run n).Moves host base m) :
    ∃ run', Course host base run' (n + 1) ∧ run' (n + 1) = m := by
  refine ⟨Function.update run (n + 1) m, ⟨?_, ?_, fun i hi => ?_⟩, Function.update_self ..⟩
  · rw [Function.update_of_ne (by omega)]
    exact hcourse.reaches
  · rw [Function.update_of_ne (by omega)]
    exact hcourse.fresh
  · rw [Function.update_of_ne (by omega)]
    rcases Nat.lt_succ_iff_lt_or_eq.mp hi with hlt | rfl
    · rw [Function.update_of_ne (by omega)]
      exact hcourse.moves i hlt
    · rw [Function.update_self]
      exact hmove

end Course

/-- **What a host reaches it reaches by a course.** -/
theorem Reaches.exists_course (hm : m.Reaches host base) : ∃ run n, Course host base run n ∧ run n = m := by
  have hnext : ∀ {base : Nat} {m m' : Machine}, (∃ run n, Course host base run n ∧ run n = m) →
      m.Moves host base m' → ∃ run n, Course host base run n ∧ run n = m' := by
    rintro base _ m' ⟨run, n, hcourse, rfl⟩ hmove
    obtain ⟨run', hcourse', hend⟩ := hcourse.extend hmove
    exact ⟨run', n + 1, hcourse', hend⟩
  induction hm with
  | @prepared m hm hidle =>
    refine ⟨fun _ => m, 0, .of_reaches (.prepared hm hidle) fun f fs habove => ?_, rfl⟩
    rw [hidle] at habove
    cases habove
  | @opened base m m' q hm bound hq hopens _ =>
    exact ⟨fun _ => m', 0, .of_reaches (.opened hm bound hq hopens) hopens.fresh, rfl⟩
  | crossed _ bound hrun ih => exact hnext ih (.crossed bound hrun)
  | collected _ hrun ih => exact hnext ih (.collected hrun)
  | aborted _ he hrun ih => exact hnext ih (.aborted he hrun)
  | elapsed _ k ih => exact hnext ih (.elapsed k)
  | @entered base m m₁ n n' f i q hm bound hruns hasks hopens _ =>
    exact ⟨fun _ => n', 0, .of_reaches (.entered hm bound hruns hasks hopens) hopens.fresh, rfl⟩

/-- The machine after some boundaries, if nothing happens in between. -/
def driven (host : Host) (bound base : Nat) (m : Machine) : Nat → Machine
  | 0 => m
  | n + 1 =>
    let before := driven host bound base m n
    ((advance host (host.engine bound) base before).state?).getD before

/-- **Driving a machine is a course.** -/
theorem Course.of_driven (hm : m.Reaches host base)
    (hfresh : ∀ f fs, m.frames.above base = f :: fs → f.input = .start ∧ fs = []) (bound n : Nat) :
    Course host base (m.driven host bound base) n := by
  refine ⟨hm, hfresh, fun i _ => ?_⟩
  cases hrun : (advance host (host.engine bound) base (m.driven host bound base i)).state? with
  | none =>
    rw [driven, hrun]
    exact .elapsed _
  | some m' =>
    rw [driven, hrun]
    exact .crossed bound hrun

/-- So is running a program. -/
theorem Course.of_openedProgram {limits : HeapLimits} {body : List Stmt} (hopened : openedProgram limits body = some m)
    (bound n : Nat) : Course (Host.plain []) 0 (m.driven (Host.plain []) bound 0) n := by
  refine .of_driven (reaches_openedProgram hopened) (fun f fs habove => ?_) bound n
  obtain ⟨m₀, hcreate, rfl⟩ := Option.map_eq_some_iff.mp hopened
  have hidle := (Machine.held_create (Except.eq_ok_of_toOption hcreate)).frames
  rw [Machine.frames_openFrame, hidle, Stack.above_push (Nat.zero_le _)] at habove
  cases habove
  exact ⟨rfl, rfl⟩

/-! ### Courses are trails -/

theorem Moves.proceeds (hmove : m.Moves host base m') : m.Proceeds host base m' := by
  cases hmove with
  | crossed bound hrun => exact proceeds_crossed bound hrun
  | collected hrun => exact proceeds_collected hrun
  | aborted he hrun => exact proceeds_aborted hrun
  | elapsed k => exact .of_above rfl

end Machine

/-- **Where there are no native functions** the code that runs leaves the open tasks. -/
theorem World.Follows.contained (hw : w.Follows S base m) (bound : Nat) : m.Contained host bound base where
  ready t ts hopen := by
    have hnested := hw.nested
    rw [hopen] at hnested
    exact hnested.1
  work {st f i} _ _ := by
    refine (f.keeps_held_work (host.engine_holds bound) i _ (hw.held st)).imp fun m' hheld => ?_
    rw [Machine.tasks, hheld.frames]
  opens {st f i t q m₁} _ _ hdone := by
    have hkept := f.keeps_held_work (host.engine_holds bound) i _ (hw.held st)
    rw [hdone] at hkept
    obtain rfl : m₁.frames = st := hkept.frames
    let waiting : Machine :=
      { m₁ with frames := m₁.frames.push { f with task := t, input := .waiting }, active := some ⟨f.depth, f.quiet⟩ }
    show (openCall host (host.engine bound) q (f.depth + 1) f.quiet waiting).OpensOn waiting.tasks
    rw [openCall_scripted host _ (m := waiting) hkept.heap]
    exact waiting.opensOn_opening q _ _

namespace Machine

/-- **A course is a trail.** -/
theorem Course.trail (hhost : host.BySyntax) (hcourse : Course host base run n) : Trail host base run n where
  fresh := hcourse.fresh
  contained i hi bound := by
    obtain ⟨w, hw⟩ := (hcourse.reaches_at i hi.le).follows hhost
    exact hw.contained bound
  proceeds i hi := (hcourse.moves i hi).proceeds

end Machine

end ScriptCore
