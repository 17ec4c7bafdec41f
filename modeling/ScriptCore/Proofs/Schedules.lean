import ScriptCore.Proofs.Soundness

/-! # Schedules

A host that has started a program drives it by steps and by runs, and collects garbage in between as it
likes; or it executes the program in one go. Whatever it does comes down to a trail of boundaries and
collections (`Ends`), in which each boundary has an engine of its own bound.

* `Host.play`: what a host may do with a program, move by move.
* `Schedule.ends`: the end that a schedule brings a program to, if it does.
* `ends_of_schedule`: **a schedule that ends is a trail**. -/

namespace ScriptCore

variable {host : Host} {ρ : Renaming} {m m' : Machine} {N k n : Nat} {o : Except Error Completion}

/-! ### What a host does -/

/-- What a host may do with a program that it started; code is run within a bound. -/
inductive Move where
  | collect
  | step (bound : Nat)
  | run (bound : Nat)

/-- Makes the moves until the program has ended; `none` if it has not. -/
def Host.play (host : Host) : List Move → Run (Option Completion)
  | [] => return none
  | .collect :: moves => do
    collectGarbage
    host.play moves
  | .step bound :: moves => do
    match ← (host.engine bound).step with
    | some c => return some c
    | none => host.play moves
  | .run bound :: _ => some <$> (host.engine bound).run

/-- How a host runs a program. -/
inductive Schedule where
  /-- It executes the program in one go. -/
  | execute (bound : Nat)
  /-- It starts the program and makes moves. -/
  | drive (options : BranchOptions) (moves : List Move)

/-- The options under which the program runs. -/
def Schedule.options : Schedule → BranchOptions
  | .execute _ => executeOptions
  | .drive options _ => options

/-- How a program ended: a host that drove it gets its completion, one that executed it a value. -/
inductive Ending where
  | completion (outcome : Except Error Completion)
  | value (outcome : Except Error Value)

/-- The value that a program ended with. -/
def Ending.result : Ending → Except Error Value
  | .completion o => o.bind completionValue
  | .value o => o

/-- The end that a schedule brings a program to: nothing if it stalls or the moves do not suffice. -/
def Schedule.ends (host : Host) (body : List Stmt) (m : Machine) : Schedule → Option (Ending × Machine)
  | .execute bound =>
    match (host.engine bound).execute body m with
    | .done v m => some (.value (.ok v), m)
    | .failed e m => some (.value (.error e), m)
    | .stalled => none
  | .drive options moves =>
    match (host.startRoot (m.program body options) >>= fun _ => host.play moves) m with
    | .done (some c) m => some (.completion (.ok c), m)
    | .failed e m => some (.completion (.error e), m)
    | .done none _ | .stalled => none

/-! ### Trails -/

/-- From where the last boundary led, `k` more boundaries and any collections lead to the end of the
program. The engines of the boundaries have at most the bound `N`. -/
inductive Ends (host : Host) (N : Nat) :
    Nat → Advance → Machine → Except Error Completion → Machine → Prop where
  | finished {o : Except Error Completion} {m : Machine} : Ends host N 0 (.finished o) m o m
  | collect {k : Nat} {m m' : Machine} {o : Except Error Completion}
      (h : Ends host N k .going m.swept o m') : Ends host N k .going m o m'
  | turn {k b : Nat} {m m₁ m' : Machine} {x : Advance} {o : Except Error Completion} (hb : b ≤ N)
      (hm : advance host (host.engine b) 0 m = .done x m₁) (h : Ends host N k x m₁ o m') :
      Ends host N (k + 1) .going m o m'

theorem Ends.mono {N' : Nat} {x : Advance} (h : Ends host N k x m o m') (hN : N ≤ N') :
    Ends host N' k x m o m' := by
  induction h with
  | finished => exact .finished
  | collect _ ih => exact .collect ih
  | turn hb hm _ ih => exact .turn (Nat.le_trans hb hN) hm ih

/-- Driving to the end is a trail. -/
theorem ends_of_drive (hhost : host.BySyntax) (b : Nat) : ∀ (bound : Nat) {ρ : Renaming} {n : Nat}
    {m : Machine}, Driven .same none .empty .empty ρ n m m →
      drive host (host.engine b) 0 bound m = ending id o m' → ∃ k, Ends host b k .going m o m'
  | 0, _, _, _, _, h => by cases o <;> cases h
  | bound + 1, _, _, m, hd, h => by
    have hgoes := goes_advance hhost b hd
    rw [drive_succ] at h
    generalize ho : advance host (host.engine b) 0 m = x at hgoes h
    cases hgoes with
    | going hd =>
      obtain ⟨k, hk⟩ := ends_of_drive hhost b bound hd h
      exact ⟨k + 1, .turn (Nat.le_refl b) ho hk⟩
    | @finished _ o' _ _ _ =>
      refine ⟨1, .turn (Nat.le_refl b) ho ?_⟩
      cases o' <;> cases o <;> cases h <;> exact .finished
    | stalled => cases o <;> cases h

/-- Driving to a visible boundary: what follows from there is a trail from here. -/
theorem ends_of_driveVisible (hhost : host.BySyntax) (b : Nat) : ∀ (bound : Nat) {ρ : Renaming} {n : Nat}
    {m m₁ : Machine}, Driven .same none .empty .empty ρ n m m →
      driveVisible host (host.engine b) bound m = .done none m₁ →
      (∃ ρ n, Driven .same none .empty .empty ρ n m₁ m₁) ∧
        ∀ {N k o m'}, Ends host N k .going m₁ o m' → b ≤ N → ∃ k, Ends host N k .going m o m'
  | 0, _, _, _, _, _, h => by cases h
  | bound + 1, _, _, m, m₁, hd, h => by
    have hgoes := goes_advance hhost b hd
    unfold driveVisible at h
    generalize ho : advance host (host.engine b) 0 m = x at hgoes h
    cases hgoes with
    | @going _ _ m₂ hd =>
      dsimp only at h
      split at h
      · obtain ⟨hd', hend⟩ := ends_of_driveVisible hhost b bound hd h
        refine ⟨hd', fun hk hb => ?_⟩
        obtain ⟨k, hk⟩ := hend hk hb
        exact ⟨k + 1, .turn hb ho hk⟩
      · cases h
        exact ⟨⟨_, _, hd⟩, fun hk hb => ⟨_, .turn hb ho hk⟩⟩
    | @finished _ o' _ _ _ => cases o' <;> cases h
    | stalled => cases h

/-- Driving to a visible boundary, where the program ended. -/
theorem ends_of_driveVisible_end (hhost : host.BySyntax) (b : Nat) : ∀ (bound : Nat) {ρ : Renaming}
    {n : Nat} {m : Machine}, Driven .same none .empty .empty ρ n m m →
      driveVisible host (host.engine b) bound m = ending some o m' → ∃ k, Ends host b k .going m o m'
  | 0, _, _, _, _, h => by cases o <;> cases h
  | bound + 1, _, _, m, hd, h => by
    have hgoes := goes_advance hhost b hd
    unfold driveVisible at h
    generalize ho : advance host (host.engine b) 0 m = x at hgoes h
    cases hgoes with
    | @going _ _ m₂ hd =>
      dsimp only at h
      split at h
      · obtain ⟨k, hk⟩ := ends_of_driveVisible_end hhost b bound hd h
        exact ⟨k + 1, .turn (Nat.le_refl b) ho hk⟩
      · cases o <;> cases h
    | @finished _ o' _ _ _ =>
      refine ⟨1, .turn (Nat.le_refl b) ho ?_⟩
      cases o' <;> cases o <;> cases h <;> exact .finished
    | stalled => cases o <;> cases h

/-- **Moves that end a program are a trail.** -/
theorem ends_of_play (hhost : host.BySyntax) : ∀ (moves : List Move) {ρ : Renaming} {n : Nat}
    {m : Machine}, Driven .same none .empty .empty ρ n m m → host.play moves m = ending some o m' →
      ∃ N k, Ends host N k .going m o m'
  | [], _, _, _, _, h => by cases o <;> cases h
  | .collect :: moves, _, _, m, hd, h => by
    unfold Host.play at h
    rw [Proc.bind_done (collectGarbage_eq hd.active.1)] at h
    obtain ⟨ρ', hd⟩ := hd.swept_self
    obtain ⟨N, k, hk⟩ := ends_of_play hhost moves hd h
    exact ⟨N, k, .collect hk⟩
  | .step 0 :: moves, _, _, m, hd, h => by cases o <;> cases h
  | .step (b + 1) :: moves, _, _, m, hd, h => by
    have hstep := step_running host hd.isEmpty_frames.1 hd.active.1 b
    unfold Host.play at h
    cases hout : driveVisible host (host.engine b) b m with
    | done c m₁ =>
      rw [Proc.bind_done (hstep.trans hout)] at h
      cases c with
      | some c =>
        obtain ⟨k, hk⟩ := ends_of_driveVisible_end hhost b b hd (hout.trans h)
        exact ⟨b, k, hk⟩
      | none =>
        obtain ⟨⟨ρ', n', hd'⟩, hend⟩ := ends_of_driveVisible hhost b b hd hout
        obtain ⟨N, k, hk⟩ := ends_of_play hhost moves hd' h
        obtain ⟨k, hk⟩ := hend (hk.mono (Nat.le_max_left N b)) (Nat.le_max_right N b)
        exact ⟨_, k, hk⟩
    | failed e m₁ =>
      rw [Proc.bind_failed (hstep.trans hout)] at h
      obtain ⟨k, hk⟩ := ends_of_driveVisible_end hhost b b hd (hout.trans h)
      exact ⟨b, k, hk⟩
    | stalled =>
      rw [Proc.bind_stalled (hstep.trans hout)] at h
      cases o <;> cases h
  | .run 0 :: moves, _, _, m, hd, h => by cases o <;> cases h
  | .run (b + 1) :: moves, _, _, m, hd, h => by
    have hrun := run_running host hd.isEmpty_frames.1 hd.active.1 b
    have hdrive : drive host (host.engine b) 0 b m = ending id o m' := by
      change Proc.bind (host.engine (b + 1)).run _ m = _ at h
      simp only [Proc.bind, hrun] at h
      generalize drive host (host.engine b) 0 b m = x at h ⊢
      cases x <;> cases o <;> cases h <;> rfl
    obtain ⟨k, hk⟩ := ends_of_drive hhost b b hd hdrive
    exact ⟨b, k, hk⟩

/-! ### Schedules -/

/-- What the host of a schedule gets from the outcome of the program. -/
def Schedule.ending : Schedule → Except Error Completion → Ending
  | .execute _, o => .value (o.bind completionValue)
  | .drive _ _, o => .completion o

theorem endingValue_ending (o : Except Error Completion) (m : Machine) :
    endingValue (ending id o m) = Proc.ofExcept (o.bind completionValue) m := by
  cases o <;> rfl

/-- The outcome of a program that did not stall. -/
theorem drive_cases (x : Outcome Machine Completion) : x = .stalled ∨ ∃ o m, x = ending id o m := by
  cases x with
  | done c m => exact .inr ⟨.ok c, m, rfl⟩
  | failed e m => exact .inr ⟨.error e, m, rfl⟩
  | stalled => exact .inl rfl

/-- **A schedule that ends is a trail.** -/
theorem ends_of_schedule (hhost : host.BySyntax) (hm : Machine.At .same none .empty .empty ρ m m)
    {s : Schedule} {body : List Stmt} {e : Ending} (hs : s.options.IsBare)
    (h : s.ends host body m = some (e, m')) :
    ∃ N k o, Ends host N k .going (m.openProgram body s.options) o m' ∧ e = s.ending o := by
  have hd := driven_openProgram hm body hs
  cases s with
  | execute bound =>
    cases bound with
    | zero => cases h
    | succ b =>
      change (match host.executeOn (host.engine b) b body m with
        | .done v m => some (Ending.value (.ok v), m)
        | .failed e m => some (.value (.error e), m)
        | .stalled => none) = some (e, m') at h
      rw [executeOn_eq hhost hm.left.1 hm.left.2] at h
      rcases drive_cases (drive host (host.engine b) 0 b (m.openProgram body executeOptions))
        with hx | ⟨o, m₁, hx⟩
      · rw [hx] at h
        cases h
      · obtain ⟨k, hk⟩ := ends_of_drive hhost b b hd hx
        rw [hx, endingValue_ending] at h
        refine ⟨b, k, o, ?_⟩
        have hout : (Ending.value (o.bind completionValue), m₁) = (e, m') := by
          generalize o.bind completionValue = r at h
          cases r <;> exact Option.some.inj h
        cases hout
        exact ⟨hk, rfl⟩
  | drive options moves =>
    change (match (host.startRoot (m.program body options) >>= fun _ => host.play moves) m with
      | .done (some c) m => some (Ending.completion (.ok c), m)
      | .failed e m => some (.completion (.error e), m)
      | .done none _ | .stalled => none) = some (e, m') at h
    rw [Proc.bind_done (startRoot_eq hhost hm.left.1 hm.left.2 _)] at h
    have hplay : ∃ o, host.play moves (m.openProgram body options) = ending some o m' ∧
        e = .completion o := by
      change (match host.play moves (m.openProgram body options) with
        | .done (some c) m => some (Ending.completion (.ok c), m)
        | .failed e m => some (.completion (.error e), m)
        | .done none _ | .stalled => none) = some (e, m') at h
      generalize host.play moves (m.openProgram body options) = x at h ⊢
      cases x with
      | done c m =>
        cases c with
        | some c => cases h; exact ⟨.ok c, rfl, rfl⟩
        | none => cases h
      | failed e m => cases h; exact ⟨.error e, rfl, rfl⟩
      | stalled => cases h
    obtain ⟨o, hplay, rfl⟩ := hplay
    obtain ⟨N, k, hk⟩ := ends_of_play hhost moves hd hplay
    exact ⟨N, k, o, hk, rfl⟩

end ScriptCore
