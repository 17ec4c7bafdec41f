import ScriptCore.Proofs.Renaming.Frames

/-! # Frames are driven alike

Two machines that are alike stay alike over a boundary: both open a child, both close a frame, or both
finish. If one side runs out of memory it unwinds, and nothing more is asked of the other.

* `turned`: one boundary without a collection.
* `meets_drive`: driving to the end inside a running task, where nothing is collected.
* `Host.sim_engine`: **the engines of a host run code alike**, whatever their bounds. If the bound on the
  right is more than twice the one on the left, the right side stalls only when the left side does. -/

namespace ScriptCore

variable {M : Mode} {ρ ρ' : Renaming} {host : Host} {E E₁ E₂ : Engine} {m m₁ m₂ : Machine}
  {a : Option Active} {s s₁ s₂ b b₁ b₂ : Stack Frame} {f f' g g' : Frame} {n : Nat}

/-! ### Running the task of a frame -/

/-- What running two frames that are off their stacks comes to. -/
inductive Fed (M : Mode) (a : Option Active) (s₁ s₂ : Stack Frame) (ρ : Renaming) :
    Outcome Machine (Except Error Step × Frame) → Outcome Machine (Except Error Step × Frame) → Prop where
  | suspended {ρ' : Renaming} {c c' : Suspension} {g g' : Frame} {m₁ m₂ : Machine} (hρ : ρ ≤ ρ')
      (hm : Machine.At M a s₁ s₂ ρ' m₁ m₂) (hc : Alike ρ' c c') (hg : Alike ρ' g g') (hw : g.Waits) :
      Fed M a s₁ s₂ ρ (.done (.ok (.suspended c), g) m₁) (.done (.ok (.suspended c'), g') m₂)
  | finished {ρ' : Renaming} {c c' : Completion} {g g' : Frame} {m₁ m₂ : Machine} (hρ : ρ ≤ ρ')
      (hm : Machine.At M a s₁ s₂ ρ' m₁ m₂) (hc : Alike ρ' c c') (hcall : g.isCall = g'.isCall) :
      Fed M a s₁ s₂ ρ (.done (.ok (.finished c), g) m₁) (.done (.ok (.finished c'), g') m₂)
  | failed {ρ' : Renaming} {e e' : Error} {g g' : Frame} {m₁ m₂ : Machine} (hρ : ρ ≤ ρ')
      (hm : Machine.At M a s₁ s₂ ρ' m₁ m₂) (he : Alike ρ' e e') (hcall : g.isCall = g'.isCall) :
      Fed M a s₁ s₂ ρ (.done (.error e, g) m₁) (.done (.error e', g') m₂)
  | leftFull {g : Frame} {m : Machine} {o : Outcome Machine (Except Error Step × Frame)}
      (hM : ¬ M.lockstep) (hm : m.frames = s₁ ∧ m.active = a) :
      Fed M a s₁ s₂ ρ (.done (.error .outOfMemory, g) m) o
  | rightFull {g : Frame} {m : Machine} {o : Outcome Machine (Except Error Step × Frame)}
      (hM : ¬ M.lockstep) (hm : m.frames = s₂ ∧ m.active = a) :
      Fed M a s₁ s₂ ρ o (.done (.error .outOfMemory, g) m)
  | leftStalled {o : Outcome Machine (Except Error Step × Frame)} : Fed M a s₁ s₂ ρ .stalled o
  | rightStalled {o : Outcome Machine (Except Error Step × Frame)} (hM : ¬ M.outlasts) :
      Fed M a s₁ s₂ ρ o .stalled

/-- Accounting for a boundary passes, or stops the run. -/
theorem tick_cases (k : Monitor) : (∃ k', Monitor.tick k = .done () k') ∨
    ∃ reason calls k', Monitor.tick k = .failed (.termination reason calls) k' := by
  unfold Monitor.tick
  cases Monitor.spend k.budget.fuel with
  | none => exact .inr ⟨_, _, _, rfl⟩
  | some fuel =>
    dsimp only
    split
    · exact .inr ⟨_, _, _, rfl⟩
    · split
      · exact .inr ⟨_, _, _, rfl⟩
      · exact .inl ⟨_, rfl⟩

/-- Both sides account for a boundary alike. -/
theorem tickUnlessFailed_alike {o o' : Option (Except Error Completion)} (ho : Alike ρ o o')
    (hm : m₁.monitor = m₂.monitor) :
    ∃ (r : Except Error Unit) (k : Monitor),
      tickUnlessFailed o m₁ = .done r { m₁ with monitor := k } ∧
      tickUnlessFailed o' m₂ = .done r { m₂ with monitor := k } ∧
      ∀ e, r = .error e → ∃ reason calls, e = .termination reason calls := by
  have tick : ∃ (r : Except Error Unit) (k : Monitor),
      Proc.attempt (Run.onMonitor Monitor.tick) m₁ = .done r { m₁ with monitor := k } ∧
      Proc.attempt (Run.onMonitor Monitor.tick) m₂ = .done r { m₂ with monitor := k } ∧
      ∀ e, r = .error e → ∃ reason calls, e = .termination reason calls := by
    unfold Proc.attempt Run.onMonitor
    rw [hm]
    rcases tick_cases m₂.monitor with ⟨k, hk⟩ | ⟨reason, calls, k, hk⟩
    · rw [hk]
      exact ⟨_, k, rfl, rfl, nofun⟩
    · rw [hk]
      exact ⟨_, k, rfl, rfl, fun e he => by cases he; exact ⟨reason, calls, rfl⟩⟩
  cases ho with
  | none => exact tick
  | some ho =>
    cases ho with
    | ok _ => exact tick
    | error _ =>
      refine ⟨.ok (), m₁.monitor, rfl, ?_, nofun⟩
      rw [hm]
      rfl

/-- **The tasks of two frames run alike.** -/
theorem fed_runTask (hE : Engine.Sim M E₁ E₂) {o o' : Option (Except Error Completion)}
    (hm : Machine.At M a s₁ s₂ ρ m₁ m₂) (hf : Alike ρ f f') (hwaiting : f.input = .waiting)
    (ho : Alike ρ o o') (hfresh : o = none → f.task.Fresh) (hresumable : o ≠ none → f.task.Resumable) :
    Fed M a s₁ s₂ ρ (runTask E₁ f o m₁) (runTask E₂ f' o' m₂) := by
  obtain ⟨htask, hinfo, hinput, hdepth, hquiet, hcall⟩ := Frame.alike_iff.mp hf
  obtain ⟨r, k, hr₁, hr₂, hstop⟩ := tickUnlessFailed_alike ho hm.monitor
  rw [runTask_eq, runTask_eq, hr₁, hr₂]
  cases r with
  | error e =>
    obtain ⟨reason, calls, rfl⟩ := hstop e rfl
    exact .failed le_rfl ⟨hm.heap, hm.realm, rfl, hm.left, hm.right⟩ (.same rfl nofun) hcall
  | ok _ =>
    have hrun : Machine.Running M ⟨s₁, s₂, ⟨f.depth, f.quiet⟩⟩ ρ
        { m₁ with monitor := k, active := some ⟨f.depth, f.quiet⟩ }
        { m₂ with monitor := k, active := some ⟨f'.depth, f'.quiet⟩ } :=
      ⟨hm.heap, hm.realm, rfl, ⟨hm.left.1, rfl⟩, ⟨hm.right.1, by rw [hdepth, hquiet]⟩⟩
    have hran : Ran M ⟨s₁, s₂, ⟨f.depth, f.quiet⟩⟩ ρ
        (f.act E₁ o { m₁ with monitor := k, active := some ⟨f.depth, f.quiet⟩ })
        (f'.act E₂ o' { m₂ with monitor := k, active := some ⟨f'.depth, f'.quiet⟩ }) := by
      cases ho with
      | none => exact Task.ran_start hE htask (hfresh rfl) hrun
      | some ho => exact Task.ran_resume hE htask (hresumable nofun) ho hrun
    dsimp only
    generalize f.act E₁ o _ = x, f'.act E₂ o' _ = y at hran
    -- the frame that was running before is the one that runs again
    have back : ∀ {ρ'} {n₁ n₂ : Machine}, Machine.Running M ⟨s₁, s₂, ⟨f.depth, f.quiet⟩⟩ ρ' n₁ n₂ →
        Machine.At M a s₁ s₂ ρ' { n₁ with active := m₁.active } { n₂ with active := m₂.active } :=
      fun h => ⟨h.heap, h.realm, h.monitor, ⟨h.left.1, hm.left.2⟩, ⟨h.right.1, hm.right.2⟩⟩
    cases hran with
    | finished hρ hm hc => exact .finished hρ (back hm) hc hcall
    | suspended hρ hm hs ht hw =>
      have hf := Frame.alike_iff.mp (hf.mono hρ)
      exact .suspended hρ (back hm) hs ⟨ht, hf.2⟩ ⟨hwaiting, hw⟩
    | failed hρ hm he => exact .failed hρ (back hm) he hcall
    | leftFull hM h => exact .leftFull hM ⟨h.1, hm.left.2⟩
    | rightFull hM h => exact .rightFull hM ⟨h.1, hm.right.2⟩
    | leftStalled => exact .leftStalled
    | rightStalled hM => exact .rightStalled hM

theorem fed_feed (hE : Engine.Sim M E₁ E₂) (hm : Machine.At M a s₁ s₂ ρ m₁ m₂) (hf : Alike ρ f f')
    (hfits : f.Fits) : Fed M a s₁ s₂ ρ (feed E₁ f m₁) (feed E₂ f' m₂) := by
  obtain ⟨task, info, depth, quiet, isCall, input⟩ := f
  obtain ⟨task', info', depth', quiet', isCall', input'⟩ := f'
  obtain ⟨htask, hinfo, hinput, hrest⟩ := Frame.alike_iff.mp hf
  have hwaiting : Alike ρ (Frame.mk task info depth quiet isCall .waiting)
      ⟨task', info', depth', quiet', isCall', .waiting⟩ := ⟨htask, hinfo, .waiting, hrest⟩
  cases hinput with
  | start => exact fed_runTask hE hm hwaiting rfl .none (fun _ => hfits) fun h => absurd rfl h
  | deliver ho => exact fed_runTask hE hm hwaiting rfl (.some ho) nofun fun _ => hfits
  | fail he => exact .failed le_rfl hm he hrest.2.2
  | waiting => exact hfits.elim

/-! ### One boundary -/

/-- What driving two frames over a boundary comes to, with `n` frames waiting beneath. -/
inductive Turned (M : Mode) (a : Option Active) (b₁ b₂ : Stack Frame) (ρ : Renaming) (n : Nat) :
    Outcome Machine Advance → Outcome Machine Advance → Prop where
  | going {ρ' : Renaming} {k : Nat} {m₁ m₂ : Machine} (hρ : ρ ≤ ρ') (hm : Driven M a b₁ b₂ ρ' k m₁ m₂)
      (hk : k ≤ n + 1) : Turned M a b₁ b₂ ρ n (.done .going m₁) (.done .going m₂)
  | finished {ρ' : Renaming} {o o' : Except Error Completion} {m₁ m₂ : Machine} (hρ : ρ ≤ ρ')
      (hm : Machine.At M a b₁ b₂ ρ' m₁ m₂) (ho : Alike ρ' o o') :
      Turned M a b₁ b₂ ρ n (.done (.finished o) m₁) (.done (.finished o') m₂)
  | leftFull {o o' : Outcome Machine Advance} (hM : ¬ M.lockstep) (ho : Unwinds b₁ a n o) :
      Turned M a b₁ b₂ ρ n o o'
  | rightFull {o o' : Outcome Machine Advance} (hM : ¬ M.lockstep) (ho' : Unwinds b₂ a n o') :
      Turned M a b₁ b₂ ρ n o o'
  | leftStalled {o : Outcome Machine Advance} : Turned M a b₁ b₂ ρ n .stalled o
  | rightStalled {o : Outcome Machine Advance} (hM : ¬ M.outlasts) : Turned M a b₁ b₂ ρ n o .stalled

/-- Frames close alike. -/
theorem turned_close {o o' : Except Error Completion} (hρ : ρ ≤ ρ') (hm : Machine.At M a s₁ s₂ ρ' m₁ m₂)
    (hs : Piled ρ' b₁ b₂ n s₁ s₂) (ho : Alike ρ' o o') (hcall : g.isCall = g'.isCall) :
    Turned M a b₁ b₂ ρ n (.done (m₁.close g o b₁.size).1 (m₁.close g o b₁.size).2)
      (.done (m₂.close g' o' b₂.size).1 (m₂.close g' o' b₂.size).2) := by
  have hleave : Machine.At M a s₁ s₂ ρ' (m₁.leave g o) (m₂.leave g' o') := by
    refine ⟨?_, ?_, ?_, ?_, ?_⟩
    · simpa using hm.heap
    · simpa using hm.realm
    · simp [hm.monitor, hcall]
    · simpa using hm.left
    · simpa using hm.right
  rw [Machine.close_eq, Machine.close_eq, hm.left.1, hm.right.1, hs.left.size_eq, hs.right.size_eq]
  cases hs with
  | base => simpa using Turned.finished hρ hleave ho
  | @push n s₁ s₂ x x' hs hx hw =>
    rw [if_neg (by omega), if_neg (by omega)]
    exact .going hρ (driven_deliver hleave hs hx hw ho) (by omega)

/-- **One boundary without a collection.** -/
theorem turned (hhost : host.BySyntax) (hE : Engine.Sim M E₁ E₂) (hm : Machine.At M a s₁ s₂ ρ m₁ m₂)
    (hs : Piled ρ b₁ b₂ n s₁ s₂) (hf : Alike ρ f f') (hfits : f.Fits) :
    Turned M a b₁ b₂ ρ n (turn host E₁ b₁.size f m₁) (turn host E₂ b₂.size f' m₂) := by
  have hfed := fed_feed hE hm hf hfits
  unfold turn
  generalize feed E₁ f m₁ = o, feed E₂ f' m₂ = o' at hfed
  cases hfed with
  | finished hρ hm hc hcall => exact turned_close hρ hm (hs.mono hρ) (.ok hc) hcall
  | failed hρ hm he hcall => exact turned_close hρ hm (hs.mono hρ) (.error he) hcall
  | leftFull hM hm => exact .leftFull hM (unwinds_close hs.left hm _)
  | rightFull hM hm => exact .rightFull hM (unwinds_close hs.right hm _)
  | leftStalled => exact .leftStalled
  | rightStalled hM => exact .rightStalled hM
  | @suspended ρ' c c' g g' m₁ m₂ hρ hm hc hg hw =>
    obtain ⟨-, -, -, hdepth, hquiet, -⟩ := Frame.alike_iff.mp hg
    have hpushed : Machine.At M (some ⟨g.depth, g.quiet⟩) (s₁.push g) (s₂.push g') ρ'
        { m₁ with frames := m₁.frames.push g, active := some ⟨g.depth, g.quiet⟩ }
        { m₂ with frames := m₂.frames.push g', active := some ⟨g'.depth, g'.quiet⟩ } :=
      ⟨hm.heap, hm.realm, hm.monitor, ⟨by rw [hm.left.1], rfl⟩,
        ⟨by rw [hm.right.1], by rw [hdepth, hquiet]⟩⟩
    obtain ⟨m₁', m₂', k, h₁, h₂, ⟨hat, hpile, hx, hxfits⟩, hk⟩ :=
      driven_openChild E₁ E₂ hhost hpushed (hs.mono hρ) hg hw hc (g.depth + 1) g.quiet
    rw [hdepth, hquiet] at h₂
    dsimp only
    rw [suspend_eq, suspend_eq, h₁, h₂]
    refine .going hρ ⟨?_, hpile, hx, hxfits⟩ hk
    exact ⟨hat.heap, hat.realm, hat.monitor, ⟨hat.left.1, hm.left.2⟩, ⟨hat.right.1, hm.right.2⟩⟩

/-! ### Many boundaries inside a running task -/

/-- What a finished frame leaves, as the outcome of a drive. -/
theorem meets_ending {i : Site} {o o' : Except Error Completion} (hρ : ρ ≤ ρ')
    (hm : Machine.Running M i ρ' m₁ m₂) (ho : Alike ρ' o o') :
    Meets M i Alike ρ (ending id o m₁) (ending id o' m₂) := by
  cases ho with
  | ok hc => exact .done hρ hm hc
  | error he => exact .failed hρ hm he

/-- **Driving to the end.** Each boundary opens one frame at most, so a side that unwinds needs no more
boundaries than there were. -/
theorem meets_drive (hhost : host.BySyntax) (hE : Engine.Sim M E₁ E₂) (i : Site) :
    ∀ (k₁ k₂ n : Nat) (ρ : Renaming) (m₁ m₂ : Machine),
      Driven M (some i.active) i.left i.right ρ n m₁ m₂ → (M.outlasts → 2 * k₁ + n + 1 ≤ k₂) →
      Meets M i Alike ρ (drive host E₁ i.left.size k₁ m₁) (drive host E₂ i.right.size k₂ m₂)
  | 0, _, _, _, _, _, _, _ => .leftStalled
  | k₁ + 1, 0, n, _, _, _, _, hk => .rightStalled fun hM => absurd (hk hM) (by omega)
  | k₁ + 1, k₂ + 1, n, ρ, m₁, m₂, hdriven, hk => by
    obtain @⟨f, f', s₁, s₂, hm, hs, hf, hfits⟩ := hdriven
    have hoff : Machine.At M (some i.active) s₁ s₂ ρ { m₁ with frames := s₁ } { m₂ with frames := s₂ } :=
      ⟨hm.heap, hm.realm, hm.monitor, ⟨rfl, hm.left.2⟩, ⟨rfl, hm.right.2⟩⟩
    have hturned := turned hhost hE hoff hs hf hfits
    rw [drive_succ, drive_succ, advance_eq_turn hm.left.1 (by rw [hs.left.size_eq]; omega),
      advance_eq_turn hm.right.1 (by rw [hs.right.size_eq]; omega),
      Machine.collected_of_active hm.left.2, Machine.collected_of_active hm.right.2]
    generalize turn host E₁ i.left.size _ _ = o, turn host E₂ i.right.size _ _ = o' at hturned
    cases hturned with
    | going hρ hm hle =>
      exact (meets_drive hhost hE i k₁ k₂ _ _ _ _ hm fun hM => by have := hk hM; omega).weaken hρ
    | finished hρ hm ho => exact meets_ending hρ hm.running ho
    | leftFull hM ho =>
      rcases ho.proceed host E₁ k₁ with ⟨m, hm, hsame⟩ | ⟨hstall, -⟩
      · rw [hm]
        exact .leftFull hM hsame
      · rw [hstall]
        exact .leftStalled
    | rightFull hM ho =>
      rcases ho.proceed host E₂ k₂ with ⟨m, hm, hsame⟩ | ⟨hstall, hlt⟩
      · rw [hm]
        exact .rightFull hM hsame
      · rw [hstall]
        exact .rightStalled fun hM => by have := hk hM; omega
    | leftStalled => exact .leftStalled
    | rightStalled hM => exact .rightStalled hM

/-! ### Engines -/

theorem childContext_eq {x : Active} (h : m.active = some x) :
    m.childContext = (x.depth + 1, x.quiet) := by
  unfold Machine.childContext
  rw [h]

theorem evaluateOn_of_active (hhost : host.BySyntax) {E : Engine} {x : Active} (hx : m.active = some x)
    (k : Nat) (r : BranchRequest) :
    host.evaluateOn E k r m = drive host E m.frames.size k
      (m.openFrame (Task.ofRequest r) r.info (x.depth + 1) x.quiet false) := by
  have hcontext := childContext_eq hx
  show Proc.bind (Proc.ofExcept (host.branch r)) _ m = _
  rw [hhost r]
  show drive host E m.frames.size k
    (m.openFrame (Task.ofRequest r) r.info m.childContext.1 m.childContext.2 false) = _
  rw [hcontext]

theorem callOn_of_active {E : Engine} {x : Active} (hx : m.active = some x) (k : Nat) (v w : Value)
    (vs : List Value) :
    host.callOn E k v w vs m =
      match openCall host E ⟨v, w, vs, m.realm.globalScope, {}⟩ (x.depth + 1) x.quiet m with
      | .done (some v) m => .done v m
      | .done none m' =>
        (drive host E m.frames.size k >>= fun c => liftM (completionValue c) : Run Value) m'
      | .failed e m => .failed e m
      | .stalled => .stalled := by
  have hcontext := childContext_eq hx
  show Proc.bind (openCall host E ⟨v, w, vs, m.realm.globalScope, {}⟩ m.childContext.1 m.childContext.2) _ m =
    _
  rw [hcontext]
  simp only [Proc.bind]
  cases openCall host E ⟨v, w, vs, m.realm.globalScope, {}⟩ (x.depth + 1) x.quiet m with
  | done v m => cases v <;> rfl
  | failed e m => rfl
  | stalled => rfl

theorem sim_evaluateOn (hhost : host.BySyntax) (hE : Engine.Sim M E₁ E₂) {k₁ k₂ : Nat}
    (hk : M.outlasts → 2 * k₁ < k₂) {r r' : BranchRequest} (hr : Alike ρ r r') :
    Sim M ρ Alike (host.evaluateOn E₁ k₁ r) (host.evaluateOn E₂ k₂ r') := by
  intro i ρ' hρ m₁ m₂ hm
  have hr := hr.mono hρ
  obtain ⟨g, g', hat, hg, hgt, hgi⟩ := at_openFrame hm.at (Task.alike_ofRequest hr)
    (BranchRequest.alike_info hr) (i.active.depth + 1) i.active.quiet false
  rw [evaluateOn_of_active hhost hm.left.2, evaluateOn_of_active hhost hm.right.2, hm.left.1, hm.right.1]
  refine meets_drive hhost hE i k₁ k₂ 0 ρ' _ _ ⟨hat, .base, hg, ?_⟩ fun hM => hk hM
  unfold Frame.Fits
  rw [hgi, hgt]
  exact Task.fresh_ofRequest r

theorem alike_completionValue {c d : Completion} (h : Alike ρ c d) :
    Alike ρ (completionValue c) (completionValue d) := by
  cases h with
  | normal hv => exact .ok (alike_getD hv .undefined)
  | thrown hv => exact .error (.throw hv)
  | returned hv => exact .ok hv
  | broken _ _ => exact .error (.same rfl nofun)
  | continued _ _ => exact .error (.same rfl nofun)

theorem sim_callOn (hhost : host.BySyntax) (hE : Engine.Sim M E₁ E₂) {k₁ k₂ : Nat}
    (hk : M.outlasts → 2 * k₁ < k₂) {v v' w w' : Value} {vs ws : List Value} (hv : Alike ρ v v')
    (hw : Alike ρ w w') (hvs : Alike ρ vs ws) :
    Sim M ρ Alike (host.callOn E₁ k₁ v w vs) (host.callOn E₂ k₂ v' w' ws) := by
  intro i ρ' hρ m₁ m₂ hm
  have hr : Alike ρ' (CallRequest.mk v w vs m₁.realm.globalScope {})
      ⟨v', w', ws, m₂.realm.globalScope, {}⟩ :=
    ⟨hv.mono hρ, hw.mono hρ, hvs.mono hρ, (Realm.alike_iff.mp hm.realm).1, .none, rfl⟩
  have hopened := opened_call host E₁ E₂ hm.at hr (i.active.depth + 1)
    i.active.quiet
  rw [callOn_of_active hm.left.2, callOn_of_active hm.right.2, hm.left.1, hm.right.1]
  generalize openCall host E₁ _ _ _ m₁ = o, openCall host E₂ _ _ _ m₂ = o' at hopened
  cases hopened with
  | refused he => exact .failed le_rfl hm he
  | opened hat hg hfits =>
    have hdrive := meets_drive hhost hE i k₁ k₂ 0 ρ' _ _ ⟨hat, .base, hg, hfits⟩ fun hM => hk hM
    exact hdrive.bind fun ρ'' _ c d hc => Sim.ofExcept (alike_completionValue hc)

/-- **The engines of a host run code alike.** -/
theorem Host.sim_engine (hhost : host.BySyntax) : ∀ k₁ k₂ : Nat, (M.outlasts → 2 * k₁ < k₂) →
    Engine.Sim M (host.engine k₁) (host.engine k₂)
  | 0, _, _ => ⟨fun _ _ _ _ _ _ _ => .leftStalled, fun _ _ _ _ _ _ _ _ _ => .leftStalled⟩
  | k₁ + 1, 0, hk => by
    have hM : ¬ M.outlasts := fun hM => absurd (hk hM) (by omega)
    exact ⟨fun _ _ _ _ _ _ _ => .rightStalled hM, fun _ _ _ _ _ _ _ _ _ => .rightStalled hM⟩
  | k₁ + 1, k₂ + 1, hk => by
    have hk' : M.outlasts → 2 * k₁ < k₂ := fun hM => by have := hk hM; omega
    have hE := sim_engine hhost k₁ k₂ hk'
    exact ⟨fun hr => sim_evaluateOn hhost hE hk' hr, fun hf hr hvs => sim_callOn hhost hE hk' hf hr hvs⟩

end ScriptCore
