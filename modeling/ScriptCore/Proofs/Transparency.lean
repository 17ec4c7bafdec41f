import ScriptCore.Proofs.Schedules

/-! # Collections are transparent

Two hosts run one program on new machines with heaps of any limits, each by a schedule of its own. The
trails of the two go boundary by boundary; collections in between change neither what is paired and needed
nor the frames, and a side that runs out of memory unwinds to its end.

* `Ends.agree`: two trails that start alike end alike, unless one runs out of memory.
* `Closes`: a machine that is alike to one whose trail ends comes to an end itself, after at most as many
  boundaries as are given.
* `collection_transparent`: **the schedule does not matter.** -/

namespace ScriptCore

variable {host : Host} {M : Mode} {ρ : Renaming} {m m' m₁ m₁' m₂ m₂' : Machine} {N N₁ N₂ k k₁ k₂ n : Nat}
  {x x₁ x₂ : Advance} {o o₁ o₂ : Except Error Completion}

/-! ### Trails that start alike -/

/-- A trail of a machine that unwinds ends with the failure. -/
theorem Ends.unwinds (h : Ends host N k x m o m') (hu : Unwinds .empty none n (.done x m)) :
    o = .error .outOfMemory := by
  induction h generalizing n with
  | finished => cases hu; rfl
  | collect _ ih =>
    cases hu with
    | going hs hinput htask hframes hactive => exact ih (.going hs hinput htask hframes hactive)
  | turn _ hm _ ih =>
    cases hu with
    | going hs hinput htask hframes hactive =>
      exact ih (hm ▸ advance_unwinds host _ hs hinput htask hframes hactive)

/-- **Trails that start alike end alike**, unless one of them runs out of memory. -/
theorem Ends.agree (hhost : host.BySyntax) (hlock : ¬ M.lockstep) (hlast : ¬ M.outlasts)
    (h₁ : Ends host N₁ k₁ x₁ m₁ o₁ m₁') (h₂ : Ends host N₂ k₂ x₂ m₂ o₂ m₂')
    (ht : Turned M none .empty .empty ρ n (.done x₁ m₁) (.done x₂ m₂)) :
    o₁ = .error .outOfMemory ∨ o₂ = .error .outOfMemory ∨
      ∃ ρ', Machine.At M none .empty .empty ρ' m₁' m₂' ∧ Alike ρ' o₁ o₂ := by
  induction h₁ generalizing k₂ x₂ m₂ o₂ m₂' ρ n with
  | finished =>
    cases ht with
    | finished _ hm ho => cases h₂; exact .inr (.inr ⟨_, hm, ho⟩)
    | leftFull _ hu => cases hu; exact .inl rfl
    | rightFull _ hu => exact .inr (.inl (h₂.unwinds hu))
  | collect h₁ ih =>
    cases ht with
    | going _ hd hk =>
      obtain ⟨ρ', hd⟩ := hd.swept_left hlock
      exact ih h₂ (.going le_rfl hd hk)
    | leftFull _ hu => exact .inl (h₁.collect.unwinds hu)
    | rightFull _ hu => exact .inr (.inl (h₂.unwinds hu))
  | @turn _ b₁ _ _ _ _ _ hb₁ hm₁ h₁ ih =>
    cases ht with
    | leftFull _ hu => exact .inl ((h₁.turn hb₁ hm₁).unwinds hu)
    | rightFull _ hu => exact .inr (.inl (h₂.unwinds hu))
    | @going ρ₁ _ _ _ hρ hd hk =>
      -- the right side may collect before its next boundary
      clear hρ hk
      generalize hx : Advance.going = x₂ at h₂
      induction h₂ generalizing ρ₁ with
      | finished => cases hx
      | collect _ ih₂ =>
        obtain ⟨ρ', hd⟩ := hd.swept_right hlock
        exact ih₂ hd rfl
      | @turn _ b₂ _ _ _ _ _ _ hm₂ h₂ _ =>
        obtain ⟨ρ', ht⟩ := hd.turned hhost
          (host.sim_engine hhost b₁ b₂ fun h => absurd h hlast) fun h => absurd h hlock
        rw [hm₁, hm₂] at ht
        exact ih h₂ ht

/-! ### Trails that end make others end -/

/-- Two runs, of which the right one stalls only if the left one does. -/
def Mode.outlasting : Mode := ⟨False, True⟩

/-- The machine closes its frames within `j` boundaries: it is alike to one with a trail to `o`, or it
unwinds. A side that follows opens one frame at most at each boundary, and closes one at each when it
unwinds. -/
inductive Closes (host : Host) (N : Nat) (o : Except Error Completion) : Nat → Machine → Prop where
  | follows {k n j : Nat} {ρ : Renaming} {m₁ m₁' m₂ : Machine} (h : Ends host N k .going m₁ o m₁')
      (hd : Driven .outlasting none .empty .empty ρ n m₁ m₂) (hj : 2 * k + n ≤ j) : Closes host N o j m₂
  | unwinds {n j : Nat} {m : Machine} (h : Unwinds .empty none (n + 1) (.done .going m))
      (hj : n + 1 ≤ j) : Closes host N o j m

namespace Closes

variable {j : Nat}

theorem swept (h : Closes host N o j m) : Closes host N o j m.swept := by
  cases h with
  | follows h hd hj =>
    obtain ⟨ρ', hd⟩ := hd.swept_right id
    exact .follows h hd hj
  | unwinds h hj =>
    cases h with
    | going hs hinput htask hframes hactive =>
      exact .unwinds (.going hs hinput htask hframes hactive) hj

theorem running (h : Closes host N o j m) : m.frames.isEmpty = false ∧ m.active = none := by
  cases h with
  | follows _ hd _ => exact ⟨hd.isEmpty_frames.2, hd.active.2⟩
  | unwinds h _ =>
    cases h with
    | going _ _ _ hframes hactive => rw [hframes]; exact ⟨rfl, hactive⟩

/-- What a boundary of a machine that unwinds comes to. -/
theorem of_unwinds {x : Outcome Machine Advance} (h : Unwinds .empty none n x) (hn : n ≤ j) :
    (∃ o' m', x = .done (.finished o') m') ∨ ∃ m', x = .done .going m' ∧ Closes host N o j m' := by
  cases h with
  | finished _ _ => exact .inl ⟨_, _, rfl⟩
  | going hs hinput htask hframes hactive =>
    exact .inr ⟨_, rfl, .unwinds (.going hs hinput htask hframes hactive) hn⟩

/-- **Each boundary brings the end closer.** -/
theorem advance (hhost : host.BySyntax) (ho : o ≠ .error .outOfMemory) {b : Nat} (hb : 2 * N < b)
    (h : Closes host N o j m) :
    (∃ o' m', advance host (host.engine b) 0 m = .done (.finished o') m') ∨
      ∃ j' < j, ∃ m', advance host (host.engine b) 0 m = .done .going m' ∧ Closes host N o j' m' := by
  cases h with
  | @unwinds n _ _ h hj =>
    cases h with
    | going hs hinput htask hframes hactive =>
      have hu := advance_unwinds host (host.engine b) hs hinput htask hframes hactive
      exact (of_unwinds hu (Nat.le_refl n)).imp_right fun h => ⟨n, hj, h⟩
  | @follows k n _ ρ m₁ m₁' _ h hd hj =>
    generalize hx : Advance.going = x at h
    induction h generalizing ρ with
    | finished => cases hx
    | collect _ ih =>
      obtain ⟨ρ', hd⟩ := hd.swept_left id
      exact ih ho hj hd rfl
    | @turn k b₁ _ _ _ _ _ hb₁ hm h _ =>
      obtain ⟨ρ', ht⟩ := hd.turned hhost (host.sim_engine hhost b₁ b fun _ => by omega) False.elim
      rw [hm] at ht
      generalize ScriptCore.advance host (host.engine b) 0 m = y at ht
      cases ht with
      | @going _ n' _ _ _ hd hn => exact .inr ⟨2 * k + n', by omega, _, rfl, .follows h hd (Nat.le_refl _)⟩
      | finished _ _ _ => exact .inl ⟨_, _, rfl⟩
      | leftFull _ hu => exact absurd (h.unwinds hu) ho
      | rightFull _ hu => exact (of_unwinds hu (Nat.le_refl n)).imp_right fun h => ⟨n, by omega, h⟩
      | rightStalled hM => exact absurd trivial hM

/-- Driving to the end. -/
theorem drive_ends (hhost : host.BySyntax) (ho : o ≠ .error .outOfMemory) {b : Nat} (hb : 2 * N < b) :
    ∀ (bound : Nat) {j : Nat} {m : Machine}, Closes host N o j m → j < bound →
      ∃ o' m', drive host (host.engine b) 0 bound m = ending id o' m'
  | 0, _, _, _, hj => absurd hj (Nat.not_lt_zero _)
  | bound + 1, j, m, h, hj => by
    rw [drive_succ]
    rcases h.advance hhost ho hb with ⟨o', m', hm⟩ | ⟨j', hj', m', hm, h⟩
    · rw [hm]
      exact ⟨o', m', rfl⟩
    · rw [hm]
      exact drive_ends hhost ho hb bound h (by omega)

/-- Driving to a visible boundary. -/
theorem driveVisible_ends (hhost : host.BySyntax) (ho : o ≠ .error .outOfMemory) {b : Nat}
    (hb : 2 * N < b) : ∀ (bound : Nat) {j : Nat} {m : Machine}, Closes host N o j m → j < bound →
      (∃ o' m', driveVisible host (host.engine b) bound m = ending some o' m') ∨
        ∃ j' < j, ∃ m', driveVisible host (host.engine b) bound m = .done none m' ∧
          Closes host N o j' m'
  | 0, _, _, _, hj => absurd hj (Nat.not_lt_zero _)
  | bound + 1, j, m, h, hj => by
    unfold ScriptCore.driveVisible
    rcases h.advance hhost ho hb with ⟨o', m', hm⟩ | ⟨j', hj', m', hm, h⟩
    · rw [hm]
      exact .inl ⟨o', m', rfl⟩
    · rw [hm]
      dsimp only
      split
      · obtain hend | ⟨j'', hj'', hrest⟩ := driveVisible_ends hhost ho hb bound h (by omega)
        · exact .inl hend
        · exact .inr ⟨j'', by omega, hrest⟩
      · exact .inr ⟨j', hj', m', rfl, h⟩

end Closes

/-! ### Patient schedules -/

/-- The move does not stall before `B` boundaries. -/
def Move.Allows (B : Nat) : Move → Prop
  | .collect => True
  | .step bound | .run bound => B ≤ bound

def Move.isStep : Move → Bool
  | .step _ => true
  | _ => false

/-- The schedule goes on for `B` boundaries at least, if the program does. -/
def Schedule.Patient (B : Nat) : Schedule → Prop
  | .execute bound => B ≤ bound
  | .drive _ moves =>
    (∀ move ∈ moves, move.Allows B) ∧ (B ≤ moves.countP Move.isStep ∨ ∃ bound, .run bound ∈ moves)

/-- **Enough moves end a program.** -/
theorem Closes.play_ends (hhost : host.BySyntax) (ho : o ≠ .error .outOfMemory) {J B : Nat}
    (hB : 2 * N + J + 1 < B) : ∀ (moves : List Move) {j : Nat} {m : Machine}, Closes host N o j m →
      j ≤ J → (∀ move ∈ moves, move.Allows B) →
      (j < moves.countP Move.isStep ∨ ∃ bound, .run bound ∈ moves) →
      ∃ o' m', host.play moves m = ending some o' m'
  | [], _, _, _, _, _, hmoves => by
    rcases hmoves with h | ⟨bound, h⟩
    · exact absurd h (Nat.not_lt_zero _)
    · cases h
  | .collect :: moves, j, m, h, hj, hallow, hmoves => by
    have hrest : j < moves.countP Move.isStep ∨ ∃ bound, .run bound ∈ moves := by
      simpa [Move.isStep] using hmoves
    obtain ⟨o', m', hplay⟩ := play_ends hhost ho hB moves h.swept hj
      (fun move hmove => hallow move (List.mem_cons_of_mem _ hmove)) hrest
    refine ⟨o', m', ?_⟩
    unfold Host.play
    rw [Proc.bind_done (collectGarbage_eq h.running.2), hplay]
  | .step bound :: moves, j, m, h, hj, hallow, hmoves => by
    have hbound : B ≤ bound := hallow _ (List.mem_cons_self ..)
    obtain ⟨b, rfl⟩ : ∃ b, bound = b + 1 := ⟨bound - 1, by omega⟩
    have hstep := step_running host h.running.1 h.running.2 b
    unfold Host.play
    rcases h.driveVisible_ends hhost ho (b := b) (by omega) b (by omega) with
      ⟨o', m', hm⟩ | ⟨j', hj', m', hm, h'⟩
    · refine ⟨o', m', ?_⟩
      cases o' with
      | ok c => rw [Proc.bind_done (hstep.trans hm)]; rfl
      | error e => rw [Proc.bind_failed (hstep.trans hm)]; rfl
    · have hrest : j' < moves.countP Move.isStep ∨ ∃ bound, .run bound ∈ moves := by
        rcases hmoves with hcount | ⟨bound, hrun⟩
        · rw [List.countP_cons_of_pos rfl] at hcount
          exact .inl (by omega)
        · exact .inr ⟨bound, by simpa using hrun⟩
      rw [Proc.bind_done (hstep.trans hm)]
      exact play_ends hhost ho hB moves h' (by omega)
        (fun move hmove => hallow move (List.mem_cons_of_mem _ hmove)) hrest
  | .run bound :: moves, j, m, h, hj, hallow, _ => by
    have hbound : B ≤ bound := hallow _ (List.mem_cons_self ..)
    obtain ⟨b, rfl⟩ : ∃ b, bound = b + 1 := ⟨bound - 1, by omega⟩
    have hrun := run_running host h.running.1 h.running.2 b
    obtain ⟨o', m', hm⟩ := h.drive_ends hhost ho (b := b) (by omega) b (by omega)
    refine ⟨o', m', ?_⟩
    show Proc.bind (host.engine (b + 1)).run _ m = _
    simp only [Proc.bind, hrun, hm]
    cases o' <;> rfl

/-- **Patient schedules end**, if the trail of a machine that is alike does. -/
theorem Closes.schedule_ends (hhost : host.BySyntax) (ho : o ≠ .error .outOfMemory)
    (hframes : m.frames = .empty) (hactive : m.active = none) {body : List Stmt} {s : Schedule} {j : Nat}
    (h : Closes host N o j (m.openProgram body s.options)) (hs : s.Patient (2 * N + j + 2)) :
    (s.ends host body m).isSome := by
  cases s with
  | execute bound =>
    have hbound : 2 * N + j + 2 ≤ bound := hs
    obtain ⟨b, rfl⟩ : ∃ b, bound = b + 1 := ⟨bound - 1, by omega⟩
    obtain ⟨o', m', hm⟩ := h.drive_ends hhost ho (b := b) (by omega) b (by omega)
    change drive host (host.engine b) 0 b (m.openProgram body executeOptions) = _ at hm
    have hexecute : (host.engine (b + 1)).execute body m = host.executeOn (host.engine b) b body m := rfl
    unfold Schedule.ends
    simp only [hexecute]
    rw [executeOn_eq hhost hframes hactive, hm, endingValue_ending]
    cases o'.bind completionValue <;> rfl
  | drive options moves =>
    obtain ⟨hallow, hmoves⟩ := hs
    have hmoves : j < moves.countP Move.isStep ∨ ∃ bound, .run bound ∈ moves :=
      hmoves.imp_left fun hcount => by omega
    obtain ⟨o', m', hm⟩ := h.play_ends hhost ho (J := j) (by omega) moves (Nat.le_refl j) hallow hmoves
    change host.play moves (m.openProgram body options) = _ at hm
    have hplay : (host.startRoot (m.program body options) >>= fun _ => host.play moves) m =
        ending some o' m' := by
      rw [Proc.bind_done (startRoot_eq hhost hframes hactive _)]
      exact hm
    unfold Schedule.ends
    simp only [hplay]
    cases o' <;> rfl

/-! ### What the realm sees -/

/-- **The same heap as seen from the realm**, up to a renaming of handles: the realms are alike, the pairs
are one-to-one and name blocks that are alike, and all blocks that a realm reaches are among them. -/
structure SameView (ρ : Renaming) (m₁ m₂ : Machine) : Prop where
  realm : Alike ρ m₁.realm m₂.realm
  functional : ∀ k x y y', ρ.rel k x y → ρ.rel k x y' → y = y'
  injective : ∀ k x x' y, ρ.rel k x y → ρ.rel k x' y → x = x'
  blocks : ∀ k x y, ρ.rel k x y → ∃ b c, m₁.heap.block? x = some b ∧ m₂.heap.block? y = some c ∧
    b.kind = k ∧ Alike ρ b c
  left : ∀ x, Heap.Reach m₁.heap.slots m₁.realm.handles x → ∃ k y, ρ.rel k x y
  right : ∀ y, Heap.Reach m₂.heap.slots m₂.realm.handles y → ∃ k x, ρ.rel k x y

theorem Machine.At.sameView {s₁ s₂ : Stack Frame} {a : Option Active}
    (h : Machine.At M a s₁ s₂ ρ m₁ m₂) : SameView ρ m₁ m₂ := by
  refine ⟨h.realm, h.heap.functional, h.heap.injective, h.heap.blocks, fun x hx => ?_, fun y hy => ?_⟩
  · induction hx with
    | root hx _ =>
      rw [Realm.handles_eq] at hx
      obtain ⟨r, hr, rfl⟩ := List.mem_map.mp hx
      obtain ⟨y, hy, -⟩ := h.realm.paired_left hr
      exact ⟨r.kind, y, hy⟩
    | step _ hblock hrefers _ ih =>
      obtain ⟨k, y, hxy⟩ := ih
      obtain ⟨b, c, hb, -, -, hbc⟩ := h.heap.blocks k _ y hxy
      cases hb.symm.trans hblock
      obtain ⟨r, hr, rfl⟩ := Block.refersTo_iff.mp hrefers
      obtain ⟨z, hz, -⟩ := hbc.paired_left hr
      exact ⟨r.kind, z, hz⟩
  · induction hy with
    | root hy _ =>
      rw [Realm.handles_eq] at hy
      obtain ⟨r, hr, rfl⟩ := List.mem_map.mp hy
      obtain ⟨x, hx, -⟩ := h.realm.paired_right hr
      exact ⟨r.kind, x, hx⟩
    | step _ hblock hrefers _ ih =>
      obtain ⟨k, x, hxy⟩ := ih
      obtain ⟨b, c, -, hc, -, hbc⟩ := h.heap.blocks k x _ hxy
      cases hc.symm.trans hblock
      obtain ⟨r, hr, rfl⟩ := Block.refersTo_iff.mp hrefers
      obtain ⟨z, hz, -⟩ := hbc.paired_right hr
      exact ⟨r.kind, z, hz⟩

/-! ### The schedule does not matter -/

namespace Ending

/-- The program ran out of memory. -/
def isFull (e : Ending) : Bool :=
  match e.result with
  | .error .outOfMemory => true
  | _ => false

/-- Both hosts get the same completion or error up to a renaming of handles. If only one of them gets a
completion, then the value of the completion counts. -/
def Agrees (ρ : Renaming) : Ending → Ending → Prop
  | .completion o, .completion o' => Alike ρ o o'
  | e, e' => Alike ρ e.result e'.result

end Ending

theorem Schedule.agrees (s₁ s₂ : Schedule) (h : Alike ρ o₁ o₂) :
    Ending.Agrees ρ (s₁.ending o₁) (s₂.ending o₂) := by
  have hvalue : Alike ρ (o₁.bind completionValue) (o₂.bind completionValue) := by
    cases h with
    | ok hc => exact alike_completionValue hc
    | error he => exact .error he
  cases s₁ <;> cases s₂ <;> first | exact h | exact hvalue

theorem Schedule.isFull_ending (s : Schedule) : (s.ending (.error .outOfMemory)).isFull = true := by
  cases s <;> rfl

/-- Two runs without further conditions. -/
def Mode.apart : Mode := ⟨False, False⟩

/-- **Collections are transparent.** A program is run on two new machines, which differ at most in the
limits of their heaps, by two schedules with the same options. If the first run ends and does not run out
of memory, then every patient schedule ends on the second machine; and if the second run ends and does not
run out of memory either, then the hosts get the same, and the realms see the same heap. -/
theorem collection_transparent (stash : List (String × List Stmt)) (body : List Stmt)
    {l₁ l₂ : HeapLimits} {options : MonitorOptions} {now : Nat} {sloppy : Bool}
    (hm₁ : Machine.create l₁ options now sloppy = .ok m₁)
    (hm₂ : Machine.create l₂ options now sloppy = .ok m₂) (s₁ : Schedule) (hbare : s₁.options.IsBare)
    {e₁ : Ending} (h₁ : s₁.ends (.plain stash) body m₁ = some (e₁, m₁')) (hfull₁ : e₁.isFull = false) :
    (∃ B, ∀ s₂ : Schedule, s₂.options = s₁.options → s₂.Patient B →
      (s₂.ends (.plain stash) body m₂).isSome) ∧
    ∀ (s₂ : Schedule) (e₂ : Ending) (m₂' : Machine), s₂.options = s₁.options →
      s₂.ends (.plain stash) body m₂ = some (e₂, m₂') → e₂.isFull = false →
      ∃ ρ, Ending.Agrees ρ e₁ e₂ ∧ SameView ρ m₁' m₂' := by
  have hhost := Host.bySyntax_plain stash
  obtain ⟨_, hself₁⟩ := at_create (M := .same) (fun _ => rfl) hm₁ hm₁
  obtain ⟨_, hself₂⟩ := at_create (M := .same) (fun _ => rfl) hm₂ hm₂
  obtain ⟨N, k, o₁, htrail₁, rfl⟩ := ends_of_schedule hhost hself₁ hbare h₁
  have ho₁ : o₁ ≠ .error .outOfMemory := by
    rintro rfl
    rw [s₁.isFull_ending] at hfull₁
    cases hfull₁
  refine ⟨⟨2 * N + (2 * k + 0) + 2, fun s₂ hs hpatient => ?_⟩, fun s₂ e₂ m₂' hs h₂ hfull₂ => ?_⟩
  · obtain ⟨ρ, hat⟩ := at_create (M := .outlasting) False.elim hm₁ hm₂
    have hd := driven_openProgram hat body hbare
    rw [← hs] at hd htrail₁
    exact Closes.schedule_ends hhost ho₁ hat.right.1 hat.right.2
      (.follows htrail₁ hd (Nat.le_refl _)) hpatient
  · obtain ⟨N₂, k₂, o₂, htrail₂, rfl⟩ := ends_of_schedule hhost hself₂ (hs ▸ hbare) h₂
    obtain ⟨ρ, hat⟩ := at_create (M := .apart) False.elim hm₁ hm₂
    have hd := driven_openProgram hat body hbare
    rw [hs] at htrail₂
    rcases htrail₁.agree hhost id id htrail₂ (.going (n := 0) le_rfl hd (Nat.zero_le _)) with
      rfl | rfl | ⟨ρ', hend, ho⟩
    · exact absurd rfl ho₁
    · rw [s₂.isFull_ending] at hfull₂
      cases hfull₂
    · exact ⟨ρ', s₁.agrees s₂ ho, hend.sameView⟩

/-- Whether a schedule ends a program on a new machine, with memory left. -/
def Schedule.endsNew (host : Host) (body : List Stmt) (limits : HeapLimits) (s : Schedule) : Bool :=
  match Machine.create limits {} 0 true with
  | .error _ => false
  | .ok m =>
    match s.ends host body m with
    | none => false
    | some (e, _) => !e.isFull

theorem Schedule.of_endsNew {body : List Stmt} {limits : HeapLimits} {s : Schedule}
    (h : s.endsNew host body limits = true) : ∃ m e m', Machine.create limits {} 0 true = .ok m ∧
      s.ends host body m = some (e, m') ∧ e.isFull = false := by
  unfold endsNew at h
  cases hm : Machine.create limits {} 0 true with
  | error _ => rw [hm] at h; cases h
  | ok m =>
    rw [hm] at h
    dsimp only at h
    cases hs : s.ends host body m with
    | none => rw [hs] at h; cases h
    | some r =>
      rw [hs] at h
      exact ⟨m, r.1, r.2, rfl, hs, by simpa using h⟩

/-- A program that calls a function for an object and reads a property of it. -/
def wrapped : List Stmt :=
  [.function ⟨some "wrap", [.simple "x" none], .block [.ret (some (.object [("y", .ident "x")]))],
      false, false, false⟩,
    .expr (.member (.call (.ident "wrap") [.bool true]) (.named "y"))]

/-- The program is executed in one go, and driven with collections after its first steps on a heap that
collects at every boundary. -/
theorem collection_transparent_wrapped :
    ∃ (m₁ m₂ m₁' m₂' : Machine) (e₁ e₂ : Ending) (ρ : Renaming),
      (Schedule.execute 40).ends (.plain []) wrapped m₁ = some (e₁, m₁') ∧
      (Schedule.drive executeOptions [.step 9, .collect, .step 9, .collect, .collect, .run 40]).ends
        (.plain []) wrapped m₂ = some (e₂, m₂') ∧
      Ending.Agrees ρ e₁ e₂ ∧ SameView ρ m₁' m₂' := by
  have h₁ : (Schedule.execute 40).endsNew (.plain []) wrapped .standard = true := by decide +kernel
  have h₂ : (Schedule.drive executeOptions
      [.step 9, .collect, .step 9, .collect, .collect, .run 40]).endsNew (.plain []) wrapped ⟨99, 1⟩ =
        true := by decide +kernel
  obtain ⟨m₁, e₁, m₁', hm₁, he₁, hfull₁⟩ := Schedule.of_endsNew h₁
  obtain ⟨m₂, e₂, m₂', hm₂, he₂, hfull₂⟩ := Schedule.of_endsNew h₂
  obtain ⟨-, hagree⟩ := collection_transparent [] wrapped hm₁ hm₂ _ ⟨rfl, rfl⟩ he₁ hfull₁
  obtain ⟨ρ, he, hview⟩ := hagree (.drive executeOptions _) e₂ m₂' rfl he₂ hfull₂
  exact ⟨m₁, m₂, m₁', m₂', e₁, e₂, ρ, he₁, he₂, he, hview⟩

end ScriptCore
