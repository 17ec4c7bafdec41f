import ScriptCore.Proofs.Calls.Reaching
import ScriptCore.Proofs.Drive.Invariants
import ScriptCore.Proofs.Drive.Isolation
import ScriptCore.Proofs.Soundness

/-! # Every boundary of a run

Between two operations of the host a run crosses boundaries that the host does not see, and while a task runs it has
more code run on top of the open frames, over boundaries of its own, at any depth. A failure on the way may be
intercepted before the host hears of it. So that none is an internal error is a matter of every boundary.

* `Machine.Passes`: the boundaries that the runs of a program come to.
* `Host.engine_keeps_atop`: **what runs inside a task leaves what is beneath it.**
* `Frame.asks_alike`: what tasks that are alike ask for is alike, on machines that are.
* `Machine.Underway.crosses`, `Machine.Underway.enters`: one boundary, and one run inside a task.
* `Machine.Reachable.never_internal`: **internal errors are unreachable.** -/

namespace ScriptCore

variable {α : Type} {ρ ρ' : Renaming} {host : Host} {E E₂ : Engine} {m m' m₁ n n' : Machine} {base k : Nat}
  {q q' : Query} {f : Frame} {i : Option (Except Error Completion)}

/-! ### What references name, as long as nothing is collected -/

namespace Heap

variable {h h₀ : Heap} {r : Ref}

theorem Names.put {x : Handle} {b b' : Block} (hr : h.Names r) (hx : h.block? x = some b) (hkind : b'.kind = b.kind) :
    (h.put x b').Names r := by
  obtain ⟨c, hc, hck⟩ := hr
  unfold Names
  rw [block?_put (Option.isSome_of_eq_some hx)]
  by_cases hrx : r.handle = x
  · subst hrx
    cases hx.symm.trans hc
    exact ⟨b', if_pos rfl, hkind.trans hck⟩
  · exact ⟨c, (if_neg hrx).trans hc, hck⟩

theorem Filled.names {b : Block} {x : Handle} {h' : Heap} (hf : h.Filled b x h') (hr : h.Names r) : h'.Names r :=
  hr.imp fun _ hc => hc.imp_left hf.block?_of_some

/-- What references name on `h₀` they name on `h` as well. -/
def Sustains (h₀ h : Heap) : Prop := ∀ r, h₀.Names r → h.Names r

theorem Sustains.refl (h : Heap) : h.Sustains h := fun _ => id

/-- Routines leave what references name. -/
theorem Routine.keeps_sustained {K : ObjectKind → Prop} {p : Proc Heap α} (hp : Routine K p) (h₀ : Heap) :
    Proc.Keeps (fun h => h.Valid ∧ h₀.Sustains h) p :=
  hp.keeps_filled (fun _ _ _ _ hs hf r hr => hf.names (hs r hr)) fun _ _ _ _ hs hb hover r hr =>
    (hs r hr).put hb (by cases hover <;> rfl)

/-- What references name on `h₀` they name still, or there was a collection since. -/
def Since (h₀ h : Heap) : Prop :=
  h.Valid ∧ (h₀.collections < h.collections ∨ h.collections = h₀.collections ∧ h₀.Sustains h)

theorem invariant_since (h₀ : Heap) : Heap.Invariant h₀.Since where
  routine hp h hh := by
    obtain ⟨hv, hc | ⟨hc, hr⟩⟩ := hh
    · exact ((hp.keeps_valid h hv).and (hp.keeps_collections _ h rfl)).imp fun h' hh' => ⟨hh'.1, .inl (hh'.2 ▸ hc)⟩
    · exact ((hp.keeps_sustained h₀ h ⟨hv, hr⟩).and (hp.keeps_collections _ h hc)).imp fun h' hh' =>
        ⟨hh'.1.1, .inr ⟨hh'.2, hh'.1.2⟩⟩
  collect h reported hh := by
    refine ⟨hh.1.collect reported, .inl ?_⟩
    rw [collections_collect]
    rcases hh.2 with hc | ⟨hc, -⟩ <;> omega

end Heap

/-! ### Inside a task -/

/-- The frame at `a` is running on top of the frames `s`, and what references named on `h₀` they name still, for nothing
was collected since. -/
structure Machine.Atop (a : Active) (s : Stack Frame) (l : Monitor) (h₀ : Heap) (m : Machine) : Prop where
  held : Held (some a) s l m
  collections : m.heap.collections = h₀.collections
  valid : m.heap.Valid
  sustained : h₀.Sustains m.heap

section Atop

variable {a : Active} {s : Stack Frame} {l : Monitor} {h₀ : Heap} {R : Realm} {o : Outcome Machine α}

theorem Machine.Atop.inside (h : m.Atop a s l h₀) : Inside (some a) h₀.collections m := ⟨h.held.active, h.collections⟩

theorem Machine.Atop.tended (h : m.Atop a s l h₀) : Tended h₀.Since m.realm m :=
  ⟨rfl, h.held.heap, h.valid, .inr ⟨h.collections, h.sustained⟩⟩

theorem leaves_atop (hheld : o.Leaves (Held (some a) s l)) (hinside : o.Leaves (Inside (some a) h₀.collections))
    (htended : o.Leaves (Tended h₀.Since R)) : o.Leaves (Machine.Atop a s l h₀) :=
  ((hheld.and hinside).and htended).imp fun _ h => by
    obtain ⟨⟨hheld, -, hc⟩, -, -, hv, hlt | ⟨-, hs⟩⟩ := h
    · exact absurd hc (Nat.ne_of_gt hlt)
    · exact ⟨hheld, hc, hv, hs⟩

theorem keeps_atop_onHeap {p : Proc Heap α} (hp : Heap.Routine ObjectKind.Scripted p) :
    Proc.Keeps (Machine.Atop a s l h₀) (Run.onHeap p) := fun m h =>
  leaves_atop (keeps_held_onHeap hp m h.held) (Isolated.onHeap hp.keeps_collections a _ m h.inside).2
    (keeps_tended_onHeap (Heap.invariant_since h₀) hp m h.tended)

/-- **What runs inside a task leaves what is beneath it.** -/
theorem Host.engine_keeps_atop (hregular : host.Regular) (k : Nat) : (host.engine k).Keeps (Machine.Atop a s l h₀) := by
  have hholds := host.engine_holds k
  have htends := fun R => Host.engine_tends (Heap.invariant_since h₀) R host k
  have hisolated := Host.engine_isolated hregular.isolated k
  exact ⟨fun r m h => leaves_atop (hholds.evaluate a s l r m h.held) (hisolated.evaluate r a _ m h.inside).2
      ((htends _).evaluate r m h.tended),
    fun callee receiver args m h => leaves_atop (hholds.call a s l callee receiver args m h.held)
      (hisolated.call callee receiver args a _ m h.inside).2 ((htends _).call callee receiver args m h.tended)⟩

end Atop

/-! ### What is asked for on both sides -/

/-- Both sides are one run, and the right one lasts as long as the left one. -/
def Mode.steady : Mode := ⟨True, True⟩

theorem Host.sim_engine_steady (hhost : host.BySyntax) (k : Nat) :
    Engine.Sim .steady (host.engine k) (host.engine (2 * k + 1)) :=
  host.sim_engine hhost k (2 * k + 1) fun _ => Nat.lt_succ_self _

/-- The same is asked for. -/
inductive Query.Alike (ρ : Renaming) : Query → Query → Prop where
  | branch {r r' : BranchRequest} (h : Renamable.Alike ρ r r') : Query.Alike ρ (.branch r) (.branch r')
  | call {f f' u u' : Value} {vs vs' : List Value} (hf : Renamable.Alike ρ f f') (hu : Renamable.Alike ρ u u')
      (hvs : Renamable.Alike ρ vs vs') : Query.Alike ρ (.call f u vs) (.call f' u' vs')

section Asking

variable {M : Mode} {a : Option Active} {s b₁ b₂ : Stack Frame} {j : Site} {m₂ n₂ : Machine} {f' : Frame}
  {i' : Option (Except Error Completion)}

/-- **What alike frames ask for is alike**, on machines that are. If it were not so, an engine that fails there with an
internal error would run code alike. -/
theorem Frame.asks_alike (hE : Engine.Sim .steady E E₂) (hm : Machine.Running .steady j ρ m m₂)
    (htask : Alike ρ f.task f'.task) (hi : Alike ρ i i') (hfresh : i = none → f.task.Fresh)
    (hresumable : i ≠ none → f.task.Resumable) (hasks : Asks (fun E => f.task.doing E i) E m q n) :
    ∃ (j' : Site) (ρ' : Renaming) (n₂ : Machine) (q' : Query), Machine.Running .steady j' ρ' n n₂ ∧ q.Alike ρ' q' := by
  by_contra hnever
  have hsim : Engine.Sim .steady (E.refusing q n .invalidHandle n) E₂ := by
    refine ⟨fun {ρ r r'} hr j ρ' hρ x y hxy => ?_, fun {ρ g g' u u' vs vs'} hg hu hvs j ρ' hρ x y hxy => ?_⟩
    · by_cases hhere : q = .branch r ∧ n = x
      · obtain ⟨rfl, rfl⟩ := hhere
        exact absurd ⟨j, ρ', y, _, hxy, .branch (hr.mono hρ)⟩ hnever
      · rw [(E.agreesBut_refusing q n _ _).evaluate _ _ hhere]
        exact hE.evaluate hr j ρ' hρ x y hxy
    · by_cases hhere : q = .call g u vs ∧ n = x
      · obtain ⟨rfl, rfl⟩ := hhere
        exact absurd ⟨j, ρ', y, _, hxy, .call (hg.mono hρ) (hu.mono hρ) (hvs.mono hρ)⟩ hnever
      · rw [(E.agreesBut_refusing q n _ _).call _ _ _ _ hhere]
        exact hE.call hg hu hvs j ρ' hρ x y hxy
  have hran : Ran .steady j ρ (f.act (E.refusing q n .invalidHandle n) i m) (f'.act E₂ i' m₂) := by
    cases hi with
    | none => exact Task.ran_start hsim htask (hfresh rfl) hm
    | some ho => exact Task.ran_resume hsim htask (hresumable nofun) ho hm
  obtain ⟨E', hE', hne⟩ := hasks
  have hreports := Task.reports_act (E := E.refusing q n .invalidHandle n) f i m
  rw [(f.task.routine_doing i).refused E q n .invalidHandle n hE' hne] at hreports
  generalize f.act (E.refusing q n .invalidHandle n) i m = x, f'.act E₂ i' m₂ = y at hran hreports
  cases hreports
  cases hran with
  | failed _ _ he => cases Error.isInternal_of_alike he
  | rightFull hM _ => exact hM trivial
  | rightStalled hM => exact hM trivial

/-- A task runs on both sides. -/
theorem Driven.running (hd : Driven M a b₁ b₂ ρ k m m') (hframes : m.frames = s.push (f.fed i)) :
    ∃ (s₂ : Stack Frame) (f' : Frame) (i' : Option (Except Error Completion)), Piled ρ b₁ b₂ k s s₂ ∧
      Alike ρ f.task f'.task ∧ Alike ρ i i' ∧ (i = none → f.task.Fresh) ∧ (i ≠ none → f.task.Resumable) ∧
      ∀ c : Monitor, Machine.Running M ⟨s, s₂, ⟨f.depth, f.quiet⟩⟩ ρ
        { m with frames := s, monitor := c, active := some ⟨f.depth, f.quiet⟩ }
        { m' with frames := s₂, monitor := c, active := some ⟨f.depth, f.quiet⟩ } := by
  obtain @⟨g, g', s₁, s₂, hm, hs, hg, hfits⟩ := hd
  obtain ⟨rfl, rfl⟩ := Stack.push_inj (hm.left.1.symm.trans hframes)
  obtain ⟨htask, -, hinput, -⟩ := Frame.alike_iff.mp hg
  have hrunning : ∀ c : Monitor, Machine.Running M ⟨s₁, s₂, ⟨f.depth, f.quiet⟩⟩ ρ
      { m with frames := s₁, monitor := c, active := some ⟨f.depth, f.quiet⟩ }
      { m' with frames := s₂, monitor := c, active := some ⟨f.depth, f.quiet⟩ } :=
    fun _ => ⟨hm.heap, hm.realm, rfl, ⟨rfl, rfl⟩, rfl, rfl⟩
  cases i with
  | none => exact ⟨s₂, g', none, hs, htask, .none, fun _ => hfits, fun h => absurd rfl h, hrunning⟩
  | some o =>
    change Input.Alike ρ (.deliver o) g'.input at hinput
    generalize g'.input = x at hinput
    cases hinput with
    | deliver ho => exact ⟨s₂, g', _, hs, htask, .some ho, nofun, fun _ => hfits, hrunning⟩

/-- What is asked for on both sides is driven next on both. -/
theorem Query.Opens.driven (hhost : host.BySyntax) (hm : Machine.Running M j ρ n n₂) (hq : q.Alike ρ q')
    (hopens : q.Opens host E n n') : ∃ n₂', Driven M (some j.active) j.left j.right ρ 0 n' n₂' := by
  cases hq with
  | @branch r r' hr =>
    obtain ⟨task, htask, rfl⟩ := hopens
    cases (hhost r).symm.trans htask
    obtain ⟨g, g', hat, hg, hgt, hgi⟩ := at_openFrame hm.at (Task.alike_ofRequest hr) (BranchRequest.alike_info hr)
      n.childContext.1 n.childContext.2 false
    refine ⟨_, hat, .base, hg, ?_⟩
    unfold Frame.Fits
    rw [hgi, hgt]
    exact Task.fresh_ofRequest r
  | @call g g' u u' vs vs' hg hu hvs =>
    change openCall host E (n.callRequest g u vs) n.childContext.1 n.childContext.2 n = .done none n' at hopens
    have hr : Renamable.Alike ρ (n.callRequest g u vs) (n₂.callRequest g' u' vs') :=
      ⟨hg, hu, hvs, (Realm.alike_iff.mp hm.realm).1, .none, rfl⟩
    have hopened := opened_call host E E hm.at hr n.childContext.1 n.childContext.2
    rw [hopens] at hopened
    generalize openCall host E (n₂.callRequest g' u' vs') _ _ n₂ = o at hopened
    cases hopened with
    | opened hat hx hfits => exact ⟨_, hat, .base, hx, hfits⟩

theorem Query.Opens.heap (hs : n.heap.Scripted) (hopens : q.Opens host E n n') : n'.heap = n.heap := by
  cases q with
  | branch r =>
    obtain ⟨task, -, rfl⟩ := hopens
    exact Machine.heap_openFrame ..
  | call callee receiver args =>
    change openCall host E (n.callRequest callee receiver args) n.childContext.1 n.childContext.2 n = .done none n'
      at hopens
    rw [openCall_scripted host E hs] at hopens
    cases hc : n.requestedCall (n.callRequest callee receiver args) with
    | error e => rw [hc] at hopens; cases hopens
    | ok c => rw [hc] at hopens; cases hopens; exact Machine.heap_openFrame ..

end Asking

/-! ### One boundary and one run inside a task -/

theorem Heap.Alike.scripted {M : Mode} {h h' : Heap} (hh : Heap.Alike M ρ h h') (hM : M.lockstep) : h.Scripted := by
  intro x g o hslot
  have hb : h.block? ⟨x, g⟩ = some (.object o) := Heap.block?_eq_some.mpr hslot
  obtain ⟨b, c, hb', -, -, hbc⟩ := hh.blocks _ _ _ ((hh.lockstep hM).total _ _ hb)
  cases hb.symm.trans hb'
  cases hbc with
  | @object _ p ho =>
    obtain ⟨-, -, hkind, -⟩ := Object.alike_iff.mp ho
    generalize o.kind = x, p.kind = y at hkind ⊢
    cases hkind <;> trivial

/-- Live blocks stay where pairs do. -/
theorem Heap.Alike.sustains {M : Mode} {h₁ h₁' h₂ h₂' : Heap} (hh : Heap.Alike M ρ h₁ h₁') (hM : M.lockstep)
    (hh' : Heap.Alike M ρ' h₂ h₂') (hρ : ρ ≤ ρ') : h₁.Sustains h₂ := by
  rintro r ⟨b, hb, hk⟩
  obtain ⟨c, -, hc, -, hck, -⟩ := hh'.blocks _ _ _ (hρ _ _ _ ((hh.lockstep hM).total _ _ hb))
  exact ⟨c, hc, hck.trans hk⟩

theorem Frame.Rests.sustained {h h' : Heap} (hf : f.Rests h) (hs : h.Sustains h') : f.Rests h' :=
  ⟨hf.1, fun r hr => hs r (hf.2 r hr)⟩

/-- Machines that are one run may be compared as such that last as long. -/
theorem Driven.steady {a : Option Active} {b₁ b₂ : Stack Frame} (hd : Driven .same a b₁ b₂ ρ k m m') :
    Driven .steady a b₁ b₂ ρ k m m' := by
  obtain ⟨hm, hs, hf, hfits⟩ := hd
  obtain ⟨hv, hv', hfun, hinj, hblocks, hgrounded, hlock⟩ := hm.heap
  exact ⟨⟨⟨hv, hv', hfun, hinj, hblocks, hgrounded, hlock⟩, hm.realm, hm.monitor, hm.left, hm.right⟩, hs, hf, hfits⟩

/-- A frame above `base` is driven next, and all frames beneath rest. -/
inductive Machine.Underway : Nat → Machine → Prop where
  /-- The host drives. -/
  | outer {ρ : Renaming} {k : Nat} {m : Machine} (hd : Driven .same none .empty .empty ρ k m m) : Underway 0 m
  /-- A task has code run. -/
  | inner {ρ : Renaming} {k : Nat} {j : Site} {m m' : Machine}
      (hd : Driven .steady (some j.active) j.left j.right ρ k m m') (hbelow : ∀ f ∈ j.left.items, f.Rests m.heap) :
      Underway j.left.size m

/-- What a boundary comes to: the run goes on, or is over, or stalls. -/
inductive Crosses (base : Nat) : Outcome Machine Advance → Prop where
  | going {m : Machine} (hm : m.Underway base) : Crosses base (.done .going m)
  | finished {o : Except Error Completion} {m : Machine} (ho : ∀ e, o = .error e → e.isInternal = false) :
      Crosses base (.done (.finished o) m)
  | stalled : Crosses base .stalled

namespace Machine.Underway

theorem sound (h : m.Underway base) : Machine.Sound { m with active := none } := by
  cases h with
  | outer hd => exact hd.sound trivial fun f hf => absurd hf List.not_mem_nil
  | inner hd hbelow => exact hd.sound trivial hbelow

/-- **One boundary.** -/
theorem crosses (hhost : host.BySyntax) (h : m.Underway base) (k : Nat) :
    Crosses base (advance host (host.engine k) base m) := by
  cases h with
  | outer hd =>
    have h := goes_advance hhost k hd
    generalize advance host (host.engine k) 0 m = o at h
    cases h with
    | going hm => exact .going (.outer hm)
    | finished _ ho => exact .finished ho
    | stalled => exact .stalled
  | @inner ρ c j m m' hd hbelow =>
    obtain @⟨f, f', s₁, s₂, hm, hs, hf, hfits⟩ := hd
    have hoff : Machine.At .steady (some j.active) s₁ s₂ ρ { m with frames := s₁ } { m' with frames := s₂ } :=
      ⟨hm.heap, hm.realm, hm.monitor, ⟨rfl, hm.left.2⟩, ⟨rfl, hm.right.2⟩⟩
    have hturned := turned hhost (Host.sim_engine_steady hhost k) hoff hs hf hfits
    rw [advance_eq_turn hm.left.1 (by rw [hs.left.size_eq]; omega), Machine.collected_of_active hm.left.2]
    generalize turn host (host.engine k) j.left.size f _ = o, turn host _ j.right.size f' _ = o' at hturned
    cases hturned with
    | going hρ hm' _ =>
      refine .going (.inner hm' fun g hg => (hbelow g hg).sustained ?_)
      obtain ⟨hat, -⟩ := hm'
      exact hm.heap.sustains trivial hat.heap hρ
    | finished _ _ ho =>
      refine .finished fun e he => ?_
      subst he
      cases ho with
      | error he => exact Error.isInternal_of_alike he
    | leftFull hM _ => exact absurd trivial hM
    | rightFull hM _ => exact absurd trivial hM
    | leftStalled => exact .stalled
    | rightStalled hM => exact absurd trivial hM

/-- At a boundary, after the collection. -/
theorem collected (h : m.Underway base) : ∃ (a : Option Active) (b₁ b₂ : Stack Frame) (ρ : Renaming) (k : Nat)
    (m' : Machine), Driven .steady a b₁ b₂ ρ k m.collected m' ∧ ∀ f ∈ b₁.items, f.Rests m.collected.heap := by
  cases h with
  | outer hd =>
    obtain ⟨ρ, hd⟩ := hd.collected fun _ => rfl
    exact ⟨_, _, _, ρ, _, _, hd.steady, fun f hf => absurd hf List.not_mem_nil⟩
  | inner hd hbelow =>
    obtain ⟨hm, hs, hf, hfits⟩ := hd
    rw [Machine.collected_of_active hm.left.2]
    exact ⟨_, _, _, _, _, _, ⟨hm, hs, hf, hfits⟩, hbelow⟩

/-- **One run inside a task.** -/
theorem enters (hhost : host.BySyntax) (hregular : host.Regular) (h : m.Underway base) (hruns : m.Runs base f i m₁)
    (hasks : Asks (fun E => f.task.doing E i) (host.engine k) m₁ q n) (hopens : q.Opens host (host.engine k) n n') :
    n'.Underway n.frames.size := by
  obtain ⟨a, b₁, b₂, ρ, c, m', hd, hbelow⟩ := h.collected
  obtain ⟨s, l, hframes, -, rfl⟩ := hruns.exists_eq
  obtain ⟨s₂, f', i', hs, htask, hi, hfresh, hresumable, hrunning⟩ :=
    hd.running (s := s) (f := f) (i := i) (by rw [Machine.frames_collected, hframes])
  obtain ⟨j, ρ', n₂, q', hn, hq⟩ := Frame.asks_alike (host.sim_engine_steady hhost k) (hrunning l) htask hi
    hfresh hresumable hasks
  -- the frames beneath are those above which the task ran, and no block has gone
  have hatop : n.Atop ⟨f.depth, f.quiet⟩ s l.limits m.collected.heap :=
    (f.task.routine_doing i).asked_keeps (Host.engine_keeps_atop hregular k) keeps_atop_onHeap
      ⟨⟨rfl, rfl, rfl, (hrunning l).heap.scripted trivial⟩, rfl, (hrunning l).heap.left, .refl _⟩ hasks
  obtain ⟨n₂', hd'⟩ := hopens.driven hhost hn hq
  rw [hn.left.1]
  refine .inner hd' fun g hg => ?_
  rw [← hn.left.1, hatop.held.frames] at hg
  rw [hopens.heap hatop.held.heap]
  exact (hs.rests (hrunning l).heap hbelow g hg).sustained hatop.sustained

end Machine.Underway

/-! ### Every boundary -/

/-- **The boundaries that runs of the program come to**, with the height above which frames are driven: of a program that
is open on `m`, or that is executed on it, and of what the tasks have run on the way, at any depth. -/
inductive Machine.Passes (host : Host) (m : Machine) : Nat → Machine → Prop where
  | driven (hopen : m.frames.isEmpty = false) : Passes host m 0 m
  | executed (hidle : m.frames.isEmpty = true) (body : List Stmt) : Passes host m 0 (m.openProgram body executeOptions)
  | crossed {base : Nat} {n n' : Machine} (hn : Passes host m base n) (bound : Nat)
      (hrun : advance host (host.engine bound) base n = .done .going n') : Passes host m base n'
  /-- The task of the innermost frame has more code run. -/
  | entered {base : Nat} {n n₁ x n' : Machine} {f : Frame} {i : Option (Except Error Completion)} {q : Query}
      (hn : Passes host m base n) (bound : Nat) (hruns : n.Runs base f i n₁)
      (hasks : Asks (fun E => f.task.doing E i) (host.engine bound) n₁ q x)
      (hopens : q.Opens host (host.engine bound) x n') : Passes host m x.frames.size n'

theorem Machine.Passes.underway (hhost : host.BySyntax) (hregular : host.Regular) (hm : m.InStep)
    (hn : m.Passes host base n) : n.Underway base := by
  induction hn with
  | driven hopen =>
    cases hm with
    | idle h => rw [h.left.1] at hopen; cases hopen
    | running hd => exact .outer hd
  | executed hidle body =>
    cases hm with
    | idle h => exact .outer (driven_openProgram h body ⟨rfl, rfl⟩)
    | running hd => rw [hd.isEmpty_frames.1] at hidle; cases hidle
  | crossed _ bound hrun ih =>
    have hcrosses := ih.crosses hhost bound
    rw [hrun] at hcrosses
    cases hcrosses with
    | going h => exact h
  | entered _ bound hruns hasks hopens ih => exact ih.enters hhost hregular hruns hasks hopens

/-- **Internal errors are unreachable.** Whatever a host did with a machine that it created, the machine is
sound; stepping or running a program that is open, executing another one when none is, and collecting
garbage do not fail with an internal error. Nor does anything on the way: at every boundary that a run comes to, at any
depth, the machine is sound but that a task may be running, and nothing that ends there ends with an internal error. -/
theorem Machine.Reachable.never_internal (stash : List (String × List Stmt))
    (hm : m.Reachable (Host.plain stash)) :
    m.Sound ∧
    (m.frames.isEmpty = false → ∀ bound e m', ((Host.plain stash).engine bound).step m = .failed e m' →
      e.isInternal = false) ∧
    (m.frames.isEmpty = false → ∀ bound e m', ((Host.plain stash).engine bound).run m = .failed e m' →
      e.isInternal = false) ∧
    (m.frames.isEmpty = true → ∀ bound body e m',
      ((Host.plain stash).engine bound).execute body m = .failed e m' → e.isInternal = false) ∧
    (∃ m', collectGarbage m = .done () m') ∧
    ∀ base n, m.Passes (Host.plain stash) base n → Machine.Sound { n with active := none } ∧ ∀ bound e n',
      advance (Host.plain stash) ((Host.plain stash).engine bound) base n ≠ .failed e n' ∧
      (advance (Host.plain stash) ((Host.plain stash).engine bound) base n = .done (.finished (.error e)) n' →
        e.isInternal = false) := by
  have hhost := Host.bySyntax_plain stash
  have hstep := hm.inStep hhost
  refine ⟨hstep.sound, ?_, ?_, ?_, ⟨_, collectGarbage_eq hstep.active⟩, ?_⟩
  · intro hframes bound e m' h
    cases hstep with
    | idle h => rw [h.left.1] at hframes; cases hframes
    | running hd => exact (InStep.fares_step hhost hd bound).not_internal h
  · intro hframes bound e m' h
    cases hstep with
    | idle h => rw [h.left.1] at hframes; cases hframes
    | running hd => exact (InStep.fares_run hhost hd bound).not_internal h
  · intro hframes bound body e m' h
    cases hstep with
    | idle hat => exact (InStep.fares_execute hhost hat body bound).not_internal h
    | running hd => rw [hd.isEmpty_frames.1] at hframes; cases hframes
  · intro base n hn
    have hunderway := hn.underway hhost (Host.regular_plain stash) hstep
    refine ⟨hunderway.sound, fun bound e n' => ?_⟩
    have hcrosses := hunderway.crosses hhost bound
    generalize advance (Host.plain stash) ((Host.plain stash).engine bound) base n = o at hcrosses
    cases hcrosses with
    | going _ => exact ⟨nofun, nofun⟩
    | finished ho => exact ⟨nofun, fun heq => by cases heq; exact ho e rfl⟩
    | stalled => exact ⟨nofun, nofun⟩

/-- A program that reads a property of `undefined` and hands on what it catches. -/
def caughtAccess : List Stmt :=
  [.tryCatch [.expr (.member .undefined (.named "x"))] (some "e") [.throwValue (.ident "e")]]

/-- A machine that executed such a program is sound and can execute the next one. -/
theorem Machine.Reachable.never_internal_caught : ∃ m m' : Machine,
    Machine.create .standard {} 0 true = .ok m ∧
    (((Host.plain []).engine 30).execute caughtAccess m).state? = some m' ∧ m'.Sound := by
  have hruns : (match Machine.create .standard {} 0 true with
      | .ok m => (((Host.plain []).engine 30).execute caughtAccess m).state?.isSome
      | .error _ => false) = true := by decide +kernel
  cases hm : Machine.create .standard {} 0 true with
  | error e => rw [hm] at hruns; cases hruns
  | ok m =>
    rw [hm] at hruns
    obtain ⟨m', hm'⟩ := Option.isSome_iff_exists.mp hruns
    exact ⟨m, m', rfl, hm', (never_internal [] (.execute (.create hm) 30 caughtAccess hm')).1⟩

end ScriptCore
