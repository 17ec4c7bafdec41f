import ScriptCore.Proofs.Drive.Balance

/-! # The events of a run are nested

An observer sees a frame enter when it is opened and leave when it closes, unless the frame is quiet. The depth
of an event and whether there is one are fixed when the frame is opened, in three places: below a suspended
frame, for code that a native function or a getter runs, and for the root branch. What an event is to say is
read off the events before it: the branches that were entered and not left.

What native functions do to the frames otherwise is to abort the innermost one: they leave what is `shown`.

* `Event.read`: what an event says about the branches that are open.
* `Reenters`: native functions that run more code only by evaluating and by calling.
* `Tower`: frames that stand on each other, each at its depth, and what is open above them.
* `Lifting.turned`: **what one boundary shows**; `Raised.driven`, `Host.engine_nests`: what a whole run shows.
* `Host.Reenters.events_nest`: **events are nested.** -/

namespace ScriptCore

variable {α β : Type} {E : Engine} {host : Host} {m m' : Machine} {a : Option Active} {s s' : Stack Frame}
  {v : List Frame} {f g : Frame} {base : Nat}

/-! ### Reading events -/

/-- **Reads an event**, where the given branches are open, the innermost in front, each with its depth. A branch
is entered at a depth that is their number, and it is the innermost that is left. -/
def Event.read (inside : List (Nat × BranchKind)) : Event → Option (List (Nat × BranchKind))
  | .enter depth info => if depth = inside.length then some ((depth, info.kind) :: inside) else none
  | .exit depth kind _ =>
    match inside with
    | entered :: inside => if entered = (depth, kind) then some inside else none
    | [] => none

/-- Between the two logs an observer was shown events that lead from the branches `inside` to the branches
`inside'`, and none at all if it is to see none. -/
def Shown (quiet : Bool) (inside inside' : List (Nat × BranchKind)) (log log' : Option (Array Event)) : Prop :=
  ∃ es : List Event, log' = log.map (· ++ es.toArray) ∧ es.foldlM Event.read inside = some inside' ∧
    (quiet = true → es = [])

namespace Shown

variable {q q' : Bool} {i i' i'' : List (Nat × BranchKind)} {l l' l'' : Option (Array Event)}

theorem refl (q : Bool) (i : List (Nat × BranchKind)) (l : Option (Array Event)) : Shown q i i l l :=
  ⟨[], by cases l <;> simp, rfl, fun _ => rfl⟩

theorem trans (h : Shown q i i' l l') (h' : Shown q' i' i'' l' l'') (hq : q = true → q' = true) :
    Shown q i i'' l l'' := by
  obtain ⟨es, rfl, hread, hnone⟩ := h
  obtain ⟨es', rfl, hread', hnone'⟩ := h'
  refine ⟨es ++ es', by cases l <;> simp, ?_, fun hquiet => ?_⟩
  · rw [List.foldlM_append, hread]
    exact hread'
  · rw [hnone hquiet, hnone' (hq hquiet)]
    rfl

theorem eq_of_quiet (h : Shown true i i' l l') : i' = i ∧ l' = l := by
  obtain ⟨es, rfl, hread, hnone⟩ := h
  obtain rfl := hnone rfl
  exact ⟨(Option.some.inj hread).symm, by cases l <;> simp⟩

end Shown

/-! ### Where code stands -/

/-- The depth and quietness of what is opened next, and the branches that an observer saw enter and not leave. -/
structure Place where
  depth : Nat
  quiet : Bool
  inside : List (Nat × BranchKind)

namespace Place

variable {p p' : Place}

/-- Where nothing is quiet, the depth is the number of the branches. -/
def Fits (p : Place) : Prop := p.quiet = false → p.depth = p.inside.length

/-- The frame was opened there. -/
structure Takes (p : Place) (f : Frame) : Prop where
  depth : f.depth = p.depth
  quiet : f.quiet = (p.quiet || f.info.options.isQuiet)

/-- The place inside a frame. -/
def within (p : Place) (f : Frame) : Place :=
  ⟨p.depth + 1, f.quiet, if f.quiet then p.inside else (f.depth, f.info.kind) :: p.inside⟩

theorem Takes.quiet_of (h : p.Takes f) (hq : p.quiet = true) : f.quiet = true := by
  rw [h.quiet, hq]
  rfl

theorem Takes.loud (h : p.Takes f) (hf : f.quiet = false) : p.quiet = false := by
  rw [h.quiet, Bool.or_eq_false_iff] at hf
  exact hf.1

theorem Takes.fits (h : p.Takes f) (hp : p.Fits) : (p.within f).Fits := by
  intro hquiet
  have hf : f.quiet = false := hquiet
  show p.depth + 1 = (if f.quiet then p.inside else (f.depth, f.info.kind) :: p.inside).length
  rw [hf, if_neg (by simp), List.length_cons, hp (h.loud hf)]

/-- The frame is seen to enter, unless it is quiet. -/
theorem Takes.enter (h : p.Takes f) (hp : p.Fits) (log : Option (Array Event)) :
    Shown f.quiet p.inside (p.within f).inside log
      (if f.quiet then log else log.map (·.push (.enter f.depth f.info))) := by
  unfold within
  cases hf : f.quiet with
  | true => exact .refl _ _ _
  | false =>
    have hdepth : f.depth = p.inside.length := h.depth.trans (hp (h.loud hf))
    exact ⟨[.enter f.depth f.info], by cases log <;> simp, by simp [Event.read, hdepth], nofun⟩

/-- The frame is seen to leave, unless it is quiet. -/
theorem exit (p : Place) (f : Frame) (o : Except Error Completion) (log : Option (Array Event)) :
    Shown f.quiet (p.within f).inside p.inside log
      (if f.quiet then log else log.map (·.push (.exit f.depth f.info.kind o))) := by
  unfold within
  cases hf : f.quiet with
  | true => exact .refl _ _ _
  | false => exact ⟨[.exit f.depth f.info.kind o], by cases log <;> simp, by simp [Event.read], nofun⟩

end Place

/-- What is opened by running code is opened at the place: inside the running frame, or by the host. -/
structure Placed (a : Option Active) (p : Place) : Prop where
  depth : p.depth = (a.elim 0 fun a => a.depth + 1)
  quiet : p.quiet = (a.elim false fun a => a.quiet)
  fits : p.Fits

theorem Machine.childContext_eq (m : Machine) : m.childContext =
    (m.active.elim 0 fun a => a.depth + 1, m.active.elim false fun a => a.quiet) := by
  unfold childContext
  cases m.active <;> rfl

/-! ### Code that shows nested events -/

/-- The frame without what it is given next. -/
def Frame.shown (f : Frame) : Frame := { f with input := .start }

/-- The frame at `a` is running, the frames show as `v`, and since `log`, where the branches `i` were open, an
observer saw nested events that lead to the place `p`. -/
structure Rests (a : Option Active) (v : List Frame) (p : Place) (i : List (Nat × BranchKind))
    (log : Option (Array Event)) (m : Machine) : Prop where
  active : m.active = a
  frames : m.frames.items.map Frame.shown = v
  shown : Shown p.quiet i p.inside log m.observed

/-- **The procedure shows nested events** and leaves the frames alone, however it ends. -/
def Nests (P : Run α) : Prop := ∀ a v p i log, Placed a p → Proc.Keeps (Rests a v p i log) P

/-- The procedure leaves the frames, the active calls and the observer alone. -/
structure Discreet (P : Run α) : Prop where
  steady : Steady Frame.shown P
  unseen : ∀ log, Proc.Keeps (fun m => m.observed = log) P

namespace Nests

theorem pure (x : α) : Nests (Pure.pure x : Run α) := fun _ _ _ _ _ _ => .pure x

theorem fail (e : Error) : Nests (throw e : Run α) := fun _ _ _ _ _ _ => .fail e

theorem ofExcept (r : Except Error α) : Nests (Proc.ofExcept r : Run α) := by
  cases r with
  | ok x => exact .pure x
  | error e => exact .fail e

theorem bind {P : Run α} {F : α → Run β} (hP : Nests P) (hF : ∀ x, Nests (F x)) : Nests (P >>= F) :=
  fun a v p i log hp => .bind (hP a v p i log hp) fun x => hF x a v p i log hp

theorem attempt {P : Run α} (hP : Nests P) : Nests P.attempt := by
  intro a v p i log hp m h
  have hleaves := hP a v p i log hp m h
  unfold Proc.attempt
  cases hPm : P m with
  | done x m' => rw [hPm] at hleaves; exact hleaves
  | failed e m' => rw [hPm] at hleaves; exact hleaves
  | stalled => trivial

end Nests

theorem Discreet.nests {P : Run α} (hP : Discreet P) : Nests P := by
  intro a v p i log _ m h
  have hsteady := hP.steady a m.monitor.options m.monitor.calls v m ⟨h.active, rfl, rfl, h.frames⟩
  have hunseen := hP.unseen m.observed m rfl
  cases hPm : P m with
  | done x m' =>
    rw [hPm] at hsteady hunseen
    exact ⟨hsteady.active, hsteady.frames, (show m'.observed = m.observed from hunseen) ▸ h.shown⟩
  | failed e m' =>
    rw [hPm] at hsteady hunseen
    exact ⟨hsteady.active, hsteady.frames, (show m'.observed = m.observed from hunseen) ▸ h.shown⟩
  | stalled => trivial

/-- What the engine evaluates and calls shows nested events. -/
structure Engine.Nests (E : Engine) : Prop where
  evaluate : ∀ r, ScriptCore.Nests (E.evaluate r)
  call : ∀ f receiver args, ScriptCore.Nests (E.call f receiver args)

/-- **Code that runs more code only by evaluating and by calling.** The rest of it leaves the frames, the active
calls and the observer alone. -/
inductive Reenters : {α : Type} → (Engine → Run α) → Prop where
  | aside {α : Type} {P : Run α} (hP : Discreet P) : Reenters fun _ => P
  | evaluate (r : BranchRequest) : Reenters fun E => E.evaluate r
  | call (f receiver : Value) (args : List Value) : Reenters fun E => E.call f receiver args
  | bind {α β : Type} {P : Engine → Run α} {F : Engine → α → Run β} (hP : Reenters P)
      (hF : ∀ x, Reenters fun E => F E x) : Reenters fun E => P E >>= F E
  | attempt {α : Type} {P : Engine → Run α} (hP : Reenters P) : Reenters fun E => (P E).attempt

theorem Reenters.nests {P : Engine → Run α} (hP : Reenters P) (hE : E.Nests) : Nests (P E) := by
  induction hP with
  | aside hP => exact hP.nests
  | evaluate r => exact hE.evaluate r
  | call f receiver args => exact hE.call f receiver args
  | bind _ _ ihP ihF => exact ihP.bind ihF
  | attempt _ ihP => exact ihP.attempt

theorem Discreet.onHeap (P : Proc Heap α) : Discreet (Run.onHeap P) := by
  refine ⟨.onHeap P, fun log m h => ?_⟩
  unfold Run.onHeap
  dsimp only
  cases P m.heap <;> first | exact h | trivial

/-- What tasks do is code of this kind. -/
theorem Routine.reenters {P : Engine → Run α} (hP : Routine P) : Reenters P := by
  induction hP with
  | pure x => exact .aside ⟨.pure x, fun _ => .pure x⟩
  | fail e => exact .aside ⟨.fail e, fun _ => .fail e⟩
  | onHeap hp => exact .aside (.onHeap _)
  | look f => exact .aside ⟨fun _ _ _ _ _ h => h, fun _ _ h => h⟩
  | evaluate r => exact .evaluate r
  | call f receiver args => exact .call f receiver args
  | bind _ _ ihp ihf => exact .bind ihp ihf

/-- The native functions of the host run more code only by evaluating and by calling. -/
def Host.Reenters (host : Host) : Prop :=
  ∀ entry receiver args, ScriptCore.Reenters fun E => host.native entry E receiver args

/-! ### Frames that stand on each other -/

/-- **The frames were opened one inside the other**, on frames that show as `v`, where `p` was the place; and this
is the place inside the innermost. -/
inductive Tower (v : List Frame) (p : Place) : Stack Frame → Place → Prop where
  | base {s : Stack Frame} (hs : s.items.map Frame.shown = v) : Tower v p s p
  | push {s : Stack Frame} {p' : Place} {f : Frame} (h : Tower v p s p') (hf : p'.Takes f) :
      Tower v p (s.push f) (p'.within f)

namespace Tower

variable {p p' p'' : Place}

theorem size_le (h : Tower v p s p') : v.length ≤ s.size := by
  induction h with
  | @base s hs => exact Nat.le_of_eq (by rw [← hs, List.length_map, s.size_eq])
  | push _ _ ih => exact Nat.le_succ_of_le ih

theorem fits (h : Tower v p s p') (hp : p.Fits) : p'.Fits := by
  induction h with
  | base _ => exact hp
  | push _ hf ih => exact hf.fits ih

theorem quiet_of (h : Tower v p s p') (hp : p.quiet = true) : p'.quiet = true := by
  induction h with
  | base _ => exact hp
  | push _ hf ih => exact hf.quiet_of ih

/-- Nothing stands on the frames that were there. -/
theorem eq_of_size (h : Tower v p s p') (hs : s.size = v.length) : s.items.map Frame.shown = v ∧ p' = p := by
  cases h with
  | base hv => exact ⟨hv, rfl⟩
  | push h _ =>
    have := h.size_le
    rw [Stack.size_push] at hs
    omega

/-- The frame on top. -/
theorem pop (h : Tower v p (s.push f) p') (hs : v.length ≤ s.size) :
    ∃ p'', Tower v p s p'' ∧ p''.Takes f ∧ p' = p''.within f := by
  generalize ht : s.push f = t at h
  cases h with
  | base hv =>
    have hlength := congrArg List.length hv
    rw [List.length_map, ← ht, Stack.items_push, List.length_cons, ← s.size_eq] at hlength
    omega
  | @push t p'' g h hg =>
    obtain ⟨rfl, rfl⟩ := Stack.push_inj ht
    exact ⟨p'', h, hg, rfl⟩

/-- Frames that show as the same stand as well. -/
theorem congr (h : Tower v p s p') (hs : s'.items.map Frame.shown = s.items.map Frame.shown) :
    Tower v p s' p' := by
  induction h generalizing s' with
  | base hv => exact .base (hs.trans hv)
  | @push s p' f _ hf ih =>
    have hsize : 0 < s'.size := by
      rw [s'.size_eq, ← s'.items.length_map (f := Frame.shown), hs, List.length_map]
      exact Nat.succ_pos _
    obtain ⟨t, g, rfl⟩ := Stack.exists_push hsize
    rw [Stack.items_push, Stack.items_push, List.map_cons, List.map_cons] at hs
    obtain ⟨hg, ht⟩ := List.cons.inj hs
    -- The two frames differ at most in what they are given.
    have hgf : g = { f with input := g.input } := by
      obtain ⟨task, info, depth, quiet, isCall, input⟩ := g
      cases hg
      rfl
    rw [hgf]
    exact .push (ih ht) ⟨hf.depth, hf.quiet⟩

theorem trans (h : Tower v p s p') (h' : Tower (s.items.map Frame.shown) p' s' p'') : Tower v p s' p'' := by
  induction h' with
  | base hs => exact h.congr hs
  | push _ hf ih => exact .push ih hf

end Tower

theorem Stack.map_shown_modifyTop (s : Stack Frame) (i : Frame → Input) :
    (s.modifyTop fun f => { f with input := i f }).items.map Frame.shown = s.items.map Frame.shown := by
  obtain ⟨items, size, hs⟩ := s
  cases items <;> rfl

/-! ### Opening a call -/

/-- The frame at `a` is running, and frames stand on those that show as `v`; the place inside the innermost is
`p'`, and since `log`, where the branches `i` were open, an observer saw nested events that lead there. -/
structure Raised (a : Option Active) (v : List Frame) (p : Place) (i : List (Nat × BranchKind))
    (log : Option (Array Event)) (p' : Place) (m : Machine) : Prop where
  active : m.active = a
  tower : Tower v p m.frames p'
  shown : Shown p.quiet i p'.inside log m.observed

variable {p p' p'' : Place} {i : List (Nat × BranchKind)} {log : Option (Array Event)}

theorem Rests.raised (h : Rests a v p i log m) : Raised a v p i log p m := ⟨h.active, .base h.frames, h.shown⟩

theorem Rests.size (h : Rests a v p i log m) : m.frames.size = v.length := by
  rw [← h.frames, List.length_map, m.frames.size_eq]

theorem Raised.rests (h : Raised a v p i log p' m) (hm : m.frames.size = v.length) : Rests a v p i log m := by
  obtain ⟨hframes, rfl⟩ := h.tower.eq_of_size hm
  exact ⟨h.active, hframes, h.shown⟩

/-- The raised frames as those that code finds. -/
theorem Raised.found (h : Raised a v p i log p' m) :
    Rests a (m.frames.items.map Frame.shown) p' p'.inside m.observed m := ⟨h.active, rfl, .refl _ _ _⟩

/-- What code raised on what it found is raised on what was there. -/
theorem Raised.trans (h : Raised a v p i log p' m)
    (h' : Raised a (m.frames.items.map Frame.shown) p' p'.inside m.observed p'' m') : Raised a v p i log p'' m' :=
  ⟨h'.active, h.tower.trans h'.tower, h.shown.trans h'.shown h.tower.quiet_of⟩

@[simp] theorem Machine.observed_collected (m : Machine) : m.collected.observed = m.observed := by
  unfold Machine.collected
  split <;> rfl

theorem Machine.observed_openFrame (m : Machine) (task : Task) (info : BranchInfo) (depth : Nat)
    (quiet isCall : Bool) : (m.openFrame task info depth quiet isCall).observed =
      if quiet || info.options.isQuiet then m.observed else m.observed.map (·.push (.enter depth info)) := by
  unfold Machine.openFrame
  dsimp only
  split <;> rfl

theorem Machine.observed_leave (m : Machine) (f : Frame) (o : Except Error Completion) :
    (m.leave f o).observed =
      if f.quiet then m.observed else m.observed.map (·.push (.exit f.depth f.info.kind o)) := by
  unfold Machine.leave
  cases f.isCall <;> cases f.quiet <;> rfl

/-- A frame is opened at its place. -/
theorem Raised.opened (h : Raised a v p i log p' m) (hp : p.Fits) (task : Task) (info : BranchInfo) (isCall : Bool) :
    ∃ p'', Raised a v p i log p'' (m.openFrame task info p'.depth p'.quiet isCall) ∧
      v.length < (m.openFrame task info p'.depth p'.quiet isCall).frames.size := by
  have htakes : p'.Takes ⟨task, info, p'.depth, p'.quiet || info.options.isQuiet, isCall, .start⟩ := ⟨rfl, rfl⟩
  refine ⟨_, ⟨by simpa using h.active, by rw [Machine.frames_openFrame]; exact .push h.tower htakes, ?_⟩, ?_⟩
  · rw [Machine.observed_openFrame]
    exact h.shown.trans (htakes.enter (h.tower.fits hp) m.observed) fun hq => htakes.quiet_of (h.tower.quiet_of hq)
  · rw [Machine.frames_openFrame, Stack.size_push]
    exact Nat.lt_succ_of_le h.tower.size_le

/-- An outcome is delivered to a frame above those that were there, or to one of them. -/
theorem Raised.deliver (h : Raised a v p i log p' m) (o : Except Error Completion) :
    Raised a v p i log p' (m.deliver o) :=
  ⟨h.active, h.tower.congr (Stack.map_shown_modifyTop m.frames fun _ => .deliver o), h.shown⟩

/-- A call was opened: its frame is on top, or it was answered, or refused, and only nested events were shown. -/
inductive CallNested (a : Option Active) (v : List Frame) (p : Place) (i : List (Nat × BranchKind))
    (log : Option (Array Event)) :
    Outcome Machine (Option Value) → Prop where
  | pending {m : Machine} {p' : Place} (h : Raised a v p i log p' m) (hm : v.length < m.frames.size) :
      CallNested a v p i log (.done none m)
  | answered {m : Machine} (w : Value) (h : Rests a v p i log m) : CallNested a v p i log (.done (some w) m)
  | refused {m : Machine} (e : Error) (h : Rests a v p i log m) : CallNested a v p i log (.failed e m)
  | stalled : CallNested a v p i log .stalled

/-- A native function shows what the code shows that it runs. -/
theorem nests_callNative (hhost : host.Reenters) (hE : E.Nests) (n : Native) (receiver : Value)
    (args : List Value) : Nests (callNative host E n receiver args) := by
  have entered : ∀ name, Nests (enterCall name) := by
    intro name a v p i log _ m h
    rw [enterCall_eq]
    split <;> exact ⟨h.active, h.frames, h.shown⟩
  exact .bind (entered _) fun _ => .bind ((hhost n.entry receiver args).nests hE).attempt fun r =>
    .bind (fun _ _ _ _ _ _ _ h => ⟨h.active, h.frames, h.shown⟩) fun _ => .ofExcept r

/-- **A call is opened at its place**, or what it shows is nested. -/
theorem openCall_nested (hhost : host.Reenters) (hE : E.Nests) (hp : Placed a p) (h : Rests a v p i log m)
    (r : CallRequest) : CallNested a v p i log (openCall host E r p.depth p.quiet m) := by
  obtain ⟨-, -, n, -, -, -, hcall⟩ | hcall := openCall_cases host m r p.depth p.quiet
  · have hran := nests_callNative hhost hE n r.receiver r.args a v p i log hp m h
    rw [hcall, map_eq_pure_bind, Proc.bind_eq]
    cases hx : callNative host E n r.receiver r.args m with
    | done x m' => rw [hx] at hran; exact .answered x hran
    | failed e m' => rw [hx] at hran; exact .refused e hran
    | stalled => exact .stalled
  · rw [hcall]
    cases m.requestedCall r with
    | error e => exact .refused e h
    | ok x =>
      have hcounted : Raised a v p i log p { m with monitor := { m.monitor with calls := x.calls } } :=
        ⟨h.active, .base h.frames, h.shown⟩
      obtain ⟨p', hraised, hsize⟩ := hcounted.opened hp.fits x.task x.info x.isCall
      exact .pending hraised hsize

/-! ### One boundary -/

/-- The place that a running frame gives to what it opens. -/
theorem Place.Takes.placed (h : p'.Takes f) (hp : p'.Fits) :
    Placed (some ⟨f.depth, f.quiet⟩) (p'.within f) where
  depth := congrArg (· + 1) h.depth.symm
  quiet := rfl
  fits := h.fits hp

/-- **Opening what a suspended frame asks for** leaves a frame on top, and what is shown is nested. -/
theorem openChild_raised (hhost : host.Reenters) (hE : E.Nests) (hp : p.Fits) (ha : Placed a p')
    (h : Raised a v p i log p' m) (hm : v.length < m.frames.size) (c : Suspension) :
    (openChild host E c p'.depth p'.quiet m).Leaves fun m' =>
      (∃ p'', Raised a v p i log p'' m') ∧ v.length < m'.frames.size := by
  have delivered : ∀ (r : Except Error Completion) (m₁ : Machine),
      Rests a (m.frames.items.map Frame.shown) p' p'.inside m.observed m₁ →
        (∃ p'', Raised a v p i log p'' (m₁.deliver r)) ∧ v.length < (m₁.deliver r).frames.size := by
    intro r m₁ h₁
    have hsize := h₁.size
    rw [List.length_map, ← m.frames.size_eq] at hsize
    exact ⟨⟨p', (h.trans h₁.raised).deliver r⟩, hsize ▸ hm⟩
  cases c with
  | branch r =>
    unfold openChild
    dsimp only
    cases host.branch r with
    | ok task =>
      obtain ⟨p'', hraised, hsize⟩ := h.opened hp task r.info false
      exact ⟨⟨p'', hraised⟩, hsize⟩
    | error e => exact delivered _ m h.found
  | call r =>
    have hopened := openCall_nested hhost hE ha h.found r
    simp only [openChild, Bind.bind, Proc.bind, Proc.attempt]
    generalize openCall host E r p'.depth p'.quiet m = x at hopened
    cases hopened with
    | refused e h₁ => exact delivered _ _ h₁
    | answered w h₁ => exact delivered _ _ h₁
    | stalled => trivial
    | pending h₁ hsize =>
      rw [List.length_map, ← m.frames.size_eq] at hsize
      exact ⟨⟨_, h.trans h₁⟩, Nat.lt_trans hm hsize⟩

/-- What a boundary of a drive down to `base` came to: a frame above `base` is left, or what was shown is nested. -/
def TurnNests (a : Option Active) (v : List Frame) (p : Place) (i : List (Nat × BranchKind))
    (log : Option (Array Event)) (base : Nat) :
    Outcome Machine Advance → Prop
  | .done .going m => (∃ p', Raised a v p i log p' m) ∧ base < m.frames.size
  | .done (.finished _) m => Rests a v p i log m
  | .failed _ _ => False
  | .stalled => True

/-- The frame was taken off the stack, from above those that were there; its end was not shown yet. -/
structure Lifting (a : Option Active) (v : List Frame) (p : Place) (i : List (Nat × BranchKind))
    (log : Option (Array Event)) (f : Frame) (m : Machine) : Prop where
  active : m.active = a
  lifted : ∃ p', Tower v p m.frames p' ∧ p'.Takes f ∧ Shown p.quiet i (p'.within f).inside log m.observed

/-- A frame closes. -/
theorem Lifting.closed (h : Lifting a v p i log f m) (hbase : base ≤ v.length) (o : Except Error Completion) :
    TurnNests a v p i log base (m.closed f o base) := by
  obtain ⟨p', htower, htakes, hshown⟩ := h.lifted
  have hleft : Raised a v p i log p' (m.leave f o) := by
    refine ⟨by simpa using h.active, by rw [Machine.frames_leave]; exact htower, ?_⟩
    rw [Machine.observed_leave]
    exact hshown.trans (p'.exit f o m.observed) fun hq => htakes.quiet_of (htower.quiet_of hq)
  have hsize := htower.size_le
  unfold Machine.closed
  by_cases hlast : m.frames.size = base
  · rw [if_pos hlast]
    refine hleft.rests ?_
    rw [Machine.frames_leave]
    omega
  · rw [if_neg hlast]
    refine ⟨⟨p', hleft.deliver o⟩, ?_⟩
    show base < (m.leave f o).frames.size
    rw [Machine.frames_leave]
    omega

/-- A frame is suspended. -/
theorem Lifting.suspended (hhost : host.Reenters) (hE : E.Nests) (hp : p.Fits) (h : Lifting a v p i log f m)
    (hbase : base ≤ v.length) (c : Suspension) : TurnNests a v p i log base
      (match suspend host E f c m with
        | .done _ m => .done .going m
        | .failed e m => .failed e m
        | .stalled => .stalled) := by
  obtain ⟨p', htower, htakes, hshown⟩ := h.lifted
  have hpushed : Raised (some ⟨f.depth, f.quiet⟩) v p i log (p'.within f)
      { m with frames := m.frames.push f, active := some ⟨f.depth, f.quiet⟩ } :=
    ⟨rfl, .push htower htakes, hshown⟩
  have hopened : (openChild host E c (p'.within f).depth f.quiet
      { m with frames := m.frames.push f, active := some ⟨f.depth, f.quiet⟩ }).Leaves fun m' =>
        (∃ p'', Raised (some ⟨f.depth, f.quiet⟩) v p i log p'' m') ∧ v.length < m'.frames.size :=
    openChild_raised hhost hE hp (htakes.placed (htower.fits hp)) hpushed (Nat.lt_succ_of_le htower.size_le) c
  rw [suspend_eq, show f.depth + 1 = (p'.within f).depth from congrArg (· + 1) htakes.depth]
  cases hx : openChild host E c (p'.within f).depth f.quiet
    { m with frames := m.frames.push f, active := some ⟨f.depth, f.quiet⟩ } with
  | done u m₁ =>
    rw [hx] at hopened
    obtain ⟨⟨p'', h₁⟩, hsize⟩ := hopened
    exact ⟨⟨p'', h.active, h₁.tower, h₁.shown⟩, Nat.lt_of_le_of_lt hbase hsize⟩
  | failed e m₁ => exact absurd hx (unfailing_openChild c _ _ _ e m₁)
  | stalled => trivial

/-- What the task of a frame does shows nested events inside the frame. -/
theorem Lifting.work (hE : E.Nests) (hp : p.Fits) (h : Lifting a v p i log f m)
    (o : Option (Except Error Completion)) : (f.work E o m).Leaves (Lifting a v p i log f) := by
  have crossed : (crossing o m).Leaves (Lifting a v p i log f) := by
    unfold crossing
    obtain ⟨r, k⟩ := m.monitor.crossed o
    cases r <;> exact ⟨h.active, h.lifted⟩
  refine Outcome.Leaves.bind crossed fun _ m₁ h₁ => ?_
  obtain ⟨p', htower, htakes, hshown⟩ := h₁.lifted
  have hran := ((f.task.routine_doing o).reenters.nests hE) (some ⟨f.depth, f.quiet⟩)
    (m₁.frames.items.map Frame.shown) (p'.within f) (p'.within f).inside m₁.observed (htakes.placed (htower.fits hp))
    { m₁ with active := some ⟨f.depth, f.quiet⟩ } ⟨rfl, rfl, .refl _ _ _⟩
  have lifted : ∀ {m₂}, Rests (some ⟨f.depth, f.quiet⟩) (m₁.frames.items.map Frame.shown) (p'.within f)
      (p'.within f).inside m₁.observed m₂ → Lifting a v p i log f { m₂ with active := m₁.active } := fun h₂ =>
    ⟨h₁.active, p', htower.congr h₂.frames, htakes,
      hshown.trans h₂.shown fun hq => htakes.quiet_of (htower.quiet_of hq)⟩
  unfold Frame.running
  generalize f.task.doing E o _ = ran at hran
  cases ran with
  | done x m₂ => exact lifted hran
  | failed e m₂ => exact lifted hran
  | stalled => trivial

/-- **One boundary shows nested events.** -/
theorem Lifting.turned (hhost : host.Reenters) (hE : E.Nests) (hp : p.Fits) (h : Lifting a v p i log f m)
    (hbase : base ≤ v.length) : TurnNests a v p i log base (turn host E base f m) := by
  -- The frame may be given something else, or come back with its task further on.
  have again : ∀ {f g : Frame} {m : Machine}, Lifting a v p i log f m → g.depth = f.depth → g.quiet = f.quiet →
      g.info = f.info → Lifting a v p i log g m := by
    rintro f ⟨task, info, depth, quiet, isCall, input⟩ m h rfl rfl rfl
    obtain ⟨p', htower, htakes, hshown⟩ := h.lifted
    exact ⟨h.active, p', htower, ⟨htakes.depth, htakes.quiet⟩, hshown⟩
  induction f using Frame.fed_cases with
  | fed f o =>
    have hf : Lifting a v p i log f m := again h (by cases o <;> rfl) (by cases o <;> rfl) (by cases o <;> rfl)
    have hworked := hf.work hE hp o
    rw [turn_fed]
    generalize f.work E o m = x at hworked
    cases x with
    | stalled => trivial
    | failed e m₁ => exact hworked.closed hbase _
    | done r m₁ =>
      obtain ⟨t, step⟩ := r
      cases step with
      | finished c => exact hworked.closed hbase _
      | suspended c =>
        exact (again (g := { f with task := t, input := .waiting }) hworked rfl rfl rfl).suspended hhost hE hp
          hbase c
  | fail f e hinput =>
    rw [turn_fail hinput]
    exact h.closed hbase _
  | waiting f hinput =>
    rw [turn_waiting hinput]
    exact h.closed hbase _

/-! ### Many boundaries -/

/-- A boundary of a drive. -/
theorem Raised.advanced (hhost : host.Reenters) (hE : E.Nests) (hp : p.Fits) (h : Raised a v p i log p' m)
    (hm : v.length < m.frames.size) : TurnNests a v p i log v.length (advance host E v.length m) := by
  obtain ⟨s, f, hf⟩ := Stack.exists_push (Nat.lt_of_le_of_lt (Nat.zero_le _) hm)
  have hs : v.length ≤ s.size := by
    rw [hf, Stack.size_push] at hm
    omega
  obtain ⟨p'', htower, htakes, rfl⟩ := Tower.pop (hf ▸ h.tower) hs
  rw [advance_eq_turn hf hs]
  refine Lifting.turned hhost hE hp ⟨by simpa using h.active, p'', htower, htakes, ?_⟩ (Nat.le_refl _)
  simpa using h.shown

/-- **A drive shows the events of its own frames**, each entered and left. -/
theorem Raised.driven (hhost : host.Reenters) (hE : E.Nests) (hp : p.Fits) (b : Nat)
    (h : ∃ p', Raised a v p i log p' m) (hm : v.length < m.frames.size) :
    (drive host E v.length b m).Leaves (Rests a v p i log) := by
  induction b generalizing m with
  | zero => trivial
  | succ b ih =>
    obtain ⟨p', h⟩ := h
    have hturned := h.advanced hhost hE hp hm
    rw [drive_succ]
    generalize advance host E v.length m = x at hturned
    cases x with
    | stalled => trivial
    | failed e m₁ => exact hturned.elim
    | done r m₁ =>
      cases r with
      | going => exact ih hturned.1 hturned.2
      | finished r => cases r <;> exact hturned

/-- Evaluating a branch, at any place that is as deep and, if the code around it is, as quiet. -/
theorem evaluateOn_rests (hhost : host.Reenters) (hE : E.Nests) (b : Nat) (r : BranchRequest)
    (hp : p.Fits) (hdepth : p.depth = m.childContext.1)
    (hquiet : (p.quiet || r.options.isQuiet) = (m.childContext.2 || r.options.isQuiet))
    (h : Rests a v p i log m) : (host.evaluateOn E b r m).Leaves (Rests a v p i log) := by
  rw [evaluateOn_eq, h.size]
  cases host.branch r with
  | error e => exact h
  | ok task =>
    obtain ⟨p', hraised, hsize⟩ := h.raised.opened hp task r.info false
    have hopened : m.openFrame task r.info m.childContext.1 m.childContext.2 false =
        m.openFrame task r.info p.depth p.quiet false := by
      unfold Machine.openFrame
      rw [hdepth, show (p.quiet || r.info.options.isQuiet) = (m.childContext.2 || r.info.options.isQuiet)
        from hquiet]
    dsimp only
    rw [hopened]
    exact Raised.driven hhost hE hp b ⟨p', hraised⟩ hsize

theorem nests_evaluateOn (hhost : host.Reenters) (hE : E.Nests) (b : Nat) (r : BranchRequest) :
    Nests (host.evaluateOn E b r) := by
  intro a v p i log hp m h
  refine evaluateOn_rests hhost hE b r hp.fits ?_ ?_ h
  · rw [Machine.childContext_eq, h.active]
    exact hp.depth
  · rw [Machine.childContext_eq, h.active, hp.quiet]

theorem nests_callOn (hhost : host.Reenters) (hE : E.Nests) (b : Nat) (callee receiver : Value)
    (args : List Value) : Nests (host.callOn E b callee receiver args) := by
  intro a v p i log hp m h
  have hopened := openCall_nested hhost hE hp h (m.callRequest callee receiver args)
  rw [callOn_eq_answered, Proc.bind_eq, h.size, Machine.childContext_eq, h.active, ← hp.depth, ← hp.quiet]
  generalize openCall host E _ _ _ m = x at hopened
  cases hopened with
  | refused e h₁ => exact h₁
  | answered w h₁ => exact h₁
  | stalled => trivial
  | @pending m₁ p' h₁ hsize =>
    show Outcome.Leaves _ (Proc.bind (drive host E v.length b) (fun c => Proc.ofExcept (completionValue c)) m₁)
    exact (Raised.driven hhost hE hp.fits b ⟨p', h₁⟩ hsize).bind fun c => Nests.ofExcept _ a v p i log hp

/-- **What is evaluated or called shows nested events.** -/
theorem Host.engine_nests (hhost : host.Reenters) (n : Nat) : (host.engine n).Nests := by
  induction n with
  | zero => exact ⟨fun _ _ _ _ _ _ _ _ _ => trivial, fun _ _ _ _ _ _ _ _ _ _ _ => trivial⟩
  | succ n ih => exact ⟨nests_evaluateOn hhost ih n, nests_callOn hhost ih n⟩

/-! ### The root branch -/

/-- Where the host stands. -/
def Place.outside : Place := ⟨0, false, []⟩

theorem placed_outside : Placed none .outside := ⟨rfl, rfl, fun _ => rfl⟩

/-- The frames that an observer saw enter, the innermost in front, each with its depth. -/
def visible (s : Stack Frame) : List (Nat × BranchKind) :=
  (s.items.filter fun f => !f.quiet).map fun f => (f.depth, f.info.kind)

theorem visible_eq (s : Stack Frame) : visible s =
    ((s.items.map Frame.shown).filter fun f => !f.quiet).map fun f => (f.depth, f.info.kind) := by
  rw [List.filter_map, List.map_map]
  rfl

/-- What is open inside the innermost frame are the visible ones. -/
theorem Tower.inside_eq (h : Tower (s.items.map Frame.shown) p s' p') (hp : p.inside = visible s) :
    p'.inside = visible s' := by
  induction h with
  | base hs => rw [hp, visible_eq, visible_eq, hs]
  | @push s p f _ _ ih =>
    unfold visible Place.within at *
    rw [Stack.items_push]
    cases hf : f.quiet <;> simp [hf, ih]

/-- What stands on a quiet frame is quiet. -/
theorem Tower.quiet_above (h : Tower [] p s p') :
    (∀ f ∈ s.items, f.quiet = true → p'.quiet = true) ∧
      s.items.Pairwise fun f g => g.quiet = true → f.quiet = true := by
  induction h with
  | base hs =>
    rw [List.map_eq_nil_iff.mp hs]
    exact ⟨fun _ hf => absurd hf List.not_mem_nil, .nil⟩
  | @push s p f _ hf ih =>
    have hbeneath : ∀ g ∈ s.items, g.quiet = true → f.quiet = true := fun g hg hquiet =>
      hf.quiet_of (ih.1 g hg hquiet)
    rw [Stack.items_push]
    refine ⟨fun g hg hquiet => ?_, .cons hbeneath ih.2⟩
    obtain rfl | hg := List.mem_cons.mp hg
    · exact hquiet
    · exact hbeneath g hg hquiet

/-- **The machines of a run that is observed**: the root branch was started on a machine without frames whose log
was `log`, and since then the host has stepped, run, aborted and cancelled, in any order, and done other things
that leave the frames, the active calls and the observer alone. -/
inductive Machine.Traced (host : Host) (log : Option (Array Event)) : Machine → Prop
  | started {m m' : Machine} (hidle : m.frames.size = 0) (hactive : m.active = none) (hlog : m.observed = log)
      (bound : Nat) (r : BranchRequest) (h : ((host.engine bound).start r m).state? = some m') : Traced host log m'
  | stepped {m m' : Machine} (hm : Traced host log m) (bound : Nat)
      (h : ((host.engine bound).step m).state? = some m') : Traced host log m'
  | ran {m m' : Machine} (hm : Traced host log m) (bound : Nat)
      (h : ((host.engine bound).run m).state? = some m') : Traced host log m'
  | aborted {m m' : Machine} (hm : Traced host log m) (e : Error) (h : (abort e m).state? = some m') :
      Traced host log m'
  | cancelled {m m' : Machine} (hm : Traced host log m) (h : (cancel m).state? = some m') : Traced host log m'
  | aside {α : Type} {m m' : Machine} (hm : Traced host log m) {P : Run α} (hP : Discreet P)
      (h : (P m).state? = some m') : Traced host log m'

/-- Frames stand on nothing, and an observer saw nested events since `log`. -/
def Rising (log : Option (Array Event)) (m : Machine) : Prop := ∃ p, Raised none [] .outside [] log p m

theorem Rests.idle (hidle : m.frames.size = 0) (hactive : m.active = none) (hlog : m.observed = log) :
    Rests none [] .outside [] log m := by
  refine ⟨hactive, ?_, hlog ▸ .refl _ _ _⟩
  rw [m.frames.size_eq] at hidle
  rw [List.eq_nil_of_length_eq_zero hidle]
  rfl

theorem Rests.rising (h : Rests none [] .outside [] log m) : Rising log m := ⟨_, h.raised⟩

theorem Rests.started (h : Rests none [] .outside [] log m) (r : BranchRequest) :
    (host.startRoot r m).Leaves (Rising log) := by
  obtain ⟨e, hstart⟩ | ⟨task, hstart⟩ := startRoot_cases host m r
  · rw [hstart]
    exact h.rising
  · obtain ⟨p', hraised, -⟩ := h.raised.opened placed_outside.fits task r.info false
    rw [hstart]
    exact ⟨p', hraised⟩

theorem Rising.aborted (h : Rising log m) (e : Error) : (ScriptCore.abort e m).Leaves (Rising log) := by
  obtain ⟨p, h⟩ := h
  unfold ScriptCore.abort
  split
  · exact ⟨p, h⟩
  · exact ⟨p, h.active, h.tower.congr (Stack.map_shown_modifyTop m.frames fun f => f.input.aborted e), h.shown⟩

section

variable (hhost : host.Reenters)

include hhost in
theorem Rising.driveVisible (hE : E.Nests) (b : Nat) (h : Rising log m) (hm : 0 < m.frames.size) :
    (driveVisible host E b m).Leaves (Rising log) := by
  induction b generalizing m with
  | zero => trivial
  | succ b ih =>
    obtain ⟨p, h⟩ := h
    have hturned : TurnNests none [] .outside [] log 0 (advance host E 0 m) :=
      h.advanced hhost hE placed_outside.fits hm
    unfold ScriptCore.driveVisible
    generalize advance host E 0 m = x at hturned
    cases x with
    | stalled => trivial
    | failed e m₁ => exact hturned.elim
    | done r m₁ =>
      cases r with
      | finished r => cases r <;> exact hturned.rising
      | going =>
        dsimp only
        by_cases hquiet : m₁.isQuiet = true
        · rw [if_pos hquiet]
          exact ih hturned.1 hturned.2
        · rw [if_neg hquiet]
          exact hturned.1

include hhost in
theorem Rising.step (h : Rising log m) : ∀ n, ((host.engine n).step m).Leaves (Rising log)
  | 0 => trivial
  | n + 1 => by
    unfold Host.engine
    dsimp only
    obtain ⟨hcontrol, hm⟩ | ⟨e, hcontrol, -⟩ := requireControl_cases (h.elim fun _ h => h.active)
    · rw [hcontrol]
      exact h.driveVisible hhost (Host.engine_nests hhost n) n hm
    · rw [hcontrol]
      exact h

include hhost in
/-- A run of the root branch ends when every branch was left. -/
theorem Rising.run (h : Rising log m) : ∀ n, ((host.engine n).run m).Leaves (Rests none [] .outside [] log)
  | 0 => trivial
  | n + 1 => by
    unfold Host.engine
    dsimp only
    obtain ⟨hcontrol, hm⟩ | ⟨e, hcontrol, hm⟩ := requireControl_cases (h.elim fun _ h => h.active)
    · rw [hcontrol]
      exact Raised.driven hhost (Host.engine_nests hhost n) placed_outside.fits n h hm
    · rw [hcontrol]
      exact h.elim fun _ h => h.rests hm

include hhost in
theorem Rests.execute (h : Rests none [] .outside [] log m) (body : List Stmt) :
    ∀ n, ((host.engine n).execute body m).Leaves (Rests none [] .outside [] log)
  | 0 => trivial
  | n + 1 => by
    show (host.executeOn (host.engine n) n body m).Leaves _
    rw [executeOn_of_inactive h.active]
    generalize ({ BranchRequest.program body m.realm.globalScope with
      options := { returnLastValue := true } } : BranchRequest) = r
    obtain ⟨e, hstart⟩ | ⟨task, hstart⟩ := startRoot_cases host m r
    · rw [Proc.bind_failed hstart]
      exact h
    · obtain ⟨p, hraised, hsize⟩ := h.raised.opened placed_outside.fits task r.info false
      rw [Proc.bind_done hstart]
      show ((drive host (host.engine n) 0 n (m.openFrame task r.info 0 false false)).bind fun c =>
        (Proc.ofExcept (completionValue c) : Run Value)).Leaves _
      exact (Raised.driven hhost (Host.engine_nests hhost n) placed_outside.fits n ⟨p, hraised⟩ hsize).bind
        fun c => Nests.ofExcept _ none [] .outside [] log placed_outside

include hhost in
theorem Machine.Traced.rising (h : m.Traced host log) : Rising log m := by
  induction h with
  | @started m m' hidle hactive hlog bound r h =>
    exact (Rests.idle hidle hactive hlog |>.started r).of_state (by cases bound <;> exact h)
  | stepped _ bound h ih => exact (ih.step hhost bound).of_state h
  | ran _ bound h ih => exact ((ih.run hhost bound).of_state h).rising
  | aborted _ e h ih => exact (ih.aborted e).of_state h
  | cancelled _ h ih => exact (ih.aborted _).of_state h
  | @aside _ m _ _ P hP h ih =>
    obtain ⟨p, ih⟩ := ih
    have hran := hP.steady none m.monitor.options m.monitor.calls _ m ⟨ih.active, rfl, rfl, rfl⟩
    have hunseen := hP.unseen m.observed m rfl
    have hleft := hran.of_state h
    exact ⟨p, hleft.active, ih.tower.congr hleft.frames,
      (show _ = m.observed from hunseen.of_state h) ▸ ih.shown⟩

include hhost in
/-- A boundary of the root branch leads from the visible frames to the visible frames, and shows nothing if the
innermost frame is quiet. -/
theorem Rising.boundary (hE : E.Nests) (h : Rising log m) :
    (advance host E 0 m).Leaves fun m' =>
      Shown m.isQuiet (visible m.frames) (visible m'.frames) m.observed m'.observed := by
  obtain ⟨p, h⟩ := h
  obtain hempty | hpos := Nat.eq_zero_or_pos m.frames.size
  · have hrefused : advance host E 0 m = .failed (.driverState .noFrame) m := by
      unfold advance
      refine (Proc.bind_done (show (get : Run Machine) m = .done m m from rfl) _).trans ?_
      rw [if_pos (Nat.le_of_eq hempty)]
      rfl
    rw [hrefused]
    exact .refl _ _ _
  obtain ⟨s, f, hf⟩ := Stack.exists_push hpos
  obtain ⟨p', htower, htakes, rfl⟩ := Tower.pop (hf ▸ h.tower) (Nat.zero_le _)
  have hquiet : m.isQuiet = f.quiet := by
    unfold Machine.isQuiet
    rw [hf, Stack.top?_push]
  have hinside : p'.inside = visible s := Tower.inside_eq (s := .empty) htower rfl
  have hvisible : (p'.within f).inside = visible m.frames := by
    rw [hf]
    exact Tower.inside_eq (s := .empty) (htower.push htakes) rfl
  -- The boundary is seen from the frames beneath, as if these were as quiet as the frame is.
  have htakes' : ({ p' with quiet := f.quiet } : Place).Takes f := by
    refine ⟨htakes.depth, ?_⟩
    rw [htakes.quiet]
    cases p'.quiet <;> cases f.info.options.isQuiet <;> rfl
  have hfits : ({ p' with quiet := f.quiet } : Place).Fits := fun hloud =>
    htower.fits placed_outside.fits (htakes.loud hloud)
  have hturned : TurnNests none (s.items.map Frame.shown) { p' with quiet := f.quiet } (p'.within f).inside
      m.observed 0 (advance host E 0 m) := by
    rw [advance_eq_turn hf (Nat.zero_le _)]
    refine Lifting.turned hhost hE hfits ⟨by simpa using h.active, _, .base rfl, htakes', ?_⟩ (Nat.zero_le _)
    rw [Machine.observed_collected]
    exact .refl _ _ _
  rw [hvisible] at hturned
  generalize advance host E 0 m = x at hturned
  cases x with
  | stalled => trivial
  | failed e m₁ => exact hturned.elim
  | done r m₁ =>
    rw [hquiet]
    cases r with
    | finished r =>
      have hleft : visible m₁.frames = p'.inside := by
        rw [hinside, visible_eq, visible_eq, Rests.frames hturned]
      show Shown _ _ (visible m₁.frames) _ _
      rw [hleft]
      exact Rests.shown hturned
    | going =>
      obtain ⟨⟨p'', h₁⟩, -⟩ := hturned
      show Shown _ _ (visible m₁.frames) _ _
      rw [← h₁.tower.inside_eq hinside]
      exact h₁.shown

end

/-- Evaluating shows nothing inside a quiet frame, and nothing of a quiet branch. -/
theorem evaluate_unseen (hhost : host.Reenters) (n : Nat) (r : BranchRequest)
    (hquiet : (m.childContext.2 || r.options.isQuiet) = true) :
    ((host.engine n).evaluate r m).Leaves fun m' => m'.observed = m.observed := by
  cases n with
  | zero => trivial
  | succ n =>
    refine (evaluateOn_rests hhost (Host.engine_nests hhost n) n r (p := ⟨m.childContext.1, true, []⟩) nofun rfl
      hquiet.symm ⟨rfl, rfl, .refl _ _ _⟩).imp fun m' h' => ?_
    exact h'.shown.eq_of_quiet.2

theorem call_unseen (hhost : host.Reenters) (n : Nat) (callee receiver : Value) (args : List Value)
    (hquiet : m.childContext.2 = true) :
    ((host.engine n).call callee receiver args m).Leaves fun m' => m'.observed = m.observed := by
  have hplaced : Placed m.active ⟨m.childContext.1, true, []⟩ :=
    ⟨by rw [Machine.childContext_eq], by rw [← hquiet, Machine.childContext_eq], nofun⟩
  refine ((Host.engine_nests hhost n).call callee receiver args _ _ _ _ _ hplaced m
    ⟨rfl, rfl, .refl _ _ _⟩).imp fun m' h' => ?_
  exact h'.shown.eq_of_quiet.2

/-- **The events of a run are nested.** Let native functions run more code only by evaluating and by calling; they
may abort. Take a machine without frames, start the root branch, and let the host step, run, abort and cancel as it
likes.

* The events since the start lead from no open branch to the visible frames: each enter has the number of open
  branches as its depth, and each exit goes with the innermost enter in depth and in kind. What stands on a quiet
  frame is quiet. So it is at every boundary, which leads from the visible frames to the visible frames and shows
  nothing if the innermost frame is quiet.
* A run ends without frames, when every branch that was entered was left; so does the execution of a program.
* Evaluating and calling inside a quiet frame show nothing, and neither does the evaluation of a quiet branch. -/
theorem Host.Reenters.events_nest (hhost : host.Reenters) (n : Nat) :
    (∀ log (m : Machine), m.Traced host log →
      Shown false [] (visible m.frames) log m.observed ∧
      m.frames.items.Pairwise (fun f g => g.quiet = true → f.quiet = true) ∧
      ((advance host (host.engine n) 0 m).Leaves fun m' =>
        Shown m.isQuiet (visible m.frames) (visible m'.frames) m.observed m'.observed) ∧
      (((host.engine n).run m).Leaves fun m' => m'.frames.size = 0 ∧ Shown false [] [] log m'.observed)) ∧
    (∀ m : Machine, m.frames.size = 0 → m.active = none → ∀ body,
      ((host.engine n).execute body m).Leaves fun m' =>
        m'.frames.size = 0 ∧ Shown false [] [] m.observed m'.observed) ∧
    ∀ m : Machine,
      (∀ r, (m.childContext.2 || r.options.isQuiet) = true →
        ((host.engine n).evaluate r m).Leaves fun m' => m'.observed = m.observed) ∧
      (m.childContext.2 = true → ∀ callee receiver args,
        ((host.engine n).call callee receiver args m).Leaves fun m' => m'.observed = m.observed) := by
  refine ⟨fun log m hm => ?_, fun m hidle hactive body => ?_, fun m => ⟨fun r => ?_, fun hquiet f r args => ?_⟩⟩
  · have hrising : Rising log m := hm.rising hhost
    obtain ⟨p, hraised⟩ := hm.rising hhost
    refine ⟨?_, hraised.tower.quiet_above.2, hrising.boundary hhost (Host.engine_nests hhost n), ?_⟩
    · rw [← Tower.inside_eq (s := .empty) hraised.tower rfl]
      exact hraised.shown
    · exact (hrising.run hhost n).imp fun m' h' => ⟨h'.size, h'.shown⟩
  · exact ((Rests.idle hidle hactive rfl).execute hhost body n).imp fun m' h' => ⟨h'.size, h'.shown⟩
  · exact evaluate_unseen hhost n r
  · exact call_unseen hhost n f r args hquiet

/-- A new machine whose global object has a native function, under the name of its code. -/
def machineWith (entry : String) (observed : Option (Array Event)) : Option Machine :=
  (Machine.create .standard {} 0 true).toOption.bind fun m =>
    ((do
      let f ← allocNative ⟨entry, 0, entry⟩
      Realm.defineConstant (← Run.realm).globalObject entry (.object f) : Run Unit) { m with observed }).state?

/-- The program calls `f` with a function, which `f` calls. It is stepped once, and then run to its end. -/
theorem Host.Reenters.events_nest_calling : ∃ m m' : Machine, Host.calling.Reenters ∧
    m.Traced Host.calling (some #[]) ∧ visible m.frames = [(1, .statement), (0, .program)] ∧
    Shown false [] (visible m.frames) (some #[]) m.observed ∧
    ((Host.calling.engine 12).run m).state? = some m' ∧ m'.observed.map Array.size = some 14 ∧
    Shown false [] [] (some #[]) m'.observed := by
  have hhost : Host.calling.Reenters := fun _ _ _ => .call _ _ _
  have hruns : ((machineWith "f" (some #[])).bind fun m₀ =>
      ((Host.calling.engine 12).start
        (.program [.expr (.call (.ident "f") [.function ⟨none, [], .block [], false, false, false⟩])]
          m₀.realm.globalScope) m₀).state?.bind fun m₁ =>
        ((Host.calling.engine 12).step m₁).state?.bind fun m =>
          ((Host.calling.engine 12).run m).state?.map fun m' =>
            m₀.frames.size == 0 && m₀.active.isNone && m₀.observed.any (·.isEmpty) &&
              decide (visible m.frames = [(1, .statement), (0, .program)]) &&
              decide (m'.observed.map Array.size = some 14)) = some true := by decide +kernel
  obtain ⟨m₀, -, hruns⟩ := Option.bind_eq_some_iff.mp hruns
  obtain ⟨m₁, hstart, hruns⟩ := Option.bind_eq_some_iff.mp hruns
  obtain ⟨m, hstep, hruns⟩ := Option.bind_eq_some_iff.mp hruns
  obtain ⟨m', hrun, hruns⟩ := Option.map_eq_some_iff.mp hruns
  simp only [Bool.and_eq_true, beq_iff_eq, decide_eq_true_eq, Option.isNone_iff_eq_none] at hruns
  obtain ⟨⟨⟨⟨hidle, hactive⟩, hlog⟩, hvisible⟩, hevents⟩ := hruns
  have hempty : m₀.observed = some #[] := by
    cases ho : m₀.observed with
    | none => rw [ho] at hlog; cases hlog
    | some log =>
      rw [ho] at hlog
      rw [Array.isEmpty_iff.mp hlog]
  have htraced : m.Traced Host.calling (some #[]) :=
    .stepped (.started hidle hactive hempty 12 _ hstart) 12 hstep
  obtain ⟨hshown, -, -, hran⟩ := (Host.Reenters.events_nest hhost 12).1 _ m htraced
  refine ⟨m, m', hhost, htraced, hvisible, hshown, hrun, hevents, ?_⟩
  generalize (Host.calling.engine 12).run m = x at hrun hran
  cases x <;> cases hrun <;> exact hran.2

end ScriptCore
