import ScriptCore.Proofs.Drive.Invariants
import ScriptCore.Proofs.Drive.Recursion
import ScriptCore.Proofs.Renaming.Collection

/-! # Code that the host calls on idle machines

A host that calls a function while nothing is open drives the call itself, so garbage may be collected at
every boundary of it. What is alike before the call and not needed for it may be gone afterwards, unless
the host keeps it alive. So two idle machines are compared together with the values that are kept.

* `Twins`: idle machines that are alike, and keep values that are.
* `Rejoins`: two outcomes after which the machines are alike again, under whatever renaming.
* `rejoins_call`, `rejoins_toPrimitive`: **calls and conversions by the host rejoin.**
* `Moored.quiet`: what runs no code adds pairs to the renaming and drops none. -/

namespace ScriptCore

variable {α β : Type} {M : Mode} {ρ ρ' : Renaming} {host : Host} {m m₁ m₂ : Machine} {k₁ k₂ n : Nat}
  {vs ws : List Value} {r₁ r₂ : Realm} {v w : Value}

/-! ### Idle machines -/

/-- The host keeps the values alive. -/
def Heap.Roots (h : Heap) (vs : List Value) : Prop := ∀ r ∈ refs vs, r.handle ∈ h.rootHandles

theorem Heap.Roots.congr {h h' : Heap} (hr : h.Roots vs) (heq : h'.roots = h.roots) : h'.Roots vs := by
  unfold Heap.Roots rootHandles at *
  rwa [heq]

/-- **Two idle machines that are alike.** Nothing is open on either and neither has native functions; the
hosts keep the values `vs` and `ws` alive, which are alike. -/
structure Twins (M : Mode) (vs ws : List Value) (ρ : Renaming) (m₁ m₂ : Machine) : Prop where
  machines : Machine.At M none .empty .empty ρ m₁ m₂
  values : Alike ρ vs ws
  scripted : m₁.heap.Scripted ∧ m₂.heap.Scripted
  roots : m₁.heap.Roots vs ∧ m₂.heap.Roots ws

/-- Twins with these realms. -/
structure Moored (M : Mode) (vs ws : List Value) (r₁ r₂ : Realm) (ρ : Renaming) (m₁ m₂ : Machine) : Prop
    extends Twins M vs ws ρ m₁ m₂ where
  realms : m₁.realm = r₁ ∧ m₂.realm = r₂

theorem Moored.realm (h : Moored M vs ws r₁ r₂ ρ m₁ m₂) : Alike ρ r₁ r₂ := by
  obtain ⟨rfl, rfl⟩ := h.realms
  exact h.machines.realm

theorem Moored.tended_left (h : Moored M vs ws r₁ r₂ ρ m₁ m₂) :
    Tended (fun x => x.roots = m₁.heap.roots) r₁ m₁ := ⟨h.realms.1, h.scripted.1, rfl⟩

theorem Moored.tended_right (h : Moored M vs ws r₁ r₂ ρ m₁ m₂) :
    Tended (fun x => x.roots = m₂.heap.roots) r₂ m₂ := ⟨h.realms.2, h.scripted.2, rfl⟩

/-- Machines that are alike again, with what the hosts keep as it was. -/
theorem Moored.again {n₁ n₂ : Machine} (h : Moored M vs ws r₁ r₂ ρ m₁ m₂)
    (hm : Machine.At M none .empty .empty ρ' n₁ n₂) (hvalues : Alike ρ' vs ws)
    (hleft : Tended (fun x => x.roots = m₁.heap.roots) r₁ n₁)
    (hright : Tended (fun x => x.roots = m₂.heap.roots) r₂ n₂) : Moored M vs ws r₁ r₂ ρ' n₁ n₂ :=
  ⟨⟨hm, hvalues, ⟨hleft.scripted, hright.scripted⟩,
    ⟨h.roots.1.congr hleft.heap, h.roots.2.congr hright.heap⟩⟩, ⟨hleft.realm, hright.realm⟩⟩

/-! ### Keeping one value more -/

/-- What the host keeps alive, root by root. -/
theorem Heap.mem_rootHandles {h : Heap} {x : Handle} :
    x ∈ h.rootHandles ↔ ∃ (i : Nat) (v : Value), h.roots[i]? = some (some v) ∧ x ∈ v.handles := by
  unfold rootHandles
  rw [List.mem_flatMap]
  constructor
  · rintro ⟨o, ho, hx⟩
    cases o with
    | none => exact absurd hx List.not_mem_nil
    | some v =>
      obtain ⟨i, hi⟩ := List.mem_iff_getElem?.mp ho
      exact ⟨i, v, by rwa [Array.getElem?_toList] at hi, hx⟩
  · rintro ⟨i, v, hi, hx⟩
    exact ⟨some v, Array.mem_toList_iff.mpr (Array.mem_of_getElem? hi), hx⟩

/-- A root more keeps its value alive, and what was kept alive before. -/
theorem Heap.Roots.addRoot {h : Heap} (hs : h.Roots vs) (hr : h.Rooted) (v : Value) :
    (h.addRoot v).2.Roots (v :: vs) := by
  have hadded : ∃ i : Nat, (h.addRoot v).2.roots[i]? = some (some v) ∧
      ∀ (j : Nat) (w : Value), h.roots[j]? = some (some w) → (h.addRoot v).2.roots[j]? = some (some w) := by
    unfold Heap.addRoot
    cases hfree : h.freeRoots with
    | nil =>
      refine ⟨h.roots.size, by simp, fun j w hj => ?_⟩
      obtain ⟨hlt, -⟩ := Array.getElem?_eq_some_iff.mp hj
      show (h.roots.push (some v))[j]? = _
      rw [Array.getElem?_push_lt hlt, ← Array.getElem?_eq_getElem hlt, hj]
    | cons i rest =>
      have hhole := (hr.mem_freeRoots i).mp (hfree ▸ List.mem_cons_self ..)
      obtain ⟨hlt, -⟩ := Array.getElem?_eq_some_iff.mp hhole
      refine ⟨i, by simp [hlt], fun j w hj => ?_⟩
      have hij : i ≠ j := by rintro rfl; rw [hhole] at hj; cases hj
      show (h.roots.setIfInBounds i (some v))[j]? = _
      rw [Array.getElem?_setIfInBounds_ne hij, hj]
  obtain ⟨i, hi, hkept⟩ := hadded
  intro r hmem
  rw [mem_rootHandles]
  rcases List.mem_append.mp (show r ∈ refs v ++ refs vs from hmem) with hv | hvs
  · exact ⟨i, v, hi, v.handles_eq ▸ List.mem_map_of_mem hv⟩
  · obtain ⟨j, w, hj, hx⟩ := mem_rootHandles.mp (hs r hvs)
    exact ⟨j, w, hkept j w hj, hx⟩

theorem Heap.scripted_addRoot (h : Heap) (hs : h.Scripted) (v : Value) : (h.addRoot v).2.Scripted := by
  unfold Heap.addRoot
  split <;> exact hs

theorem Heap.Alike.addRoot {h₁ h₂ : Heap} (hh : Heap.Alike M ρ h₁ h₂) (hM : ¬ M.lockstep) (v w : Value) :
    Heap.Alike M ρ (h₁.addRoot v).2 (h₂.addRoot w).2 where
  left := hh.left.addRoot v
  right := hh.right.addRoot w
  functional := hh.functional
  injective := hh.injective
  blocks k x y hxy := by
    rw [block?_addRoot, block?_addRoot]
    exact hh.blocks k x y hxy
  grounded s t hst := by
    obtain ⟨l, hl⟩ := hh.grounded s t hst
    exact ⟨l, hl.mono fun z sc hz => ⟨sc, (h₁.block?_addRoot v z).trans hz, rfl⟩⟩
  lockstep h := absurd h hM

/-- The machine whose host keeps a value more alive. -/
def Machine.keeping (m : Machine) (v : Value) : Machine := { m with heap := (m.heap.addRoot v).2 }

/-- **Twins whose hosts keep one value more alive.** -/
theorem Twins.keeping (h : Twins M vs ws ρ m₁ m₂) (hM : ¬ M.lockstep)
    (hrooted : m₁.heap.Rooted ∧ m₂.heap.Rooted) (hvw : Alike ρ v w) :
    Twins M (v :: vs) (w :: ws) ρ (m₁.keeping v) (m₂.keeping w) := by
  have hm := h.machines
  refine ⟨⟨hm.heap.addRoot hM v w, hm.realm, hm.monitor, hm.left, hm.right⟩, .cons hvw h.values, ⟨?_, ?_⟩,
    h.roots.1.addRoot hrooted.1 v, h.roots.2.addRoot hrooted.2 w⟩
  · exact m₁.heap.scripted_addRoot h.scripted.1 v
  · exact m₂.heap.scripted_addRoot h.scripted.2 w

/-! ### Outcomes that rejoin -/

/-- Two outcomes rejoin: both sides end alike and in states of which `T` holds, or one ran out of memory, or
one stalled. -/
inductive Rejoins (M : Mode) (T : Renaming → Machine → Machine → Prop) (Q : Renaming → α → α → Prop) :
    Outcome Machine α → Outcome Machine α → Prop where
  | done {ρ : Renaming} {a b : α} {s t : Machine} (ht : T ρ s t) (hq : Q ρ a b) :
      Rejoins M T Q (.done a s) (.done b t)
  | failed {ρ : Renaming} {e e' : Error} {s t : Machine} (ht : T ρ s t) (he : Alike ρ e e') :
      Rejoins M T Q (.failed e s) (.failed e' t)
  | leftFull {s : Machine} {o : Outcome Machine α} : Rejoins M T Q (.failed .outOfMemory s) o
  | rightFull {t : Machine} {o : Outcome Machine α} : Rejoins M T Q o (.failed .outOfMemory t)
  | leftStalled {o : Outcome Machine α} : Rejoins M T Q .stalled o
  | rightStalled {o : Outcome Machine α} (hM : ¬ M.outlasts) : Rejoins M T Q o .stalled

section Rejoins

variable {T : Renaming → Machine → Machine → Prop} {Q : Renaming → α → α → Prop}
  {R : Renaming → β → β → Prop}

/-- Going on from outcomes that rejoin. -/
theorem Rejoins.bind {p q : Run α} {f g : α → Run β} (h : Rejoins M T Q (p m₁) (q m₂))
    (hf : ∀ ρ a b s t, T ρ s t → Q ρ a b → Rejoins M T R (f a s) (g b t)) :
    Rejoins M T R ((p >>= f) m₁) ((q >>= g) m₂) := by
  generalize hp : p m₁ = o, hq : q m₂ = o' at h
  cases h with
  | done ht hab => rw [Proc.bind_done hp, Proc.bind_done hq]; exact hf _ _ _ _ _ ht hab
  | failed ht he => rw [Proc.bind_failed hp, Proc.bind_failed hq]; exact .failed ht he
  | leftFull => rw [Proc.bind_failed hp]; exact .leftFull
  | rightFull => rw [Proc.bind_failed hq]; exact .rightFull
  | leftStalled => rw [Proc.bind_stalled hp]; exact .leftStalled
  | rightStalled hM => rw [Proc.bind_stalled hq]; exact .rightStalled hM

theorem Rejoins.conseq {Q' : Renaming → α → α → Prop} {o o' : Outcome Machine α} (h : Rejoins M T Q o o')
    (hQ : ∀ ρ a b, Q ρ a b → Q' ρ a b) : Rejoins M T Q' o o' := by
  cases h with
  | done ht hq => exact .done ht (hQ _ _ _ hq)
  | failed ht he => exact .failed ht he
  | leftFull => exact .leftFull
  | rightFull => exact .rightFull
  | leftStalled => exact .leftStalled
  | rightStalled hM => exact .rightStalled hM

/-- What the left side delivered is what it delivered. -/
theorem Rejoins.known {o o' : Outcome Machine α} (h : Rejoins M T Q o o') :
    Rejoins M T (fun ρ a b => Q ρ a b ∧ ∃ s, o = .done a s) o o' := by
  cases h with
  | done ht hq => exact .done ht ⟨hq, _, rfl⟩
  | failed ht he => exact .failed ht he
  | leftFull => exact .leftFull
  | rightFull => exact .rightFull
  | leftStalled => exact .leftStalled
  | rightStalled hM => exact .rightStalled hM

/-- Looking at the heaps. -/
theorem rejoins_readHeap [Renamable α] {f g : Heap → Except Error α} (ht : T ρ m₁ m₂)
    (h : Alike ρ (f m₁.heap) (g m₂.heap)) :
    Rejoins M T (fun ρ' a b => ρ' = ρ ∧ Alike ρ a b) (Run.readHeap f m₁) (Run.readHeap g m₂) := by
  simp only [Run.readHeap, Proc.reads]
  generalize f m₁.heap = x, g m₂.heap = y at h
  cases h with
  | ok h => exact .done ht ⟨rfl, h⟩
  | error he => exact .failed ht he

end Rejoins

theorem Driven.heap {a : Option Active} {b₁ b₂ : Stack Frame} (hd : Driven M a b₁ b₂ ρ n m₁ m₂) :
    Heap.Alike M ρ m₁.heap m₂.heap := by
  obtain ⟨hm, -⟩ := hd
  exact hm.heap

/-! ### What runs no code -/

theorem Routine.unlocated {P : Engine → Run α} (hP : Routine P) (host : Host) :
    Unlocated (P (host.engine 0)) := by
  induction hP with
  | pure a => exact .pure a
  | fail e => exact fun _ _ => rfl
  | @onHeap _ p hp =>
    intro m a
    unfold Run.onHeap
    dsimp only
    cases p m.heap <;> rfl
  | look f => exact fun _ _ => rfl
  | evaluate r => exact fun _ _ => rfl
  | call f receiver args => exact fun _ _ => rfl
  | bind _ _ ihp ihf => exact ihp.bind ihf

/-- The engine of no bound stalls, so it goes alike with itself. -/
theorem Host.sim_stalling (host : Host) : Engine.Sim M (host.engine 0) (host.engine 0) :=
  ⟨fun _ _ _ _ _ _ _ => .leftStalled, fun _ _ _ _ _ _ _ _ _ => .leftStalled⟩

/-- A machine that such an outcome leaves has nothing running if the machine before had. -/
theorem Outcome.active_of_withActive {a : Option Active} : ∀ {o : Outcome Machine α}, o = o.withActive a →
    o.Leaves fun m => m.active = a
  | .done _ _, h => congrArg (fun o => (Outcome.state? o).elim a Machine.active) h
  | .failed _ _, h => congrArg (fun o => (Outcome.state? o).elim a Machine.active) h
  | .stalled, _ => trivial

/-- **What runs no code** adds pairs to the renaming and drops none. -/
theorem Moored.quiet {P P' : Engine → Run α} {Q : Renaming → α → α → Prop}
    (h : Moored M vs ws r₁ r₂ ρ m₁ m₂) (hP : Routine P) (hP' : Routine P') (host : Host)
    (hsim : Sim M ρ Q (P (host.engine 0)) (P' (host.engine 0))) :
    Rejoins M (Moored M vs ws r₁ r₂) (fun ρ' a b => ρ ≤ ρ' ∧ Q ρ' a b) (P (host.engine 0) m₁)
      (P' (host.engine 0) m₂) := by
  have hm := h.machines
  have hroots := Heap.invariant_roots
  have hleft := hP.keeps_tended (hroots m₁.heap.roots) (host.engine_tends (hroots _) r₁ 0) m₁ h.tended_left
  have hright := hP'.keeps_tended (hroots m₂.heap.roots) (host.engine_tends (hroots _) r₂ 0) m₂ h.tended_right
  have hidle₁ : (P (host.engine 0) m₁).Leaves fun m => m.active = m₁.active :=
    Outcome.active_of_withActive (hP.unlocated host m₁ m₁.active)
  have hidle₂ : (P' (host.engine 0) m₂).Leaves fun m => m.active = m₂.active :=
    Outcome.active_of_withActive (hP'.unlocated host m₂ m₂.active)
  -- the two go alike inside a task, and do not see whether they are inside one
  have hmeets := hsim ⟨.empty, .empty, ⟨0, false⟩⟩ ρ le_rfl { m₁ with active := some ⟨0, false⟩ }
    { m₂ with active := some ⟨0, false⟩ } ⟨hm.heap, hm.realm, hm.monitor, ⟨hm.left.1, rfl⟩, ⟨hm.right.1, rfl⟩⟩
  rw [hP.unlocated host, hP'.unlocated host] at hmeets
  rw [hm.left.2] at hidle₁
  rw [hm.right.2] at hidle₂
  generalize P (host.engine 0) m₁ = o at hleft hidle₁ hmeets ⊢
  generalize P' (host.engine 0) m₂ = o' at hright hidle₂ hmeets ⊢
  have back : ∀ {ρ' : Renaming} {s t : Machine}, ρ ≤ ρ' → Machine.Running M ⟨.empty, .empty, ⟨0, false⟩⟩ ρ'
      { s with active := some ⟨0, false⟩ } { t with active := some ⟨0, false⟩ } → s.active = none →
      t.active = none → Tended (fun x => x.roots = m₁.heap.roots) r₁ s →
      Tended (fun x => x.roots = m₂.heap.roots) r₂ t → Moored M vs ws r₁ r₂ ρ' s t :=
    fun hle hs hl hr => h.again ⟨hs.heap, hs.realm, hs.monitor, ⟨hs.left.1, hl⟩, ⟨hs.right.1, hr⟩⟩
      (h.values.mono hle)
  cases o with
  | stalled => exact .leftStalled
  | done a s =>
    cases o' with
    | done b t => cases hmeets with
      | done hle hs hq => exact .done (back hle hs hidle₁ hidle₂ hleft hright) ⟨hle, hq⟩
    | failed e t => cases hmeets with
      | rightFull _ _ => exact .rightFull
    | stalled => cases hmeets with
      | rightStalled hM => exact .rightStalled hM
  | failed e s =>
    cases o' with
    | done b t => cases hmeets with
      | leftFull _ _ => exact .leftFull
    | failed e' t => cases hmeets with
      | failed hle hs he => exact .failed (back hle hs hidle₁ hidle₂ hleft hright) he
      | leftFull _ _ => exact .leftFull
      | rightFull _ _ => exact .rightFull
    | stalled => cases hmeets with
      | leftFull _ _ => exact .leftFull
      | rightStalled hM => exact .rightStalled hM

/-! ### Boundaries that the host drives -/

/-- What both sides keep stays alike when they drop the rest. -/
theorem alike_restrict {P Q : Handle → Prop} {h₁ h₂ : Heap} (hh : Heap.Alike M ρ h₁ h₂)
    (hvalues : Alike ρ vs ws) (hP : ∀ r ∈ refs vs, (h₁.block? r.handle).isSome → P r.handle)
    (hQ : ∀ r ∈ refs ws, (h₂.block? r.handle).isSome → Q r.handle) : Alike (ρ.restrict P Q) vs ws := by
  refine Renamable.transfer hvalues fun k x y hx hy hxy => ?_
  obtain ⟨b, c, hb, hc, -⟩ := hh.blocks k x y hxy
  exact ⟨hxy, hP _ hx (by rw [hb]; rfl), hQ _ hy (by rw [hc]; rfl)⟩

/-- What a collection keeps, values that the host keeps included. -/
theorem Heap.Roots.reached (hr : m.heap.Roots vs) :
    ∀ r ∈ refs vs, (m.heap.block? r.handle).isSome →
      Heap.Reach m.heap.slots (m.heap.rootHandles ++ m.handles) r.handle :=
  fun r hmem hres => .root (List.mem_append_left _ (hr r hmem)) hres

/-- **Collecting where one is due** leaves what the hosts keep alike. -/
theorem Driven.collected_kept (hd : Driven M none .empty .empty ρ n m₁ m₂) (hM : ¬ M.lockstep)
    (hvalues : Alike ρ vs ws) (hroots₁ : m₁.heap.Roots vs) (hroots₂ : m₂.heap.Roots ws) :
    ∃ ρ', Driven M none .empty .empty ρ' n m₁.collected m₂.collected ∧ Alike ρ' vs ws := by
  have hleft : ∃ ρ', Driven M none .empty .empty ρ' n m₁.collected m₂ ∧ Alike ρ' vs ws := by
    rcases m₁.collected_cases with h | h <;> rw [h]
    · refine ⟨_, hd.kept (Kept.swept hd.valid.1) (Kept.all hd.valid.2) fun h => absurd h hM, ?_⟩
      exact alike_restrict hd.heap hvalues hroots₁.reached fun _ _ _ => trivial
    · exact ⟨ρ, hd, hvalues⟩
  obtain ⟨ρ₁, hd, hvalues⟩ := hleft
  rcases m₂.collected_cases with h | h <;> rw [h]
  · refine ⟨_, hd.kept (Kept.all hd.valid.1) (Kept.swept hd.valid.2) fun h => absurd h hM, ?_⟩
    exact alike_restrict hd.heap hvalues (fun _ _ _ => trivial) hroots₂.reached
  · exact ⟨ρ₁, hd, hvalues⟩

/-- **Driving a call of the host to its end.** Each boundary opens one frame at most, so a side that unwinds
needs no more boundaries than there were. -/
theorem rejoins_drive (hhost : host.BySyntax) (hM : ¬ M.lockstep) (hk : M.outlasts → 2 * k₁ < k₂)
    (hmoored : Moored M vs ws r₁ r₂ ρ m₁ m₂) :
    ∀ (b₁ b₂ n : Nat) (ρ' : Renaming) (n₁ n₂ : Machine), Driven M none .empty .empty ρ' n n₁ n₂ →
      Alike ρ' vs ws → Tended (fun x => x.roots = m₁.heap.roots) r₁ n₁ →
      Tended (fun x => x.roots = m₂.heap.roots) r₂ n₂ → (M.outlasts → 2 * b₁ + n + 1 ≤ b₂) →
      Rejoins M (Moored M vs ws r₁ r₂) Alike (drive host (host.engine k₁) 0 b₁ n₁)
        (drive host (host.engine k₂) 0 b₂ n₂)
  | 0, _, _, _, _, _, _, _, _, _, _ => .leftStalled
  | b₁ + 1, 0, n, _, _, _, _, _, _, _, hb => .rightStalled fun hM => absurd (hb hM) (by omega)
  | b₁ + 1, b₂ + 1, n, ρ', n₁, n₂, hd, hvalues, hleft, hright, hb => by
    have hinv := Heap.invariant_roots
    obtain ⟨ρ₁, hd, hvalues⟩ := hd.collected_kept hM hvalues (hmoored.roots.1.congr hleft.heap)
      (hmoored.roots.2.congr hright.heap)
    obtain @⟨f, f', s₁, s₂, hm, hs, hf, hfits⟩ := hd
    have hframes₁ : n₁.frames = s₁.push f := by simpa using hm.left.1
    have hframes₂ : n₂.frames = s₂.push f' := by simpa using hm.right.1
    have hleft' := advance_tended host (hinv _) (host.engine_tends (hinv _) r₁ k₁)
      (host.engine_holds k₁) hframes₁ (Nat.zero_le s₁.size) hleft
    have hright' := advance_tended host (hinv _) (host.engine_tends (hinv _) r₂ k₂)
      (host.engine_holds k₂) hframes₂ (Nat.zero_le s₂.size) hright
    have hoff : Machine.At M none s₁ s₂ ρ₁ { n₁.collected with frames := s₁ }
        { n₂.collected with frames := s₂ } := ⟨hm.heap, hm.realm, hm.monitor, ⟨rfl, hm.left.2⟩, ⟨rfl, hm.right.2⟩⟩
    have hturned := ScriptCore.turned hhost (host.sim_engine hhost k₁ k₂ hk) hoff hs hf hfits
    rw [drive_succ, drive_succ]
    rw [advance_eq_turn hframes₁ (Nat.zero_le _)] at hleft' ⊢
    rw [advance_eq_turn hframes₂ (Nat.zero_le _)] at hright' ⊢
    change Turned M none .empty .empty ρ₁ n (turn host (host.engine k₁) 0 f _)
      (turn host (host.engine k₂) 0 f' _) at hturned
    generalize turn host (host.engine k₁) 0 f _ = o at hleft' hturned ⊢
    generalize turn host (host.engine k₂) 0 f' _ = o' at hright' hturned ⊢
    cases hturned with
    | going hρ hd hle =>
      exact rejoins_drive hhost hM hk hmoored b₁ b₂ _ _ _ _ hd (hvalues.mono hρ) hleft' hright' fun hM => by
        have := hb hM; omega
    | @finished _ x x' _ _ hρ hm ho =>
      cases ho with
      | ok hc => exact .done (hmoored.again hm (hvalues.mono hρ) hleft' hright') hc
      | error he => exact .failed (hmoored.again hm (hvalues.mono hρ) hleft' hright') he
    | leftFull _ ho =>
      rcases ho.proceed host (host.engine k₁) b₁ with ⟨m, hm, -⟩ | ⟨hstall, -⟩
      · exact hm ▸ .leftFull
      · exact hstall ▸ .leftStalled
    | rightFull _ ho =>
      rcases ho.proceed host (host.engine k₂) b₂ with ⟨m, hm, -⟩ | ⟨hstall, hlt⟩
      · exact hm ▸ .rightFull
      · exact hstall ▸ .rightStalled fun hM => by have := hb hM; omega
    | leftStalled => exact .leftStalled
    | rightStalled hM => exact .rightStalled hM

/-! ### Calls and conversions -/

/-- What follows from what the hosts keep. -/
def Stays (vs ws : List Value) (v w : Value) : Prop := ∀ ρ, Alike ρ vs ws → Alike ρ v w

/-- **Calls by the host rejoin.** -/
theorem rejoins_call (hhost : host.BySyntax) (hM : ¬ M.lockstep) (hk : M.outlasts → 2 * k₁ < k₂)
    (h : Moored M vs ws r₁ r₂ ρ m₁ m₂) {f g : Value} (hf : Alike ρ f g) (hv : Alike ρ v w) :
    Rejoins M (Moored M vs ws r₁ r₂) Alike ((host.engine k₁).call f v [] m₁)
      ((host.engine k₂).call g w [] m₂) := by
  cases k₁ with
  | zero => exact .leftStalled
  | succ k₁ =>
    cases k₂ with
    | zero => exact .rightStalled fun hM => absurd (hk hM) (by omega)
    | succ k₂ =>
      have hinv := Heap.invariant_roots
      have hm := h.machines
      have hk' : M.outlasts → 2 * k₁ < k₂ := fun hM => by have := hk hM; omega
      have hr : Alike ρ (m₁.callRequest f v []) (m₂.callRequest g w []) :=
        ⟨hf, hv, .nil, (Realm.alike_iff.mp hm.realm).1, .none, rfl⟩
      have hopened := opened_call host (host.engine k₁) (host.engine k₂) hm hr 0 false
      show Rejoins M _ _ (host.callOn (host.engine k₁) k₁ f v [] m₁) (host.callOn (host.engine k₂) k₂ g w [] m₂)
      have hcontext : ∀ {m : Machine}, m.active = none → m.childContext = (0, false) := fun hm => by
        unfold Machine.childContext
        rw [hm]
      rw [openCall_scripted _ _ h.scripted.1, openCall_scripted _ _ h.scripted.2] at hopened
      rw [callOn_scripted h.scripted.1, callOn_scripted h.scripted.2, hcontext hm.left.2, hcontext hm.right.2,
        hm.left.1, hm.right.1]
      generalize m₁.requestedCall (m₁.callRequest f v []) = x at hopened ⊢
      generalize m₂.requestedCall (m₂.callRequest g w []) = y at hopened ⊢
      cases x with
      | error e =>
        cases y with
        | error e' => cases hopened with
          | refused he => exact .failed h he
        | ok o' => cases hopened
      | ok o =>
        cases y with
        | error e' => cases hopened
        | ok o' => cases hopened with
          | opened hat hg hfits =>
            refine (rejoins_drive hhost hM hk' h k₁ k₂ 0 ρ _ _ ⟨hat, .base, hg, hfits⟩ h.values
              (h.tended_left.opened o 0 false) (h.tended_right.opened o' 0 false) fun hM => hk' hM).bind
              fun ρ' c d s t ht hc => ?_
            have hvalue := alike_completionValue hc
            generalize completionValue c = x, completionValue d = y at hvalue
            cases hvalue with
            | ok hx => exact .done ht hx
            | error he => exact .failed ht he

/-- The method of an object, which is read without running code. -/
theorem getProperty_object (E : Engine) (o : ObjectRef) (key : PropertyKey) :
    getProperty E (.object o) key = (Run.readHeap fun h => h.property o key) >>= fun d =>
      match d with
      | some d => readDescriptor E d (.object o)
      | none => pure .undefined := rfl

theorem rejoins_method (h : Moored M vs ws r₁ r₂ ρ m₁ m₂) (E₁ E₂ : Engine) {o p : ObjectRef}
    {key key' : PropertyKey} (ho : Alike ρ o p) (hkey : Alike ρ key key') :
    Rejoins M (Moored M vs ws r₁ r₂) (fun ρ' f g => ρ' = ρ ∧ Alike ρ f g)
      (getProperty E₁ (.object o) key m₁) (getProperty E₂ (.object p) key' m₂) := by
  rw [getProperty_object, getProperty_object]
  refine (rejoins_readHeap h (h.machines.heap.property ho hkey)).bind fun ρ' d e s t ht hde => ?_
  obtain ⟨rfl, hde⟩ := hde
  cases hde with
  | none => exact .done ht ⟨rfl, .undefined⟩
  | @some d e hde =>
    obtain ⟨hc, -⟩ := Descriptor.alike_iff.mp hde
    obtain ⟨_, _, _, c⟩ := d
    obtain ⟨_, _, _, c'⟩ := e
    cases hc with
    | data hx _ => exact .done ht ⟨rfl, hx⟩

/-- The methods under the keys are tried alike. -/
theorem rejoins_convertBy (hhost : host.BySyntax) (hM : ¬ M.lockstep) (hk : M.outlasts → 2 * k₁ < k₂)
    {o p : ObjectRef} (hobject : Stays vs ws (.object o) (.object p)) :
    ∀ (keys keys' : List PropertyKey) (tried : Bool) (ρ : Renaming) (m₁ m₂ : Machine),
      (∀ ρ, Alike ρ r₁ r₂ → Alike ρ keys keys') → Moored M vs ws r₁ r₂ ρ m₁ m₂ →
      Rejoins M (Moored M vs ws r₁ r₂) AlikePrimitives (convertBy (host.engine k₁) (.object o) keys tried m₁)
        (convertBy (host.engine k₂) (.object p) keys' tried m₂)
  | [], _, tried, ρ, m₁, m₂, hkeys, h => by
    cases hkeys ρ h.realm
    have hv := hobject ρ h.values
    refine (rejoins_readHeap h (h.machines.heap.describe hv)).bind fun ρ' a b s t ht hab => ?_
    obtain ⟨rfl, hab⟩ := hab
    obtain rfl : a = b := hab
    cases tried with
    | true => exact .failed ht (.same rfl nofun)
    | false =>
      have hintern : Sim M ρ' Alike (Run.onHeap (Heap.internString a)) (Run.onHeap (Heap.internString a)) :=
        (Heap.sim_internString a).onHeap
      refine (ht.quiet (P := fun _ => Run.onHeap (Heap.internString a)) .intern .intern host hintern).bind
        fun ρ'' x y s t ht hxy => .done ht ⟨.string hxy.2, rfl⟩
  | key :: keys, _, tried, ρ, m₁, m₂, hkeys, h => by
    have hv := hobject ρ h.values
    have hall := hkeys ρ h.realm
    cases hall with
    | @cons _ key' _ keys' hkey _ =>
      have hrest : ∀ ρ, Alike ρ r₁ r₂ → Alike ρ keys keys' := fun ρ hr => by
        cases hkeys ρ hr with
        | cons _ hkeys => exact hkeys
      cases hv with
      | object ho =>
      refine (rejoins_method h _ _ ho hkey).bind fun ρ₁ f g s₁ t₁ h₁ hfg => ?_
      obtain ⟨rfl, hfg⟩ := hfg
      refine (rejoins_readHeap h₁ (h₁.machines.heap.isCallable hfg)).bind fun ρ₂ a b s₂ t₂ h₂ hab => ?_
      obtain ⟨rfl, hab⟩ := hab
      obtain rfl : a = b := hab
      cases a with
      | false => exact rejoins_convertBy hhost hM hk hobject keys keys' tried _ _ _ hrest h₂
      | true =>
        rw [if_pos rfl, if_pos rfl]
        refine (rejoins_call hhost hM hk h₂ hfg (.object ho)).bind fun ρ₃ x y s₃ t₃ h₃ hxy => ?_
        rw [← isObject_eq hxy]
        cases hx : x.isObject with
        | true => exact rejoins_convertBy hhost hM hk hobject keys keys' true _ _ _ hrest h₃
        | false => exact .done h₃ ⟨hxy, hx⟩

/-- **Conversions to a primitive rejoin**, for values that the hosts keep alive. -/
theorem rejoins_toPrimitive (hhost : host.BySyntax) (hM : ¬ M.lockstep) (hk : M.outlasts → 2 * k₁ < k₂)
    (h : Moored M vs ws r₁ r₂ ρ m₁ m₂) (hint : Hint) (hvalue : Stays vs ws v w) :
    Rejoins M (Moored M vs ws r₁ r₂) AlikePrimitives (toPrimitive (host.engine k₁) v hint m₁)
      (toPrimitive (host.engine k₂) w hint m₂) := by
  have hv := hvalue ρ h.values
  cases hv with
  | @object o p ho =>
    have order : ∀ {ρ : Renaming}, Alike ρ r₁ r₂ → Alike ρ r₁.names.valueOf r₂.names.valueOf ∧
        Alike ρ r₁.names.toString r₂.names.toString := fun hr => by
      obtain ⟨-, -, -, -, -, -, -, -, -, hn, -⟩ := Realm.alike_iff.mp hr
      obtain ⟨-, -, -, -, -, -, hvalueOf, htoString⟩ := CommonNames.alike_iff.mp hn
      exact ⟨hvalueOf, htoString⟩
    have hobject : Stays vs ws (.object o) (.object p) := hvalue
    have convert := fun (keys keys' : List PropertyKey) (hkeys : ∀ ρ, Alike ρ r₁ r₂ → Alike ρ keys keys') =>
      rejoins_convertBy hhost hM hk hobject keys keys' false ρ m₁ m₂ hkeys h
    obtain ⟨rfl, rfl⟩ := h.realms
    cases hint with
    | string =>
      exact convert [m₁.realm.names.toString, m₁.realm.names.valueOf] _
        fun _ hr => .cons (order hr).2 (.cons (order hr).1 .nil)
    | default =>
      exact convert [m₁.realm.names.valueOf, m₁.realm.names.toString] _
        fun _ hr => .cons (order hr).1 (.cons (order hr).2 .nil)
    | number =>
      exact convert [m₁.realm.names.valueOf, m₁.realm.names.toString] _
        fun _ hr => .cons (order hr).1 (.cons (order hr).2 .nil)
  | undefined => exact .done h ⟨.undefined, rfl⟩
  | null => exact .done h ⟨.null, rfl⟩
  | bool b => exact .done h ⟨.bool b, rfl⟩
  | number x => exact .done h ⟨.number x, rfl⟩
  | string hs => exact .done h ⟨.string hs, rfl⟩

end ScriptCore
