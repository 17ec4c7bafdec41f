import ScriptCore.Proofs.Renaming.Drive

/-! # Collections keep machines alike

Between two boundaries that the host drives, every handle in use is in the realm or in a frame, and all
of these are traced. So a collection keeps the blocks of all pairs that matter, and the machines are
alike under those pairs. The other pairs are gone: what is said of a machine after a collection is said
under a smaller renaming.

* `Kept`: a heap with some of the blocks of a machine, among them all that the machine needs.
* `Driven.kept`: **both sides may drop what they do not need.**
* `Driven.collected`: collecting where one is due, on each side by itself.
* `Driven.turned`: one boundary that the host drives. -/

namespace ScriptCore

open Renamable (transfer)

variable {M : Mode} {ρ : Renaming} {m m₁ m₂ : Machine} {n : Nat}

/-- The machine after garbage was collected. -/
def Machine.swept (m : Machine) : Machine := { m with heap := m.heap.collect m.handles }

theorem collectGarbage_eq (h : m.active = none) : collectGarbage m = .done () m.swept := by
  unfold collectGarbage
  rw [if_neg (by simp [h])]
  rfl

theorem Machine.collected_cases (m : Machine) : m.collected = m.swept ∨ m.collected = m := by
  unfold Machine.collected
  split
  · exact .inl rfl
  · exact .inr rfl

/-! ### Heaps that keep what is needed -/

/-- What a block refers to are the handles of its references. -/
theorem Block.refersTo_iff {b : Block} {x : Handle} : b.RefersTo x ↔ ∃ r ∈ refs b, r.handle = x := by
  rw [← Block.mem_handles, Block.handles_eq, List.mem_map]

/-- The heap has the blocks of the machine that `P` holds of, among them all that the machine and the
blocks themselves refer to. -/
structure Kept (m : Machine) (P : Handle → Prop) (h : Heap) : Prop where
  valid : h.Valid
  blocks : ∀ x b, h.block? x = some b ↔ m.heap.block? x = some b ∧ P x
  closed : ∀ x b, m.heap.block? x = some b → P x → ∀ r ∈ refs b, (m.heap.block? r.handle).isSome →
    P r.handle
  roots : ∀ x ∈ m.handles, (m.heap.block? x).isSome → P x

theorem Kept.all (hv : m.heap.Valid) : Kept m (fun _ => True) m.heap where
  valid := hv
  blocks x b := by simp
  closed _ _ _ _ _ _ _ := trivial
  roots _ _ _ := trivial

/-- **A collection keeps what is needed.** -/
theorem Kept.swept (hv : m.heap.Valid) :
    Kept m (Heap.Reach m.heap.slots (m.heap.rootHandles ++ m.handles)) m.swept.heap where
  valid := hv.collect m.handles
  blocks := Heap.block?_collect hv m.handles
  closed x b hb hx r hr hres := .step hx hb (Block.refersTo_iff.mpr ⟨r, hr, rfl⟩) hres
  roots x hx hres := .root (List.mem_append_right _ hx) hres

/-! ### What the machine refers to -/

theorem Machine.realm_handles {r : Ref} (hr : r ∈ refs m.realm) : r.handle ∈ m.handles := by
  refine List.mem_append_left _ ?_
  rw [Realm.handles_eq]
  exact List.mem_map_of_mem hr

theorem Machine.frame_handles {f : Frame} (hf : f ∈ m.frames.items) (hsettled : ∀ o, f.task ≠ .settled o)
    {r : Ref} (hr : r ∈ refs f) : r.handle ∈ m.handles := by
  refine List.mem_append_right _ (List.mem_flatMap.mpr ⟨f, hf, ?_⟩)
  rw [Frame.handles_eq hsettled]
  exact List.mem_map_of_mem hr

section Kept

variable {P Q : Handle → Prop} {h₁ h₂ : Heap}

/-- Data that both machines trace stay alike. -/
theorem Kept.transfer {α : Type} [Renamable α] {a b : α} (hP : Kept m₁ P h₁) (hQ : Kept m₂ Q h₂)
    (hh : Heap.Alike M ρ m₁.heap m₂.heap) (hab : Alike ρ a b)
    (ha : ∀ r ∈ refs a, r.handle ∈ m₁.handles) (hb : ∀ r ∈ refs b, r.handle ∈ m₂.handles) :
    Alike (ρ.restrict P Q) a b := by
  refine Renamable.transfer hab fun k x y hx hy hxy => ?_
  obtain ⟨d, e, hd, he, -⟩ := hh.blocks k x y hxy
  exact ⟨hxy, hP.roots x (ha _ hx) (by rw [hd]; rfl), hQ.roots y (hb _ hy) (by rw [he]; rfl)⟩

/-- Frames on the stacks stay alike. -/
theorem Kept.frame {f f' : Frame} (hP : Kept m₁ P h₁) (hQ : Kept m₂ Q h₂)
    (hh : Heap.Alike M ρ m₁.heap m₂.heap) (hf : Alike ρ f f') (h₁ : f ∈ m₁.frames.items)
    (h₂ : f' ∈ m₂.frames.items) : Alike (ρ.restrict P Q) f f' := by
  obtain ⟨hs, hs'⟩ := (Frame.alike_iff.mp hf).1.not_settled
  exact hP.transfer hQ hh hf (fun r => Machine.frame_handles h₁ hs) fun r => Machine.frame_handles h₂ hs'

theorem Kept.piled {s₁ s₂ : Stack Frame} (hP : Kept m₁ P h₁) (hQ : Kept m₂ Q h₂)
    (hh : Heap.Alike M ρ m₁.heap m₂.heap) (hs : Piled ρ .empty .empty n s₁ s₂)
    (h₁ : ∀ f ∈ s₁.items, f ∈ m₁.frames.items) (h₂ : ∀ f ∈ s₂.items, f ∈ m₂.frames.items) :
    Piled (ρ.restrict P Q) .empty .empty n s₁ s₂ := by
  induction hs with
  | base => exact .base
  | push _ hf hw ih =>
    refine .push (ih (fun g hg => ?_) fun g hg => ?_) (hP.frame hQ hh hf ?_ ?_) hw
    · exact h₁ g (List.mem_cons_of_mem _ hg)
    · exact h₂ g (List.mem_cons_of_mem _ hg)
    · exact h₁ _ (List.mem_cons_self ..)
    · exact h₂ _ (List.mem_cons_self ..)

/-- What remains paired after both sides dropped what they do not need. -/
theorem Kept.heap (hP : Kept m₁ P h₁) (hQ : Kept m₂ Q h₂) (hh : Heap.Alike M ρ m₁.heap m₂.heap)
    (hlock : M.lockstep → Heap.SameShape h₁ h₂ ∧ ∀ x, P x → Q x) :
    Heap.Alike M (ρ.restrict P Q) h₁ h₂ := by
  refine hh.shrink hP.valid hQ.valid hP.blocks hQ.blocks hP.closed hQ.closed fun hM => ?_
  have hl := hh.lockstep hM
  refine ⟨(hlock hM).1, fun k x y hxy => hl.same k x y hxy.1, fun x b hb => ?_⟩
  obtain ⟨hb, hx⟩ := (hP.blocks x b).mp hb
  exact ⟨hl.total x b hb, hx, (hlock hM).2 x hx⟩

theorem Machine.At.kept {s₁ s₂ : Stack Frame} (hm : Machine.At M none s₁ s₂ ρ m₁ m₂)
    (hP : Kept m₁ P h₁) (hQ : Kept m₂ Q h₂)
    (hlock : M.lockstep → Heap.SameShape h₁ h₂ ∧ ∀ x, P x → Q x) :
    Machine.At M none s₁ s₂ (ρ.restrict P Q) { m₁ with heap := h₁ } { m₂ with heap := h₂ } := by
  refine ⟨hP.heap hQ hm.heap hlock, ?_, hm.monitor, hm.left, hm.right⟩
  exact hP.transfer hQ hm.heap hm.realm (fun r => Machine.realm_handles) fun r => Machine.realm_handles

/-- **Both sides may drop what they do not need.** -/
theorem Driven.kept (hd : Driven M none .empty .empty ρ n m₁ m₂) (hP : Kept m₁ P h₁) (hQ : Kept m₂ Q h₂)
    (hlock : M.lockstep → Heap.SameShape h₁ h₂ ∧ ∀ x, P x → Q x) :
    Driven M none .empty .empty (ρ.restrict P Q) n { m₁ with heap := h₁ } { m₂ with heap := h₂ } := by
  obtain @⟨f, f', s₁, s₂, hm, hs, hf, hfits⟩ := hd
  have hitems₁ : m₁.frames.items = f :: s₁.items := by rw [hm.left.1, Stack.items_push]
  have hitems₂ : m₂.frames.items = f' :: s₂.items := by rw [hm.right.1, Stack.items_push]
  refine ⟨hm.kept hP hQ hlock, ?_, ?_, hfits⟩
  · refine hP.piled hQ hm.heap hs (fun g hg => ?_) fun g hg => ?_
    · rw [hitems₁]; exact List.mem_cons_of_mem _ hg
    · rw [hitems₂]; exact List.mem_cons_of_mem _ hg
  · refine hP.frame hQ hm.heap hf ?_ ?_
    · rw [hitems₁]; exact List.mem_cons_self ..
    · rw [hitems₂]; exact List.mem_cons_self ..

end Kept

/-! ### Collections -/

namespace Driven

theorem valid (hd : Driven M none .empty .empty ρ n m₁ m₂) : m₁.heap.Valid ∧ m₂.heap.Valid := by
  obtain ⟨hm, -⟩ := hd
  exact ⟨hm.heap.left, hm.heap.right⟩

theorem active (hd : Driven M none .empty .empty ρ n m₁ m₂) : m₁.active = none ∧ m₂.active = none := by
  obtain ⟨hm, -⟩ := hd
  exact ⟨hm.left.2, hm.right.2⟩

theorem swept_left (hd : Driven M none .empty .empty ρ n m₁ m₂) (hM : ¬ M.lockstep) :
    ∃ ρ', Driven M none .empty .empty ρ' n m₁.swept m₂ :=
  ⟨_, hd.kept (Kept.swept hd.valid.1) (Kept.all hd.valid.2) fun h => absurd h hM⟩

theorem swept_right (hd : Driven M none .empty .empty ρ n m₁ m₂) (hM : ¬ M.lockstep) :
    ∃ ρ', Driven M none .empty .empty ρ' n m₁ m₂.swept :=
  ⟨_, hd.kept (Kept.all hd.valid.1) (Kept.swept hd.valid.2) fun h => absurd h hM⟩

/-- A run compared with itself collects on both sides at once. -/
theorem swept_self (hd : Driven M none .empty .empty ρ n m m) :
    ∃ ρ', Driven M none .empty .empty ρ' n m.swept m.swept :=
  ⟨_, hd.kept (Kept.swept hd.valid.1) (Kept.swept hd.valid.2) fun _ =>
    ⟨⟨rfl, rfl, rfl, fun _ => rfl⟩, fun _ hx => hx⟩⟩

/-- **Collecting where one is due**, on each side by itself. -/
theorem collected (hd : Driven M none .empty .empty ρ n m₁ m₂) (hM : M.lockstep → m₁ = m₂) :
    ∃ ρ', Driven M none .empty .empty ρ' n m₁.collected m₂.collected := by
  by_cases hlock : M.lockstep
  · obtain rfl := hM hlock
    rcases m₁.collected_cases with h | h <;> rw [h]
    · exact hd.swept_self
    · exact ⟨ρ, hd⟩
  · have hleft : ∃ ρ', Driven M none .empty .empty ρ' n m₁.collected m₂ := by
      rcases m₁.collected_cases with h | h <;> rw [h]
      · exact hd.swept_left hlock
      · exact ⟨ρ, hd⟩
    obtain ⟨ρ', hd⟩ := hleft
    rcases m₂.collected_cases with h | h <;> rw [h]
    · exact hd.swept_right hlock
    · exact ⟨ρ', hd⟩

end Driven

/-- **One boundary that the host drives.** -/
theorem Driven.turned {host : Host} {E₁ E₂ : Engine} (hhost : host.BySyntax) (hE : Engine.Sim M E₁ E₂)
    (hd : Driven M none .empty .empty ρ n m₁ m₂) (hM : M.lockstep → m₁ = m₂) :
    ∃ ρ', Turned M none .empty .empty ρ' n (advance host E₁ 0 m₁) (advance host E₂ 0 m₂) := by
  obtain ⟨ρ', hd⟩ := hd.collected hM
  obtain @⟨f, f', s₁, s₂, hm, hs, hf, hfits⟩ := hd
  have hframes₁ : m₁.frames = s₁.push f := by simpa using hm.left.1
  have hframes₂ : m₂.frames = s₂.push f' := by simpa using hm.right.1
  rw [advance_eq_turn hframes₁ (Nat.zero_le _), advance_eq_turn hframes₂ (Nat.zero_le _)]
  refine ⟨ρ', ScriptCore.turned hhost hE ?_ hs hf hfits⟩
  exact ⟨hm.heap, hm.realm, hm.monitor, ⟨rfl, hm.left.2⟩, ⟨rfl, hm.right.2⟩⟩

end ScriptCore
