import ScriptCore.Proofs.Heap.Operations
import ScriptCore.Proofs.Renaming.Data

/-! # Heaps that are alike

Two heaps are alike under a renaming when the pairs are one-to-one and paired handles name blocks that
are alike. Nothing is said of what is not paired, so each heap may hold garbage of its own. In
*lockstep* the two sides are one and the same run: then handles are paired with themselves, all live
blocks are paired, and both heaps are full at the same time.

* `Alike.grow`: a new pair, as an allocation makes it.
* `Alike.put`: overwriting paired blocks.
* `Alike.shrink`: dropping what neither side needs, as a collection does.
* `Chain.length_le`: the scopes that enclose a scope are no more than the heap has slots. -/

namespace ScriptCore

/-- How two sides are compared. -/
structure Mode where
  /-- Both sides are the same run. -/
  lockstep : Prop
  /-- The right side stalls only if the left one does. -/
  outlasts : Prop

namespace Heap

variable {M : Mode} {ρ ρ' : Renaming} {h h' h₁ h₂ h₁' h₂' : Heap}

/-! ### Chains of scopes -/

/-- The scopes from `s` outwards, as handles. -/
inductive Chain (h : Heap) : Option ScopeRef → List Handle → Prop where
  | nil : Chain h none []
  | cons {s : ScopeRef} {sc : Scope} {l : List Handle} :
      h.block? s.handle = some (.scope sc) → Chain h sc.parent l → Chain h (some s) (s.handle :: l)

namespace Chain

theorem eq {s : Option ScopeRef} {l l' : List Handle} (hc : Chain h s l) (hc' : Chain h s l') :
    l = l' := by
  induction hc generalizing l' with
  | nil => cases hc'; rfl
  | cons hb _ ih =>
    cases hc' with
    | cons hb' hc' =>
      rw [hb] at hb'
      cases hb'
      rw [ih hc']

/-- A scope of a chain has a chain itself, which is not longer. -/
theorem of_mem {s : Option ScopeRef} {l : List Handle} (hc : Chain h s l) {x : Handle} (hx : x ∈ l) :
    ∃ l', Chain h (some ⟨x⟩) l' ∧ l'.length ≤ l.length := by
  induction hc with
  | nil => cases hx
  | cons hb hc ih =>
    rcases List.mem_cons.mp hx with rfl | hx
    · exact ⟨_, .cons hb hc, Nat.le_refl _⟩
    · obtain ⟨l', hl', hle⟩ := ih hx
      exact ⟨l', hl', Nat.le_succ_of_le hle⟩

theorem nodup {s : Option ScopeRef} {l : List Handle} (hc : Chain h s l) : l.Nodup := by
  induction hc with
  | nil => exact List.nodup_nil
  | @cons s sc l hb hc ih =>
    refine List.nodup_cons.mpr ⟨fun hmem => ?_, ih⟩
    -- a scope that enclosed itself would have two chains of different lengths
    obtain ⟨l', hl', hle⟩ := hc.of_mem hmem
    have := hl'.eq (.cons hb hc)
    rw [this, List.length_cons] at hle
    omega

theorem resolves {s : Option ScopeRef} {l : List Handle} (hc : Chain h s l) :
    ∀ x ∈ l, (h.block? x).isSome := by
  induction hc with
  | nil => exact fun x hx => by cases hx
  | cons hb _ ih =>
    intro x hx
    rcases List.mem_cons.mp hx with rfl | hx
    · rw [hb]; rfl
    · exact ih x hx

/-- **The scopes that enclose a scope are no more than there are slots.** -/
theorem length_le {s : Option ScopeRef} {l : List Handle} (hc : Chain h s l) :
    l.length ≤ h.slots.size := by
  have hnodup : (l.map Handle.index).Nodup := by
    refine List.pairwise_map.mpr (hc.nodup.imp_of_mem fun ha hb hne hab => hne ?_)
    exact eq_of_index_eq (hc.resolves _ ha) (hc.resolves _ hb) hab
  have hsub : l.map Handle.index ⊆ List.range h.slots.size := by
    intro i hi
    obtain ⟨x, hx, rfl⟩ := List.mem_map.mp hi
    exact List.mem_range.mpr (index_lt_of_resolves (hc.resolves x hx))
  have hle := hnodup.length_le_of_subset hsub
  rwa [List.length_map, List.length_range] at hle

/-- A chain stays where its scopes keep their parents. -/
theorem mono {s : Option ScopeRef} {l : List Handle} (hc : Chain h s l)
    (hkeep : ∀ x sc, h.block? x = some (.scope sc) →
      ∃ sc' : Scope, h'.block? x = some (.scope sc') ∧ sc'.parent = sc.parent) :
    Chain h' s l := by
  induction hc with
  | nil => exact .nil
  | cons hb _ ih =>
    obtain ⟨sc', hb', hp⟩ := hkeep _ _ hb
    exact .cons hb' (hp ▸ ih)

end Chain

/-! ### Lockstep -/

/-- The two heaps allocate the same handles. -/
structure SameShape (h₁ h₂ : Heap) : Prop where
  maxSlots : h₁.limits.maxSlots = h₂.limits.maxSlots
  live : h₁.live = h₂.live
  free : h₁.free = h₂.free
  generations : ∀ i : Nat, h₁.slots[i]?.map Slot.generation = h₂.slots[i]?.map Slot.generation

/-- Handles are paired with themselves, all live blocks are, and both heaps allocate alike. -/
structure Lockstep (ρ : Renaming) (h₁ h₂ : Heap) : Prop extends SameShape h₁ h₂ where
  same : ∀ k x y, ρ.rel k x y → x = y
  total : ∀ x b, h₁.block? x = some b → ρ.rel b.kind x x

theorem SameShape.size (hs : SameShape h₁ h₂) : h₁.slots.size = h₂.slots.size := by
  have key : ∀ i : Nat, h₁.slots.size ≤ i ↔ h₂.slots.size ≤ i := by
    intro i
    rw [← Array.getElem?_eq_none_iff, ← Array.getElem?_eq_none_iff, ← Option.map_eq_none_iff,
      hs.generations i, Option.map_eq_none_iff]
  have h1 := key h₁.slots.size
  have h2 := key h₂.slots.size
  omega

/-- What is occupied on the right is so on the left. -/
theorem SameShape.occupied (hs : SameShape h₁ h₂) (hv₁ : h₁.Consistent) (hv₂ : h₂.Consistent)
    {x : Handle} {c : Block} (hx : h₂.block? x = some c) : ∃ b, h₁.block? x = some b := by
  rw [block?_eq_some] at hx
  have hg := hs.generations x.index
  rw [hx] at hg
  cases hslot : h₁.slots[x.index]? with
  | none => rw [hslot] at hg; cases hg
  | some slot =>
    obtain ⟨g, content⟩ := slot
    rw [hslot] at hg
    obtain rfl : g = x.generation := Option.some.inj hg
    cases content with
    | some b => exact ⟨b, block?_eq_some.mpr hslot⟩
    | none =>
      have hfree : x.index ∈ h₂.free := hs.free ▸ (hv₁.mem_free _).mpr ⟨_, hslot⟩
      obtain ⟨g, hg⟩ := (hv₂.mem_free _).mp hfree
      rw [hx] at hg
      cases hg

theorem SameShape.put (hs : SameShape h₁ h₂) (x : Handle) (b c : Block) :
    SameShape (h₁.put x b) (h₂.put x c) := by
  refine ⟨hs.maxSlots, hs.live, hs.free, fun i => ?_⟩
  show (h₁.slots.setIfInBounds _ _)[i]?.map _ = (h₂.slots.setIfInBounds _ _)[i]?.map _
  rw [Array.getElem?_setIfInBounds, Array.getElem?_setIfInBounds, hs.size]
  by_cases hi : x.index = i
  · rw [if_pos hi, if_pos hi]
    split <;> rfl
  · rw [if_neg hi, if_neg hi, hs.generations i]

/-- **Heaps of the same shape are full together or allocate the same handle.** -/
theorem SameShape.alloc (hs : SameShape h₁ h₂) (hv₁ : h₁.Consistent) (hv₂ : h₂.Consistent)
    (b c : Block) :
    (Heap.alloc b h₁ = .failed .outOfMemory h₁ ∧ Heap.alloc c h₂ = .failed .outOfMemory h₂) ∨
    ∃ id h₁' h₂', Heap.alloc b h₁ = .done id h₁' ∧ Heap.alloc c h₂ = .done id h₂' ∧
      SameShape h₁' h₂' := by
  unfold Heap.alloc
  rw [hs.maxSlots, hs.live]
  by_cases hfull : h₂.limits.maxSlots ≤ h₂.live
  · left; simp [hfull]
  simp only [hfull, if_false]
  cases hfree : h₂.free with
  | cons i free =>
    right
    have hfree₁ : h₁.free = i :: free := hs.free.trans hfree
    obtain ⟨g, hg⟩ := (hv₁.mem_free i).mp (by rw [hfree₁]; exact List.mem_cons_self ..)
    obtain ⟨g', hg'⟩ := (hv₂.mem_free i).mp (by rw [hfree]; exact List.mem_cons_self ..)
    have hgen := hs.generations i
    rw [hg, hg'] at hgen
    obtain rfl : g = g' := Option.some.inj hgen
    simp only [hfree₁, hg, hg']
    refine ⟨_, _, _, rfl, rfl, hs.maxSlots, rfl, rfl, fun j => ?_⟩
    show (h₁.slots.setIfInBounds _ _)[j]?.map _ = (h₂.slots.setIfInBounds _ _)[j]?.map _
    rw [Array.getElem?_setIfInBounds, Array.getElem?_setIfInBounds, hs.size]
    by_cases hj : i = j
    · rw [if_pos hj, if_pos hj]
      split <;> rfl
    · rw [if_neg hj, if_neg hj, hs.generations j]
  | nil =>
    have hfree₁ : h₁.free = [] := hs.free.trans hfree
    simp only [hfree₁, hs.size]
    by_cases hbound : slotBound ≤ h₂.slots.size
    · left; simp [hbound]
    right
    simp only [hbound, if_false]
    refine ⟨_, _, _, rfl, rfl, hs.maxSlots, rfl, rfl, fun j => ?_⟩
    show (h₁.slots.push _)[j]?.map _ = (h₂.slots.push _)[j]?.map _
    rw [Array.getElem?_push, Array.getElem?_push, hs.size]
    by_cases hj : j = h₂.slots.size
    · rw [if_pos hj, if_pos hj]; rfl
    · rw [if_neg hj, if_neg hj]; exact hs.generations j

/-! ### Heaps that are alike -/

/-- **The pairs are one-to-one, and paired handles name blocks that are alike.** -/
structure Alike (M : Mode) (ρ : Renaming) (h₁ h₂ : Heap) : Prop where
  left : h₁.Valid
  right : h₂.Valid
  functional : ∀ k x y y', ρ.rel k x y → ρ.rel k x y' → y = y'
  injective : ∀ k x x' y, ρ.rel k x y → ρ.rel k x' y → x = x'
  blocks : ∀ k x y, ρ.rel k x y → ∃ b c, h₁.block? x = some b ∧ h₂.block? y = some c ∧
    b.kind = k ∧ Renamable.Alike ρ b c
  /-- Paired scopes are enclosed by finitely many. -/
  grounded : ∀ s t : ScopeRef, ρ.rel .scope s.handle t.handle → ∃ l, Chain h₁ (some s) l
  lockstep : M.lockstep → Lockstep ρ h₁ h₂

theorem kind_eq {b c : Block} (hbc : Renamable.Alike ρ b c) : c.kind = b.kind := by
  cases hbc <;> rfl

namespace Alike

/-- A handle is paired as one kind only. -/
theorem kind_unique (hh : Alike M ρ h₁ h₂) {k k' : Kind} {x y y' : Handle} (hxy : ρ.rel k x y)
    (hxy' : ρ.rel k' x y') : k = k' := by
  obtain ⟨b, c, hb, -, hk, -⟩ := hh.blocks k x y hxy
  obtain ⟨b', c', hb', -, hk', -⟩ := hh.blocks k' x y' hxy'
  rw [hb] at hb'
  cases hb'
  rw [← hk, hk']

/-- Two pairs of one kind agree on the left exactly when they agree on the right. -/
theorem eq_iff (hh : Alike M ρ h₁ h₂) {k : Kind} {x x' y y' : Handle} (hxy : ρ.rel k x y)
    (hxy' : ρ.rel k x' y') : x = x' ↔ y = y' := by
  constructor
  · rintro rfl; exact hh.functional k x y y' hxy hxy'
  · rintro rfl; exact hh.injective k x x' y hxy hxy'

/-- **A new pair.** Both heaps keep what they had, and `x` and `y` now name blocks that are alike and
were not paired with anything else. -/
theorem grow (hh : Alike M ρ h₁ h₂) {x y : Handle} {b c : Block} (hv₁ : h₁'.Valid) (hv₂ : h₂'.Valid)
    (hkeep₁ : ∀ z d, h₁.block? z = some d → h₁'.block? z = some d)
    (hkeep₂ : ∀ z d, h₂.block? z = some d → h₂'.block? z = some d)
    (hb : h₁'.block? x = some b) (hc : h₂'.block? y = some c) (hbc : Renamable.Alike ρ b c)
    (hfun : ∀ y', ρ.rel b.kind x y' → y' = y) (hinj : ∀ x', ρ.rel b.kind x' y → x' = x)
    (hchain : b.kind = .scope → ∃ l, Chain h₁' (some ⟨x⟩) l)
    (hlock : M.lockstep → Lockstep (ρ.add b.kind x y) h₁' h₂') :
    Alike M (ρ.add b.kind x y) h₁' h₂' where
  left := hv₁
  right := hv₂
  functional k z w w' hw hw' := by
    rcases hw with hw | ⟨rfl, rfl, rfl⟩ <;> rcases hw' with hw' | ⟨hk, hz, rfl⟩
    · exact hh.functional k z w w' hw hw'
    · subst hk hz; exact hfun _ hw
    · exact (hfun _ hw').symm
    · rfl
  injective k z z' w hz hz' := by
    rcases hz with hz | ⟨rfl, rfl, rfl⟩ <;> rcases hz' with hz' | ⟨hk, rfl, hw⟩
    · exact hh.injective k z z' w hz hz'
    · subst hk hw; exact hinj _ hz
    · exact (hinj _ hz').symm
    · rfl
  blocks k z w hzw := by
    rcases hzw with hzw | ⟨rfl, rfl, rfl⟩
    · obtain ⟨d, e, hd, he, hk, hde⟩ := hh.blocks k z w hzw
      exact ⟨d, e, hkeep₁ z d hd, hkeep₂ w e he, hk, hde.mono (ρ.le_add _ _ _)⟩
    · exact ⟨b, c, hb, hc, rfl, hbc.mono (ρ.le_add _ _ _)⟩
  grounded s t hst := by
    rcases hst with hst | ⟨hk, hs, -⟩
    · obtain ⟨l, hl⟩ := hh.grounded s t hst
      exact ⟨l, hl.mono fun z sc hz => ⟨sc, hkeep₁ z _ hz, rfl⟩⟩
    · obtain ⟨s⟩ := s
      obtain rfl : s = x := hs
      exact hchain hk.symm
  lockstep := hlock

/-- **Overwriting paired blocks** by blocks of the same kind that are alike; strings are never
overwritten, and a scope keeps its parent. -/
theorem put (hh : Alike M ρ h₁ h₂) {k : Kind} {x y : Handle} {b b' c c' : Block}
    (hxy : ρ.rel k x y) (hb : h₁.block? x = some b) (hc : h₂.block? y = some c)
    (hk : b.kind = k) (hk' : b'.kind = k) (hs : k ≠ .string) (hbc : Renamable.Alike ρ b' c')
    (hparent : ∀ sc, b = .scope sc → ∃ sc' : Scope, b' = .scope sc' ∧ sc'.parent = sc.parent) :
    Alike M ρ (h₁.put x b') (h₂.put y c') := by
  have hb? : ∀ z, (h₁.put x b').block? z = if z = x then some b' else h₁.block? z :=
    block?_put (by rw [hb]; rfl) b'
  have hc? : ∀ z, (h₂.put y c').block? z = if z = y then some c' else h₂.block? z :=
    block?_put (by rw [hc]; rfl) c'
  obtain ⟨b₀, c₀, hb₀, hc₀, hk₀, hbc₀⟩ := hh.blocks k x y hxy
  rw [hb] at hb₀
  rw [hc] at hc₀
  cases hb₀
  cases hc₀
  have hne : ∀ {d : Block}, d.kind = k → ∀ t, d ≠ .string t := by
    rintro d hd t rfl
    exact hs hd.symm
  refine ⟨hh.left.put hb (hne hk) (hne hk'),
    hh.right.put hc (hne ((kind_eq hbc₀).trans hk)) (hne ((kind_eq hbc).trans hk')),
    hh.functional, hh.injective, fun k' z w hzw => ?_, fun s t hst => ?_, fun hM => ?_⟩
  · rw [hb? z, hc? w]
    by_cases hz : z = x
    · subst hz
      obtain rfl := hh.kind_unique hzw hxy
      obtain rfl := hh.functional _ _ _ _ hzw hxy
      rw [if_pos rfl, if_pos rfl]
      exact ⟨b', c', rfl, rfl, hk', hbc⟩
    · have hw : w ≠ y := by
        rintro rfl
        obtain ⟨d, e, -, he, hd, hde⟩ := hh.blocks k' z w hzw
        rw [hc] at he
        cases he
        have : k' = k := by rw [← hd, ← kind_eq hde, kind_eq hbc₀, hk]
        subst this
        exact hz (hh.injective _ _ _ _ hzw hxy)
      rw [if_neg hz, if_neg hw]
      exact hh.blocks k' z w hzw
  · obtain ⟨l, hl⟩ := hh.grounded s t hst
    refine ⟨l, hl.mono fun z sc hz => ?_⟩
    rw [hb? z]
    by_cases hzx : z = x
    · subst hzx
      rw [hb] at hz
      obtain ⟨sc', rfl, hp⟩ := hparent sc (Option.some.inj hz)
      exact ⟨sc', by rw [if_pos rfl], hp⟩
    · exact ⟨sc, by rw [if_neg hzx, hz], rfl⟩
  · have hl := hh.lockstep hM
    obtain rfl := hl.same _ _ _ hxy
    refine ⟨hl.toSameShape.put x b' c', hl.same, fun z d hz => ?_⟩
    rw [hb? z] at hz
    by_cases hzx : z = x
    · subst hzx
      rw [if_pos rfl] at hz
      cases hz
      rw [hk']
      exact hxy
    · rw [if_neg hzx] at hz
      exact hl.total z d hz

/-- **Dropping what neither side needs.** Each side keeps the blocks of some handles, among them all
that the blocks it keeps refer to; the pairs of handles that both sides keep remain. -/
theorem shrink (hh : Alike M ρ h₁ h₂) {P Q : Handle → Prop} (hv₁ : h₁'.Valid) (hv₂ : h₂'.Valid)
    (hP : ∀ x b, h₁'.block? x = some b ↔ h₁.block? x = some b ∧ P x)
    (hQ : ∀ y c, h₂'.block? y = some c ↔ h₂.block? y = some c ∧ Q y)
    (hPc : ∀ x b, h₁.block? x = some b → P x → ∀ r ∈ refs b, (h₁.block? r.handle).isSome → P r.handle)
    (hQc : ∀ y c, h₂.block? y = some c → Q y → ∀ r ∈ refs c, (h₂.block? r.handle).isSome → Q r.handle)
    (hlock : M.lockstep → Lockstep (ρ.restrict P Q) h₁' h₂') :
    Alike M (ρ.restrict P Q) h₁' h₂' where
  left := hv₁
  right := hv₂
  functional k x y y' hy hy' := hh.functional k x y y' hy.1 hy'.1
  injective k x x' y hx hx' := hh.injective k x x' y hx.1 hx'.1
  blocks k x y hxy := by
    obtain ⟨hxy, hx, hy⟩ := hxy
    obtain ⟨b, c, hb, hc, hk, hbc⟩ := hh.blocks k x y hxy
    refine ⟨b, c, (hP x b).mpr ⟨hb, hx⟩, (hQ y c).mpr ⟨hc, hy⟩, hk, ?_⟩
    refine Renamable.transfer hbc fun k' z w hz hw hzw => ⟨hzw, ?_, ?_⟩
    · obtain ⟨d, e, hd, -, -⟩ := hh.blocks k' z w hzw
      exact hPc x b hb hx _ hz (by rw [hd]; rfl)
    · obtain ⟨d, e, -, he, -⟩ := hh.blocks k' z w hzw
      exact hQc y c hc hy _ hw (by rw [he]; rfl)
  grounded s t hst := by
    obtain ⟨hst, hs, -⟩ := hst
    obtain ⟨l, hl⟩ := hh.grounded s t hst
    -- every scope of the chain is kept, since a kept scope refers to its parent
    have key : ∀ (o : Option ScopeRef) (l : List Handle), Chain h₁ o l →
        (∀ s, o = some s → P s.handle) → Chain h₁' o l := by
      intro o l hl
      induction hl with
      | nil => exact fun _ => .nil
      | @cons s sc l hb hc ih =>
        intro hs
        refine .cons ((hP _ _).mpr ⟨hb, hs s rfl⟩) (ih fun p hp => ?_)
        refine hPc _ _ hb (hs s rfl) ⟨.scope, p.handle⟩ ?_ ?_
        · show _ ∈ refs (sc.object, sc.parent, sc.receiver, sc.writeTo, Plain.mk sc.strict)
          rw [hp]
          simp
        · rw [hp] at hc
          cases hc with
          | cons hb' _ => rw [hb']; rfl
    exact ⟨l, key _ l hl fun s' hs' => by cases hs'; exact hs⟩
  lockstep := hlock

end Alike

theorem alike_empty (M : Mode) (l₁ l₂ : HeapLimits) (hl : M.lockstep → l₁ = l₂) :
    Alike M .none (empty l₁) (empty l₂) where
  left := valid_empty l₁
  right := valid_empty l₂
  functional _ _ _ _ hw := hw.elim
  injective _ _ _ _ hw := hw.elim
  blocks _ _ _ hw := hw.elim
  grounded _ _ hw := hw.elim
  lockstep hM := by
    obtain rfl := hl hM
    exact ⟨⟨rfl, rfl, rfl, fun i => rfl⟩, fun _ _ _ hw => hw.elim, fun x b hb => by
      simp [empty, block?, resolve] at hb⟩

end Heap

end ScriptCore
