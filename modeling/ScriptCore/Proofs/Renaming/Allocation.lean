import ScriptCore.Proofs.Renaming.Objects

/-! # Allocating and writing on heaps that are alike

Allocating makes a new pair; interning makes one as well, also where either side has the string already;
writing changes paired blocks. All other operations of the heap are made of these.

* `Heap.sim_alloc`, `Heap.sim_intern`: allocating blocks that are alike, and interning the same text.
* `Heap.sim_modifyObject`, `Heap.sim_modifyScope`, `Heap.sim_writeCell`: writing. -/

namespace ScriptCore

variable {M : Mode} {ρ ρ' : Renaming} {h₁ h₂ : Heap}

/-! ### Allocating -/

namespace Heap

variable {h₁' h₂' : Heap} {x y : Handle} {b c : Block}

/-- A block under a handle that named nothing leaves what there was. -/
theorem kept_of_fresh {h h' : Heap} (hx : h.block? x = none)
    (hb : ∀ z, h'.block? z = if z = x then some b else h.block? z) (z : Handle) (d : Block) (hz : h.block? z = some d) :
    h'.block? z = some d := by
  rw [hb, if_neg, hz]
  rintro rfl
  rw [hx] at hz
  cases hz

theorem Alike.unpaired_left {k : Kind} (hh : Heap.Alike M ρ h₁ h₂) (hx : h₁.block? x = none) : ¬ ρ.rel k x y := by
  intro hxy
  obtain ⟨d, -, hd, -⟩ := hh.blocks _ _ _ hxy
  cases hx.symm.trans hd

theorem Alike.unpaired_right {k : Kind} (hh : Heap.Alike M ρ h₁ h₂) (hy : h₂.block? y = none) : ¬ ρ.rel k x y := by
  intro hxy
  obtain ⟨-, e, -, he, -⟩ := hh.blocks _ _ _ hxy
  cases hy.symm.trans he

/-- In lockstep, both sides allocate the same handle. -/
theorem Alike.alloc_same (hh : Heap.Alike M ρ h₁ h₂) (hM : M.lockstep) (hd : alloc b h₁ = .done x h₁')
    (hd' : alloc c h₂ = .done y h₂') : x = y ∧ SameShape h₁' h₂' := by
  rcases (hh.lockstep hM).alloc hh.left.toConsistent hh.right.toConsistent b c with ⟨hf, -⟩ | ⟨id, k₁, k₂, h1, h2, hshape⟩
  · cases hd.symm.trans hf
  · cases hd.symm.trans h1
    cases hd'.symm.trans h2
    exact ⟨rfl, hshape⟩

/-- If only the left side is full, the two are not in lockstep. -/
theorem Alike.not_lockstep_of_left (hh : Heap.Alike M ρ h₁ h₂) (hf : alloc b h₁ = .failed .outOfMemory h₁)
    (hd : alloc c h₂ = .done y h₂') : ¬ M.lockstep := by
  intro hM
  rcases (hh.lockstep hM).alloc hh.left.toConsistent hh.right.toConsistent b c with ⟨-, hf'⟩ | ⟨_, _, _, hd', -⟩
  · cases hd.symm.trans hf'
  · cases hf.symm.trans hd'

/-- If only the right side is full, the two are not in lockstep. -/
theorem Alike.not_lockstep_of_right (hh : Heap.Alike M ρ h₁ h₂) (hd : alloc b h₁ = .done x h₁')
    (hf : alloc c h₂ = .failed .outOfMemory h₂) : ¬ M.lockstep := by
  intro hM
  rcases (hh.lockstep hM).alloc hh.left.toConsistent hh.right.toConsistent b c with ⟨hf', -⟩ | ⟨_, _, _, -, hd', -⟩
  · cases hd.symm.trans hf'
  · cases hf.symm.trans hd'

/-- Both sides put blocks that are alike under handles that named nothing. -/
theorem Alike.fresh (hh : Heap.Alike M ρ h₁ h₂) (hbc : ScriptCore.Alike ρ b c) (hv₁ : h₁'.Valid)
    (hv₂ : h₂'.Valid) (hx : h₁.block? x = none) (hy : h₂.block? y = none)
    (hb : ∀ z, h₁'.block? z = if z = x then some b else h₁.block? z)
    (hc : ∀ z, h₂'.block? z = if z = y then some c else h₂.block? z)
    (hlock : M.lockstep → x = y ∧ SameShape h₁' h₂') :
    Heap.Alike M (ρ.add b.kind x y) h₁' h₂' := by
  have hkeep₁ := kept_of_fresh hx hb
  have hbx : h₁'.block? x = some b := by rw [hb, if_pos rfl]
  refine hh.grow hv₁ hv₂ hkeep₁ (kept_of_fresh hy hc) hbx (by rw [hc, if_pos rfl]) hbc
    (fun y' hy' => absurd hy' (hh.unpaired_left hx)) (fun x' hx' => absurd hx' (hh.unpaired_right hy)) ?_ ?_
  · intro hk
    cases hbc with
    | @scope s t hst =>
      obtain ⟨-, hp, -⟩ := Scope.alike_iff.mp hst
      cases hparent : s.parent with
      | none => exact ⟨[x], .cons hbx (hparent ▸ .nil)⟩
      | some p =>
        -- the new scope is enclosed by its parent's chain
        rw [hparent] at hp
        generalize t.parent = q at hp
        cases hp with
        | some hp =>
          obtain ⟨l, hl⟩ := hh.grounded _ _ hp
          refine ⟨x :: l, .cons hbx (hparent ▸ ?_)⟩
          exact hl.mono fun z sc hz => ⟨sc, hkeep₁ z _ hz, rfl⟩
    | _ => cases hk
  · intro hM
    obtain ⟨rfl, hshape⟩ := hlock hM
    have hl := hh.lockstep hM
    refine ⟨hshape, ?_, fun z d hz => ?_⟩
    · rintro k z w (hzw | ⟨-, rfl, rfl⟩)
      · exact hl.same k z w hzw
      · rfl
    · rw [hb] at hz
      by_cases hzx : z = x
      · rw [if_pos hzx] at hz
        cases hz
        rw [hzx]
        exact ρ.add_self _ _ _
      · rw [if_neg hzx] at hz
        exact Or.inl (hl.total z d hz)

/-- **Allocating blocks that are alike**, other than strings. -/
theorem sim_alloc (hbc : ScriptCore.Alike ρ b c) (hs : b.kind ≠ .string) :
    Sim M ρ (fun ρ x y => ρ.rel b.kind x y) (alloc b) (alloc c) := by
  intro i ρ' hρ h₁ h₂ hh
  have hb : ∀ t, b ≠ .string t := by rintro t rfl; exact hs rfl
  have hc : ∀ t, c ≠ .string t := by rintro t rfl; exact hs (kind_eq hbc).symm
  rcases alloc_cases hh.left.toConsistent b with hf | ⟨x, h₁', hd, ha⟩ <;>
    rcases alloc_cases hh.right.toConsistent c with hf' | ⟨y, h₂', hd', ha'⟩
  · rw [hf, hf']
    exact .failed le_rfl hh (.same rfl nofun)
  · rw [hf]
    exact .leftFull (hh.not_lockstep_of_left hf hd') trivial
  · rw [hf']
    exact .rightFull (hh.not_lockstep_of_right hd hf') trivial
  · rw [hd, hd']
    exact .done (ρ'.le_add _ _ _) (hh.fresh (hbc.mono hρ) (ha.valid hh.left hb) (ha'.valid hh.right hc) ha.fresh ha'.fresh
      ha.block ha'.block fun hM => hh.alloc_same hM hd hd') (ρ'.add_self _ _ _)

theorem Valid.string_unique {h : Heap} (hv : h.Valid) {s t : StringRef} {u : Text}
    (hs : h.block? s.handle = some (.string u)) (ht : h.block? t.handle = some (.string u)) :
    s = t := by
  have h1 := (hv.canonical u s).mpr hs
  rw [(hv.canonical u t).mpr ht] at h1
  exact (Option.some.inj h1).symm

/-- Strings with the same contents are paired only with each other. -/
theorem Alike.string_pairs (hh : Heap.Alike M ρ h₁ h₂) {s : StringRef} {u : Text}
    (hs : h₁.block? s.handle = some (.string u)) {y : Handle} (hy : ρ.rel .string s.handle y) :
    h₂.block? y = some (.string u) := by
  obtain ⟨b, c, hb, hc, -, hbc⟩ := hh.blocks _ _ _ hy
  rw [hs] at hb
  cases hb
  cases hbc
  exact hc

theorem Alike.string_pairs_left (hh : Heap.Alike M ρ h₁ h₂) {t : StringRef} {u : Text}
    (ht : h₂.block? t.handle = some (.string u)) {x : Handle} (hx : ρ.rel .string x t.handle) :
    h₁.block? x = some (.string u) := by
  obtain ⟨b, c, hb, hc, -, hbc⟩ := hh.blocks _ _ _ hx
  rw [ht] at hc
  cases hc
  cases hbc
  exact hb

/-- In lockstep, a string that is live on one side is live on both, under the same handle. -/
theorem Alike.string_lockstep (hh : Heap.Alike M ρ h₁ h₂) (hM : M.lockstep) {s : StringRef} {u : Text} :
    h₁.block? s.handle = some (.string u) ↔ h₂.block? s.handle = some (.string u) := by
  have hl := hh.lockstep hM
  constructor
  · exact fun hs => hh.string_pairs hs (hl.total _ _ hs)
  · intro hs
    obtain ⟨b, hb⟩ := hl.occupied hh.left.toConsistent hh.right.toConsistent hs
    obtain ⟨b', c', hb', hc', -, hbc⟩ := hh.blocks _ _ _ (hl.total _ _ hb)
    rw [hb] at hb'
    rw [hs] at hc'
    cases hb'
    cases hc'
    cases hbc
    exact hb

/-- Strings with the same contents are paired. -/
theorem Alike.paired_strings (hh : Heap.Alike M ρ h₁ h₂) {s t : StringRef} {u : Text}
    (hs : h₁.block? s.handle = some (.string u)) (ht : h₂.block? t.handle = some (.string u)) :
    Heap.Alike M (ρ.add .string s.handle t.handle) h₁ h₂ := by
  refine hh.grow hh.left hh.right (fun _ _ hz => hz) (fun _ _ hz => hz) hs ht (.string u) (fun y hy => ?_) (fun x hx => ?_)
    nofun fun hM => ?_
  · exact congrArg StringRef.handle (hh.right.string_unique (s := ⟨y⟩) (hh.string_pairs hs hy) ht)
  · exact congrArg StringRef.handle (hh.left.string_unique (s := ⟨x⟩) (hh.string_pairs_left ht hx) hs)
  · have hl := hh.lockstep hM
    refine ⟨hl.toSameShape, ?_, fun z d hz => .inl (hl.total z d hz)⟩
    rintro k z w (hzw | ⟨-, rfl, rfl⟩)
    · exact hl.same k z w hzw
    · exact congrArg StringRef.handle (hh.right.string_unique ((hh.string_lockstep hM).mp hs) ht)

/-- The right side makes a string that the left side has. -/
theorem Alike.interned_right (hh : Heap.Alike M ρ h₁ h₂) {s t : StringRef} {u : Text}
    (hs : h₁.block? s.handle = some (.string u)) (hno : ∀ t : StringRef, h₂.block? t.handle ≠ some (.string u))
    (hi : h₂.Interned u t h₂') : Heap.Alike M (ρ.add .string s.handle t.handle) h₁ h₂' :=
  hh.grow hh.left hi.valid (fun _ _ hz => hz) (kept_of_fresh hi.fresh hi.block) hs (by rw [hi.block, if_pos rfl]) (.string u)
    (fun y hy => absurd (hh.string_pairs hs hy) (hno ⟨y⟩)) (fun x hx => absurd hx (hh.unpaired_right hi.fresh)) nofun
    fun hM => absurd ((hh.string_lockstep hM).mp hs) (hno s)

/-- The left side makes a string that the right side has. -/
theorem Alike.interned_left (hh : Heap.Alike M ρ h₁ h₂) {s t : StringRef} {u : Text}
    (ht : h₂.block? t.handle = some (.string u)) (hno : ∀ s : StringRef, h₁.block? s.handle ≠ some (.string u))
    (hi : h₁.Interned u s h₁') : Heap.Alike M (ρ.add .string s.handle t.handle) h₁' h₂ :=
  hh.grow hi.valid hh.right (kept_of_fresh hi.fresh hi.block) (fun _ _ hz => hz) (by rw [hi.block, if_pos rfl]) ht (.string u)
    (fun y hy => absurd hy (hh.unpaired_left hi.fresh)) (fun x hx => absurd (hh.string_pairs_left ht hx) (hno ⟨x⟩)) nofun
    fun hM => absurd ((hh.string_lockstep hM).mpr ht) (hno t)

/-- **Interning the same text.** Either side may have the string already. -/
theorem sim_intern (u : Text) : Sim M ρ ScriptCore.Alike (intern u) (intern u) := by
  intro i ρ' hρ h₁ h₂ hh
  rcases intern_cases hh.left u with ⟨s, hd, hs⟩ | ⟨hno, ⟨hf, haf⟩ | ⟨s, k₁, h₁', had, hd, e1, e2, e3, e4, hi⟩⟩ <;>
    rcases intern_cases hh.right u with
      ⟨t, hd', ht⟩ | ⟨hno', ⟨hf', haf'⟩ | ⟨t, k₂, h₂', had', hd', f1, f2, f3, f4, hi'⟩⟩
  · rw [hd, hd']
    exact .done (ρ'.le_add _ _ _) (hh.paired_strings hs ht) (ρ'.add_self _ _ _)
  · rw [hf']
    exact .rightFull (fun hM => hno' s ((hh.string_lockstep hM).mp hs)) trivial
  · rw [hd, hd']
    exact .done (ρ'.le_add _ _ _) (hh.interned_right hs hno' hi') (ρ'.add_self _ _ _)
  · rw [hf]
    exact .leftFull (fun hM => hno t ((hh.string_lockstep hM).mpr ht)) trivial
  · rw [hf, hf']
    exact .failed le_rfl hh (.same rfl nofun)
  · rw [hf]
    exact .leftFull (hh.not_lockstep_of_left haf had') trivial
  · rw [hd, hd']
    exact .done (ρ'.le_add _ _ _) (hh.interned_left ht hno hi) (ρ'.add_self _ _ _)
  · rw [hf']
    exact .rightFull (hh.not_lockstep_of_right had haf') trivial
  · -- both sides make it
    rw [hd, hd']
    refine .done (ρ'.le_add _ _ _) (hh.fresh (.string u) hi.valid hi'.valid hi.fresh hi'.fresh hi.block
      hi'.block fun hM => ?_) (ρ'.add_self _ _ _)
    obtain ⟨hsame, hshape⟩ := hh.alloc_same hM had had'
    refine ⟨hsame, ?_, ?_, ?_, ?_⟩
    · rw [e4, f4]; exact hshape.maxSlots
    · rw [e3, f3]; exact hshape.live
    · rw [e2, f2]; exact hshape.free
    · rw [e1, f1]; exact hshape.generations

/-! ### Writing -/

theorem sim_modifyObject {o p : ObjectRef} {f g : Object → Object} (ho : ScriptCore.Alike ρ o p)
    (hf : ∀ ρ', ρ ≤ ρ' → ∀ h₁ h₂, Heap.Alike M ρ' h₁ h₂ → ∀ a b, ScriptCore.Alike ρ' a b →
      ScriptCore.Alike ρ' (f a) (g b)) :
    Sim M ρ ScriptCore.Alike (modifyObject o f) (modifyObject p g) := by
  intro i ρ' hρ h₁ h₂ hh
  have ho := ho.mono hρ
  obtain ⟨a, b, ha, hb, hab⟩ := hh.object ho
  rw [modifyObject_done ha, modifyObject_done hb]
  exact .done le_rfl (hh.put ho (object_eq_ok.mp ha) (object_eq_ok.mp hb) rfl rfl nofun
    (.object (hf ρ' hρ h₁ h₂ hh a b hab)) nofun) rfl

theorem sim_modifyScope {s t : ScopeRef} {f g : Scope → Scope} (hs : ScriptCore.Alike ρ s t)
    (hf : ∀ ρ', ρ ≤ ρ' → ∀ a b, ScriptCore.Alike ρ' a b → ScriptCore.Alike ρ' (f a) (g b))
    (hparent : ∀ a, (f a).parent = a.parent) :
    Sim M ρ ScriptCore.Alike (modifyScope s f) (modifyScope t g) := by
  intro i ρ' hρ h₁ h₂ hh
  have hs := hs.mono hρ
  obtain ⟨a, b, ha, hb, hab⟩ := hh.scope hs
  rw [modifyScope_done ha, modifyScope_done hb]
  refine .done le_rfl (hh.put hs (scope_eq_ok.mp ha) (scope_eq_ok.mp hb) rfl rfl nofun
    (.scope (hf ρ' hρ a b hab)) fun sc hsc => ?_) rfl
  cases hsc
  exact ⟨f a, rfl, hparent a⟩

theorem sim_writeCell {c d : CellRef} {v w : Value} (hc : ScriptCore.Alike ρ c d)
    (hv : ScriptCore.Alike ρ v w) : Sim M ρ ScriptCore.Alike (writeCell c v) (writeCell d w) := by
  intro i ρ' hρ h₁ h₂ hh
  have hc := hc.mono hρ
  obtain ⟨a, b, ha, hb, hab⟩ := hh.cell hc
  obtain ⟨hd, he, hf, hg⟩ := Descriptor.alike_iff.mp hab
  obtain ⟨a1, a2, a3, content⟩ := a
  obtain ⟨b1, b2, b3, content'⟩ := b
  cases hd with
  | data hx writable =>
    rw [writeCell_done ha rfl, writeCell_done hb rfl]
    exact .done le_rfl (hh.put hc (cell_eq_ok.mp ha) (cell_eq_ok.mp hb) rfl rfl nofun
      (.cell (Descriptor.alike_iff.mpr ⟨.data (hv.mono hρ) writable, he, hf, hg⟩)) nofun) rfl

theorem sim_allocCell {d e : Descriptor} (hd : ScriptCore.Alike ρ d e) :
    Sim M ρ ScriptCore.Alike (allocCell d) (allocCell e) :=
  (sim_alloc (b := .cell d) (.cell hd) nofun).map fun _ _ _ _ hxy _ hρ => hρ _ _ _ hxy

theorem sim_allocObject {o p : Option ObjectRef} (tag : ClassTag) {k l : ObjectKind}
    (ho : ScriptCore.Alike ρ o p) (hk : ScriptCore.Alike ρ k l) :
    Sim M ρ ScriptCore.Alike (allocObject o tag k) (allocObject p tag l) := by
  have halloc : Sim M ρ ScriptCore.Alike
      (do return ObjectRef.mk (← alloc (.object ⟨o, tag, true, .empty, k⟩)))
      (do return ObjectRef.mk (← alloc (.object ⟨p, tag, true, .empty, l⟩))) := by
    have hobj : ScriptCore.Alike ρ (Object.mk o tag true .empty k) ⟨p, tag, true, .empty, l⟩ :=
      Object.alike_iff.mpr ⟨ho, .nil, hk, rfl, rfl⟩
    exact (sim_alloc (b := .object _) (.object hobj) nofun).bind fun ρ' _ x y hxy =>
      Sim.pure (α := ObjectRef) hxy
  unfold allocObject
  cases ho with
  | none => exact halloc
  | some ho =>
    refine Sim.bind (Sim.reads fun ρ' hρ h₁ h₂ hh => ?_).discard fun ρ' hρ _ _ _ => halloc.mono hρ
    obtain ⟨a, b, ha, hb, hab⟩ := hh.object (ho.mono hρ)
    rw [ha, hb]
    exact .ok hab

theorem sim_installCell {o p : ObjectRef} {k l : PropertyKey} {c d : CellRef}
    (ho : ScriptCore.Alike ρ o p) (hk : ScriptCore.Alike ρ k l) (hc : ScriptCore.Alike ρ c d) :
    Sim M ρ ScriptCore.Alike (installCell o k c) (installCell p l d) := by
  rw [installCell_ample, installCell_ample]
  refine Sim.bind (Sim.reads fun ρ' hρ h₁ h₂ hh => hh.cell? (hc.mono hρ)).discard
    fun ρ' hρ _ _ _ => sim_modifyObject (ho.mono hρ) fun ρ'' hρ' h₁ h₂ hh a b hab => ?_
  obtain ⟨hp, hm, hkind, ht, hx⟩ := Object.alike_iff.mp hab
  have hle := hρ.trans hρ'
  exact Object.alike_iff.mpr ⟨hp, hh.insert hm (hk.mono hle) (hc.mono hle), hkind, ht, hx⟩

theorem sim_define {o p : ObjectRef} {k l : PropertyKey} {d e : Descriptor}
    (ho : ScriptCore.Alike ρ o p) (hk : ScriptCore.Alike ρ k l) (hd : ScriptCore.Alike ρ d e) :
    Sim M ρ ScriptCore.Alike (define o k d) (define p l e) := by
  refine Sim.bind (Sim.reads fun ρ' hρ h₁ h₂ hh => ?_).discard fun ρ₁ hρ₁ _ _ _ => ?_
  · obtain ⟨a, b, ha, hb, hab⟩ := hh.object (ho.mono hρ)
    rw [ha, hb]
    exact .ok hab
  refine (sim_allocCell (hd.mono hρ₁)).bind fun ρ₂ hρ₂ c c' hc => ?_
  have hle := hρ₁.trans hρ₂
  exact (sim_installCell (ho.mono hle) (hk.mono hle) hc).bind fun ρ₃ hρ₃ _ _ _ => .pure (hc.mono hρ₃)

theorem sim_remove {o p : ObjectRef} {k l : PropertyKey} (ho : ScriptCore.Alike ρ o p)
    (hk : ScriptCore.Alike ρ k l) : Sim M ρ ScriptCore.Alike (remove o k) (remove p l) := by
  refine Sim.bind (Sim.reads fun ρ' hρ h₁ h₂ hh => hh.ownCell (ho.mono hρ) (hk.mono hρ))
    fun ρ' hρ c d hcd => ?_
  cases hcd with
  | none => exact .pure rfl
  | some _ =>
    refine (sim_modifyObject (ho.mono hρ) fun ρ'' hρ' h₁ h₂ hh a b hab => ?_).bind
      fun _ _ _ _ _ => .pure rfl
    obtain ⟨hp, hm, hkind, ht, hx⟩ := Object.alike_iff.mp hab
    refine Object.alike_iff.mpr ⟨hp, alike_filter_entries (p := (· ≠ k)) (q := (· ≠ l)) hm ?_,
      hkind, ht, hx⟩
    intro k' l' hkl
    have := hh.key_eq_iff hkl (hk.mono (hρ.trans hρ'))
    simp [this]

theorem sim_retainKeys {o p : ObjectRef} {f g : PropertyKey → Bool} (ho : ScriptCore.Alike ρ o p)
    (hfg : ∀ ρ' k l, ScriptCore.Alike ρ' k l → f k = g l) :
    Sim M ρ ScriptCore.Alike (retainKeys o f) (retainKeys p g) := by
  refine sim_modifyObject ho fun ρ' hρ h₁ h₂ hh a b hab => ?_
  obtain ⟨hp, hm, hkind, ht, hx⟩ := Object.alike_iff.mp hab
  exact Object.alike_iff.mpr ⟨hp, alike_filter_entries hm (hfg ρ'), hkind, ht, hx⟩

theorem sim_allocScope {s t : Scope} (hs : ScriptCore.Alike ρ s t) :
    Sim M ρ ScriptCore.Alike (allocScope s) (allocScope t) := by
  refine Sim.bind (Sim.reads fun ρ' hρ h₁ h₂ hh => ?_).discard fun ρ' hρ _ _ _ => ?_
  · obtain ⟨a, b, ha, hb, hab⟩ := hh.object ((Scope.alike_iff.mp hs).1.mono hρ)
    rw [ha, hb]
    exact .ok hab
  · exact (sim_alloc (b := .scope s) (.scope (hs.mono hρ)) nofun).bind fun ρ' _ x y hxy =>
      Sim.pure (α := ScopeRef) hxy

/-! ### Strings and keys -/

theorem sim_internString (s : String) : Sim M ρ ScriptCore.Alike (internString s) (internString s) :=
  sim_intern _

theorem sim_keyOfName (name : String) : Sim M ρ ScriptCore.Alike (keyOfName name) (keyOfName name) :=
  (sim_internString name).bind fun _ _ _ _ hs =>
    Sim.reads fun _ hρ _ _ hh => hh.keyOfString (hs.mono hρ)

end Heap

end ScriptCore
