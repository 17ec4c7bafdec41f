import Mathlib.Logic.Relation
import ScriptCore.Proofs.Heap.Counting

/-! # One change at a time

Apart from collections, everything that an operation does to a valid heap is a sequence of a few small
changes: a vacant slot is filled with a block that may be new, or the block of an occupied slot is
overwritten in one of a few ways. `Change` lists them with all that the operations check beforehand, so
what changes and collections keep true holds of every heap, and the proof is one case for each change.

* `alloc_filled`, `intern_filled`: an allocation fills one slot, or finds the heap full.
* `Routine.keeps_filled`: what filling a slot and overwriting a block keep true, every routine keeps true.
* `Op.changed`: **every operation that is no collection is a sequence of changes.**
* `Built.induct_changes`: what changes and collections keep true holds of every heap. -/

namespace ScriptCore

namespace Heap

variable {α : Type} {h h' : Heap}

/-! ### Filling a slot -/

/-- There is no room for another block. -/
def IsFull (h : Heap) : Prop := h.limits.maxSlots ≤ h.live ∨ h.free = [] ∧ slotBound ≤ h.slots.size

/-- `h'` is `h` with one slot filled: `id` names the new block `b`, in a slot that was vacant or, if there was
none, in one that was appended. -/
structure Filled (h : Heap) (b : Block) (id : Handle) (h' : Heap) : Prop where
  vacant : h.slots[id.index]? = some ⟨id.generation, none⟩ ∨ h.free = [] ∧ id = ⟨h.slots.size, 0⟩
  slots : ∀ i, h'.slots[i]? = if i = id.index then some ⟨id.generation, some b⟩ else h.slots[i]?
  live : h'.live = h.live + 1
  limits : h'.limits = h.limits
  roots : h'.roots = h.roots ∧ h'.freeRoots = h.freeRoots
  collections : h'.collections = h.collections ∧ h'.collectAt = h.collectAt

namespace Filled

variable {b : Block} {id : Handle}

/-- The slot held nothing before. -/
theorem not_occupied (hf : h.Filled b id h') (g : UInt32) (c : Block) :
    h.slots[id.index]? ≠ some ⟨g, some c⟩ := by
  rcases hf.vacant with hv | ⟨-, rfl⟩
  · rw [hv]
    simp
  · simp

/-- No handle of the slot named anything before. -/
theorem fresh (hf : h.Filled b id h') {x : Handle} (hx : x.index = id.index) : h.block? x = none := by
  refine Option.eq_none_iff_forall_ne_some.mpr fun c hc => ?_
  rw [block?_eq_some, hx] at hc
  exact hf.not_occupied _ c hc

theorem block? (hf : h.Filled b id h') (x : Handle) :
    h'.block? x = if x = id then some b else h.block? x := by
  by_cases hi : x.index = id.index
  · obtain ⟨i, g⟩ := id
    obtain ⟨j, k⟩ := x
    cases hi
    rw [show h.block? ⟨i, k⟩ = none from hf.fresh rfl]
    unfold Heap.block? resolve
    rw [hf.slots]
    simp only [if_true, Handle.mk.injEq, true_and]
    by_cases hgk : g = k
    · simp [hgk]
    · simp [hgk, Ne.symm hgk]
  · rw [if_neg fun hx => hi (by rw [hx])]
    unfold Heap.block? resolve
    rw [hf.slots, if_neg hi]

theorem block?_self (hf : h.Filled b id h') : h'.block? id = some b := by rw [hf.block?, if_pos rfl]

/-- What was there before is there still. -/
theorem block?_of_some (hf : h.Filled b id h') {x : Handle} {c : Block} (hx : h.block? x = some c) :
    h'.block? x = some c := by
  rw [hf.block?, if_neg, hx]
  rintro rfl
  rw [hf.fresh rfl] at hx
  cases hx

end Filled

/-- **An allocation fills one slot, or finds the heap full.** -/
theorem alloc_filled (hv : h.Consistent) (b : Block) :
    h.IsFull ∧ alloc b h = .failed .outOfMemory h ∨
      ∃ id h', alloc b h = .done id h' ∧ h.Filled b id h' ∧ h'.interned = h.interned := by
  unfold alloc IsFull
  by_cases hfull : h.limits.maxSlots ≤ h.live
  · rw [if_pos hfull]
    exact .inl ⟨.inl hfull, rfl⟩
  rw [if_neg hfull]
  cases hfree : h.free with
  | cons i free =>
    obtain ⟨g, hg⟩ := (hv.mem_free i).mp (by rw [hfree]; exact List.mem_cons_self ..)
    obtain ⟨hlt, -⟩ := Array.getElem?_eq_some_iff.mp hg
    simp only [hg]
    refine .inr ⟨⟨i, g⟩, _, rfl, ⟨.inl hg, fun j => ?_, rfl, rfl, ⟨rfl, rfl⟩, rfl, rfl⟩, rfl⟩
    rw [Array.getElem?_setIfInBounds]
    by_cases hij : i = j
    · subst hij
      simp [hlt]
    · simp [hij, Ne.symm hij]
  | nil =>
    dsimp only
    by_cases hbound : slotBound ≤ h.slots.size
    · rw [if_pos hbound]
      exact .inl ⟨.inr ⟨rfl, hbound⟩, rfl⟩
    · rw [if_neg hbound]
      refine .inr ⟨_, _, rfl, ⟨.inr ⟨hfree, rfl⟩, fun j => ?_, rfl, rfl, ⟨rfl, rfl⟩, rfl, rfl⟩, rfl⟩
      show (h.slots.push _)[j]? = _
      rw [Array.getElem?_push]

/-- **Interning gives the live string with the contents, or fills one slot with it, or finds the heap
full.** -/
theorem intern_filled (hv : h.Valid) (t : Text) :
    (∃ s, intern t h = .done s h ∧ h.text s = .ok t) ∨
    (∀ s, h.text s ≠ .ok t) ∧
      (h.IsFull ∧ intern t h = .failed .outOfMemory h ∨
      ∃ s h', intern t h = .done s h' ∧ h.Filled (.string t) s.handle h') := by
  unfold intern
  cases hfind : h.interned.find? t with
  | some s => exact .inl ⟨s, rfl, text_eq_ok.mpr ((hv.canonical t s).mp hfind)⟩
  | none =>
    right
    refine ⟨fun s hs => ?_, ?_⟩
    · have hbound := (hv.canonical t s).mpr (text_eq_ok.mp hs)
      rw [hfind] at hbound
      cases hbound
    rcases alloc_filled hv.toConsistent (.string t) with ⟨hfull, hfailed⟩ | ⟨id, h', hdone, hf, -⟩
    · rw [hfailed]
      exact .inl ⟨hfull, rfl⟩
    · rw [hdone]
      exact .inr ⟨⟨id⟩, _, rfl, hf.vacant, hf.slots, hf.live, hf.limits, hf.roots, hf.collections⟩

/-! ### The two ways in which routines write -/

/-- Blocks that are overwritten keep their sort, and strings are never overwritten. -/
inductive Overwrites : Block → Block → Prop where
  | object (o o' : Object) : Overwrites (.object o) (.object o')
  | scope (s s' : Scope) : Overwrites (.scope s) (.scope s')
  | cell (d d' : Descriptor) : Overwrites (.cell d) (.cell d')

/-- **What filling a slot and overwriting a block keep true of a valid heap, every routine keeps true of it.** -/
theorem Routine.keeps_filled {K : ObjectKind → Prop} {p : Proc Heap α} {I : Heap → Prop}
    (hfill : ∀ h b id h', I h → h.Filled b id h' → I h')
    (hput : ∀ h id b b', I h → h.block? id = some b → Overwrites b b' → I (h.put id b')) (hp : Routine K p) :
    Proc.Keeps (fun h => h.Valid ∧ I h) p := by
  refine hp.keeps (fun b hb _ h hh => ?_) (fun t h hh => ?_) (fun o f _ h hh => ?_) (fun s f h hh => ?_)
    fun c f h hh => ?_
  · have hkept := keeps_alloc hb h hh.1
    rcases alloc_filled hh.1.toConsistent b with ⟨-, hfailed⟩ | ⟨id, h', hdone, hf, -⟩
    · rw [hfailed]
      exact hh
    · rw [hdone] at hkept ⊢
      exact ⟨hkept, hfill _ _ _ _ hh.2 hf⟩
  · have hkept := keeps_intern t h hh.1
    rcases intern_filled hh.1 t with ⟨s, hdone, -⟩ | ⟨-, ⟨-, hfailed⟩ | ⟨s, h', hdone, hf⟩⟩
    · rw [hdone]
      exact hh
    · rw [hfailed]
      exact hh
    · rw [hdone] at hkept ⊢
      exact ⟨hkept, hfill _ _ _ _ hh.2 hf⟩
  · exact leaves_modifyObject hh fun obj ho =>
      ⟨hh.1.putObject ho _, hput _ _ _ _ hh.2 (object_eq_ok.mp ho) (.object obj _)⟩
  · exact leaves_modifyScope hh fun sc hs => ⟨hh.1.putScope hs _, hput _ _ _ _ hh.2 (scope_eq_ok.mp hs) (.scope sc _)⟩
  · exact leaves_modifyCell hh fun d d' hc _ =>
      ⟨hh.1.putCell hc d', hput _ _ _ _ hh.2 (cell_eq_ok.mp hc) (.cell d d')⟩

/-! ### What the allocating operations come to -/

theorem allocCell_filled (hv : h.Valid) (d : Descriptor) :
    h.IsFull ∧ allocCell d h = .failed .outOfMemory h ∨
      ∃ c h', allocCell d h = .done c h' ∧ h.Filled (.cell d) c.handle h' := by
  unfold allocCell
  rw [map_eq_pure_bind, Proc.bind_eq]
  rcases alloc_filled hv.toConsistent (.cell d) with ⟨hfull, hfailed⟩ | ⟨id, h', hdone, hf, -⟩
  · rw [hfailed]
    exact .inl ⟨hfull, rfl⟩
  · rw [hdone]
    exact .inr ⟨⟨id⟩, h', rfl, hf⟩

theorem allocScope_filled (hv : h.Valid) (s : Scope) :
    (∃ e, allocScope s h = .failed e h) ∨
      ∃ r h', allocScope s h = .done r h' ∧ h.Filled (.scope s) r.handle h' := by
  unfold allocScope
  rw [Proc.discard_bind, Proc.reads_bind]
  cases h.object s.object with
  | error e => exact .inl ⟨e, rfl⟩
  | ok obj =>
    dsimp only
    rw [Proc.bind_eq]
    rcases alloc_filled hv.toConsistent (.scope s) with ⟨-, hfailed⟩ | ⟨id, h', hdone, hf, -⟩
    · rw [hfailed]
      exact .inl ⟨_, rfl⟩
    · rw [hdone]
      exact .inr ⟨⟨id⟩, h', rfl, hf⟩

theorem allocObject_filled (hv : h.Valid) (prototype : Option ObjectRef) (tag : ClassTag) (kind : ObjectKind) :
    (∃ e, allocObject prototype tag kind h = .failed e h) ∨
      ∃ o h', allocObject prototype tag kind h = .done o h' ∧
        h.Filled (.object ⟨prototype, tag, true, .empty, kind⟩) o.handle h' := by
  have hnew : ∀ p : Proc Heap ObjectRef,
      p = (do return ⟨← alloc (.object ⟨prototype, tag, true, .empty, kind⟩)⟩) →
      (∃ e, p h = .failed e h) ∨
        ∃ o h', p h = .done o h' ∧ h.Filled (.object ⟨prototype, tag, true, .empty, kind⟩) o.handle h' := by
    rintro p rfl
    rw [Proc.bind_eq]
    rcases alloc_filled hv.toConsistent (.object ⟨prototype, tag, true, .empty, kind⟩) with
      ⟨-, hfailed⟩ | ⟨id, h', hdone, hf, -⟩
    · rw [hfailed]
      exact .inl ⟨_, rfl⟩
    · rw [hdone]
      exact .inr ⟨⟨id⟩, h', rfl, hf⟩
  unfold allocObject
  cases prototype with
  | none => exact hnew _ rfl
  | some p =>
    dsimp only
    rw [Proc.discard_bind, Proc.reads_bind]
    cases h.object p with
    | error e => exact .inl ⟨e, rfl⟩
    | ok obj => exact hnew _ rfl

/-- **Defining a property of a live object** finds the heap full, or fills a slot with its cell. Then the key is bound,
unless it is new and there is no memory for it. -/
theorem define_ends [Memory] (hv : h.Valid) {o : ObjectRef} {obj : Object} (ho : h.object o = .ok obj)
    (key : PropertyKey) (d : Descriptor) :
    h.IsFull ∧ define o key d h = .failed .outOfMemory h ∨
      ∃ c h', h.Filled (.cell d) c.handle h' ∧ h'.Valid ∧ define o key d h =
        if (obj.properties.find? key).isNone && !Memory.grants h' o then .failed .outOfMemory h'
        else .done c (h'.put o.handle (.object { obj with properties := obj.properties.insert key c })) := by
  have hkept := (routine_allocCell (K := fun _ => True) d).keeps_valid h hv
  unfold define
  rw [Proc.discard_bind, Proc.reads_bind, ho]
  dsimp only
  rw [Proc.bind_eq]
  rcases allocCell_filled hv d with ⟨hfull, hfailed⟩ | ⟨c, h', hdone, hf⟩
  · rw [hfailed]
    exact .inl ⟨hfull, rfl⟩
  · have ho' : h'.object o = .ok obj := object_eq_ok.mpr (hf.block?_of_some (object_eq_ok.mp ho))
    have hc' : h'.cell c = .ok d := cell_eq_ok.mpr hf.block?_self
    rw [hdone] at hkept
    refine .inr ⟨c, h', hf, hkept, ?_⟩
    rw [hdone]
    show (installCell o key c >>= fun _ => Pure.pure c) h' = _
    unfold installCell
    rw [Proc.discard_bind, bind_assoc, Proc.reads_bind, hc']
    dsimp only
    rw [bind_assoc, Proc.reads_bind, reserve_of_object ho']
    by_cases hshort : ((obj.properties.find? key).isNone && !Memory.grants h' o) = true
    · rw [if_pos hshort, if_pos hshort]
    · rw [if_neg hshort, if_neg hshort]
      exact Proc.bind_done (modifyObject_done ho' _) _

/-- As long as memory does not run short, only a full heap is in the way. -/
theorem define_of_object (hv : h.Valid) {o : ObjectRef} {obj : Object} (ho : h.object o = .ok obj)
    (key : PropertyKey) (d : Descriptor) :
    h.IsFull ∧ define o key d h = .failed .outOfMemory h ∨
      ∃ c h', h.Filled (.cell d) c.handle h' ∧ h'.Valid ∧ define o key d h = .done c
        (h'.put o.handle (.object { obj with properties := obj.properties.insert key c })) := by
  refine (define_ends hv ho key d).imp_right fun ⟨c, h', hf, hv', hdefined⟩ => ⟨c, h', hf, hv', ?_⟩
  exact hdefined.trans (if_neg (Bool.eq_false_iff.mp (Bool.and_false _)))

/-- **Defining a property fills a slot with its cell and binds the key**, or changes nothing. -/
theorem define_filled (hv : h.Valid) (o : ObjectRef) (key : PropertyKey) (d : Descriptor) :
    (∃ e, define o key d h = .failed e h) ∨
      ∃ obj c h', h.object o = .ok obj ∧ h.Filled (.cell d) c.handle h' ∧ h'.Valid ∧
        define o key d h = .done c
          (h'.put o.handle (.object { obj with properties := obj.properties.insert key c })) := by
  cases ho : h.object o with
  | error e =>
    refine .inl ⟨e, ?_⟩
    unfold define
    rw [Proc.discard_bind, Proc.reads_bind, ho]
  | ok obj =>
    rcases define_of_object hv ho key d with ⟨-, hfailed⟩ | ⟨c, h', hf, hv', hdone⟩
    · exact .inl ⟨_, hfailed⟩
    · exact .inr ⟨obj, c, h', rfl, hf, hv', hdone⟩

/-! ### Changes -/

/-- The block may be new: an object has no properties yet, and what it inherits from is live. -/
def Admits (h : Heap) : Block → Prop
  | .object o => o.properties = .empty ∧ ∀ p, o.prototype = some p → ∃ obj, h.object p = .ok obj
  | .scope s => ∃ obj, h.object s.object = .ok obj
  | .string _ | .cell _ => True

/-- The ways to overwrite the block that `id` names. -/
inductive Rewrites (h : Heap) (id : Handle) : Block → Block → Prop where
  | cell (d d' : Descriptor) : Rewrites h id (.cell d) (.cell d')
  | scope {s s' : Scope} (object : s'.object = s.object) (parent : s'.parent = s.parent) :
      Rewrites h id (.scope s) (.scope s')
  /-- No property is added. -/
  | narrowed {o o' : Object} (prototype : o'.prototype = o.prototype) (tag : o'.tag = o.tag)
      (kind : o'.kind = o.kind)
      (find : ∀ k c, o'.properties.find? k = some c → o.properties.find? k = some c) :
      Rewrites h id (.object o) (.object o')
  /-- A key is bound to a live cell. -/
  | bound (o : Object) (key : PropertyKey) {c : CellRef} {d : Descriptor} (cell : h.cell c = .ok d) :
      Rewrites h id (.object o) (.object { o with properties := o.properties.insert key c })
  /-- The object inherits from another. -/
  | inherits (o : Object) {p : Option ObjectRef}
      (check : h.checkPrototype ⟨id⟩ maxPrototypeChain p = .ok ()) :
      Rewrites h id (.object o) (.object { o with prototype := p })

/-- **One change of a heap.** -/
inductive Change (h : Heap) : Heap → Prop where
  | filled {b : Block} {id : Handle} {h' : Heap} (admits : h.Admits b) (filled : h.Filled b id h') :
      Change h h'
  | written {id : Handle} {b b' : Block} (resolves : h.block? id = some b)
      (rewrites : h.Rewrites id b b') : Change h (h.put id b')
  | rooted (roots : Array (Option Value)) (freeRoots : List Nat) :
      Change h { h with roots, freeRoots }

/-- `h'` is valid, and comes from `h` by changes of valid heaps. -/
inductive Changed (h : Heap) : Heap → Prop where
  | refl (valid : h.Valid) : Changed h h
  | tail {h₁ h₂ : Heap} (changed : Changed h h₁) (change : Change h₁ h₂) (valid : h₂.Valid) : Changed h h₂

namespace Changed

theorem valid (hc : Changed h h') : h'.Valid := by
  cases hc with
  | refl valid => exact valid
  | tail _ _ valid => exact valid

theorem trans {h₁ : Heap} (hc : Changed h h₁) (hc' : Changed h₁ h') : Changed h h' := by
  induction hc' with
  | refl _ => exact hc
  | tail _ change valid ih => exact ih.tail change valid

theorem single (hv : h.Valid) (hc : Change h h') (hv' : h'.Valid) : Changed h h' := (refl hv).tail hc hv'

/-- **What each change keeps true, a sequence of changes keeps true.** -/
theorem keeps {I : Heap → Prop} (hc : Changed h h')
    (hkeeps : ∀ h₁ h₂, h₁.Valid → h₂.Valid → Change h₁ h₂ → I h₁ → I h₂) (hi : I h) : I h' := by
  induction hc with
  | refl _ => exact hi
  | tail changed change valid ih => exact hkeeps _ _ changed.valid valid change ih

end Changed

/-! ### Operations are sequences of changes -/

/-- Whatever the valid heap it runs on, the procedure changes it by `Change`s. -/
def Changing (p : Proc Heap α) : Prop := ∀ h, h.Valid → (p h).Leaves (Changed h)

namespace Changing

variable {β : Type} {p : Proc Heap α}

theorem pure (a : α) : Changing (Pure.pure a) := fun _ hv => .refl hv

theorem reads (f : Heap → Except Error α) : Changing (Proc.reads f) := by
  intro h hv
  unfold Proc.reads
  cases f h <;> exact .refl hv

theorem bind {f : α → Proc Heap β} (hp : Changing p) (hf : ∀ a, Changing (f a)) : Changing (p >>= f) := by
  intro h hv
  have hleaves := hp h hv
  rw [Proc.bind_eq]
  cases hph : p h with
  | done a h' =>
    rw [hph] at hleaves
    exact (hf a h' hleaves.valid).imp fun _ hc => hleaves.trans hc
  | failed e h' => rw [hph] at hleaves; exact hleaves
  | stalled => trivial

theorem map (hp : Changing p) (f : α → β) : Changing (f <$> p) := by
  rw [map_eq_pure_bind]
  exact hp.bind fun a => .pure (f a)

theorem discard (hp : Changing p) : Changing (discard p) := hp.map _

/-- What follows a look at the heap. -/
theorem reads_bind {f : Heap → Except Error α} {g : α → Proc Heap β}
    (hg : ∀ h a, h.Valid → f h = .ok a → (g a h).Leaves (Changed h)) : Changing (Proc.reads f >>= g) := by
  intro h hv
  rw [Proc.reads_bind]
  cases hf : f h with
  | ok a => exact hg h a hv hf
  | error e => exact .refl hv

end Changing

theorem changed_alloc {b : Block} (hv : h.Valid) (hb : ∀ t, b ≠ .string t) (hadmits : h.Admits b) :
    (alloc b h).Leaves (Changed h) := by
  have hkept := keeps_alloc hb h hv
  rcases alloc_filled hv.toConsistent b with ⟨-, hfailed⟩ | ⟨id, h', hdone, hf, -⟩
  · rw [hfailed]
    exact .refl hv
  · rw [hdone] at hkept ⊢
    exact .single hv (.filled hadmits hf) hkept

theorem changing_intern (t : Text) : Changing (intern t) := by
  intro h hv
  have hkept := keeps_intern t h hv
  rcases intern_filled hv t with ⟨s, hdone, -⟩ | ⟨-, ⟨-, hfailed⟩ | ⟨s, h', hdone, hf⟩⟩
  · rw [hdone]
    exact .refl hv
  · rw [hfailed]
    exact .refl hv
  · rw [hdone] at hkept ⊢
    exact .single hv (.filled (b := .string t) trivial hf) hkept

theorem changed_modifyObject (hv : h.Valid) (o : ObjectRef) {f : Object → Object}
    (hf : ∀ x, h.Rewrites o.handle (.object x) (.object (f x))) : (modifyObject o f h).Leaves (Changed h) :=
  leaves_modifyObject (.refl hv) fun obj ho =>
    .single hv (.written (object_eq_ok.mp ho) (hf obj)) (hv.putObject ho _)

theorem changing_modifyScope (s : ScopeRef) {f : Scope → Scope}
    (hf : ∀ x, (f x).object = x.object ∧ (f x).parent = x.parent) : Changing (modifyScope s f) := fun _ hv =>
  leaves_modifyScope (.refl hv) fun sc hs =>
    .single hv (.written (scope_eq_ok.mp hs) (.scope (hf sc).1 (hf sc).2)) (hv.putScope hs _)

theorem changing_modifyCell (c : CellRef) (f : Descriptor → Except Error Descriptor) :
    Changing (modifyCell c f) := fun _ hv =>
  leaves_modifyCell (.refl hv) fun d d' hc _ => .single hv (.written (cell_eq_ok.mp hc) (.cell d d')) (hv.putCell hc d')

theorem changing_allocCell (d : Descriptor) : Changing (allocCell d) :=
  .map (fun _ hv => changed_alloc (b := .cell d) hv (by simp) trivial) _

theorem changing_allocObject (prototype : Option ObjectRef) (tag : ClassTag) (kind : ObjectKind) :
    Changing (allocObject prototype tag kind) := by
  have halloc : ∀ h : Heap, h.Valid → (∀ p, prototype = some p → ∃ obj, h.object p = .ok obj) →
      ((do return ⟨← alloc (.object ⟨prototype, tag, true, .empty, kind⟩)⟩ : Proc Heap ObjectRef) h).Leaves
        (Changed h) := by
    intro h hv hp
    have hadmits : h.Admits (.object ⟨prototype, tag, true, .empty, kind⟩) := ⟨rfl, hp⟩
    rw [Proc.bind_eq]
    exact (changed_alloc hv (by simp) hadmits).bind fun id => .pure _
  unfold allocObject
  cases prototype with
  | none => exact fun h hv => halloc h hv (by simp)
  | some p =>
    dsimp only
    rw [Proc.discard_bind]
    refine .reads_bind fun h obj hv ho => halloc h hv fun q hq => ?_
    rw [← Option.some.inj hq]
    exact ⟨obj, ho⟩

theorem changing_setPrototype (o : ObjectRef) (p : Option ObjectRef) : Changing (setPrototype o p) := by
  unfold setPrototype
  rw [Proc.discard_bind]
  refine .reads_bind fun h obj hv ho => ?_
  rw [Proc.reads_bind]
  cases hcheck : h.checkPrototype o maxPrototypeChain p with
  | ok u => exact changed_modifyObject hv o fun x => .inherits x hcheck
  | error e => exact .refl hv

theorem changing_preventExtensions (o : ObjectRef) : Changing (preventExtensions o) := fun _ hv =>
  changed_modifyObject hv o fun _ => .narrowed rfl rfl rfl fun _ _ hfind => hfind

theorem changing_installCell (o : ObjectRef) (key : PropertyKey) (c : CellRef) :
    Changing (installCell o key c) := by
  rw [installCell_ample, Proc.discard_bind]
  exact .reads_bind fun _ _ hv hc => changed_modifyObject hv o fun x => .bound x key hc

theorem changing_define (o : ObjectRef) (key : PropertyKey) (d : Descriptor) : Changing (define o key d) :=
  .bind (.discard (.reads _)) fun _ => .bind (changing_allocCell d) fun c =>
    .bind (changing_installCell o key c) fun _ => .pure c

theorem changing_remove (o : ObjectRef) (key : PropertyKey) : Changing (remove o key) := by
  refine .bind (.reads _) fun c => ?_
  cases c with
  | none => exact .pure _
  | some c =>
    refine .bind (fun h hv => changed_modifyObject hv o fun x => .narrowed rfl rfl rfl fun k c hfind => ?_)
      fun _ => .pure _
    rw [PropertyMap.find?_erase] at hfind
    split at hfind
    · cases hfind
    · exact hfind

theorem changing_retainKeys (o : ObjectRef) (p : PropertyKey → Bool) : Changing (retainKeys o p) := by
  refine fun h hv => changed_modifyObject hv o fun x => .narrowed rfl rfl rfl fun k c hfind => ?_
  rw [PropertyMap.find?_filter] at hfind
  split at hfind
  · exact hfind
  · cases hfind

theorem changing_allocScope (s : Scope) : Changing (allocScope s) := by
  unfold allocScope
  rw [Proc.discard_bind]
  refine .reads_bind fun h obj hv ho => ?_
  rw [Proc.bind_eq]
  have hadmits : h.Admits (.scope s) := ⟨obj, ho⟩
  exact (changed_alloc hv (by simp) hadmits).bind fun id => .pure _

theorem changing_setScopeWriteTo (s : ScopeRef) (target : Option ObjectRef) :
    Changing (setScopeWriteTo s target) := by
  unfold setScopeWriteTo
  cases target with
  | none => exact changing_modifyScope s fun _ => ⟨rfl, rfl⟩
  | some o => exact .bind (.discard (.reads _)) fun _ => changing_modifyScope s fun _ => ⟨rfl, rfl⟩

/-- The operation collects garbage. -/
def Op.IsCollection (op : Op) : Prop := ∃ reported, op = .collect reported

/-- **Every operation that is no collection is a sequence of changes**, whether it succeeds or fails. -/
theorem Op.changed (hv : h.Valid) {op : Op} (hop : ¬ op.IsCollection) : Changed h (op.run h) := by
  have hafter : ∀ {α : Type} (p : Proc Heap α), Changing p → Changed h (after p h) := by
    intro α p hp
    have hleaves := hp h hv
    unfold after
    cases hph : p h with
    | done a h' => rw [hph] at hleaves; exact hleaves
    | failed e h' => rw [hph] at hleaves; exact hleaves
    | stalled => exact .refl hv
  have hvalid := hv.run op
  cases op with
  | intern t => exact hafter _ (changing_intern t)
  | allocCell d => exact hafter _ (changing_allocCell d)
  | putCell c d => exact hafter _ (changing_modifyCell c _)
  | writeCell c v => exact hafter _ (changing_modifyCell c _)
  | allocObject prototype tag kind => exact hafter _ (changing_allocObject prototype tag kind)
  | setPrototype o p => exact hafter _ (changing_setPrototype o p)
  | preventExtensions o => exact hafter _ (changing_preventExtensions o)
  | installCell o key c => exact hafter _ (changing_installCell o key c)
  | define o key d => exact hafter _ (changing_define o key d)
  | remove o key => exact hafter _ (changing_remove o key)
  | retainKeys o p => exact hafter _ (changing_retainKeys o p)
  | allocScope s => exact hafter _ (changing_allocScope s)
  | setReceiver s v => exact hafter _ (changing_modifyScope s fun _ => ⟨rfl, rfl⟩)
  | setStrict s strict => exact hafter _ (changing_modifyScope s fun _ => ⟨rfl, rfl⟩)
  | setWriteTo s target => exact hafter _ (changing_setScopeWriteTo s target)
  | addRoot v =>
    refine .single hv ?_ hvalid
    show Change h (h.addRoot v).2
    unfold Heap.addRoot
    split
    · exact .rooted _ _
    · exact .rooted _ h.freeRoots
  | removeRoot i =>
    show Changed h (h.removeRoot i)
    have hkept := hv.removeRoot i
    unfold Heap.removeRoot at hkept ⊢
    split
    · next hroot => rw [hroot] at hkept; exact .single hv (.rooted _ _) hkept
    · exact .refl hv
  | collect reported => exact absurd ⟨reported, rfl⟩ hop

/-- **What changes and collections keep true holds of every heap that is reached.** -/
theorem Built.induct_changes {I : Heap → Prop} (hempty : ∀ limits, I (empty limits))
    (hchange : ∀ h₁ h₂, h₁.Valid → h₂.Valid → Change h₁ h₂ → I h₁ → I h₂)
    (hcollect : ∀ h reported, h.Valid → I h → I (h.collect reported)) (hb : h.Built) : I h := by
  have hall : h.Valid ∧ I h := by
    refine hb.induct (I := fun h => h.Valid ∧ I h) (fun limits => ⟨valid_empty limits, hempty limits⟩) ?_
    intro op h ⟨hv, hi⟩
    refine ⟨hv.run op, ?_⟩
    by_cases hop : op.IsCollection
    · obtain ⟨reported, rfl⟩ := hop
      exact hcollect h reported hv hi
    · exact (Op.changed hv hop).keeps hchange hi
  exact hall.2

end Heap

end ScriptCore
