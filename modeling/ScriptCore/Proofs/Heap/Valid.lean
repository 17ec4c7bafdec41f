import ScriptCore.Heap.Objects
import ScriptCore.Proofs.Heap.Marking

/-! # What every heap keeps true

A heap is `Valid` when its redundant parts agree: there is a mark for each slot and none is set, the
free list names every vacant slot once, and the table of interned strings names exactly the live
strings.

* `alloc_cases`: what an allocation does, `Allocated` being all it can do when it succeeds.
* `intern_cases`: what interning does.
* `Valid.put`: overwriting a block that is no string by another such block.
* `Proc.Keeps`: a procedure keeps a property of its state, however it ends. -/

namespace ScriptCore

/-! ### Properties that procedures keep -/

/-- The state that an outcome leaves satisfies `I`, if it leaves one. -/
def Outcome.Leaves {σ α : Type} (I : σ → Prop) : Outcome σ α → Prop
  | .done _ s => I s
  | .failed _ s => I s
  | .stalled => True

/-- The state that an outcome leaves, unless it stalled. -/
def Outcome.state? {σ α : Type} : Outcome σ α → Option σ
  | .done _ s => some s
  | .failed _ s => some s
  | .stalled => none

/-- What a procedure delivered, and the state it left. -/
def Outcome.done? {σ α : Type} : Outcome σ α → Option (α × σ)
  | .done v s => some (v, s)
  | _ => none

theorem Outcome.eq_done {σ α : Type} {o : Outcome σ α} {v : α} {s : σ} (h : o.done? = some (v, s)) :
    o = .done v s := by
  cases o <;> cases h
  rfl

/-- What a procedure failed with, and the state it left. -/
def Outcome.failed? {σ α : Type} : Outcome σ α → Option (Error × σ)
  | .failed e s => some (e, s)
  | _ => none

theorem Outcome.eq_failed {σ α : Type} {o : Outcome σ α} {e : Error} {s : σ} (h : o.failed? = some (e, s)) :
    o = .failed e s := by
  cases o <;> cases h
  rfl

/-- How a sequence goes on after its first part. -/
def Outcome.bind {σ α β : Type} (o : Outcome σ α) (f : α → Proc σ β) : Outcome σ β :=
  match o with
  | .done v s => f v s
  | .failed e s => .failed e s
  | .stalled => .stalled

theorem Proc.bind_eq {σ α β : Type} (p : Proc σ α) (f : α → Proc σ β) (s : σ) : (p >>= f) s = (p s).bind f := by
  show Proc.bind p f s = _
  unfold Proc.bind Outcome.bind
  cases p s <;> rfl

theorem Proc.reads_bind {σ α β : Type} (f : σ → Except Error α) (g : α → Proc σ β) (s : σ) :
    (Proc.reads f >>= g) s =
      match f s with
      | .ok a => g a s
      | .error e => .failed e s := by
  rw [Proc.bind_eq]
  unfold Proc.reads
  cases f s <;> rfl

theorem Proc.discard_bind {σ α β : Type} (p : Proc σ α) (f : Unit → Proc σ β) :
    (discard p >>= f) = (p >>= fun _ => f ()) := by
  show (Function.const α () <$> p >>= f) = _
  rw [map_eq_pure_bind, bind_assoc]
  exact bind_congr fun _ => pure_bind () f

/-- What a look at the state gave, after a procedure. -/
theorem Proc.done_of_bind_reads {σ α β : Type} {p : Proc σ α} {f : α → σ → Except Error β} {t t' : σ} {y : β}
    (hdone : (p >>= fun x => Proc.reads (f x)) t = .done y t') : ∃ x, p t = .done x t' ∧ f x t' = .ok y := by
  rw [Proc.bind_eq] at hdone
  cases hp : p t with
  | failed e t₁ => rw [hp] at hdone; cases hdone
  | stalled => rw [hp] at hdone; cases hdone
  | done x t₁ =>
    rw [hp] at hdone
    change Proc.reads (f x) t₁ = _ at hdone
    unfold Proc.reads at hdone
    cases hf : f x t₁ with
    | error e => rw [hf] at hdone; cases hdone
    | ok z => rw [hf] at hdone; cases hdone; exact ⟨x, rfl, hf⟩

/-- The procedure keeps `I`, however it ends. -/
def Proc.Keeps {σ α : Type} (I : σ → Prop) (p : Proc σ α) : Prop := ∀ s, I s → (p s).Leaves I

theorem Outcome.Leaves.imp {σ α : Type} {I J : σ → Prop} {o : Outcome σ α} (ho : o.Leaves I)
    (h : ∀ s, I s → J s) : o.Leaves J := by
  cases o with
  | done v s => exact h s ho
  | failed e s => exact h s ho
  | stalled => trivial

theorem Outcome.Leaves.and {σ α : Type} {I J : σ → Prop} {o : Outcome σ α} (hI : o.Leaves I) (hJ : o.Leaves J) :
    o.Leaves fun s => I s ∧ J s := by
  cases o with
  | done v s => exact ⟨hI, hJ⟩
  | failed e s => exact ⟨hI, hJ⟩
  | stalled => trivial

theorem Outcome.Leaves.of_state {σ α : Type} {I : σ → Prop} {o : Outcome σ α} {s : σ} (ho : o.Leaves I)
    (hs : o.state? = some s) : I s := by
  cases o <;> cases hs <;> exact ho

theorem Outcome.Leaves.bind {σ α β : Type} {I : σ → Prop} {o : Outcome σ α} {f : α → Proc σ β}
    (ho : o.Leaves I) (hf : ∀ v, Proc.Keeps I (f v)) : (o.bind f).Leaves I := by
  cases o with
  | done v s => exact hf v s ho
  | failed e s => exact ho
  | stalled => trivial

namespace Proc.Keeps

variable {σ α β : Type} {I : σ → Prop}

theorem pure (a : α) : Keeps I (Pure.pure a : Proc σ α) := fun _ hs => hs

theorem fail (e : Error) : Keeps I (throw e : Proc σ α) := fun _ hs => hs

theorem reads (f : σ → Except Error α) : Keeps I (Proc.reads f) := by
  intro s hs
  unfold Proc.reads
  cases f s <;> exact hs

theorem ofExcept (r : Except Error α) : Keeps I (Proc.ofExcept r : Proc σ α) := by
  intro s hs
  unfold Proc.ofExcept
  cases r <;> exact hs

theorem bind {p : Proc σ α} {f : α → Proc σ β} (hp : Keeps I p) (hf : ∀ a, Keeps I (f a)) :
    Keeps I (p >>= f) := by
  intro s hs
  rw [Proc.bind_eq]
  exact (hp s hs).bind hf

/-- What follows a look at the state. -/
theorem reads_bind {f : σ → Except Error α} {g : α → Proc σ β}
    (hg : ∀ s a, I s → f s = .ok a → (g a s).Leaves I) : Keeps I (Proc.reads f >>= g) := by
  intro s hs
  rw [Proc.reads_bind]
  cases hf : f s with
  | ok a => exact hg s a hs hf
  | error e => exact hs

theorem map {p : Proc σ α} (hp : Keeps I p) (f : α → β) : Keeps I (f <$> p) := by
  rw [map_eq_pure_bind]
  exact hp.bind fun a => .pure (f a)

theorem discard {p : Proc σ α} (hp : Keeps I p) : Keeps I (discard p) := hp.map _

theorem of_done {p : Proc σ α} {x : α} {s s' : σ} (hdone : p s = .done x s') (hp : Keeps I p) (hs : I s) :
    I s' := by
  have hkept := hp s hs
  rw [hdone] at hkept
  exact hkept

end Proc.Keeps

namespace Heap

variable {h : Heap}

/-! ### The invariant -/

/-- Marks and free list fit the slots. -/
structure Consistent (h : Heap) : Prop where
  marks_size : h.marks.size = h.slots.size
  free_nodup : h.free.Nodup
  mem_free : ∀ i, i ∈ h.free ↔ ∃ g, h.slots[i]? = some ⟨g, none⟩

/-- The table of interned strings names exactly the live strings. -/
def Canonical (h : Heap) : Prop :=
  ∀ t s, h.interned.find? t = some s ↔ h.block? s.handle = some (.string t)

/-- **What holds of a heap between operations.** -/
structure Valid (h : Heap) : Prop extends Consistent h where
  marks_clear : ∀ i : Nat, h.marks[i]? ≠ some true
  canonical : h.Canonical

theorem block?_eq_some {id : Handle} {b : Block} :
    h.block? id = some b ↔ h.slots[id.index]? = some ⟨id.generation, some b⟩ := resolve_eq_some

theorem valid_empty (limits : HeapLimits) : (empty limits).Valid where
  marks_size := rfl
  free_nodup := List.nodup_nil
  mem_free i := by simp [empty]
  marks_clear i := by simp [empty]
  canonical t s := by
    have h1 : (empty limits).interned.find? t = none := by
      simp [empty, TextTable.empty, TextTable.find?, TextTable.bucket]
    have h2 : (empty limits).block? s.handle = none := by simp [empty, block?, resolve]
    rw [h1, h2]
    simp

/-! ### Overwriting -/

theorem block?_put {id : Handle} (hid : (h.block? id).isSome) (b : Block) (x : Handle) :
    (h.put id b).block? x = if x = id then some b else h.block? x := by
  have hlt : id.index < h.slots.size := index_lt_of_resolves hid
  obtain ⟨c, hc⟩ := Option.isSome_iff_exists.mp hid
  rw [block?_eq_some] at hc
  unfold block? resolve put
  rw [Array.getElem?_setIfInBounds]
  obtain ⟨i, g⟩ := id
  obtain ⟨j, k⟩ := x
  by_cases hij : i = j
  · subst hij
    simp only [hc, hlt, if_true, Handle.mk.injEq, true_and]
    by_cases hg : g = k
    · simp [hg]
    · simp [hg, Ne.symm hg]
  · simp [hij, Ne.symm hij]

theorem Consistent.put {id : Handle} (hv : h.Consistent) (hid : (h.block? id).isSome) (b : Block) :
    (h.put id b).Consistent where
  marks_size := by
    show h.marks.size = (h.slots.setIfInBounds _ _).size
    rw [Array.size_setIfInBounds, hv.marks_size]
  free_nodup := hv.free_nodup
  mem_free i := by
    obtain ⟨c, hc⟩ := Option.isSome_iff_exists.mp hid
    rw [block?_eq_some] at hc
    show i ∈ h.free ↔ ∃ g, (h.slots.setIfInBounds _ _)[i]? = _
    rw [hv.mem_free i, Array.getElem?_setIfInBounds]
    by_cases hi : id.index = i
    · subst hi
      obtain ⟨hlt, hget⟩ := Array.getElem?_eq_some_iff.mp hc
      simp [hget, hlt]
    · simp [hi]

/-- A block other than a string is overwritten by another such block. -/
theorem Valid.put {id : Handle} {b c : Block} (hv : h.Valid) (hid : h.block? id = some c)
    (hc : ∀ t, c ≠ .string t) (hb : ∀ t, b ≠ .string t) : (h.put id b).Valid where
  toConsistent := hv.toConsistent.put (by rw [hid]; rfl) b
  marks_clear := hv.marks_clear
  canonical t s := by
    show h.interned.find? t = some s ↔ _
    rw [block?_put (by rw [hid]; rfl), hv.canonical t s]
    by_cases hs : s.handle = id
    · rw [if_pos hs, hs, hid]
      simp [hc t, hb t]
    · rw [if_neg hs]

/-! ### Allocation -/

/-- What a successful allocation of `b` does: the handle `id` did not resolve, and now names `b`;
what other handles name is unchanged. -/
structure Allocated (h : Heap) (b : Block) (id : Handle) (h' : Heap) : Prop where
  fresh : h.block? id = none
  block : ∀ x, h'.block? x = if x = id then some b else h.block? x
  consistent : h'.Consistent
  marks_clear : (∀ i : Nat, h.marks[i]? ≠ some true) → ∀ i : Nat, h'.marks[i]? ≠ some true
  interned : h'.interned = h.interned
  size_le : h.slots.size ≤ h'.slots.size

/-- Filling the slot that was freed last. -/
theorem allocated_reuse (hv : h.Consistent) {i : Nat} {free : List Nat} {g : UInt32}
    (hfree : h.free = i :: free) (hg : h.slots[i]? = some ⟨g, none⟩) (b : Block) :
    h.Allocated b ⟨i, g⟩
      { h with slots := h.slots.setIfInBounds i ⟨g, some b⟩, free, live := h.live + 1 } := by
  obtain ⟨hlt, -⟩ := Array.getElem?_eq_some_iff.mp hg
  obtain ⟨hnot, hnodup⟩ := List.nodup_cons.mp (hfree ▸ hv.free_nodup)
  refine ⟨by simp [block?, resolve, hg], fun x => ?_, ⟨?_, hnodup, fun j => ?_⟩, id, rfl,
    by simp⟩
  · obtain ⟨j, k⟩ := x
    unfold block? resolve
    rw [Array.getElem?_setIfInBounds]
    by_cases hij : i = j
    · subst hij
      simp only [hlt, hg, if_true, Handle.mk.injEq, true_and]
      by_cases hk : g = k
      · simp [hk]
      · simp [hk, Ne.symm hk]
    · simp [hij, Ne.symm hij]
  · rw [Array.size_setIfInBounds]; exact hv.marks_size
  · have hmem := hv.mem_free j
    rw [hfree, List.mem_cons] at hmem
    rw [Array.getElem?_setIfInBounds]
    by_cases hij : i = j
    · subst hij
      simp [hlt, hnot]
    · simp only [hij, if_false]
      rw [← hmem]
      simp [Ne.symm hij]

/-- Appending a slot. -/
theorem allocated_push (hv : h.Consistent) (b : Block) :
    h.Allocated b ⟨h.slots.size, 0⟩
      { h with
        slots := h.slots.push ⟨0, some b⟩
        marks := h.marks.push false
        live := h.live + 1 } := by
  refine ⟨by simp [block?, resolve], fun x => ?_, ⟨by simp [hv.marks_size], hv.free_nodup,
    fun j => ?_⟩, fun hm j => ?_, rfl, by simp⟩
  · obtain ⟨j, k⟩ := x
    unfold block? resolve
    rw [Array.getElem?_push]
    by_cases hj : j = h.slots.size
    · subst hj
      by_cases hk : k = 0
      · simp [hk]
      · simp [hk, Ne.symm hk]
    · simp [hj]
  · have hmem := hv.mem_free j
    show j ∈ h.free ↔ ∃ g, (h.slots.push _)[j]? = _
    rw [hmem, Array.getElem?_push]
    by_cases hj : j = h.slots.size
    · simp [hj]
    · simp [hj]
  · show (h.marks.push false)[j]? ≠ _
    rw [Array.getElem?_push]
    split
    · simp
    · exact hm j

/-- **An allocation succeeds, or the heap is full and stays as it is.** -/
theorem alloc_cases (hv : h.Consistent) (b : Block) :
    alloc b h = .failed .outOfMemory h ∨ ∃ id h', alloc b h = .done id h' ∧ h.Allocated b id h' := by
  unfold alloc
  by_cases hfull : h.limits.maxSlots ≤ h.live
  · left; rw [if_pos hfull]
  rw [if_neg hfull]
  cases hfree : h.free with
  | cons i free =>
    right
    obtain ⟨g, hg⟩ := (hv.mem_free i).mp (by rw [hfree]; exact List.mem_cons_self ..)
    simp only [hg]
    exact ⟨⟨i, g⟩, _, rfl, allocated_reuse hv hfree hg b⟩
  | nil =>
    by_cases hbound : slotBound ≤ h.slots.size
    · left; simp [hbound]
    · right
      simp only [hbound, if_false]
      refine ⟨_, _, rfl, ?_⟩
      rw [← hfree]
      exact allocated_push hv b

theorem Allocated.valid {b : Block} {id : Handle} {h' : Heap} (ha : h.Allocated b id h')
    (hv : h.Valid) (hb : ∀ t, b ≠ .string t) : h'.Valid where
  toConsistent := ha.consistent
  marks_clear := ha.marks_clear hv.marks_clear
  canonical t s := by
    rw [ha.interned, ha.block, hv.canonical t s]
    by_cases hs : s.handle = id
    · rw [if_pos hs, hs, ha.fresh]
      simp [hb t]
    · rw [if_neg hs]

/-! ### Interning -/

/-- What entering a new string does. -/
structure Interned (h : Heap) (t : Text) (s : StringRef) (h' : Heap) : Prop where
  fresh : h.block? s.handle = none
  block : ∀ x, h'.block? x = if x = s.handle then some (.string t) else h.block? x
  valid : h'.Valid
  size_le : h.slots.size ≤ h'.slots.size

/-- **Interning gives the live string with the contents, or makes one, or finds the heap full.** -/
theorem intern_cases (hv : h.Valid) (t : Text) :
    (∃ s, intern t h = .done s h ∧ h.block? s.handle = some (.string t)) ∨
    (∀ s : StringRef, h.block? s.handle ≠ some (.string t)) ∧
      ((intern t h = .failed .outOfMemory h ∧ alloc (.string t) h = .failed .outOfMemory h) ∨
      ∃ s h' h'', alloc (.string t) h = .done s.handle h' ∧ intern t h = .done s h'' ∧
        h''.slots = h'.slots ∧ h''.free = h'.free ∧ h''.live = h'.live ∧
        h''.limits = h'.limits ∧ h.Interned t s h'') := by
  unfold intern
  cases hfind : h.interned.find? t with
  | some s => exact Or.inl ⟨s, rfl, (hv.canonical t s).mp hfind⟩
  | none =>
    right
    have hnone : ∀ s : StringRef, h.block? s.handle ≠ some (.string t) := by
      intro s hs
      rw [← hv.canonical t s, hfind] at hs
      cases hs
    refine ⟨hnone, ?_⟩
    rcases alloc_cases hv.toConsistent (.string t) with hfull | ⟨id, h', hdone, ha⟩
    · left; rw [hfull]; exact ⟨rfl, rfl⟩
    right
    rw [hdone]
    refine ⟨⟨id⟩, h', _, rfl, rfl, rfl, rfl, rfl, rfl, ha.fresh, ha.block, ?_, ha.size_le⟩
    refine ⟨⟨ha.consistent.1, ha.consistent.2, ha.consistent.3⟩, ha.marks_clear hv.marks_clear,
      fun u r => ?_⟩
    show (h'.interned.insert t ⟨id⟩).find? u = some r ↔ h'.block? r.handle = _
    rw [TextTable.find?_insert, ha.block, ha.interned]
    by_cases hr : r.handle = id
    · rw [if_pos hr]
      by_cases htu : t = u
      · obtain ⟨rh⟩ := r
        simp_all
      · rw [if_neg htu, hv.canonical u r, hr, ha.fresh]
        simp [htu]
    · rw [if_neg hr]
      by_cases htu : t = u
      · subst htu
        rw [if_pos rfl]
        simp only [hnone r, iff_false, Option.some.injEq]
        exact fun he => hr (by rw [← he])
      · rw [if_neg htu, hv.canonical u r]

end Heap

end ScriptCore
