import ScriptCore.Proofs.Heap.Operations

/-! # The counters and lists of a heap

A heap keeps several things twice: the number of live slots beside the slots, the free list and the marks
beside them, and the list of holes beside the roots. `Accounted` says that all of these agree. It holds of
every heap that operations lead to, so two branches of the code that would only run if they did not are
never taken: an allocation does not find a slot of the free list missing, and the sweep does not count
below zero.

* `grows_alloc`, `grows_intern`, `grows_put`: the counter moves with the slots.
* `Counted.sweepSlot`: it does so when a slot is freed.
* `Built.representation`: **the representation of every heap that operations lead to.** -/

namespace ScriptCore

/-- The slot holds a block. -/
def Slot.isOccupied (s : Slot) : Bool := s.content.isSome

namespace Heap

variable {α : Type} {h h' : Heap}

/-! ### Occupied slots -/

/-- How many slots hold a block. -/
def occupied (slots : Array Slot) : Nat := slots.countP Slot.isOccupied

theorem occupied_push (slots : Array Slot) (s : Slot) :
    occupied (slots.push s) = occupied slots + s.isOccupied.toNat := by
  unfold occupied
  rw [Array.countP_push]
  cases s.isOccupied <;> rfl

/-- Replacing a slot counts the new one in the place of the old one. -/
theorem occupied_set {slots : Array Slot} {i : Nat} {s : Slot} (hs : slots[i]? = some s) (s' : Slot) :
    occupied (slots.setIfInBounds i s') + s.isOccupied.toNat =
      occupied slots + s'.isOccupied.toNat := by
  obtain ⟨hlt, hget⟩ := Array.getElem?_eq_some_iff.mp hs
  unfold occupied
  rw [Array.setIfInBounds_def, dif_pos hlt, Array.countP_set, hget]
  have hpos : s.isOccupied = true → 0 < slots.countP Slot.isOccupied := fun hocc =>
    Array.countP_pos_iff.mpr ⟨s, hget ▸ Array.getElem_mem hlt, hocc⟩
  cases hocc : s.isOccupied with
  | false => cases s'.isOccupied <;> simp
  | true =>
    have := hpos hocc
    cases s'.isOccupied <;> simp <;> omega

/-! ### The invariant -/

/-- The counter counts the occupied slots, which are as many as may be at most. -/
structure Counted (h : Heap) : Prop where
  live_eq : h.live = occupied h.slots
  live_le : h.live ≤ h.limits.maxSlots

/-- The list of holes names each empty root entry once. -/
structure Rooted (h : Heap) : Prop where
  freeRoots_nodup : h.freeRoots.Nodup
  mem_freeRoots : ∀ i, i ∈ h.freeRoots ↔ h.roots[i]? = some none

/-- **Everything that a heap keeps twice agrees.** -/
structure Accounted (h : Heap) : Prop where
  valid : h.Valid
  counted : h.Counted
  rooted : h.Rooted

theorem accounted_empty (limits : HeapLimits) : (empty limits).Accounted where
  valid := valid_empty limits
  counted := ⟨rfl, Nat.zero_le _⟩
  rooted := ⟨List.nodup_nil, fun i => by simp [empty]⟩

/-! ### The primitives move the counter with the slots -/

/-- `h'` has as many occupied slots more than `h` as its counter shows, and there was room for them; the
roots are the same. -/
structure Grows (h h' : Heap) : Prop where
  more : ∃ n, h'.live = h.live + n ∧ occupied h'.slots = occupied h.slots + n ∧
    (n = 0 ∨ h'.live ≤ h.limits.maxSlots)
  limits : h'.limits = h.limits
  roots : h'.roots = h.roots
  freeRoots : h'.freeRoots = h.freeRoots

namespace Grows

theorem refl (h : Heap) : Grows h h := ⟨⟨0, by simp⟩, rfl, rfl, rfl⟩

theorem counted (hg : Grows h h') (hc : h.Counted) : h'.Counted := by
  obtain ⟨n, hlive, hocc, hroom⟩ := hg.more
  refine ⟨by rw [hlive, hocc, hc.live_eq], ?_⟩
  rw [hg.limits]
  rcases hroom with rfl | hle
  · rw [hlive]
    exact hc.live_le
  · exact hle

theorem rooted (hg : Grows h h') (hr : h.Rooted) : h'.Rooted := by
  refine ⟨by rw [hg.freeRoots]; exact hr.freeRoots_nodup, fun i => ?_⟩
  rw [hg.freeRoots, hg.roots]
  exact hr.mem_freeRoots i

end Grows

theorem grows_put {id : Handle} {c : Block} (hid : h.block? id = some c) (b : Block) :
    Grows h (h.put id b) := by
  have hset := occupied_set (block?_eq_some.mp hid) ⟨id.generation, some b⟩
  exact ⟨⟨0, rfl, Nat.add_right_cancel hset, .inl (rfl)⟩, rfl, rfl, rfl⟩

theorem grows_alloc (hv : h.Consistent) (b : Block) : (alloc b h).Leaves (Grows h) := by
  unfold alloc
  by_cases hfull : h.limits.maxSlots ≤ h.live
  · rw [if_pos hfull]
    exact .refl h
  rw [if_neg hfull]
  cases hfree : h.free with
  | nil =>
    by_cases hbound : slotBound ≤ h.slots.size
    · simp only [hbound, if_true]
      exact .refl h
    · simp only [hbound, if_false]
      exact ⟨⟨1, rfl, occupied_push _ _, .inr (Nat.lt_of_not_le hfull)⟩, rfl, rfl, rfl⟩
  | cons i free =>
    obtain ⟨g, hg⟩ := (hv.mem_free i).mp (by rw [hfree]; exact List.mem_cons_self ..)
    have hset := occupied_set hg ⟨g, some b⟩
    simp only [hg]
    exact ⟨⟨1, rfl, hset, .inr (Nat.lt_of_not_le hfull)⟩, rfl, rfl, rfl⟩

theorem grows_intern (hv : h.Consistent) (t : Text) : (intern t h).Leaves (Grows h) := by
  have halloc := grows_alloc hv (.string t)
  unfold intern
  cases h.interned.find? t with
  | some s => exact .refl h
  | none =>
    cases ha : alloc (.string t) h with
    | done id h' =>
      rw [ha] at halloc
      exact ⟨halloc.more, halloc.limits, halloc.roots, halloc.freeRoots⟩
    | failed e h' => rw [ha] at halloc; exact halloc
    | stalled => trivial

theorem grows_modifyObject (o : ObjectRef) (f : Object → Object) :
    (modifyObject o f h).Leaves (Grows h) :=
  leaves_modifyObject (.refl h) fun _ ho => grows_put (object_eq_ok.mp ho) _

theorem grows_modifyScope (s : ScopeRef) (f : Scope → Scope) : (modifyScope s f h).Leaves (Grows h) :=
  leaves_modifyScope (.refl h) fun _ hs => grows_put (scope_eq_ok.mp hs) _

theorem grows_modifyCell (c : CellRef) (f : Descriptor → Except Error Descriptor) :
    (modifyCell c f h).Leaves (Grows h) :=
  leaves_modifyCell (.refl h) fun _ _ hc _ => grows_put (cell_eq_ok.mp hc) _

theorem keeps_accounted {p : Proc Heap α} (hvalid : Proc.Keeps Valid p)
    (hgrows : ∀ h, h.Consistent → (p h).Leaves (Grows h)) : Proc.Keeps Accounted p := by
  intro h ha
  have hv := hvalid h ha.valid
  have hg := hgrows h ha.valid.toConsistent
  cases hp : p h with
  | done a h' =>
    rw [hp] at hv hg
    exact ⟨hv, hg.counted ha.counted, hg.rooted ha.rooted⟩
  | failed e h' =>
    rw [hp] at hv hg
    exact ⟨hv, hg.counted ha.counted, hg.rooted ha.rooted⟩
  | stalled => trivial

theorem Routine.keeps_accounted {K : ObjectKind → Prop} {p : Proc Heap α} (hp : Routine K p) :
    Proc.Keeps Accounted p :=
  hp.keeps (fun b hb _ => Heap.keeps_accounted (keeps_alloc hb) fun _ hv => grows_alloc hv b)
    (fun t => Heap.keeps_accounted (keeps_intern t) fun _ hv => grows_intern hv t)
    (fun o f _ => Heap.keeps_accounted (keeps_modifyObject o f) fun _ _ => grows_modifyObject o f)
    (fun s f => Heap.keeps_accounted (keeps_modifyScope s f) fun _ _ => grows_modifyScope s f)
    (fun c f => Heap.keeps_accounted (keeps_modifyCell c f) fun _ _ => grows_modifyCell c f)

/-! ### Sweeping -/

/-- The sweep frees the slot `i`. -/
def Frees (h : Heap) (i : Nat) : Prop :=
  h.marks[i]? ≠ some true ∧ ∃ g b, h.slots[i]? = some ⟨g, some b⟩

/-- **A slot that is freed was counted.** -/
theorem Counted.live_pos (hc : h.Counted) {i : Nat} (hf : h.Frees i) : 0 < h.live := by
  obtain ⟨-, g, b, hs⟩ := hf
  have hset : occupied _ + 1 = occupied h.slots + 0 := occupied_set hs ⟨g + 1, none⟩
  rw [hc.live_eq]
  omega

theorem Counted.sweepSlot (hc : h.Counted) (i : Nat) : (h.sweepSlot i).Counted := by
  unfold Heap.sweepSlot
  by_cases hm : h.marks[i]? = some true
  · rw [if_pos hm]
    exact ⟨hc.live_eq, hc.live_le⟩
  rw [if_neg hm]
  split
  case h_2 => exact hc
  next g b hs =>
  have hset : occupied _ + 1 = occupied h.slots + 0 := occupied_set hs ⟨g + 1, none⟩
  have hlive := hc.live_eq
  refine ⟨?_, Nat.le_trans (Nat.sub_le _ _) hc.live_le⟩
  show h.live - 1 = occupied (h.slots.setIfInBounds i ⟨g + 1, none⟩)
  omega

theorem roots_sweepSlot (h : Heap) (i : Nat) :
    (h.sweepSlot i).roots = h.roots ∧ (h.sweepSlot i).freeRoots = h.freeRoots := by
  unfold Heap.sweepSlot
  split
  · exact ⟨rfl, rfl⟩
  · split <;> exact ⟨rfl, rfl⟩

/-- The heap in the middle of a collection: the first `k` slots have been swept. -/
def sweptTo (h : Heap) (reported : List Handle) (k : Nat) : Heap :=
  (List.range k).foldl Heap.sweepSlot
    { h with marks := mark h.slots h.slots.size (h.rootHandles ++ reported) h.marks
             collections := h.collections + 1 }

theorem sweptTo_succ (h : Heap) (reported : List Handle) (k : Nat) :
    h.sweptTo reported (k + 1) = (h.sweptTo reported k).sweepSlot k := by
  unfold sweptTo
  rw [List.range_succ, List.foldl_append]
  rfl

theorem collect_eq_sweptTo (h : Heap) (reported : List Handle) :
    h.collect reported = { h.sweptTo reported h.slots.size with
      collectAt := (h.sweptTo reported h.slots.size).limits.nextCollection
        (h.sweptTo reported h.slots.size).live } := rfl

theorem collections_sweptTo (h : Heap) (reported : List Handle) (k : Nat) :
    (h.sweptTo reported k).collections = h.collections + 1 := by
  have hsweep : ∀ (h : Heap) (i : Nat), (h.sweepSlot i).collections = h.collections := by
    intro h i
    unfold Heap.sweepSlot
    split
    · rfl
    · split <;> rfl
  induction k with
  | zero => rfl
  | succ k ih => rw [sweptTo_succ, hsweep, ih]

theorem collections_collect (h : Heap) (reported : List Handle) : (h.collect reported).collections = h.collections + 1 := by
  rw [collect_eq_sweptTo]
  exact collections_sweptTo h reported _

theorem Counted.sweptTo (hc : h.Counted) (reported : List Handle) (k : Nat) :
    (h.sweptTo reported k).Counted := by
  induction k with
  | zero => exact ⟨hc.live_eq, hc.live_le⟩
  | succ k ih =>
    rw [sweptTo_succ]
    exact ih.sweepSlot k

theorem roots_sweptTo (h : Heap) (reported : List Handle) (k : Nat) :
    (h.sweptTo reported k).roots = h.roots ∧ (h.sweptTo reported k).freeRoots = h.freeRoots := by
  induction k with
  | zero => exact ⟨rfl, rfl⟩
  | succ k ih =>
    obtain ⟨hroots, hfree⟩ := roots_sweepSlot (h.sweptTo reported k) k
    rw [sweptTo_succ]
    exact ⟨hroots.trans ih.1, hfree.trans ih.2⟩

theorem Rooted.collect (hr : h.Rooted) (reported : List Handle) : (h.collect reported).Rooted := by
  obtain ⟨hroots, hfree⟩ := h.roots_sweptTo reported h.slots.size
  rw [collect_eq_sweptTo]
  refine ⟨?_, fun i => ?_⟩
  · show (h.sweptTo reported h.slots.size).freeRoots.Nodup
    rw [hfree]
    exact hr.freeRoots_nodup
  · show i ∈ (h.sweptTo reported h.slots.size).freeRoots ↔ (h.sweptTo reported h.slots.size).roots[i]? = _
    rw [hfree, hroots]
    exact hr.mem_freeRoots i

theorem Accounted.collect (ha : h.Accounted) (reported : List Handle) :
    (h.collect reported).Accounted := by
  have hc := ha.counted.sweptTo reported h.slots.size
  refine ⟨ha.valid.collect reported, ?_, ha.rooted.collect reported⟩
  rw [collect_eq_sweptTo]
  exact ⟨hc.live_eq, hc.live_le⟩

/-! ### Roots -/

theorem Rooted.addRoot (hr : h.Rooted) (v : Value) : (h.addRoot v).2.Rooted := by
  unfold Heap.addRoot
  cases hfree : h.freeRoots with
  | nil =>
    have hmem := hr.mem_freeRoots
    rw [hfree] at hmem
    refine ⟨List.nodup_nil, fun i => ?_⟩
    show i ∈ [] ↔ (h.roots.push (some v))[i]? = some none
    rw [hmem i, Array.getElem?_push]
    by_cases hi : i = h.roots.size
    · simp [hi]
    · simp [hi]
  | cons i rest =>
    have hmem := hr.mem_freeRoots
    rw [hfree] at hmem
    obtain ⟨hnot, hnodup⟩ := List.nodup_cons.mp (hfree ▸ hr.freeRoots_nodup)
    obtain ⟨hlt, -⟩ := Array.getElem?_eq_some_iff.mp ((hmem i).mp (List.mem_cons_self ..))
    refine ⟨hnodup, fun j => ?_⟩
    show j ∈ rest ↔ (h.roots.setIfInBounds i (some v))[j]? = some none
    rw [Array.getElem?_setIfInBounds]
    by_cases hij : i = j
    · subst hij
      simp [hlt, hnot]
    · rw [if_neg hij, ← hmem j, List.mem_cons]
      simp [Ne.symm hij]

theorem Rooted.removeRoot (hr : h.Rooted) (i : Nat) : (h.removeRoot i).Rooted := by
  unfold Heap.removeRoot
  cases hi : h.root? i with
  | none => exact hr
  | some v =>
    have hroot : h.roots[i]? = some (some v) := by
      unfold Heap.root? at hi
      exact Option.join_eq_some_iff.mp hi
    obtain ⟨hlt, -⟩ := Array.getElem?_eq_some_iff.mp hroot
    have hnot : i ∉ h.freeRoots := by
      rw [hr.mem_freeRoots i, hroot]
      simp
    refine ⟨List.nodup_cons.mpr ⟨hnot, hr.freeRoots_nodup⟩, fun j => ?_⟩
    show j ∈ i :: h.freeRoots ↔ (h.roots.setIfInBounds i none)[j]? = some none
    rw [List.mem_cons, hr.mem_freeRoots j, Array.getElem?_setIfInBounds]
    by_cases hij : i = j
    · subst hij
      simp [hlt]
    · rw [if_neg hij]
      simp [Ne.symm hij]

theorem counted_addRoot (hc : h.Counted) (v : Value) : (h.addRoot v).2.Counted := by
  unfold Heap.addRoot
  split <;> exact ⟨hc.live_eq, hc.live_le⟩

theorem counted_removeRoot (hc : h.Counted) (i : Nat) : (h.removeRoot i).Counted := by
  unfold Heap.removeRoot
  split
  · exact ⟨hc.live_eq, hc.live_le⟩
  · exact hc

/-! ### Every heap -/

/-- **Every operation keeps the accounts.** -/
theorem Accounted.run (ha : h.Accounted) (op : Op) : (op.run h).Accounted :=
  op.keeps (fun _ hp => hp.keeps_accounted)
    (fun _ v ha => ⟨ha.valid.addRoot v, counted_addRoot ha.counted v, ha.rooted.addRoot v⟩)
    (fun _ i ha => ⟨ha.valid.removeRoot i, counted_removeRoot ha.counted i, ha.rooted.removeRoot i⟩)
    (fun _ reported ha => ha.collect reported) ha

theorem Built.accounted (hb : h.Built) : h.Accounted :=
  hb.induct accounted_empty fun op _ ha => ha.run op

/-- **The representation of a heap.** On every heap that operations lead to, whether they succeed or fail and
whatever the limits: the counter is the number of occupied slots and not more than may be; the free list
names every vacant slot once and no other; there is a mark for each slot and none is set; the list of holes
names every empty root entry once and no other; and no object has two properties with one key. So an
allocation is not refused for a bad slot of the free list, and whenever a sweep frees a slot, the counter
that it lowers is not zero. -/
theorem Built.representation (hb : h.Built) :
    (h.live = occupied h.slots ∧ h.live ≤ h.limits.maxSlots) ∧
    (h.free.Nodup ∧ ∀ i, i ∈ h.free ↔ ∃ g, h.slots[i]? = some ⟨g, none⟩) ∧
    (h.marks.size = h.slots.size ∧ ∀ i : Nat, h.marks[i]? ≠ some true) ∧
    (h.freeRoots.Nodup ∧ ∀ i, i ∈ h.freeRoots ↔ h.roots[i]? = some none) ∧
    (∀ (i : Nat) (g : UInt32) (o : Object), h.slots[i]? = some ⟨g, some (.object o)⟩ →
      o.properties.keys.Nodup) ∧
    (∀ b h', alloc b h ≠ .failed .invalidHandle h') ∧
    (∀ reported k, (h.sweptTo reported k).Frees k → 0 < (h.sweptTo reported k).live) := by
  have ha := hb.accounted
  refine ⟨⟨ha.counted.live_eq, ha.counted.live_le⟩, ⟨ha.valid.free_nodup, ha.valid.mem_free⟩,
    ⟨ha.valid.marks_size, ha.valid.marks_clear⟩, ⟨ha.rooted.freeRoots_nodup, ha.rooted.mem_freeRoots⟩,
    fun _ _ o _ => o.properties.nodup_keys, fun b h' hfailed => ?_,
    fun reported k hf => (ha.counted.sweptTo reported k).live_pos hf⟩
  rcases alloc_cases ha.valid.toConsistent b with hfull | ⟨id, h'', hdone, -⟩
  · rw [hfull] at hfailed
    cases hfailed
  · rw [hdone] at hfailed
    cases hfailed

/-- A heap after an allocation failed for want of room, a root was removed and garbage was collected. -/
def crowded : Heap :=
  [Op.allocObject none .object .ordinary, .allocObject none .object .ordinary,
    .allocObject none .object .ordinary, .addRoot (.object ⟨⟨0, 0⟩⟩), .addRoot .null, .removeRoot 1,
    .collect []].foldl (fun h op => op.run h) (empty (.ofMax 2))

/-- Of its two slots one is occupied; the other is the free list, and the removed root the list of holes. -/
theorem Built.representation_crowded :
    (crowded.live = 1 ∧ crowded.free = [1] ∧ crowded.freeRoots = [1]) ∧ crowded.Built ∧
    crowded.live = occupied crowded.slots ∧
    (∀ i, i ∈ crowded.free ↔ ∃ g, crowded.slots[i]? = some ⟨g, none⟩) ∧
    (∀ i, i ∈ crowded.freeRoots ↔ crowded.roots[i]? = some none) := by
  have hb : crowded.Built := ⟨_, _, rfl⟩
  have hr := hb.representation
  exact ⟨by decide, hb, hr.1.1, hr.2.1.2, hr.2.2.2.1.2⟩

end Heap

end ScriptCore
