import ScriptCore.Proofs.Heap.Valid

/-! # A collection keeps what is reached, and nothing else

Sweeping goes through the slots once. A slot with a mark keeps its block and its generation; an
occupied slot without one is freed, which moves its generation on; a vacant slot stays as it is.
Together with exact marks this gives the effect of a collection.

* `slots_sweep`: what sweeping does to each slot.
* `slots_collect`: a slot is occupied after a collection exactly when it was before and is reached,
  and then it is the same slot.
* `Valid.collect`: a collection keeps the invariant. -/

namespace ScriptCore.Heap

variable {h : Heap}

/-! ### One slot -/

/-- What becomes of a slot without a mark. -/
def freed (slot : Slot) : Slot :=
  match slot.content with
  | some _ => ⟨slot.generation + 1, none⟩
  | none => slot

theorem slots_sweepSlot (h : Heap) (i j : Nat) :
    (h.sweepSlot i).slots[j]? =
      if i = j ∧ h.marks[i]? ≠ some true then h.slots[j]?.map freed else h.slots[j]? := by
  unfold sweepSlot
  by_cases hm : h.marks[i]? = some true
  · simp [hm]
  simp only [hm, if_false, ne_eq, not_false_eq_true, and_true]
  cases hs : h.slots[i]? with
  | none =>
    by_cases hij : i = j
    · subst hij; simp [hs]
    · simp [hij]
  | some slot =>
    obtain ⟨g, c⟩ := slot
    obtain ⟨hlt, hget⟩ := Array.getElem?_eq_some_iff.mp hs
    cases c with
    | none =>
      by_cases hij : i = j
      · subst hij; simp [hs, freed]
      · simp [hij]
    | some b =>
      simp only [Array.getElem?_setIfInBounds]
      by_cases hij : i = j
      · subst hij; simp [hget, hlt, freed]
      · simp [hij]

theorem marks_sweepSlot (h : Heap) (i j : Nat) :
    (h.sweepSlot i).marks[j]? =
      if i = j then h.marks[j]?.map fun _ => false else h.marks[j]? := by
  unfold sweepSlot
  by_cases hm : h.marks[i]? = some true
  · obtain ⟨hlt, -⟩ := Array.getElem?_eq_some_iff.mp hm
    simp only [hm, if_true, Array.getElem?_setIfInBounds]
    by_cases hij : i = j
    · subst hij; simp [hlt]
    · simp [hij]
  have hself : h.marks[j]? = if i = j then h.marks[j]?.map fun _ => false else h.marks[j]? := by
    by_cases hij : i = j
    · subst hij
      cases hb : h.marks[i]? with
      | none => simp
      | some b => cases b <;> simp_all
    · simp [hij]
  simp only [hm, if_false]
  split <;> exact hself

/-! ### All slots -/

theorem slots_foldl_sweepSlot (j : Nat) : ∀ (l : List Nat) (h : Heap), l.Nodup →
    (l.foldl sweepSlot h).slots[j]? =
      if j ∈ l ∧ h.marks[j]? ≠ some true then h.slots[j]?.map freed else h.slots[j]?
  | [], h, _ => by simp
  | i :: l, h, hl => by
    obtain ⟨hi, hl⟩ := List.nodup_cons.mp hl
    rw [List.foldl_cons, slots_foldl_sweepSlot j l _ hl, slots_sweepSlot, marks_sweepSlot]
    by_cases hij : i = j
    · subst hij; simp [hi]
    · simp [hij, Ne.symm hij]

theorem marks_foldl_sweepSlot (j : Nat) : ∀ (l : List Nat) (h : Heap),
    (l.foldl sweepSlot h).marks[j]? =
      if j ∈ l then h.marks[j]?.map fun _ => false else h.marks[j]?
  | [], h => by simp
  | i :: l, h => by
    rw [List.foldl_cons, marks_foldl_sweepSlot j l, marks_sweepSlot]
    by_cases hij : i = j
    · subst hij
      by_cases hl : i ∈ l
      · simp [hl, Function.comp_def]
      · simp [hl]
    · simp [hij, Ne.symm hij]

/-- **What sweeping does to each slot.** -/
theorem slots_sweep (h : Heap) (j : Nat) :
    h.sweep.slots[j]? = if h.marks[j]? = some true then h.slots[j]? else h.slots[j]?.map freed := by
  rw [sweep, slots_foldl_sweepSlot j _ h List.nodup_range]
  by_cases hj : j < h.slots.size
  · by_cases hm : h.marks[j]? = some true <;> simp [hj, hm]
  · simp [hj]

theorem marks_sweep (hv : h.marks.size = h.slots.size) (j : Nat) :
    h.sweep.marks[j]? ≠ some true := by
  rw [sweep, marks_foldl_sweepSlot j _ h]
  by_cases hj : j < h.slots.size
  · simp [hj]
  · simp [hj, hv]

/-! ### The invariant -/

/-- Freeing a slot makes the handles of that slot stale and no others. -/
theorem resolve_freed {slots : Array Slot} {i : Nat} {slot : Slot} (hs : i < slots.size)
    (hn : slot.content = none) (x : Handle) :
    resolve (slots.setIfInBounds i slot) x = if x.index = i then none else resolve slots x := by
  unfold resolve
  rw [Array.getElem?_setIfInBounds]
  by_cases hi : i = x.index
  · simp [← hi, hs, hn]
  · simp [hi, Ne.symm hi]

theorem find?_forget_self (interned : TextTable StringRef) (t : Text) :
    (forget interned (.string t)).find? t = none := by
  rw [forget, TextTable.find?_erase, if_pos rfl]

theorem find?_forget_of_ne (interned : TextTable StringRef) {b : Block} {t : Text}
    (h : b ≠ .string t) : (forget interned b).find? t = interned.find? t := by
  cases b with
  | string u => rw [forget, TextTable.find?_erase, if_neg fun hu => h (by rw [hu])]
  | _ => rfl

/-- The table forgets the block that is freed, and nothing else. -/
theorem Canonical.free {i : Nat} {g : UInt32} {b : Block} (hc : h.Canonical)
    (hs : h.slots[i]? = some ⟨g, some b⟩) {slot : Slot} (hn : slot.content = none) (t : Text)
    (s : StringRef) :
    (forget h.interned b).find? t = some s ↔
      resolve (h.slots.setIfInBounds i slot) s.handle = some (.string t) := by
  obtain ⟨hlt, -⟩ := Array.getElem?_eq_some_iff.mp hs
  rw [resolve_freed hlt hn]
  by_cases hb : b = .string t
  · subst hb
    have hown : h.interned.find? t = some ⟨i, g⟩ := (hc t _).mpr (block?_eq_some.mpr hs)
    rw [find?_forget_self]
    by_cases hi : s.handle.index = i
    · simp [hi]
    · rw [if_neg hi]
      refine ⟨fun hbad => (by cases hbad), fun hr => ?_⟩
      have hsame := (hc t s).mpr hr
      rw [hown] at hsame
      exact absurd (by rw [← Option.some.inj hsame]) hi
  · rw [find?_forget_of_ne _ hb, hc t s]
    by_cases hi : s.handle.index = i
    · rw [if_pos hi, block?_eq_some, hi, hs]
      simp [hb]
    · rw [if_neg hi]; rfl

theorem Consistent.sweepSlot (hv : h.Consistent) (hc : h.Canonical) (i : Nat) :
    (h.sweepSlot i).Consistent ∧ (h.sweepSlot i).Canonical := by
  unfold Heap.sweepSlot
  by_cases hm : h.marks[i]? = some true
  · rw [if_pos hm]
    exact ⟨⟨by simp [hv.marks_size], hv.free_nodup, hv.mem_free⟩, hc⟩
  rw [if_neg hm]
  split
  case h_2 => exact ⟨hv, hc⟩
  next g b hs =>
  obtain ⟨hlt, -⟩ := Array.getElem?_eq_some_iff.mp hs
  refine ⟨⟨by simp [hv.marks_size], List.nodup_cons.mpr ⟨?_, hv.free_nodup⟩, fun j => ?_⟩,
    fun t s => hc.free hs rfl t s⟩
  · rw [hv.mem_free i, hs]
    simp
  · rw [List.mem_cons, hv.mem_free j, Array.getElem?_setIfInBounds]
    by_cases hij : i = j
    · subst hij; simp [hlt]
    · simp [hij, Ne.symm hij]

theorem Consistent.sweep (hv : h.Consistent) (hc : h.Canonical) :
    h.sweep.Consistent ∧ h.sweep.Canonical := by
  unfold Heap.sweep
  generalize List.range h.slots.size = l
  induction l generalizing h with
  | nil => exact ⟨hv, hc⟩
  | cons i l ih =>
    obtain ⟨hv', hc'⟩ := hv.sweepSlot hc i
    exact ih hv' hc'

/-- **A collection keeps the invariant.** -/
theorem Valid.collect (hv : h.Valid) (reported : List Handle) : (h.collect reported).Valid := by
  obtain ⟨hsize, -⟩ := mark_exact hv.marks_size hv.marks_clear (h.rootHandles ++ reported)
  have hmarked : Consistent { h with
      marks := mark h.slots h.slots.size (h.rootHandles ++ reported) h.marks
      collections := h.collections + 1 } := ⟨hsize, hv.free_nodup, hv.mem_free⟩
  obtain ⟨hv', hc'⟩ := hmarked.sweep hv.canonical
  exact ⟨⟨hv'.1, hv'.2, hv'.3⟩, marks_sweep hsize, hc'⟩

/-! ### The effect of a collection -/

/-- **A slot is occupied after a collection exactly when it was before and is reached**, and then it
keeps its block and its generation. -/
theorem slots_collect (hsize : h.marks.size = h.slots.size)
    (hclear : ∀ i : Nat, h.marks[i]? ≠ some true) (reported : List Handle) (i : Nat) (g : UInt32)
    (b : Block) :
    (h.collect reported).slots[i]? = some ⟨g, some b⟩ ↔
      h.slots[i]? = some ⟨g, some b⟩ ∧ Reach h.slots (h.rootHandles ++ reported) ⟨i, g⟩ := by
  obtain ⟨-, hmark⟩ := mark_exact hsize hclear (h.rootHandles ++ reported)
  show (Heap.sweep _).slots[i]? = _ ↔ _
  rw [slots_sweep]
  show (if (mark h.slots h.slots.size (h.rootHandles ++ reported) h.marks)[i]? = some true
    then h.slots[i]? else h.slots[i]?.map freed) = _ ↔ _
  by_cases hm : (mark h.slots h.slots.size (h.rootHandles ++ reported) h.marks)[i]? = some true
  · rw [if_pos hm]
    refine ⟨fun hs => ⟨hs, ?_⟩, fun hs => hs.1⟩
    obtain ⟨g', hr⟩ := (hmark i).mp hm
    have hres : (resolve h.slots ⟨i, g⟩).isSome := by rw [resolve_eq_some.mpr hs]; rfl
    rw [eq_of_index_eq hres hr.resolves rfl]
    exact hr
  · rw [if_neg hm]
    constructor
    · intro hs
      obtain ⟨⟨g', c⟩, -, hf⟩ := Option.map_eq_some_iff.mp hs
      cases c <;> simp [freed] at hf
    · rintro ⟨-, hr⟩
      exact absurd ((hmark i).mpr ⟨g, hr⟩) hm

theorem size_collect (h : Heap) (reported : List Handle) :
    (h.collect reported).slots.size = h.slots.size := by
  have hslot : ∀ (h : Heap) (i : Nat), (h.sweepSlot i).slots.size = h.slots.size := by
    intro h i
    unfold Heap.sweepSlot
    split
    · rfl
    · split <;> simp
  have hall : ∀ (l : List Nat) (h : Heap), (l.foldl Heap.sweepSlot h).slots.size = h.slots.size := by
    intro l
    induction l with
    | nil => exact fun h => rfl
    | cons i l ih => exact fun h => (ih _).trans (hslot h i)
  exact hall _ _

/-- What handles name after a collection. -/
theorem block?_collect (hv : h.Valid) (reported : List Handle) (id : Handle) (b : Block) :
    (h.collect reported).block? id = some b ↔
      h.block? id = some b ∧ Reach h.slots (h.rootHandles ++ reported) id := by
  rw [block?_eq_some, block?_eq_some, slots_collect hv.marks_size hv.marks_clear]

/-- What a survivor refers to survives with it. -/
theorem block?_collect_of_mem (hv : h.Valid) {reported : List Handle} {id x : Handle} {b c : Block}
    (hid : (h.collect reported).block? id = some b) (hx : x ∈ b.handles) (hc : h.block? x = some c) :
    (h.collect reported).block? x = some c := by
  obtain ⟨hb, hreach⟩ := (block?_collect hv reported id b).mp hid
  exact (block?_collect hv reported x c).mpr
    ⟨hc, hreach.step hb (Block.mem_handles.mp hx) (Option.isSome_of_eq_some hc)⟩

end ScriptCore.Heap
