import ScriptCore.Proofs.Heap.Generations

/-! # Handles of another heap

A handle is a place and a generation and does not say which heap issued it. So a heap that meets a handle of
another one takes it for its own, if it has issued the same place and generation itself and the allocation is
still live; every other foreign handle is refused.

* `Op.issued_of_filled`: only an operation that issues a handle fills a slot.
* `Built.owns_iff`: a heap resolves exactly the handles that it issued itself for what is still live.
* `generation_issued`: the generation of an issued handle counts how often its slot was freed.
* `foreign_handles`: **when a handle of one heap is refused by another**, and what it names there otherwise. -/

namespace ScriptCore.Heap

variable {h h' : Heap} {i : Nat} {g : UInt32} {b : Block} {id : Handle}

/-! ### Where blocks come from -/

/-- Overwriting a block fills no slot. -/
theorem holds_put (hid : h.block? id = some b) (b' : Block) (i : Nat) : (h.put id b').holds i = h.holds i := by
  have hslot := block?_eq_some.mp hid
  obtain ⟨hlt, -⟩ := Array.getElem?_eq_some_iff.mp hslot
  by_cases hi : id.index = i
  · subst hi
    rw [holds_eq hslot, holds_eq (h := h.put id b') (g := id.generation) (c := some b') (by simp [Heap.put, hlt])]
    rfl
  · unfold holds Heap.put
    rw [Array.getElem?_setIfInBounds, if_neg hi]

/-- The slot `i` is vacant. -/
def Vacant (i : Nat) (h : Heap) : Prop := h.holds i = false

theorem vacant_modifyObject (o : ObjectRef) (f : Object → Object) :
    Proc.Keeps (Vacant i) (modifyObject o f) := fun _ hvacant =>
  leaves_modifyObject hvacant fun _ ho => (holds_put (object_eq_ok.mp ho) _ i).trans hvacant

theorem vacant_modifyScope (s : ScopeRef) (f : Scope → Scope) :
    Proc.Keeps (Vacant i) (modifyScope s f) := fun _ hvacant =>
  leaves_modifyScope hvacant fun _ hs => (holds_put (scope_eq_ok.mp hs) _ i).trans hvacant

theorem vacant_modifyCell (c : CellRef) (f : Descriptor → Except Error Descriptor) :
    Proc.Keeps (Vacant i) (modifyCell c f) := fun _ hvacant =>
  leaves_modifyCell hvacant fun _ _ hc _ => (holds_put (cell_eq_ok.mp hc) _ i).trans hvacant

/-- An operation that asks for no block fills no slot. -/
theorem Op.vacant_run {op : Op} (hop : op.allocated? = none) (hvacant : h.Vacant i) : (op.run h).Vacant i := by
  have hafter : ∀ {α : Type} {p : Proc Heap α}, Proc.Keeps (Vacant i) p → (after p h).Vacant i := fun hp =>
    after_of_keeps hp hvacant
  cases op with
  | putCell c d => exact hafter (vacant_modifyCell c _)
  | writeCell c v => exact hafter (vacant_modifyCell c _)
  | setPrototype o p =>
    exact hafter (.bind (.discard (.reads _)) fun _ => .bind (.reads _) fun _ => vacant_modifyObject o _)
  | preventExtensions o => exact hafter (vacant_modifyObject o _)
  | installCell o key c =>
    exact hafter (.bind (.discard (.reads _)) fun _ => .bind (.reads _) fun _ => vacant_modifyObject o _)
  | remove o key =>
    refine hafter (.bind (.reads _) fun found => ?_)
    cases found with
    | none => exact .pure _
    | some c => exact .bind (vacant_modifyObject o _) fun _ => .pure _
  | retainKeys o p => exact hafter (vacant_modifyObject o _)
  | setReceiver s v => exact hafter (vacant_modifyScope s _)
  | setStrict s strict => exact hafter (vacant_modifyScope s _)
  | setWriteTo s target =>
    refine hafter ?_
    unfold setScopeWriteTo
    cases target with
    | none => exact vacant_modifyScope s _
    | some o => exact .bind (.discard (.reads _)) fun _ => vacant_modifyScope s _
  | addRoot v =>
    show (h.addRoot v).2.holds i = false
    unfold Heap.addRoot
    split <;> exact hvacant
  | removeRoot r =>
    show (h.removeRoot r).holds i = false
    unfold Heap.removeRoot
    split <;> exact hvacant
  | collect reported =>
    show (h.collect reported).holds i = false
    cases hs : h.slots[i]? with
    | none =>
      have hsize := Array.getElem?_eq_none_iff.mp hs
      unfold holds
      rw [Array.getElem?_eq_none (by rw [size_collect]; exact hsize)]
    | some slot =>
      obtain ⟨g, c⟩ := slot
      rw [Vacant, holds_eq hs] at hvacant
      obtain rfl : c = none := by simpa using hvacant
      rcases slot_collect reported hs with hkept | ⟨hc, -⟩
      · exact holds_eq hkept
      · cases hc
  | _ => cases hop

/-- A slot that an allocation filled is that of the handle it answers with. -/
theorem Filled.eq_of_vacant {b' : Block} (hf : h.Filled b' id h') (hvacant : h.Vacant i)
    (hs : h'.slots[i]? = some ⟨g, some b⟩) : id = ⟨i, g⟩ ∧ b' = b := by
  rw [hf.slots] at hs
  split at hs
  · next hi =>
    obtain ⟨j, k⟩ := id
    cases hi
    cases hs
    exact ⟨rfl, rfl⟩
  · rw [Vacant, holds_eq hs] at hvacant
    cases hvacant

theorem not_filled_self (hvacant : h.Vacant i) : h.slots[i]? ≠ some ⟨g, some b⟩ := by
  intro hs
  rw [Vacant, holds_eq hs] at hvacant
  cases hvacant

theorem after_done {α : Type} {p : Proc Heap α} {a : α} (hp : p h = .done a h') : after p h = h' := by
  unfold after
  rw [hp]

theorem after_failed {α : Type} {p : Proc Heap α} {e : Error} (hp : p h = .failed e h') : after p h = h' := by
  unfold after
  rw [hp]

theorem answer?_done {α : Type} {handle : α → Handle} {p : Proc Heap α} {a : α} (hp : p h = .done a h') :
    answer? handle p h = some (handle a) := by
  unfold answer?
  rw [hp]

/-- **A block that appears in a vacant slot** is the one that the operation asked for, and the operation issues
the handle to it. -/
theorem Op.issued_of_filled (hv : h.Valid) {op : Op} (hvacant : h.Vacant i)
    (hs : (op.run h).slots[i]? = some ⟨g, some b⟩) :
    op.issued? h = some ⟨i, g⟩ ∧ op.allocated? = some b := by
  -- Where the allocation fails the slot is vacant still; where it fills a slot, it is this one.
  have hnone : ∀ {α : Type} {p : Proc Heap α} {e : Error}, op.run h = after p h → p h = .failed e h → False := by
    intro α p e hrun hp
    rw [hrun, after_failed hp] at hs
    exact not_filled_self hvacant hs
  cases op with
  | intern t =>
    rcases intern_filled hv t with ⟨r, hdone, -⟩ | ⟨-, ⟨-, hfailed⟩ | ⟨r, h₁, hdone, hf⟩⟩
    · rw [show (Op.intern t).run h = h from after_done hdone] at hs
      exact absurd hs (not_filled_self hvacant)
    · exact (hnone rfl hfailed).elim
    · rw [show (Op.intern t).run h = h₁ from after_done hdone] at hs
      obtain ⟨hid, rfl⟩ := hf.eq_of_vacant hvacant hs
      exact ⟨(answer?_done hdone).trans (congrArg some hid), rfl⟩
  | allocCell d =>
    rcases allocCell_filled hv d with ⟨-, hfailed⟩ | ⟨r, h₁, hdone, hf⟩
    · exact (hnone rfl hfailed).elim
    · rw [show (Op.allocCell d).run h = h₁ from after_done hdone] at hs
      obtain ⟨hid, rfl⟩ := hf.eq_of_vacant hvacant hs
      exact ⟨(answer?_done hdone).trans (congrArg some hid), rfl⟩
  | allocObject prototype tag kind =>
    rcases allocObject_filled hv prototype tag kind with ⟨e, hfailed⟩ | ⟨r, h₁, hdone, hf⟩
    · exact (hnone rfl hfailed).elim
    · rw [show (Op.allocObject prototype tag kind).run h = h₁ from after_done hdone] at hs
      obtain ⟨hid, rfl⟩ := hf.eq_of_vacant hvacant hs
      exact ⟨(answer?_done hdone).trans (congrArg some hid), rfl⟩
  | allocScope s =>
    rcases allocScope_filled hv s with ⟨e, hfailed⟩ | ⟨r, h₁, hdone, hf⟩
    · exact (hnone rfl hfailed).elim
    · rw [show (Op.allocScope s).run h = h₁ from after_done hdone] at hs
      obtain ⟨hid, rfl⟩ := hf.eq_of_vacant hvacant hs
      exact ⟨(answer?_done hdone).trans (congrArg some hid), rfl⟩
  | define o key d =>
    rcases define_filled hv o key d with ⟨e, hfailed⟩ | ⟨obj, r, h₁, ho, hf, -, hdone⟩
    · exact (hnone rfl hfailed).elim
    · rw [show (Op.define o key d).run h = _ from after_done hdone] at hs
      -- The object to which the cell is bound was there before, so its slot was not vacant.
      have ho₁ := object_eq_ok.mp ho
      have hne : o.handle.index ≠ i := by
        rintro rfl
        rw [Vacant, holds_eq (block?_eq_some.mp ho₁)] at hvacant
        cases hvacant
      change (h₁.slots.setIfInBounds _ _)[i]? = _ at hs
      rw [Array.getElem?_setIfInBounds, if_neg hne] at hs
      obtain ⟨hid, rfl⟩ := hf.eq_of_vacant hvacant hs
      exact ⟨(answer?_done hdone).trans (congrArg some hid), rfl⟩
  | _ => exact absurd hs (not_filled_self (Op.vacant_run rfl hvacant))

/-! ### A heap's own handles -/

/-- One of the operations, performed one after the other from `h` on, issues the handle, and those after it do
not free its slot. -/
def Owns (ops : List Op) (h : Heap) (id : Handle) : Prop :=
  ∃ before op after, ops = before ++ op :: after ∧ op.issued? (runAll before h) = some id ∧
    frees id.index after (op.run (runAll before h)) = 0

theorem valid_runAll (hv : h.Valid) (ops : List Op) : (runAll ops h).Valid := by
  induction ops generalizing h with
  | nil => exact hv
  | cons op ops ih => exact ih (hv.run op)

/-- **What a slot holds after many operations** was there from the start or was issued on the way, and the slot
was not freed since. -/
theorem owned_or_kept : ∀ (ops : List Op) (h : Heap), h.Valid → (runAll ops h).slots[i]? = some ⟨g, some b⟩ →
    (∃ b₀, h.slots[i]? = some ⟨g, some b₀⟩ ∧ frees i ops h = 0) ∨ Owns ops h ⟨i, g⟩
  | [], h, _, hs => .inl ⟨b, hs, rfl⟩
  | op :: ops, h, hv, hs => by
    rcases owned_or_kept ops (op.run h) (hv.run op) hs with ⟨b₁, hs₁, hfrees⟩ | ⟨before, op', after, rfl, hown⟩
    · cases hheld : h.holds i with
      | false =>
        obtain ⟨hissued, -⟩ := Op.issued_of_filled hv hheld hs₁
        exact .inr ⟨[], op, ops, rfl, hissued, hfrees⟩
      | true =>
        have hnotfreed : (op.run h).holds i = true := holds_eq hs₁
        obtain ⟨⟨g₀, c₀⟩, hs₀⟩ : ∃ slot, h.slots[i]? = some slot := by
          cases hslot : h.slots[i]? with
          | none => unfold holds at hheld; rw [hslot] at hheld; cases hheld
          | some slot => exact ⟨slot, rfl⟩
        obtain ⟨b₀, rfl⟩ := Option.isSome_iff_exists.mp ((holds_eq hs₀).symm.trans hheld)
        rcases Op.slot_run hv op hs₀ with ⟨-, hfreed, -⟩ | ⟨c', hkept, -⟩
        · rw [hnotfreed] at hfreed
          cases hfreed
        · cases hkept.symm.trans hs₁
          refine .inl ⟨b₀, hs₀, ?_⟩
          rw [frees, hheld, hnotfreed, hfrees]
          rfl
    · exact .inr ⟨op :: before, op', after, rfl, hown⟩

/-- **A heap resolves exactly its own handles**, those that it issued itself for slots that it has not freed since. -/
theorem owns_iff (limits : HeapLimits) (ops : List Op) (id : Handle) :
    Owns ops (empty limits) id ↔ ((runAll ops (empty limits)).block? id).isSome := by
  constructor
  · rintro ⟨before, op, after, rfl, hissued, hfrees⟩
    have hb : (runAll before (empty limits)).Built := ⟨limits, before, rfl⟩
    obtain ⟨-, b, b', -, hblock, -⟩ := (hb.generations hissued after).1 hfrees
    rw [runAll_append]
    exact Option.isSome_of_eq_some hblock
  · intro hsome
    obtain ⟨b, hb⟩ := Option.isSome_iff_exists.mp hsome
    rcases owned_or_kept ops (empty limits) (valid_empty limits) (block?_eq_some.mp hb) with ⟨b₀, hs, -⟩ | hown
    · cases hs
    · exact hown

/-- A handle of its own names what has become of the block that the heap was asked for. -/
theorem Owns.names {limits : HeapLimits} {ops : List Op} (hown : Owns ops (empty limits) id) :
    ∃ before op after b b', ops = before ++ op :: after ∧ op.issued? (runAll before (empty limits)) = some id ∧
      op.allocated? = some b ∧ (runAll ops (empty limits)).block? id = some b' ∧ b.Becomes b' := by
  obtain ⟨before, op, after, rfl, hissued, hfrees⟩ := hown
  have hb : (runAll before (empty limits)).Built := ⟨limits, before, rfl⟩
  obtain ⟨-, b, b', hallocated, hblock, hbecomes⟩ := (hb.generations hissued after).1 hfrees
  exact ⟨before, op, after, b, b', rfl, hissued, hallocated, by rw [runAll_append]; exact hblock, hbecomes⟩

/-! ### Generations count -/

/-- A slot that appears has the generation zero. -/
theorem Changed.generation_new (hc : Changed h h') {c : Option Block} (hnone : h.slots[i]? = none)
    (hs : h'.slots[i]? = some ⟨g, c⟩) : g = 0 := by
  have hinv : ∀ g c, h'.slots[i]? = some ⟨g, c⟩ → g = 0 := by
    refine hc.keeps (I := fun h₁ => ∀ g c, h₁.slots[i]? = some ⟨g, c⟩ → g = 0) ?_ ?_
    · rintro h₁ h₂ - - hchange ih g c hs₂
      cases hchange with
      | @filled b id _ admits filled =>
        rw [filled.slots] at hs₂
        split at hs₂
        · next hi =>
          cases hs₂
          rcases filled.vacant with hv | ⟨-, rfl⟩
          · exact ih _ _ (hi ▸ hv)
          · rfl
        · exact ih _ _ hs₂
      | @written id b b' resolves rewrites =>
        change (h₁.slots.setIfInBounds _ _)[i]? = _ at hs₂
        rw [Array.getElem?_setIfInBounds] at hs₂
        split at hs₂
        · next hi =>
          split at hs₂
          · cases hs₂
            exact ih _ _ (hi ▸ block?_eq_some.mp resolves)
          · cases hs₂
        · exact ih _ _ hs₂
      | rooted roots freeRoots => exact ih _ _ hs₂
    · intro g c hs₀
      rw [hnone] at hs₀
      cases hs₀
  exact hinv g c hs

/-- **The generation of a slot counts how often it was freed**, as a 32-bit word. -/
theorem generation_runAll : ∀ (ops : List Op) (h : Heap) (g : UInt32) (c : Option Block), h.Valid →
    h.slots[i]? = none → (runAll ops h).slots[i]? = some ⟨g, c⟩ → g = (frees i ops h).toUInt32
  | [], h, g, c, _, hnone, hs => by
    rw [show (runAll [] h).slots[i]? = h.slots[i]? from rfl, hnone] at hs
    cases hs
  | op :: ops, h, g, c, hv, hnone, hs => by
    have hnotheld : h.holds i = false := by
      unfold holds
      rw [hnone]
    rw [frees, hnotheld, Bool.false_and, Bool.toNat_false, Nat.zero_add]
    cases hs₁ : (op.run h).slots[i]? with
    | none => exact generation_runAll ops _ g c (hv.run op) hs₁ hs
    | some slot =>
      obtain ⟨g₁, c₁⟩ := slot
      have hzero : g₁ = 0 := by
        refine Changed.generation_new (Op.changed hv ?_) hnone hs₁
        rintro ⟨reported, rfl⟩
        have hsize := Array.getElem?_eq_none_iff.mp hnone
        change (h.collect reported).slots[i]? = _ at hs₁
        rw [Array.getElem?_eq_none (by rw [size_collect]; exact hsize)] at hs₁
        cases hs₁
      obtain ⟨c', hs', -⟩ := slot_runAll ops (op.run h) g₁ c₁ (hv.run op) hs₁
      cases hs'.symm.trans hs
      rw [hzero, UInt32.zero_add]

/-- An issued handle has as its generation how often its slot was freed before. -/
theorem generation_issued {limits : HeapLimits} {ops : List Op} {op : Op}
    (hid : op.issued? (runAll ops (empty limits)) = some id) :
    id.generation = (frees id.index ops (empty limits)).toUInt32 := by
  have hv := valid_runAll (valid_empty limits) ops
  obtain ⟨b, -, hblock⟩ := Op.block?_issued hv hid
  have hrun : runAll (ops ++ [op]) (empty limits) = op.run (runAll ops (empty limits)) := runAll_append ..
  have hslot := block?_eq_some.mp hblock
  rw [← hrun] at hslot
  have hcount := generation_runAll _ _ _ _ (valid_empty limits) rfl hslot
  rw [frees_append, frees, frees, Nat.add_zero] at hcount
  -- The operation itself frees nothing: the slot is occupied after it.
  have hheld : (op.run (runAll ops (empty limits))).holds id.index = true := holds_eq (block?_eq_some.mp hblock)
  rw [hheld, Bool.not_true, Bool.and_false, Bool.toNat_false, Nat.add_zero] at hcount
  exact hcount

theorem toUInt32_inj_iff (m n : Nat) : m.toUInt32 = n.toUInt32 ↔ m % 2 ^ 32 = n % 2 ^ 32 := by
  rw [← UInt32.toNat_inj]
  simp only [Nat.toUInt32_eq, UInt32.toNat_ofNat']

/-- A heap owns a handle exactly when the slot is occupied and has been freed as often as the generation says. -/
theorem owns_iff_frees (limits : HeapLimits) (ops : List Op) (id : Handle) :
    Owns ops (empty limits) id ↔ (runAll ops (empty limits)).holds id.index = true ∧
      id.generation = (frees id.index ops (empty limits)).toUInt32 := by
  rw [owns_iff]
  have hgeneration : ∀ g c, (runAll ops (empty limits)).slots[id.index]? = some ⟨g, c⟩ →
      g = (frees id.index ops (empty limits)).toUInt32 := fun g c =>
    generation_runAll ops _ g c (valid_empty limits) rfl
  unfold Heap.block? resolve holds
  cases hs : (runAll ops (empty limits)).slots[id.index]? with
  | none => simp
  | some slot =>
    obtain ⟨g, c⟩ := slot
    rw [← hgeneration g c hs]
    by_cases hg : g = id.generation
    · simp [hg, Slot.isOccupied]
    · simp [hg, Ne.symm hg]

/-! ### Handles of another heap -/

/-- **When a handle of another heap is refused.** One heap is what the operations `ops` make of an empty one, and
then issues the handle `id`; another is what `ops'` make of an empty one.

* If the other heap did not issue the same handle itself, or has freed the slot since, every reader and writer of
  it refuses the handle, and nothing changes.
* Otherwise the handle names an allocation of the other heap's own: what has become of the block that it was asked
  for when it issued the handle.
* Which of the two it is, is decided by the histories of both: the handle is taken for an own one exactly when the
  slot of the other heap is occupied and both heaps have freed it equally often, up to multiples of `2 ^ 32`. -/
theorem foreign_handles {limits : HeapLimits} {ops : List Op} {op : Op} {id : Handle}
    (hid : op.issued? (runAll ops (empty limits)) = some id) (limits' : HeapLimits) (ops' : List Op) :
    (¬ Owns ops' (empty limits') id → (runAll ops' (empty limits')).Stale id) ∧
    (Owns ops' (empty limits') id → ∃ before op' after b b', ops' = before ++ op' :: after ∧
      op'.issued? (runAll before (empty limits')) = some id ∧ op'.allocated? = some b ∧
      (runAll ops' (empty limits')).block? id = some b' ∧ b.Becomes b') ∧
    (Owns ops' (empty limits') id ↔ (runAll ops' (empty limits')).holds id.index = true ∧
      frees id.index ops' (empty limits') % 2 ^ 32 = frees id.index ops (empty limits) % 2 ^ 32) := by
  refine ⟨fun hnot => stale_of_block? ?_, Owns.names, ?_⟩
  · rw [owns_iff, Option.not_isSome_iff_eq_none] at hnot
    exact hnot
  · rw [owns_iff_frees, generation_issued hid, toUInt32_inj_iff]
    exact and_congr_right fun _ => eq_comm

/-- A cell of one heap and a string of another are in the same slot with the same generation. Before the other heap
makes its string, and after a collection has freed it, the cell's handle is refused there; in between it names the
string. -/
theorem foreign_handles_string :
    (Op.allocCell (.data .null)).issued? (runAll [] (empty (.ofMax 8))) = some ⟨0, 0⟩ ∧
    (runAll [] (empty (.ofMax 8))).Stale ⟨0, 0⟩ ∧
    (∃ b b', (Op.intern (.ofString "a")).allocated? = some b ∧
      (runAll [.intern (.ofString "a")] (empty (.ofMax 8))).block? ⟨0, 0⟩ = some b' ∧ b.Becomes b') ∧
    (runAll [.intern (.ofString "a"), .collect []] (empty (.ofMax 8))).Stale ⟨0, 0⟩ := by
  have hid : (Op.allocCell (.data .null)).issued? (runAll [] (empty (.ofMax 8))) = some ⟨0, 0⟩ := rfl
  have hrefused : ∀ ops, (runAll ops (empty (.ofMax 8))).holds 0 = false →
      (runAll ops (empty (.ofMax 8))).Stale ⟨0, 0⟩ := by
    intro ops hnot
    obtain ⟨hrefuse, -, hwhen⟩ := foreign_handles hid (.ofMax 8) ops
    refine hrefuse fun hown => ?_
    have hheld := (hwhen.mp hown).1
    rw [hnot] at hheld
    cases hheld
  refine ⟨hid, hrefused _ rfl, ?_, hrefused _ (by decide +kernel)⟩
  obtain ⟨-, hnames, hwhen⟩ := foreign_handles hid (.ofMax 8) [.intern (.ofString "a")]
  obtain ⟨before, op, after, b, b', hsplit, -, hallocated, hblock, hbecomes⟩ :=
    hnames (hwhen.mpr ⟨by decide +kernel, by decide +kernel⟩)
  obtain rfl : op = .intern (.ofString "a") := by
    cases before with
    | nil => cases hsplit; rfl
    | cons op' before => simp at hsplit
  exact ⟨b, b', hallocated, hblock, hbecomes⟩

/-- Two heaps have each made one cell, and a handle to the cell of the first reads and writes that of the second. -/
theorem foreign_handle_taken :
    (Op.allocCell (.data (.bool true))).issued? (empty (.ofMax 8)) = some ⟨0, 0⟩ ∧
    (runAll [.allocCell (.data .null)] (empty (.ofMax 8))).cell ⟨⟨0, 0⟩⟩ = .ok (.data .null) ∧
    (runAll [.allocCell (.data .null), .writeCell ⟨⟨0, 0⟩⟩ (.bool false)] (empty (.ofMax 8))).cell ⟨⟨0, 0⟩⟩ =
      .ok (.data (.bool false)) ∧
    ¬ (runAll [.allocCell (.data .null)] (empty (.ofMax 8))).Stale ⟨0, 0⟩ :=
  ⟨rfl, rfl, rfl, fun hstale => by cases hstale.cell⟩

end ScriptCore.Heap
