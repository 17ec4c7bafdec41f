import ScriptCore.Proofs.Heap.Operations

/-! # What routines leave alone

The primitives write to the slots in two ways only: an allocation fills one, and a change puts a block of the
same sort in the place of another. So a property of heaps that survives these two survives every routine.

* `Routine.keeps_of_put`: **what allocations and overwriting keep, every routine keeps.**
* `Routine.keeps_collections`: routines collect nothing.
* `Routine.keeps_scripted`, `Scripted.collect`: where programs run alone no object is a native function. -/

namespace ScriptCore

/-- Objects of this kind are made by programs. -/
def ObjectKind.Scripted : ObjectKind → Prop
  | .native _ => False
  | .ordinary | .array | .closure _ => True

namespace Heap

variable {α : Type} {K : ObjectKind → Prop} {p : Proc Heap α} {h : Heap}

/-- **What allocations and overwriting keep true, every routine keeps true.** An object is overwritten by an
object of its kind. -/
theorem Routine.keeps_of_put {I : Heap → Prop}
    (halloc : ∀ b, (∀ o, b = .object o → K o.kind) → Proc.Keeps I (Heap.alloc b))
    (hinterned : ∀ h table, I h → I { h with interned := table })
    (hput : ∀ h id b, I h → (∀ o, b = .object o → ∃ o', h.block? id = some (.object o') ∧ o'.kind = o.kind) →
      I (h.put id b)) (hp : Routine K p) : Proc.Keeps I p := by
  refine hp.keeps (fun b _ hk => halloc b hk) (fun t h hi => ?_) (fun o f hf h hi => ?_) (fun s f h hi => ?_)
    (fun c f h hi => ?_)
  · have hnew := halloc (.string t) (fun o ho => by cases ho) h hi
    unfold Heap.intern
    cases h.interned.find? t with
    | some s => exact hi
    | none =>
      cases ha : Heap.alloc (.string t) h with
      | done id h' => rw [ha] at hnew; exact hinterned h' _ hnew
      | failed e h' => rw [ha] at hnew; exact hnew
      | stalled => trivial
  · refine leaves_modifyObject hi fun x ho => hput h _ _ hi fun y hy => ⟨x, object_eq_ok.mp ho, ?_⟩
    cases hy
    exact (hf x).symm
  · exact leaves_modifyScope hi fun _ _ => hput h _ _ hi nofun
  · exact leaves_modifyCell hi fun _ _ _ _ => hput h _ _ hi nofun

/-! ### Collections -/

/-- An allocation changes the slots and their accounts, and nothing else of the heap. -/
theorem keeps_beside_alloc {I : Heap → Prop}
    (hI : ∀ h slots marks free live, I h → I { h with slots, marks, free, live }) (b : Block) :
    Proc.Keeps I (alloc b) := by
  intro h hi
  unfold alloc
  by_cases hfull : h.limits.maxSlots ≤ h.live
  · rw [if_pos hfull]
    exact hi
  rw [if_neg hfull]
  cases h.free with
  | nil =>
    by_cases hbound : slotBound ≤ h.slots.size
    · simp only [hbound, if_true]
      exact hi
    · simp only [hbound, if_false]
      exact hI h _ _ _ _ hi
  | cons i free =>
    cases hslot : h.slots[i]? with
    | none => simp only [hslot]; exact hI h _ _ _ _ hi
    | some slot => simp only [hslot]; exact hI h _ _ _ _ hi

/-- **Routines collect nothing.** -/
theorem Routine.keeps_collections (hp : Routine K p) (n : Nat) :
    Proc.Keeps (fun h => h.collections = n) p :=
  hp.keeps_of_put (fun b _ => keeps_beside_alloc (fun _ _ _ _ _ hn => hn) b) (fun _ _ hn => hn)
    fun _ _ _ hn _ => hn

/-! ### Kinds -/

/-- No object is a native function. -/
def Scripted (h : Heap) : Prop :=
  ∀ (i : Nat) (g : UInt32) (o : Object), h.slots[i]? = some ⟨g, some (.object o)⟩ → o.kind.Scripted

theorem Scripted.object (hs : h.Scripted) {o : ObjectRef} {obj : Object} (ho : h.object o = .ok obj) :
    obj.kind.Scripted :=
  hs _ _ _ (block?_eq_some.mp (object_eq_ok.mp ho))

theorem scripted_set (hs : h.Scripted) {i : Nat} {slot : Slot}
    (hslot : ∀ g o, slot = ⟨g, some (.object o)⟩ → o.kind.Scripted) {j : Nat} {g : UInt32} {o : Object}
    (hj : (h.slots.setIfInBounds i slot)[j]? = some ⟨g, some (.object o)⟩) : o.kind.Scripted := by
  rw [Array.getElem?_setIfInBounds] at hj
  by_cases hij : i = j
  · subst hij
    by_cases hlt : i < h.slots.size
    · simp only [if_true, hlt, Option.some.injEq] at hj
      exact hslot g o hj
    · simp [hlt] at hj
  · simp only [hij, if_false] at hj
    exact hs j g o hj

theorem keeps_scripted_alloc {b : Block} (hb : ∀ o, b = .object o → o.kind.Scripted) :
    Proc.Keeps Scripted (alloc b) := by
  intro h hs
  have hslot : ∀ (g g' : UInt32) (o : Object), Slot.mk g' (some b) = ⟨g, some (.object o)⟩ →
      o.kind.Scripted := by
    intro g g' o hbo
    injection hbo with _ hbo
    exact hb o (Option.some.inj hbo)
  unfold alloc
  by_cases hfull : h.limits.maxSlots ≤ h.live
  · rw [if_pos hfull]
    exact hs
  rw [if_neg hfull]
  cases h.free with
  | nil =>
    by_cases hbound : slotBound ≤ h.slots.size
    · simp only [hbound, if_true]
      exact hs
    · simp only [hbound, if_false]
      intro j g o hj
      rw [Array.getElem?_push] at hj
      split at hj
      · exact hslot g 0 o (Option.some.inj hj)
      · exact hs j g o hj
  | cons i free =>
    cases hi : h.slots[i]? with
    | none => simp only [hi]; exact hs
    | some slot =>
      simp only [hi]
      exact fun j g o hj => scripted_set hs (fun g o => hslot g _ o) hj

/-- **Routines make no native functions**, if all they make is made by programs. -/
theorem Routine.keeps_scripted (hp : Routine ObjectKind.Scripted p) : Proc.Keeps Scripted p := by
  refine hp.keeps_of_put (fun b hb => keeps_scripted_alloc hb) (fun _ _ hs => hs) fun h id b hs hb => ?_
  refine fun j g o hj => scripted_set hs (fun g o hbo => ?_) hj
  injection hbo with _ hbo
  obtain ⟨o', ho', hkind⟩ := hb o (Option.some.inj hbo)
  rw [← hkind]
  exact hs _ _ _ (block?_eq_some.mp ho')

/-- A collection makes no native functions. -/
theorem Scripted.collect (hs : h.Scripted) (reported : List Handle) : (h.collect reported).Scripted := by
  intro i g o hi
  have hslot : ∀ slot : Slot, freed slot = ⟨g, some (.object o)⟩ → False := by
    intro slot hslot
    unfold freed at hslot
    split at hslot
    · cases hslot
    · rename_i hcontent
      rw [hslot] at hcontent
      cases hcontent
  unfold Heap.collect at hi
  dsimp only at hi
  rw [slots_sweep] at hi
  split at hi
  · exact hs i g o hi
  · obtain ⟨slot, -, hfreed⟩ := Option.map_eq_some_iff.mp hi
    exact (hslot slot hfreed).elim

theorem scripted_empty (limits : HeapLimits) : (empty limits).Scripted := by
  intro i g o hi
  simp [empty] at hi

end Heap

end ScriptCore
