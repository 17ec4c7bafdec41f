import ScriptCore.Proofs.Renaming.Sim

/-! # Reading heaps that are alike

Paired handles resolve on both sides, to texts that are equal and to objects, scopes and cells that are
alike. So looking a property up, on an object or along its prototypes, finds cells that are paired, and
whatever is read off a value is the same on both sides.

* `Heap.Alike.key_eq_iff`: keys are equal on one side exactly when they are on the other.
* `Heap.Alike.find?`, `Heap.Alike.insert`: property maps with keys that are alike. -/

namespace ScriptCore

open Renamable (transfer paired)

variable {M : Mode} {ρ ρ' : Renaming} {h₁ h₂ : Heap}

section Except

variable {α β : Type} [Renamable α] [Renamable β]

theorem alike_bind {r r' : Except Error α} {f g : α → Except Error β} (h : Alike ρ r r')
    (hf : ∀ a b, Alike ρ a b → Alike ρ (f a) (g b)) : Alike ρ (r >>= f) (r' >>= g) := by
  cases h with
  | ok h => exact hf _ _ h
  | error h => exact .error h

theorem ok_bind {α β : Type} (a : α) (f : α → Except Error β) : (Except.ok a >>= f) = f a := rfl

end Except

theorem PropertyMap.recent_insert (m : PropertyMap) (k : PropertyKey) (c : CellRef) :
    (m.insert k c).recent =
      if (m.find? k).isSome then rebind k c m.recent else (k, c) :: m.recent := by
  unfold PropertyMap.insert
  split
  · next h =>
    show rebind k c m.recent = _
    rw [h]; rfl
  · next h =>
    show (k, c) :: m.recent = _
    rw [h]; rfl

/-! ### Handles and keys -/

namespace Heap.Alike

theorem text (hh : Heap.Alike M ρ h₁ h₂) {s t : StringRef} (hs : ScriptCore.Alike ρ s t) :
    ∃ x, h₁.text s = .ok x ∧ h₂.text t = .ok x := by
  obtain ⟨b, c, hb, hc, hk, hbc⟩ := hh.blocks _ _ _ hs
  cases hbc with
  | string x => exact ⟨x, text_eq_ok.mpr hb, text_eq_ok.mpr hc⟩
  | _ => cases hk

theorem object (hh : Heap.Alike M ρ h₁ h₂) {o p : ObjectRef} (ho : ScriptCore.Alike ρ o p) :
    ∃ a b, h₁.object o = .ok a ∧ h₂.object p = .ok b ∧ ScriptCore.Alike ρ a b := by
  obtain ⟨b, c, hb, hc, hk, hbc⟩ := hh.blocks _ _ _ ho
  cases hbc with
  | object h => exact ⟨_, _, object_eq_ok.mpr hb, object_eq_ok.mpr hc, h⟩
  | _ => cases hk

theorem scope (hh : Heap.Alike M ρ h₁ h₂) {s t : ScopeRef} (hs : ScriptCore.Alike ρ s t) :
    ∃ a b, h₁.scope s = .ok a ∧ h₂.scope t = .ok b ∧ ScriptCore.Alike ρ a b := by
  obtain ⟨b, c, hb, hc, hk, hbc⟩ := hh.blocks _ _ _ hs
  cases hbc with
  | scope h => exact ⟨_, _, scope_eq_ok.mpr hb, scope_eq_ok.mpr hc, h⟩
  | _ => cases hk

theorem cell (hh : Heap.Alike M ρ h₁ h₂) {c d : CellRef} (hc : ScriptCore.Alike ρ c d) :
    ∃ a b, h₁.cell c = .ok a ∧ h₂.cell d = .ok b ∧ ScriptCore.Alike ρ a b := by
  obtain ⟨b, c, hb, hc, hk, hbc⟩ := hh.blocks _ _ _ hc
  cases hbc with
  | cell h => exact ⟨_, _, cell_eq_ok.mpr hb, cell_eq_ok.mpr hc, h⟩
  | _ => cases hk

theorem string_eq_iff (hh : Heap.Alike M ρ h₁ h₂) {a a' b b' : StringRef}
    (h : ScriptCore.Alike ρ a b) (h' : ScriptCore.Alike ρ a' b') : a = a' ↔ b = b' := by
  rw [StringRef.mk.injEq, StringRef.mk.injEq]
  exact hh.eq_iff h h'

theorem object_eq_iff (hh : Heap.Alike M ρ h₁ h₂) {a a' b b' : ObjectRef}
    (h : ScriptCore.Alike ρ a b) (h' : ScriptCore.Alike ρ a' b') : a = a' ↔ b = b' := by
  rw [ObjectRef.mk.injEq, ObjectRef.mk.injEq]
  exact hh.eq_iff h h'

/-- Keys that are alike are equal on one side exactly when they are on the other. -/
theorem key_eq_iff (hh : Heap.Alike M ρ h₁ h₂) {a a' b b' : PropertyKey}
    (h : ScriptCore.Alike ρ a b) (h' : ScriptCore.Alike ρ a' b') : a = a' ↔ b = b' := by
  cases h with
  | index i =>
    cases h' with
    | index j => exact Iff.rfl
    | string h' => exact ⟨nofun, nofun⟩
  | string h =>
    cases h' with
    | index j => exact ⟨nofun, nofun⟩
    | string h' => rw [PropertyKey.string.injEq, PropertyKey.string.injEq]; exact hh.string_eq_iff h h'

theorem strictEquals (hh : Heap.Alike M ρ h₁ h₂) {a a' b b' : Value}
    (h : ScriptCore.Alike ρ a b) (h' : ScriptCore.Alike ρ a' b') :
    a.strictEquals a' = b.strictEquals b' := by
  cases h <;> cases h' <;> try rfl
  · next h _ _ h' =>
    simp only [Value.strictEquals]
    rw [Bool.eq_iff_iff, beq_iff_eq, beq_iff_eq]
    exact hh.string_eq_iff h h'
  · next h _ _ h' =>
    simp only [Value.strictEquals]
    rw [Bool.eq_iff_iff, beq_iff_eq, beq_iff_eq]
    exact hh.object_eq_iff h h'

/-! ### Property maps -/

theorem find? (hh : Heap.Alike M ρ h₁ h₂) {m n : PropertyMap} {k l : PropertyKey}
    (hm : ScriptCore.Alike ρ m n) (hk : ScriptCore.Alike ρ k l) :
    ScriptCore.Alike ρ (m.find? k) (n.find? l) := by
  unfold PropertyMap.find?
  rw [m.index_eq, n.index_eq]
  have hr : ListAlike ρ m.recent n.recent := hm
  generalize m.recent = as, n.recent = bs at hr
  induction hr with
  | nil => exact .none
  | @cons a b as bs hab _ ih =>
    obtain ⟨a, c⟩ := a
    obtain ⟨b, d⟩ := b
    obtain ⟨hab, hcd⟩ := hab
    rw [PropertyMap.lookup_cons, PropertyMap.lookup_cons]
    by_cases ha : a = k
    · rw [if_pos ha, if_pos ((hh.key_eq_iff hab hk).mp ha)]
      exact .some hcd
    · rw [if_neg ha, if_neg fun hb => ha ((hh.key_eq_iff hab hk).mpr hb)]
      exact ih

theorem insert (hh : Heap.Alike M ρ h₁ h₂) {m n : PropertyMap} {k l : PropertyKey} {c d : CellRef}
    (hm : ScriptCore.Alike ρ m n) (hk : ScriptCore.Alike ρ k l) (hc : ScriptCore.Alike ρ c d) :
    ScriptCore.Alike ρ (m.insert k c) (n.insert l d) := by
  show ListAlike ρ (m.insert k c).recent (n.insert l d).recent
  rw [PropertyMap.recent_insert, PropertyMap.recent_insert]
  have hf : (m.find? k).isSome = (n.find? l).isSome := by
    have h := hh.find? hm hk
    generalize m.find? k = x, n.find? l = y at h
    cases h <;> rfl
  rw [hf]
  by_cases hn : (n.find? l).isSome
  · rw [if_pos hn, if_pos hn]
    have hr : ListAlike ρ m.recent n.recent := hm
    unfold PropertyMap.rebind
    generalize m.recent = as, n.recent = bs at hr
    induction hr with
    | nil => exact .nil
    | @cons a b as bs hab _ ih =>
      refine .cons ?_ ih
      show ScriptCore.Alike ρ (if a.1 = k then (k, c) else a) (if b.1 = l then (l, d) else b)
      by_cases ha : a.1 = k
      · rw [if_pos ha, if_pos ((hh.key_eq_iff hab.1 hk).mp ha)]
        exact ⟨hk, hc⟩
      · rw [if_neg ha, if_neg fun hb => ha ((hh.key_eq_iff hab.1 hk).mpr hb)]
        exact hab
  · rw [if_neg hn, if_neg hn]
    exact .cons ⟨hk, hc⟩ hm

end Heap.Alike

/-- Keeping the entries whose keys satisfy tests that agree on keys that are alike. -/
theorem alike_filter_entries {p q : PropertyKey → Bool} {as bs : List (PropertyKey × CellRef)}
    (h : Alike ρ as bs) (hpq : ∀ k l, Alike ρ k l → p k = q l) :
    Alike ρ (as.filter fun e => p e.1) (bs.filter fun e => q e.1) := by
  induction h with
  | nil => exact .nil
  | @cons a b as bs hab _ ih =>
    rw [List.filter_cons, List.filter_cons, hpq _ _ hab.1]
    by_cases hq : q b.1
    · rw [if_pos hq, if_pos hq]
      exact .cons hab ih
    · rw [if_neg hq, if_neg hq]
      exact ih

/-! ### Looking at objects and values -/

namespace Heap.Alike

theorem isArray (hh : Heap.Alike M ρ h₁ h₂) {o p : ObjectRef} (ho : ScriptCore.Alike ρ o p) :
    ScriptCore.Alike ρ (h₁.isArray o) (h₂.isArray p) := by
  obtain ⟨a, b, ha, hb, hab⟩ := hh.object ho
  obtain ⟨-, -, hk, -⟩ := Object.alike_iff.mp hab
  simp only [Heap.isArray, ha, hb, ok_bind]
  generalize a.kind = k, b.kind = l at hk
  cases hk <;> exact .ok rfl

theorem isExtensible (hh : Heap.Alike M ρ h₁ h₂) {o p : ObjectRef} (ho : ScriptCore.Alike ρ o p) :
    ScriptCore.Alike ρ (h₁.isExtensible o) (h₂.isExtensible p) := by
  obtain ⟨a, b, ha, hb, hab⟩ := hh.object ho
  simp only [Heap.isExtensible, ha, hb, ok_bind]
  exact .ok (Object.alike_iff.mp hab).2.2.2.2

theorem ownCell (hh : Heap.Alike M ρ h₁ h₂) {o p : ObjectRef} {k l : PropertyKey}
    (ho : ScriptCore.Alike ρ o p) (hk : ScriptCore.Alike ρ k l) :
    ScriptCore.Alike ρ (h₁.ownCell o k) (h₂.ownCell p l) := by
  obtain ⟨a, b, ha, hb, hab⟩ := hh.object ho
  simp only [Heap.ownCell, ha, hb, ok_bind]
  exact .ok (hh.find? (Object.alike_iff.mp hab).2.1 hk)

theorem cell? (hh : Heap.Alike M ρ h₁ h₂) {c d : CellRef} (hc : ScriptCore.Alike ρ c d) :
    ScriptCore.Alike ρ (h₁.cell c) (h₂.cell d) := by
  obtain ⟨a, b, ha, hb, hab⟩ := hh.cell hc
  rw [ha, hb]
  exact .ok hab

theorem ownProperty (hh : Heap.Alike M ρ h₁ h₂) {o p : ObjectRef} {k l : PropertyKey}
    (ho : ScriptCore.Alike ρ o p) (hk : ScriptCore.Alike ρ k l) :
    ScriptCore.Alike ρ (h₁.ownProperty o k) (h₂.ownProperty p l) := by
  refine alike_bind (hh.ownCell ho hk) fun c d hcd => ?_
  cases hcd with
  | none => exact .ok .none
  | some hcd => exact alike_bind (hh.cell? hcd) fun a b hab => .ok (.some hab)

theorem findWithin (hh : Heap.Alike M ρ h₁ h₂) {k l : PropertyKey} (hk : ScriptCore.Alike ρ k l) :
    ∀ (bound : Nat) (o p : Option ObjectRef), ScriptCore.Alike ρ o p →
      ScriptCore.Alike ρ (h₁.findWithin k bound o) (h₂.findWithin l bound p)
  | 0, _, _, ho => by
    cases ho with
    | none => exact .ok .none
    | some ho => exact .error (.same rfl nofun)
  | bound + 1, _, _, ho => by
    cases ho with
    | none => exact .ok .none
    | some ho =>
      obtain ⟨a, b, ha, hb, hab⟩ := hh.object ho
      obtain ⟨hp, hm, -⟩ := Object.alike_iff.mp hab
      have hf := hh.find? hm hk
      simp only [Heap.findWithin, ha, hb]
      generalize a.properties.find? k = x, b.properties.find? l = y at hf
      cases hf with
      | none => exact findWithin hh hk bound _ _ hp
      | some hc => exact .ok (.some ⟨ho, hc⟩)

theorem findProperty (hh : Heap.Alike M ρ h₁ h₂) {o p : ObjectRef} {k l : PropertyKey}
    (ho : ScriptCore.Alike ρ o p) (hk : ScriptCore.Alike ρ k l) :
    ScriptCore.Alike ρ (h₁.findProperty o k) (h₂.findProperty p l) :=
  hh.findWithin hk _ _ _ (.some ho)

theorem property (hh : Heap.Alike M ρ h₁ h₂) {o p : ObjectRef} {k l : PropertyKey}
    (ho : ScriptCore.Alike ρ o p) (hk : ScriptCore.Alike ρ k l) :
    ScriptCore.Alike ρ (h₁.property o k) (h₂.property p l) := by
  refine alike_bind (hh.findProperty ho hk) fun x y hxy => ?_
  cases hxy with
  | none => exact .ok .none
  | some hxy => exact alike_bind (hh.cell? hxy.2) fun a b hab => .ok (.some hab)

theorem isCallable (hh : Heap.Alike M ρ h₁ h₂) {v w : Value} (hv : ScriptCore.Alike ρ v w) :
    ScriptCore.Alike ρ (h₁.isCallable v) (h₂.isCallable w) := by
  cases hv with
  | object ho =>
    obtain ⟨a, b, ha, hb, hab⟩ := hh.object ho
    obtain ⟨-, -, hk, -⟩ := Object.alike_iff.mp hab
    simp only [Heap.isCallable, ha, hb, ok_bind]
    generalize a.kind = k, b.kind = l at hk
    cases hk <;> exact .ok rfl
  | _ => exact .ok rfl

theorem truthy (hh : Heap.Alike M ρ h₁ h₂) {v w : Value} (hv : ScriptCore.Alike ρ v w) :
    ScriptCore.Alike ρ (h₁.truthy v) (h₂.truthy w) := by
  cases hv with
  | string hs =>
    obtain ⟨x, hx, hy⟩ := hh.text hs
    simp only [Heap.truthy, hx, hy, ok_bind]
    exact .ok rfl
  | _ => exact .ok rfl

theorem typeName (hh : Heap.Alike M ρ h₁ h₂) {v w : Value} (hv : ScriptCore.Alike ρ v w) :
    ScriptCore.Alike ρ (h₁.typeName v) (h₂.typeName w) := by
  cases hv with
  | object ho =>
    refine alike_bind (hh.isCallable (.object ho)) fun a b hab => ?_
    obtain rfl : a = b := hab
    exact .ok rfl
  | _ => exact .ok rfl

theorem describe (hh : Heap.Alike M ρ h₁ h₂) {v w : Value} (hv : ScriptCore.Alike ρ v w) :
    ScriptCore.Alike ρ (h₁.describe v) (h₂.describe w) := by
  cases hv with
  | string hs =>
    obtain ⟨x, hx, hy⟩ := hh.text hs
    simp only [Heap.describe, hx, hy, ok_bind]
    exact .ok rfl
  | object ho =>
    obtain ⟨a, b, ha, hb, hab⟩ := hh.object ho
    obtain ⟨-, -, -, ht, -⟩ := Object.alike_iff.mp hab
    simp only [Heap.describe, Heap.tag, ha, hb, ok_bind]
    rw [ht]
    exact .ok rfl
  | _ => exact .ok rfl

theorem keyOfString (hh : Heap.Alike M ρ h₁ h₂) {s t : StringRef} (hs : ScriptCore.Alike ρ s t) :
    ScriptCore.Alike ρ (h₁.keyOfString s) (h₂.keyOfString t) := by
  obtain ⟨x, hx, hy⟩ := hh.text hs
  simp only [Heap.keyOfString, hx, hy, ok_bind]
  cases arrayIndex? x.units.toList with
  | some i => exact .ok (.index i)
  | none => exact .ok (.string hs)

theorem keyText (hh : Heap.Alike M ρ h₁ h₂) {k l : PropertyKey} (hk : ScriptCore.Alike ρ k l) :
    ScriptCore.Alike ρ (h₁.keyText k) (h₂.keyText l) := by
  cases hk with
  | string hs =>
    obtain ⟨x, hx, hy⟩ := hh.text hs
    simp only [Heap.keyText, hx, hy, ok_bind]
    exact .ok rfl
  | index i => exact .ok rfl

end Heap.Alike

end ScriptCore
