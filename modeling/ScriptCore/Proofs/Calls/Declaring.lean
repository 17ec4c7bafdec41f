import ScriptCore.Proofs.Calls.Making

/-! # What a scope declares stays declared

An object in which a call or a handler binds names is named by no value, so no program deletes what is bound in it.
A name may be bound there again, to another cell; but once bound it is bound for good.

* `Heap.Declares`: the scope itself binds the name, and it is not the outermost scope.
* `Act.bound_private`: a private object keeps the keys that are bound in it.
* `Acts.declares`: **what a scope declares it declares from then on.** -/

namespace ScriptCore

variable {h : Heap} {S : Setting} {own : Handle → Prop} {w w' : World} {label : List Handle} {o b : ObjectRef}
  {obj : Object} {key key' : PropertyKey} {c c' : CellRef} {s : ScopeRef} {name : String}

/-- A key that is bound is bound also after another was, or the same one again. -/
theorem Heap.Refers.bound (hr : h.Refers b key c) (ho : h.object o = .ok obj) :
    ∃ c₁, (h.put o.handle (.object (obj.bind key' c'))).Refers b key c₁ := by
  by_cases hsame : b = o ∧ key = key'
  · exact ⟨c', (Heap.refers_bind ho).mpr (by rw [if_pos hsame])⟩
  · exact ⟨c, (Heap.refers_bind ho).mpr (by rwa [if_neg hsame])⟩

/-- **A private object keeps the keys that are bound in it.** -/
theorem Act.bound_private (ha : Act S w label w') (hw : w.Lawful S) (hp : w.heap.Private S.realm b)
    (hr : w.heap.Refers b key c) : ∃ c₁, w'.heap.Refers b key c₁ := by
  have hunlabelled : label = [] → ∃ c₁, w'.heap.Refers b key c₁ := fun hlabel =>
    ⟨c, ha.refers_private hp (hlabel ▸ List.not_mem_nil) hr (hw.ordinary hp)⟩
  cases ha with
  | installed ho => exact hr.bound ho
  | declared ho => exact hr.bound ho
  | bound _ _ _ _ _ _ ho => exact hr.bound ho
  | entered => exact ⟨c, hr⟩
  | started => exact ⟨c, hr⟩
  | filled => exact hunlabelled rfl
  | written => exact hunlabelled rfl
  | deleted => exact hunlabelled rfl
  | cut => exact hunlabelled rfl
  | adjusted => exact hunlabelled rfl

theorem Acts.bound_private (hacts : Acts S own w w') (hw : w.Lawful S) (hp : w.heap.Private S.realm b)
    (hr : w.heap.Refers b key c) : ∃ c₁, w'.heap.Refers b key c₁ := by
  induction hacts with
  | refl => exact ⟨c, hr⟩
  | tail hacts₁ ha _ ih =>
    obtain ⟨c₁, hr₁⟩ := ih
    exact ha.bound_private (hacts₁.lawful hw) (hacts₁.hidden hp) hr₁

/-- **The scope declares the name**: it is inside another, and its own object binds the name. -/
def Heap.Declares (h : Heap) (s : ScopeRef) (name : String) : Prop :=
  ∃ sc key c, h.scope s = .ok sc ∧ sc.parent ≠ none ∧ h.Spells key name ∧ h.Refers sc.object key c

/-- A scope whose object is private declares what is bound there. -/
theorem World.Lawful.declares (hw : w.Lawful S) (hs : w.heap.Binds s o) (hp : w.heap.Private S.realm o)
    (hspells : w.heap.Spells key name) (hr : w.heap.Refers o key c) : w.heap.Declares s name := by
  obtain ⟨sc, hsc, rfl⟩ := hs
  refine ⟨sc, key, c, hsc, fun hnone => ?_, hspells, hr⟩
  rw [(hw.heap.scopes s sc hsc).outermost hnone] at hp
  exact hp.not_public hw.realm.global

/-- **What a scope declares it declares from then on.** -/
theorem Acts.declares (hacts : Acts S own w w') (hw : w.Lawful S) (hs : w.heap.Declares s name) :
    w'.heap.Declares s name := by
  obtain ⟨sc, key, c, hsc, hparent, hspells, hr⟩ := hs
  obtain ⟨p, hp⟩ := Option.ne_none_iff_exists'.mp hparent
  obtain ⟨-, hprivate⟩ := (hw.heap.scopes s sc hsc).inner p hp
  obtain ⟨sc', hsc', hobject, hparent'⟩ := hacts.stays.scopes s sc trivial hsc
  obtain ⟨c', hr'⟩ := hacts.bound_private hw hprivate hr
  exact ⟨sc', key, c', hsc', hparent' ▸ hparent, hacts.spells hspells, hobject ▸ hr'⟩

end ScriptCore
