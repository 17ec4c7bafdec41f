import ScriptCore.Proofs.Number.Doubles

/-! # Properties that cannot be reconfigured

A property that is not configurable may still be written, made read-only, and defined again as what it is.
`Descriptor.Endures` says what it can come to hold by that, through any number of such steps.

* `Descriptor.Endures.trans`: one step after another.
* `Descriptor.Endures.apply`: **a patch that does not conflict** leaves a property that endures. -/

namespace ScriptCore

variable {p : Patch} {d d₁ d₂ : Descriptor} {s s₁ s₂ : Slotted}

/-! ### What such a property can come to hold -/

/-- What is held where nothing is reconfigured: a read-only value stays, a writable one may change or become
read-only, and accessors stay. -/
inductive Slotted.Settles : Slotted → Slotted → Prop where
  | fixed {v v' : Value} (same : v'.sameValue v = true) : Settles (.data v false) (.data v' false)
  | written {v v' : Value} {writable : Bool} : Settles (.data v true) (.data v' writable)
  | accessors {g g' s s' : Value} (get : g'.sameValue g = true) (set : s'.sameValue s = true) :
      Settles (.accessor g s) (.accessor g' s')

namespace Slotted.Settles

theorem refl : ∀ s : Slotted, s.Settles s
  | .data v false => .fixed v.sameValue_refl
  | .data _ true => .written
  | .accessor g s => .accessors g.sameValue_refl s.sameValue_refl

theorem trans (h : s.Settles s₁) (h' : s₁.Settles s₂) : s.Settles s₂ := by
  cases h with
  | fixed same =>
    cases h' with
    | fixed same' => exact .fixed (Value.sameValue_iff.mp same ▸ same')
  | written =>
    cases h' with
    | fixed => exact .written
    | written => exact .written
  | accessors get set =>
    cases h' with
    | accessors get' set' =>
      exact .accessors (Value.sameValue_iff.mp get ▸ get') (Value.sameValue_iff.mp set ▸ set')

end Slotted.Settles

/-- **The property endures**: its attributes are the same, it still cannot be reconfigured, and what it holds is
what such a property can come to hold. -/
structure Descriptor.Endures (d d' : Descriptor) : Prop where
  configurable : d'.configurable = false
  enumerable : d'.enumerable = d.enumerable
  isVariable : d'.isVariable = d.isVariable
  content : d.content.Settles d'.content

namespace Descriptor.Endures

theorem refl (hd : d.configurable = false) : d.Endures d := ⟨hd, rfl, rfl, .refl _⟩

theorem trans (h : d.Endures d₁) (h' : d₁.Endures d₂) : d.Endures d₂ :=
  ⟨h'.configurable, h'.enumerable.trans h.enumerable, h'.isVariable.trans h.isVariable, h.content.trans h'.content⟩

/-- A writable value is written. -/
theorem write (hd : d.configurable = false) (hcontent : d.content = .data w true) (v : Value) :
    d.Endures { d with content := .data v true } :=
  ⟨hd, rfl, rfl, hcontent ▸ .written⟩

/-- **A patch that does not conflict with the property** leaves one that endures. -/
theorem apply (hd : d.configurable = false) (hp : p.conflicts d = false) : d.Endures (p.applyTo d) := by
  obtain ⟨enumerable, configurable, isVariable, content⟩ := d
  obtain rfl : configurable = false := hd
  -- The value or the accessor that is not changed is the same.
  have kept : ∀ {new : Option Value} {v : Value}, Patch.changes new v = false → (new.getD v).sameValue v = true := by
    intro new v h
    cases new with
    | none => exact v.sameValue_refl
    | some w => simpa [Patch.changes] using h
  unfold Patch.conflicts at hp
  rw [Bool.or_eq_false_iff, Bool.or_eq_false_iff] at hp
  obtain ⟨⟨hconfigurable, henumerable⟩, hcontent⟩ := hp
  refine ⟨?_, ?_, rfl, ?_⟩
  · show p.configurable.getD false = false
    cases hc : p.configurable with
    | none => rfl
    | some b => rw [hc] at hconfigurable; simpa using hconfigurable
  · show p.enumerable.getD enumerable = enumerable
    cases he : p.enumerable with
    | none => rfl
    | some b => rw [he] at henumerable; simpa using henumerable
  · cases content with
    | accessor g s =>
      dsimp only at hcontent
      rw [Bool.or_eq_false_iff, Bool.or_eq_false_iff] at hcontent
      obtain ⟨⟨hdata, hget⟩, hset⟩ := hcontent
      show Slotted.Settles _ (if p.isData then p.toContent else .accessor (p.get.getD g) (p.set.getD s))
      rw [hdata]
      exact .accessors (kept hget) (kept hset)
    | data v writable =>
      dsimp only at hcontent
      rw [Bool.or_eq_false_iff] at hcontent
      show Slotted.Settles _
        (if p.isAccessor then p.toContent else .data (p.value.getD v) (p.writable.getD writable))
      rw [hcontent.1]
      cases writable with
      | true => exact .written
      | false =>
        have hwritten := hcontent.2
        rw [Bool.not_false, Bool.true_and, Bool.or_eq_false_iff] at hwritten
        have hwritable : p.writable.getD false = false := by
          cases hw : p.writable with
          | none => rfl
          | some b => rw [hw] at hwritten; simpa using hwritten.1
        rw [if_neg Bool.false_ne_true, hwritable]
        exact .fixed (kept hwritten.2)

end Descriptor.Endures

end ScriptCore
