import ScriptCore.Proofs.Scope.Sights

/-! # Where a pattern stops

A pattern of names, nested in objects and arrays, goes along paths into the value that it is matched to. Where a path
ends, what it leads to is written to a name, or taken apart further.

* `Pattern.stops`: **where the pattern stops on its way**, in the order of the source.
* `Pattern.stopNames_stops`: the names at the stops are those that the pattern binds.
* `Pattern.ResolvesTo`: the reference that a pattern is, with the keys of its names.
* `builds_resolvePattern`: **a pattern of names becomes its reference.** -/

namespace ScriptCore

variable {h h' : Heap} {m : Machine} {C : CellRef → Prop} {s : ScopeRef} {name : String}

/-! ### The way of a pattern -/

/-- What a pattern does with what a path leads to. -/
inductive Stop.Kind where
  /-- It is written to a name. -/
  | name (name : String)
  /-- It is taken apart, so it may not be `undefined` or `null`. -/
  | apart
  /-- It is left alone by the object pattern without properties. -/
  | ignored
  /-- It is written to a property of another value. -/
  | member
deriving DecidableEq

/-- A path from the value to which a pattern is matched, and what the pattern does there. -/
structure Stop where
  path : List Part
  kind : Stop.Kind

namespace Stop

/-- The name that is written. -/
def name? : Stop → Option String
  | ⟨_, .name name⟩ => some name
  | _ => none

/-- The stop seen from where the value is a part. -/
def under (part : Part) (p : Stop) : Stop := ⟨part :: p.path, p.kind⟩

@[simp] theorem name?_under (part : Part) (p : Stop) : (p.under part).name? = p.name? := by
  obtain ⟨path, kind⟩ := p
  cases kind <;> rfl

theorem name?_eq_some {p : Stop} : p.name? = some name ↔ p.kind = .name name := by
  obtain ⟨path, kind⟩ := p
  cases kind <;> simp [name?]

end Stop

/-- The names that are written at the stops. -/
def stopNames (stops : List Stop) : List String := stops.filterMap Stop.name?

theorem stopNames_append (stops stops' : List Stop) : stopNames (stops ++ stops') = stopNames stops ++ stopNames stops' :=
  List.filterMap_append

theorem stopNames_under (part : Part) (stops : List Stop) : stopNames (stops.map (Stop.under part)) = stopNames stops := by
  unfold stopNames
  rw [List.filterMap_map]
  exact congrArg (List.filterMap · stops) (funext (Stop.name?_under part))

theorem mem_stopNames {stops : List Stop} : name ∈ stopNames stops ↔ ∃ p ∈ stops, p.kind = .name name := by
  unfold stopNames
  simp only [List.mem_filterMap, Stop.name?_eq_some]

mutual

/-- **Where the pattern stops**, in the order of the source. -/
def Pattern.stops : Pattern → List Stop
  | .ident name => [⟨[], .name name⟩]
  | .member _ _ => [⟨[], .member⟩]
  | .object [] => [⟨[], .ignored⟩]
  | .object (p :: properties) => ⟨[], .apart⟩ :: propertyStops (p :: properties)
  | .array elements => ⟨[], .apart⟩ :: elementStops 0 elements

/-- Where the targets of an object pattern stop. -/
def propertyStops : List (String × Pattern) → List Stop
  | [] => []
  | (name, target) :: rest => target.stops.map (Stop.under (.property name)) ++ propertyStops rest

/-- Where the targets of an array pattern stop, from position `i` on. -/
def elementStops (i : Nat) : List (Option Pattern) → List Stop
  | [] => []
  | none :: rest => elementStops (i + 1) rest
  | some target :: rest => target.stops.map (Stop.under (.element i)) ++ elementStops (i + 1) rest

end

theorem Pattern.stops_ne_nil (target : Pattern) : target.stops ≠ [] := by
  cases target with
  | object properties => cases properties <;> simp [stops]
  | _ => simp [stops]

mutual

/-- The names at the stops are those that the pattern binds. -/
theorem Pattern.stopNames_stops : ∀ target : Pattern, stopNames target.stops = target.boundNames
  | .ident name => rfl
  | .member _ _ => rfl
  | .object [] => rfl
  | .object (p :: properties) => by
    unfold Pattern.stops Pattern.boundNames
    exact stopNames_propertyStops (p :: properties)
  | .array elements => by
    unfold Pattern.stops Pattern.boundNames
    exact stopNames_elementStops 0 elements

theorem stopNames_propertyStops : ∀ properties : List (String × Pattern),
    stopNames (propertyStops properties) = boundNamesOfProperties properties
  | [] => rfl
  | (name, target) :: rest => by
    rw [propertyStops, boundNamesOfProperties, stopNames_append, stopNames_under, Pattern.stopNames_stops target,
      stopNames_propertyStops rest]

theorem stopNames_elementStops : ∀ (i : Nat) (elements : List (Option Pattern)),
    stopNames (elementStops i elements) = boundNamesOfElements elements
  | _, [] => rfl
  | i, none :: rest => by
    rw [elementStops, boundNamesOfElements, stopNames_elementStops (i + 1) rest]
  | i, some target :: rest => by
    rw [elementStops, boundNamesOfElements, stopNames_append, stopNames_under, Pattern.stopNames_stops target,
      stopNames_elementStops (i + 1) rest]

end

/-! ### The reference of a pattern -/

mutual

/-- **The reference is that of the pattern** in the scope, with the keys of the names in the pattern. -/
def Pattern.ResolvesTo (h : Heap) (s : ScopeRef) : Pattern → Reference → Prop
  | .ident name, r => r = .binding s name
  | .member _ _, _ => False
  | .object properties, r => ∃ rs, r = .object rs ∧ propertiesResolveTo h s properties rs
  | .array elements, r => ∃ rs, r = .array rs ∧ elementsResolveTo h s elements rs

def propertiesResolveTo (h : Heap) (s : ScopeRef) : List (String × Pattern) → List (PropertyKey × Reference) → Prop
  | [], rs => rs = []
  | (name, target) :: rest, rs => ∃ key r rs', rs = (key, r) :: rs' ∧ h.Named name key ∧ target.ResolvesTo h s r ∧
      propertiesResolveTo h s rest rs'

def elementsResolveTo (h : Heap) (s : ScopeRef) : List (Option Pattern) → List (Option Reference) → Prop
  | [], rs => rs = []
  | none :: rest, rs => ∃ rs', rs = none :: rs' ∧ elementsResolveTo h s rest rs'
  | some target :: rest, rs => ∃ r rs', rs = some r :: rs' ∧ target.ResolvesTo h s r ∧ elementsResolveTo h s rest rs'

end

mutual

theorem Pattern.ResolvesTo.next (ht : Heap.OnlyTouches (fun _ => False) C h h') :
    ∀ (target : Pattern) {r : Reference}, target.ResolvesTo h s r → target.ResolvesTo h' s r
  | .ident _, _, hr => hr
  | .member _ _, _, hr => hr
  | .object properties, _, ⟨rs, hr, hrs⟩ => ⟨rs, hr, propertiesResolveTo_next ht properties hrs⟩
  | .array elements, _, ⟨rs, hr, hrs⟩ => ⟨rs, hr, elementsResolveTo_next ht elements hrs⟩

theorem propertiesResolveTo_next (ht : Heap.OnlyTouches (fun _ => False) C h h') :
    ∀ (properties : List (String × Pattern)) {rs : List (PropertyKey × Reference)},
      propertiesResolveTo h s properties rs → propertiesResolveTo h' s properties rs
  | [], _, hrs => hrs
  | (_, target) :: rest, _, ⟨key, r, rs', hrs, hnamed, hr, hrest⟩ =>
    ⟨key, r, rs', hrs, hnamed.next ht, Pattern.ResolvesTo.next ht target hr, propertiesResolveTo_next ht rest hrest⟩

theorem elementsResolveTo_next (ht : Heap.OnlyTouches (fun _ => False) C h h') :
    ∀ (elements : List (Option Pattern)) {rs : List (Option Reference)},
      elementsResolveTo h s elements rs → elementsResolveTo h' s elements rs
  | [], _, hrs => hrs
  | none :: rest, _, ⟨rs', hrs, hrest⟩ => ⟨rs', hrs, elementsResolveTo_next ht rest hrest⟩
  | some target :: rest, _, ⟨r, rs', hrs, hr, hrest⟩ =>
    ⟨r, rs', hrs, Pattern.ResolvesTo.next ht target hr, elementsResolveTo_next ht rest hrest⟩

end

/-- A name becomes a key. -/
theorem builds_keyOfName (hk : h.WellKept) (name : String) :
    m.Builds h (fun _ => (Run.onHeap (Heap.keyOfName name) : Run PropertyKey)) fun h' key => h'.WellKept ∧
      Heap.Untouched h h' ∧ h'.Named name key :=
  .onHeap (Heap.completes_keyOfName hk name) fun _ _ hdone =>
    let ⟨hk', hi, _⟩ := Heap.keyOfName_names hk hdone
    ⟨hk', hi.untouched, hi.named⟩

mutual

/-- **A pattern of names becomes its reference**: only keys are interned. -/
theorem builds_resolvePattern : ∀ (target : Pattern) {h : Heap}, h.WellKept → (∀ p ∈ target.stops, p.kind ≠ .member) →
    m.Builds h (fun E => resolvePattern E s target) fun h' r => h'.WellKept ∧ Heap.Untouched h h' ∧ target.ResolvesTo h' s r
  | .ident name, h, hk, _ => by
    unfold resolvePattern
    exact .pure ⟨hk, .refl _ _ h, rfl⟩
  | .member _ _, h, _, hnames => absurd rfl (hnames _ (List.mem_singleton_self _))
  | .object properties, h, hk, hnames => by
    unfold resolvePattern
    refine .bind (builds_resolveProperties properties hk ?_) fun h' rs ⟨hk', ht, hrs⟩ => .pure ⟨hk', ht, rs, rfl, hrs⟩
    intro p hp
    cases properties with
    | nil => cases hp
    | cons _ _ => exact hnames p (List.mem_cons_of_mem _ hp)
  | .array elements, h, hk, hnames => by
    unfold resolvePattern
    exact .bind (builds_resolveElements elements 0 hk fun p hp => hnames p (List.mem_cons_of_mem _ hp))
      fun h' rs ⟨hk', ht, hrs⟩ => .pure ⟨hk', ht, rs, rfl, hrs⟩

theorem builds_resolveProperties : ∀ (properties : List (String × Pattern)) {h : Heap}, h.WellKept →
    (∀ p ∈ propertyStops properties, p.kind ≠ .member) → m.Builds h (fun E => resolveProperties E s properties)
      fun h' rs => h'.WellKept ∧ Heap.Untouched h h' ∧ propertiesResolveTo h' s properties rs
  | [], h, hk, _ => by
    unfold resolveProperties
    exact .pure ⟨hk, .refl _ _ h, rfl⟩
  | (name, target) :: rest, h, hk, hnames => by
    unfold resolveProperties
    refine .bind (builds_keyOfName hk name) fun h₁ key ⟨hk₁, ht₁, hnamed⟩ => ?_
    refine .bind (builds_resolvePattern target hk₁ fun p hp => ?_) fun h₂ r ⟨hk₂, ht₂, hr⟩ => ?_
    · exact hnames (p.under _) (List.mem_append_left _ (List.mem_map_of_mem hp))
    refine .bind (builds_resolveProperties rest hk₂ fun p hp => hnames p (List.mem_append_right _ hp))
      fun h₃ rs ⟨hk₃, ht₃, hrs⟩ => .pure ⟨hk₃, ?_, key, r, rs, rfl, (hnamed.next ht₂).next ht₃,
        Pattern.ResolvesTo.next ht₃ target hr, hrs⟩
    exact (ht₁.andThen ht₂).andThen ht₃

theorem builds_resolveElements : ∀ (elements : List (Option Pattern)) (i : Nat) {h : Heap}, h.WellKept →
    (∀ p ∈ elementStops i elements, p.kind ≠ .member) → m.Builds h (fun E => resolveElements E s elements)
      fun h' rs => h'.WellKept ∧ Heap.Untouched h h' ∧ elementsResolveTo h' s elements rs
  | [], _, h, hk, _ => by
    unfold resolveElements
    exact .pure ⟨hk, .refl _ _ h, rfl⟩
  | none :: rest, i, h, hk, hnames => by
    unfold resolveElements
    exact .bind (builds_resolveElements rest (i + 1) hk hnames) fun h' rs ⟨hk', ht, hrs⟩ => .pure ⟨hk', ht, rs, rfl, hrs⟩
  | some target :: rest, i, h, hk, hnames => by
    unfold resolveElements
    refine .bind (builds_resolvePattern target hk fun p hp => ?_) fun h₁ r ⟨hk₁, ht₁, hr⟩ => ?_
    · exact hnames (p.under _) (List.mem_append_left _ (List.mem_map_of_mem hp))
    exact .bind (builds_resolveElements rest (i + 1) hk₁ fun p hp => hnames p (List.mem_append_right _ hp))
      fun h₂ rs ⟨hk₂, ht₂, hrs⟩ => .pure ⟨hk₂, ht₁.andThen ht₂, r, rs, rfl,
        Pattern.ResolvesTo.next ht₂ target hr, hrs⟩

end

end ScriptCore
