import ScriptCore.Proofs.Drive.Asking
import ScriptCore.Proofs.Hiding.Names

/-! # The assignments that a pattern makes

Writing a value to a pattern takes the value apart and assigns what it finds to the names that the pattern binds, one
after the other. Between two assignments getters and setters may run, and any of them may be the last.

* `Reference.Assigns`, `Pattern.Assigns`: **the assignments that writing makes**, each on the machine that it finds.
* `Pattern.Assigns.makes`: the run of the writing is that of the assignment and what comes after it.
* `Pattern.Assigns.reached`: each assigns to a name that the pattern binds, in the scope of the pattern, and up to there
  no hidden object is shown.
* `Pattern.exists_assigns`: **a writing that ends well assigned to each name that the pattern binds.** -/

namespace ScriptCore

open Proc (Yields)

variable {α β σ : Type} {S : Scene} {h h' : Heap} {E : Engine} {m m' m₁ : Machine} {s : ScopeRef} {v : Value}

/-- A value that is assigned to a name in a scope, and the machine on which that begins. -/
structure Assignment where
  scope : ScopeRef
  name : String
  value : Value
  machine : Machine

mutual

/-- **Writing the value to the reference makes the assignment.** -/
def Reference.Assigns (E : Engine) (a : Assignment) (v : Value) : Reference → Machine → Prop
  | .binding scope name, m => a = ⟨scope, name, v, m⟩
  | .property _ _ _, _ => False
  | .object properties, m => propertiesAssign E a v properties m
  | .array elements, m => ∃ m₁, requireIterable v m = .done () m₁ ∧ elementsAssign E a v 0 elements m₁

/-- Writing the properties of the value to the targets of an object pattern makes the assignment. -/
def propertiesAssign (E : Engine) (a : Assignment) (v : Value) : List (PropertyKey × Reference) → Machine → Prop
  | [], _ => False
  | (key, target) :: rest, m => ∃ item m₁, getProperty E v key m = .done item m₁ ∧
      (target.Assigns E a item m₁ ∨ ∃ m₂, target.write E item m₁ = .done () m₂ ∧ propertiesAssign E a v rest m₂)

/-- Writing the elements of the value, from position `i` on, to the targets of an array pattern makes the
assignment. -/
def elementsAssign (E : Engine) (a : Assignment) (v : Value) (i : Nat) : List (Option Reference) → Machine → Prop
  | [], _ => False
  | none :: rest, m => elementsAssign E a v (i + 1) rest m
  | some target :: rest, m => ∃ item m₁, getProperty E v (.index i.toUInt32) m = .done item m₁ ∧
      (target.Assigns E a item m₁ ∨
        ∃ m₂, target.write E item m₁ = .done () m₂ ∧ elementsAssign E a v (i + 1) rest m₂)

end

/-- **Writing the value to the pattern makes the assignment.** -/
def Pattern.Assigns (E : Engine) (a : Assignment) (s : ScopeRef) (v : Value) (target : Pattern) (m : Machine) : Prop :=
  ∃ r m₁, resolvePattern E s target m = .done r m₁ ∧ r.Assigns E a v m₁

/-! ### Runs that come to an assignment -/

/-- **The run on `m` comes to the assignment**, and goes on from there. -/
def Run.Makes (E : Engine) (a : Assignment) (p : Run α) (m : Machine) : Prop :=
  ∃ rest : Unit → Run α, p m = (assignName E a.scope a.name a.value >>= rest) a.machine

namespace Run.Makes

variable {a : Assignment} {p : Run α} {f : α → Run β} {x : α}

theorem bind (hp : Makes E a p m) : Makes E a (p >>= f) m := by
  obtain ⟨rest, hrest⟩ := hp
  refine ⟨fun u => rest u >>= f, ?_⟩
  rw [← bind_assoc, Proc.bind_eq, Proc.bind_eq, hrest]

theorem after (hp : p m = .done x m₁) (hf : Makes E a (f x) m₁) : Makes E a (p >>= f) m := by
  obtain ⟨rest, hrest⟩ := hf
  exact ⟨rest, (Proc.bind_done hp f).trans hrest⟩

end Run.Makes

section Runs

variable {a : Assignment}

mutual

theorem Reference.Assigns.makes : ∀ (r : Reference) {v : Value} {m : Machine}, r.Assigns E a v m →
    Run.Makes E a (r.write E v) m
  | .binding scope name, v, m, h => by
    obtain rfl : a = ⟨scope, name, v, m⟩ := h
    exact ⟨pure, by rw [bind_pure, Reference.write]⟩
  | .property .., _, _, h => h.elim
  | .object properties, v, m, h => by
    unfold Reference.write
    exact makes_of_propertiesAssign properties h
  | .array elements, v, m, ⟨m₁, hiterable, h⟩ => by
    unfold Reference.write
    exact .after hiterable (makes_of_elementsAssign 0 elements h)

theorem makes_of_propertiesAssign : ∀ (properties : List (PropertyKey × Reference)) {v : Value} {m : Machine},
    propertiesAssign E a v properties m → Run.Makes E a (writeProperties E v properties) m
  | [], _, _, h => h.elim
  | (key, target) :: rest, v, m, ⟨item, m₁, hitem, h⟩ => by
    unfold writeProperties
    refine .after hitem ?_
    rcases h with htarget | ⟨m₂, hwritten, hrest⟩
    · exact .bind (Reference.Assigns.makes target htarget)
    · exact .after hwritten (makes_of_propertiesAssign rest hrest)

theorem makes_of_elementsAssign : ∀ (i : Nat) (elements : List (Option Reference)) {v : Value} {m : Machine},
    elementsAssign E a v i elements m → Run.Makes E a (writeElements E v i elements) m
  | _, [], _, _, h => h.elim
  | i, none :: rest, v, m, h => by
    unfold writeElements
    exact makes_of_elementsAssign (i + 1) rest h
  | i, some target :: rest, v, m, ⟨item, m₁, hitem, h⟩ => by
    unfold writeElements
    refine .after hitem ?_
    rcases h with htarget | ⟨m₂, hwritten, hrest⟩
    · exact .bind (Reference.Assigns.makes target htarget)
    · exact .after hwritten (makes_of_elementsAssign (i + 1) rest hrest)

end

/-- **Each assignment is part of the run.** -/
theorem Pattern.Assigns.makes {target : Pattern} (h : target.Assigns E a s v m) :
    Run.Makes E a (writePattern E s target v) m := by
  obtain ⟨r, m₁, hresolved, h⟩ := h
  exact .after hresolved h.makes

end Runs

/-! ### The names of a reference -/

mutual

/-- The names to which a reference writes, each with the scope from which it is bound. -/
def Reference.bindings : Reference → List (ScopeRef × String)
  | .binding scope name => [(scope, name)]
  | .property _ _ _ => []
  | .object properties => bindingsOfProperties properties
  | .array elements => bindingsOfElements elements

def bindingsOfProperties : List (PropertyKey × Reference) → List (ScopeRef × String)
  | [] => []
  | (_, target) :: rest => target.bindings ++ bindingsOfProperties rest

def bindingsOfElements : List (Option Reference) → List (ScopeRef × String)
  | [] => []
  | none :: rest => bindingsOfElements rest
  | some target :: rest => target.bindings ++ bindingsOfElements rest

end

mutual

/-- **A pattern becomes a reference to the names that it binds**, in its scope. -/
theorem yields_resolvePattern : ∀ target : Pattern,
    Yields (fun r => r.bindings = target.boundNames.map (s, ·)) (resolvePattern E s target)
  | .ident name => by
    unfold resolvePattern
    exact .pure rfl
  | .member base key => by
    unfold resolvePattern
    exact .bind fun _ => .bind fun _ => .bind fun _ => .pure rfl
  | .object properties => by
    unfold resolvePattern
    exact .bind_of (yields_resolveProperties properties) fun _ h => .pure h
  | .array elements => by
    unfold resolvePattern
    exact .bind_of (yields_resolveElements elements) fun _ h => .pure h

theorem yields_resolveProperties : ∀ properties : List (String × Pattern),
    Yields (fun rs => bindingsOfProperties rs = (boundNamesOfProperties properties).map (s, ·))
      (resolveProperties E s properties)
  | [] => by
    unfold resolveProperties
    exact .pure rfl
  | (name, target) :: rest => by
    unfold resolveProperties
    refine .bind fun key => .bind_of (yields_resolvePattern target) fun r hr => ?_
    refine .bind_of (yields_resolveProperties rest) fun rs hrs => .pure ?_
    rw [bindingsOfProperties, boundNamesOfProperties, List.map_append, hr, hrs]

theorem yields_resolveElements : ∀ elements : List (Option Pattern),
    Yields (fun rs => bindingsOfElements rs = (boundNamesOfElements elements).map (s, ·))
      (resolveElements E s elements)
  | [] => by
    unfold resolveElements
    exact .pure rfl
  | none :: rest => by
    unfold resolveElements
    exact .bind_of (yields_resolveElements rest) fun _ hrs => .pure hrs
  | some target :: rest => by
    unfold resolveElements
    refine .bind_of (yields_resolvePattern target) fun r hr => ?_
    refine .bind_of (yields_resolveElements rest) fun rs hrs => .pure ?_
    rw [bindingsOfElements, boundNamesOfElements, List.map_append, hr, hrs]

end

/-! ### Where assignments are made -/

/-- What a procedure that ends with a value leaves behind. -/
theorem Reticent.of_done {p : Run α} {Q : Heap → α → Prop} {x : α} (hp : Reticent S m.heap p Q) (hm : S.Holds m)
    (hdone : p m = .done x m₁) : m.heap.Shelters m₁.heap ∧ S.Holds m₁ ∧ Q m₁.heap x := by
  have hrun := hp m rfl hm
  rwa [hdone] at hrun

/-- The assignment is to one of the names, and up to there no hidden object was shown. -/
def Assignment.Reached (S : Scene) (h : Heap) (names : List (ScopeRef × String)) (a : Assignment) : Prop :=
  (a.scope, a.name) ∈ names ∧ h.Shelters a.machine.heap ∧ S.Holds a.machine

theorem Assignment.Reached.after {names names' : List (ScopeRef × String)} {a : Assignment}
    (ha : a.Reached S h' names) (hh : h.Shelters h') (hsub : names ⊆ names') : a.Reached S h names' :=
  ⟨hsub ha.1, hh.trans ha.2.1, ha.2.2⟩

section Reached

variable {a : Assignment}

mutual

/-- **A reference assigns to its names only**, and up to there no hidden object is shown. -/
theorem Reference.Assigns.reached (hE : E.Reticent S) : ∀ (r : Reference) {v : Value} {m : Machine},
    r.Clear m.heap → m.heap.Clear v → S.Holds m → r.Assigns E a v m → a.Reached S m.heap r.bindings
  | .binding scope name, v, m, _, _, hm, h => by
    obtain rfl : a = ⟨scope, name, v, m⟩ := h
    exact ⟨List.mem_singleton_self _, .refl _, hm⟩
  | .property .., _, _, _, _, _, h => h.elim
  | .object properties, v, m, hr, hv, hm, h => by
    cases hr with
    | object hproperties => exact reached_of_propertiesAssign hE properties hproperties hv hm h
  | .array elements, v, m, hr, hv, hm, ⟨m₁, hiterable, h⟩ => by
    cases hr with
    | array helements =>
      obtain ⟨hh, hm₁, -⟩ := (reticent_requireIterable v).of_done hm hiterable
      refine Assignment.Reached.after ?_ hh (List.Subset.refl _)
      exact reached_of_elementsAssign hE 0 elements (fun r hr => (helements r hr).next hh) (hh.clear hv) hm₁ h

theorem reached_of_propertiesAssign (hE : E.Reticent S) : ∀ (properties : List (PropertyKey × Reference))
    {v : Value} {m : Machine}, (∀ p ∈ properties, p.2.Clear m.heap) → m.heap.Clear v → S.Holds m →
      propertiesAssign E a v properties m → a.Reached S m.heap (bindingsOfProperties properties)
  | [], _, _, _, _, _, h => h.elim
  | (key, target) :: rest, v, m, hproperties, hv, hm, ⟨item, m₁, hitem, h⟩ => by
    obtain ⟨hh, hm₁, hclear⟩ := (reticent_getProperty hE hv).of_done hm hitem
    have htarget := (hproperties _ (List.mem_cons_self ..)).next hh
    rw [bindingsOfProperties]
    rcases h with h | ⟨m₂, hwritten, h⟩
    · exact (Reference.Assigns.reached hE target htarget hclear hm₁ h).after hh (List.subset_append_left _ _)
    · obtain ⟨hh₂, hm₂, -⟩ := (reticent_write hE target htarget hclear).of_done hm₁ hwritten
      have hboth := hh.trans hh₂
      refine Assignment.Reached.after ?_ hboth (List.subset_append_right _ _)
      exact reached_of_propertiesAssign hE rest (fun p hp => (hproperties p (List.mem_cons_of_mem _ hp)).next hboth)
        (hboth.clear hv) hm₂ h

theorem reached_of_elementsAssign (hE : E.Reticent S) : ∀ (i : Nat) (elements : List (Option Reference)) {v : Value}
    {m : Machine}, (∀ r, some r ∈ elements → r.Clear m.heap) → m.heap.Clear v → S.Holds m →
      elementsAssign E a v i elements m → a.Reached S m.heap (bindingsOfElements elements)
  | _, [], _, _, _, _, _, h => h.elim
  | i, none :: rest, v, m, helements, hv, hm, h =>
    reached_of_elementsAssign hE (i + 1) rest (fun r hr => helements r (List.mem_cons_of_mem _ hr)) hv hm h
  | i, some target :: rest, v, m, helements, hv, hm, ⟨item, m₁, hitem, h⟩ => by
    obtain ⟨hh, hm₁, hclear⟩ := (reticent_getProperty hE hv).of_done hm hitem
    have htarget := (helements _ (List.mem_cons_self ..)).next hh
    rw [bindingsOfElements]
    rcases h with h | ⟨m₂, hwritten, h⟩
    · exact (Reference.Assigns.reached hE target htarget hclear hm₁ h).after hh (List.subset_append_left _ _)
    · obtain ⟨hh₂, hm₂, -⟩ := (reticent_write hE target htarget hclear).of_done hm₁ hwritten
      have hboth := hh.trans hh₂
      refine Assignment.Reached.after ?_ hboth (List.subset_append_right _ _)
      exact reached_of_elementsAssign hE (i + 1) rest (fun r hr => (helements r (List.mem_cons_of_mem _ hr)).next hboth)
        (hboth.clear hv) hm₂ h

end

/-- **A pattern assigns to the names that it binds**, in its scope, and up to there no hidden object is shown. -/
theorem Pattern.Assigns.reached {target : Pattern} (h : target.Assigns E a s v m) (hE : E.Reticent S)
    (hs : m.heap.Clear s) (hv : m.heap.Clear v) (hm : S.Holds m) :
    a.scope = s ∧ a.name ∈ target.boundNames ∧ m.heap.Shelters a.machine.heap ∧ S.Holds a.machine := by
  obtain ⟨r, m₁, hresolved, h⟩ := h
  obtain ⟨hh, hm₁, hr⟩ := (reticent_resolvePattern hE target hs).of_done hm hresolved
  have hreached := (h.reached hE r hr (hh.clear hv) hm₁).after hh (List.Subset.refl _)
  rw [yields_resolvePattern target _ _ _ hresolved] at hreached
  obtain ⟨hmem, hreached⟩ := hreached
  obtain ⟨name, hname, heq⟩ := List.mem_map.mp hmem
  obtain ⟨rfl, rfl⟩ := Prod.mk.inj heq
  exact ⟨rfl, hname, hreached⟩

end Reached

/-! ### Every name is assigned to -/

/-- A sequence that ends with a value got past its first part. -/
theorem Proc.bind_eq_done {p : Proc σ α} {f : α → Proc σ β} {t t' : σ} {y : β} (hdone : (p >>= f) t = .done y t') :
    ∃ x t₁, p t = .done x t₁ ∧ f x t₁ = .done y t' := by
  cases hp : p t with
  | done x t₁ => exact ⟨x, t₁, rfl, (Proc.bind_done hp f).symm.trans hdone⟩
  | failed e t₁ => cases (Proc.bind_failed hp f).symm.trans hdone
  | stalled => cases (Proc.bind_stalled hp f).symm.trans hdone

mutual

/-- **A reference that was written assigned to each of its names.** -/
theorem Reference.exists_assigns : ∀ (r : Reference) {v : Value} {m m' : Machine}, r.write E v m = .done () m' →
    ∀ b ∈ r.bindings, ∃ a : Assignment, r.Assigns E a v m ∧ (a.scope, a.name) = b
  | .binding scope name, v, m, m', _, b, hb => by
    obtain rfl := List.mem_singleton.mp hb
    exact ⟨⟨scope, name, v, m⟩, rfl, rfl⟩
  | .property .., _, _, _, _, _, hb => absurd hb List.not_mem_nil
  | .object properties, v, m, m', hdone, b, hb => by
    unfold Reference.write at hdone
    exact exists_propertiesAssign properties hdone b hb
  | .array elements, v, m, m', hdone, b, hb => by
    unfold Reference.write at hdone
    obtain ⟨_, m₁, hiterable, hdone⟩ := Proc.bind_eq_done hdone
    obtain ⟨a, ha, hb⟩ := exists_elementsAssign 0 elements hdone b hb
    exact ⟨a, ⟨m₁, hiterable, ha⟩, hb⟩

theorem exists_propertiesAssign : ∀ (properties : List (PropertyKey × Reference)) {v : Value} {m m' : Machine},
    writeProperties E v properties m = .done () m' → ∀ b ∈ bindingsOfProperties properties,
      ∃ a : Assignment, propertiesAssign E a v properties m ∧ (a.scope, a.name) = b
  | [], _, _, _, _, _, hb => absurd hb List.not_mem_nil
  | (key, target) :: rest, v, m, m', hdone, b, hb => by
    unfold writeProperties at hdone
    obtain ⟨item, m₁, hitem, hdone⟩ := Proc.bind_eq_done hdone
    obtain ⟨_, m₂, hwritten, hdone⟩ := Proc.bind_eq_done hdone
    rw [bindingsOfProperties] at hb
    rcases List.mem_append.mp hb with hb | hb
    · obtain ⟨a, ha, hb⟩ := Reference.exists_assigns target hwritten b hb
      exact ⟨a, ⟨item, m₁, hitem, .inl ha⟩, hb⟩
    · obtain ⟨a, ha, hb⟩ := exists_propertiesAssign rest hdone b hb
      exact ⟨a, ⟨item, m₁, hitem, .inr ⟨m₂, hwritten, ha⟩⟩, hb⟩

theorem exists_elementsAssign : ∀ (i : Nat) (elements : List (Option Reference)) {v : Value} {m m' : Machine},
    writeElements E v i elements m = .done () m' → ∀ b ∈ bindingsOfElements elements,
      ∃ a : Assignment, elementsAssign E a v i elements m ∧ (a.scope, a.name) = b
  | _, [], _, _, _, _, _, hb => absurd hb List.not_mem_nil
  | i, none :: rest, v, m, m', hdone, b, hb => by
    unfold writeElements at hdone
    exact exists_elementsAssign (i + 1) rest hdone b hb
  | i, some target :: rest, v, m, m', hdone, b, hb => by
    unfold writeElements at hdone
    obtain ⟨item, m₁, hitem, hdone⟩ := Proc.bind_eq_done hdone
    obtain ⟨_, m₂, hwritten, hdone⟩ := Proc.bind_eq_done hdone
    rw [bindingsOfElements] at hb
    rcases List.mem_append.mp hb with hb | hb
    · obtain ⟨a, ha, hb⟩ := Reference.exists_assigns target hwritten b hb
      exact ⟨a, ⟨item, m₁, hitem, .inl ha⟩, hb⟩
    · obtain ⟨a, ha, hb⟩ := exists_elementsAssign (i + 1) rest hdone b hb
      exact ⟨a, ⟨item, m₁, hitem, .inr ⟨m₂, hwritten, ha⟩⟩, hb⟩

end

/-- **A writing that ends well assigned to each name that the pattern binds.** -/
theorem Pattern.exists_assigns {target : Pattern} (hdone : writePattern E s target v m = .done () m') {name : String}
    (hname : name ∈ target.boundNames) : ∃ a, target.Assigns E a s v m ∧ a.name = name := by
  unfold writePattern at hdone
  obtain ⟨r, m₁, hresolved, hdone⟩ := Proc.bind_eq_done hdone
  have hmem : (s, name) ∈ r.bindings := by
    rw [yields_resolvePattern target _ _ _ hresolved]
    exact List.mem_map.mpr ⟨name, hname, rfl⟩
  obtain ⟨a, ha, heq⟩ := r.exists_assigns hdone _ hmem
  exact ⟨a, ⟨r, m₁, hresolved, ha⟩, (Prod.mk.inj heq).2⟩

end ScriptCore
