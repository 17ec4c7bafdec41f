import ScriptCore.Reference
import ScriptCore.Proofs.Renaming.Scopes

/-! # References go alike

Resolving a pattern evaluates the bases and keys of its targets, and writing takes a value apart. Both
recurse over the pattern, so what is proved of them is proved by the same recursion.

* `sim_resolvePattern`: patterns resolve to references that are alike.
* `sim_write`: writing values that are alike to references that are.
* `sim_writePattern`: one after the other. -/

namespace ScriptCore

variable {M : Mode} {ρ ρ' : Renaming} {E₁ E₂ : Engine}

/-! ### References that are alike -/

mutual

/-- Places of the same shape, with scopes, bases and keys that are alike. -/
inductive Reference.Alike (ρ : Renaming) : Reference → Reference → Prop where
  | binding {s t : ScopeRef} (h : Renamable.Alike ρ s t) (name : String) :
      Reference.Alike ρ (.binding s name) (.binding t name)
  | property {v w : Value} {k l : PropertyKey} (hv : Renamable.Alike ρ v w)
      (hk : Renamable.Alike ρ k l) (strict : Bool) :
      Reference.Alike ρ (.property v k strict) (.property w l strict)
  | object {ps qs : List (PropertyKey × Reference)} (h : TargetsAlike ρ ps qs) :
      Reference.Alike ρ (.object ps) (.object qs)
  | array {as bs : List (Option Reference)} (h : PlacesAlike ρ as bs) :
      Reference.Alike ρ (.array as) (.array bs)

/-- Targets of object patterns, one by one. -/
inductive TargetsAlike (ρ : Renaming) :
    List (PropertyKey × Reference) → List (PropertyKey × Reference) → Prop where
  | nil : TargetsAlike ρ [] []
  | cons {k l : PropertyKey} {r s : Reference} {ps qs : List (PropertyKey × Reference)}
      (hk : Renamable.Alike ρ k l) (hr : Reference.Alike ρ r s) (h : TargetsAlike ρ ps qs) :
      TargetsAlike ρ ((k, r) :: ps) ((l, s) :: qs)

/-- Targets of array patterns, one by one. -/
inductive PlacesAlike (ρ : Renaming) :
    List (Option Reference) → List (Option Reference) → Prop where
  | nil : PlacesAlike ρ [] []
  | skip {as bs : List (Option Reference)} (h : PlacesAlike ρ as bs) :
      PlacesAlike ρ (none :: as) (none :: bs)
  | cons {r s : Reference} {as bs : List (Option Reference)} (hr : Reference.Alike ρ r s)
      (h : PlacesAlike ρ as bs) : PlacesAlike ρ (some r :: as) (some s :: bs)

end

mutual

theorem Reference.Alike.mono : ∀ {r s : Reference}, Reference.Alike ρ r s → ρ ≤ ρ' →
    Reference.Alike ρ' r s
  | .binding .., _, .binding h name, hρ => .binding (h.mono hρ) name
  | .property .., _, .property hv hk strict, hρ => .property (hv.mono hρ) (hk.mono hρ) strict
  | .object _, _, .object h, hρ => .object (h.mono hρ)
  | .array _, _, .array h, hρ => .array (h.mono hρ)

theorem TargetsAlike.mono : ∀ {ps qs : List (PropertyKey × Reference)}, TargetsAlike ρ ps qs →
    ρ ≤ ρ' → TargetsAlike ρ' ps qs
  | [], _, .nil, _ => .nil
  | _ :: _, _, .cons hk hr h, hρ => .cons (hk.mono hρ) (hr.mono hρ) (h.mono hρ)

theorem PlacesAlike.mono : ∀ {as bs : List (Option Reference)}, PlacesAlike ρ as bs →
    ρ ≤ ρ' → PlacesAlike ρ' as bs
  | [], _, .nil, _ => .nil
  | none :: _, _, .skip h, hρ => .skip (h.mono hρ)
  | some _ :: _, _, .cons hr h, hρ => .cons (hr.mono hρ) (h.mono hρ)

end

/-! ### Writing -/

theorem sim_requireIterable {v w : Value} (hv : Alike ρ v w) :
    Sim M ρ Alike (requireIterable v) (requireIterable w) := by
  have refuse : Sim M ρ Alike
      (do throw (.typeError s!"{← Run.readHeap fun h => h.describe v} is not iterable") : Run Unit)
      (do throw (.typeError s!"{← Run.readHeap fun h => h.describe w} is not iterable")) := by
    refine (Sim.readHeap fun _ hρ _ _ hh => hh.describe (hv.mono hρ)).bind fun ρ₁ _ a b hab => ?_
    obtain rfl : a = b := hab
    exact .fail (.same rfl nofun)
  cases hv with
  | undefined => exact refuse
  | null => exact refuse
  | _ => exact .pure rfl

mutual

/-- **Writing values that are alike to references that are.** -/
theorem sim_write (hE : Engine.Sim M E₁ E₂) : ∀ (r s : Reference) (ρ : Renaming) (v w : Value),
    Reference.Alike ρ r s → Alike ρ v w → Sim M ρ Alike (r.write E₁ v) (s.write E₂ w)
  | .binding _ _, _, _, _, _, .binding hs name, hv => sim_assignName hE name hs hv
  | .property _ _ _, _, _, _, _, .property hb hk strict, hv =>
    (sim_setMember hE strict hb hk hv).discard
  | .object ps, _, _, v, w, .object h, hv => sim_writeProperties hE ps _ _ v w h hv
  | .array as, _, _, v, w, .array h, hv =>
    (sim_requireIterable hv).bind fun ρ₁ hρ₁ _ _ _ =>
      sim_writeElements hE as _ ρ₁ v w 0 (h.mono hρ₁) (hv.mono hρ₁)

theorem sim_writeProperties (hE : Engine.Sim M E₁ E₂) :
    ∀ (ps qs : List (PropertyKey × Reference)) (ρ : Renaming) (v w : Value), TargetsAlike ρ ps qs → Alike ρ v w →
    Sim M ρ Alike (writeProperties E₁ v ps) (writeProperties E₂ w qs)
  | [], _, _, _, _, .nil, _ => .pure rfl
  | (_, r) :: ps, _, _, v, w, .cons hk hr h, hv =>
    (sim_getProperty hv hk).bind fun ρ₁ hρ₁ x y hxy =>
      (sim_write hE r _ ρ₁ x y (hr.mono hρ₁) hxy).bind fun ρ₂ hρ₂ _ _ _ =>
        sim_writeProperties hE ps _ ρ₂ v w (h.mono (hρ₁.trans hρ₂)) (hv.mono (hρ₁.trans hρ₂))

theorem sim_writeElements (hE : Engine.Sim M E₁ E₂) :
    ∀ (as bs : List (Option Reference)) (ρ : Renaming) (v w : Value) (i : Nat), PlacesAlike ρ as bs → Alike ρ v w →
    Sim M ρ Alike (writeElements E₁ v i as) (writeElements E₂ w i bs)
  | [], _, _, _, _, _, .nil, _ => .pure rfl
  | none :: as, _, ρ, v, w, i, .skip h, hv => sim_writeElements hE as _ ρ v w (i + 1) h hv
  | some r :: as, _, _, v, w, i, .cons hr h, hv =>
    (sim_getProperty hv (.index _)).bind fun ρ₁ hρ₁ x y hxy =>
      (sim_write hE r _ ρ₁ x y (hr.mono hρ₁) hxy).bind fun ρ₂ hρ₂ _ _ _ =>
        sim_writeElements hE as _ ρ₂ v w (i + 1) (h.mono (hρ₁.trans hρ₂)) (hv.mono (hρ₁.trans hρ₂))

end

/-! ### Resolving -/

theorem alike_value {c d : Completion} (h : Alike ρ c d) : Alike ρ c.value d.value := by
  cases h with
  | normal h => exact alike_getD h .undefined
  | thrown h => exact h
  | returned h => exact h
  | broken _ h => exact alike_getD h .undefined
  | continued _ h => exact alike_getD h .undefined

theorem alike_expression (e : Expr) {s t : ScopeRef} (hs : Alike ρ s t) :
    Alike ρ (BranchRequest.expression e s) (.expression e t) :=
  ⟨hs, ⟨.none, .none, rfl, rfl, rfl⟩, rfl, rfl⟩

theorem sim_evaluate (hE : Engine.Sim M E₁ E₂) (e : Expr) {s t : ScopeRef} (hs : Alike ρ s t) :
    Sim M ρ (fun ρ (c d : Completion) => Alike ρ c.value d.value)
      (E₁.evaluate (.expression e s)) (E₂.evaluate (.expression e t)) :=
  (hE.evaluate (alike_expression e hs)).conseq fun _ _ _ _ => alike_value

theorem sim_resolveKey (hE : Engine.Sim M E₁ E₂) (key : MemberKey) {s t : ScopeRef}
    (hs : Alike ρ s t) : Sim M ρ Alike (resolveKey E₁ s key) (resolveKey E₂ t key) := by
  cases key with
  | named name => exact (Heap.sim_keyOfName name).onHeap
  | computed e => exact (sim_evaluate hE e hs).bind fun _ _ _ _ hv => sim_toPropertyKey hE hv

mutual

/-- **Patterns resolve to references that are alike.** -/
theorem sim_resolvePattern (hE : Engine.Sim M E₁ E₂) : ∀ (p : Pattern) (ρ : Renaming) (s t : ScopeRef),
    Alike ρ s t → Sim M ρ Reference.Alike (resolvePattern E₁ s p) (resolvePattern E₂ t p)
  | .ident name, _, _, _, hs => .pure_of fun _ hρ => .binding (hs.mono hρ) name
  | .member base key, _, s, t, hs => by
    refine (sim_evaluate hE base hs).bind fun ρ₁ hρ₁ c d hv => ?_
    refine (sim_resolveKey hE key (hs.mono hρ₁)).bind fun ρ₂ hρ₂ k l hk => ?_
    refine (Sim.readHeap fun _ hρ _ _ hh =>
      hh.scopeIsStrict (hs.mono ((hρ₁.trans hρ₂).trans hρ))).bind fun ρ₃ hρ₃ x y hxy => ?_
    obtain rfl : x = y := hxy
    have hv := hv.mono (hρ₂.trans hρ₃)
    exact .pure_of fun _ hρ => .property (hv.mono hρ) (hk.mono (hρ₃.trans hρ)) x
  | .object ps, ρ, s, t, hs =>
    (sim_resolveProperties hE ps ρ s t hs).bind fun _ _ _ _ h => .pure_of fun _ hρ => .object (h.mono hρ)
  | .array as, ρ, s, t, hs =>
    (sim_resolveElements hE as ρ s t hs).bind fun _ _ _ _ h => .pure_of fun _ hρ => .array (h.mono hρ)

theorem sim_resolveProperties (hE : Engine.Sim M E₁ E₂) :
    ∀ (ps : List (String × Pattern)) (ρ : Renaming) (s t : ScopeRef), Alike ρ s t →
    Sim M ρ TargetsAlike (resolveProperties E₁ s ps) (resolveProperties E₂ t ps)
  | [], _, _, _, _ => .pure_of fun _ _ => .nil
  | (name, p) :: ps, _, s, t, hs => by
    refine (Heap.sim_keyOfName name).onHeap.bind fun ρ₁ hρ₁ k l hk => ?_
    refine (sim_resolvePattern hE p ρ₁ s t (hs.mono hρ₁)).bind fun ρ₂ hρ₂ r q hr => ?_
    refine (sim_resolveProperties hE ps ρ₂ s t (hs.mono (hρ₁.trans hρ₂))).bind fun ρ₃ hρ₃ _ _ h => ?_
    exact .pure_of fun _ hρ => .cons (hk.mono (hρ₂.trans (hρ₃.trans hρ))) (hr.mono (hρ₃.trans hρ))
      (h.mono hρ)

theorem sim_resolveElements (hE : Engine.Sim M E₁ E₂) :
    ∀ (as : List (Option Pattern)) (ρ : Renaming) (s t : ScopeRef), Alike ρ s t →
    Sim M ρ PlacesAlike (resolveElements E₁ s as) (resolveElements E₂ t as)
  | [], _, _, _, _ => .pure_of fun _ _ => .nil
  | none :: as, ρ, s, t, hs =>
    (sim_resolveElements hE as ρ s t hs).bind fun _ _ _ _ h => .pure_of fun _ hρ => .skip (h.mono hρ)
  | some p :: as, ρ, s, t, hs => by
    refine (sim_resolvePattern hE p ρ s t hs).bind fun ρ₁ hρ₁ r q hr => ?_
    refine (sim_resolveElements hE as ρ₁ s t (hs.mono hρ₁)).bind fun ρ₂ hρ₂ _ _ h => ?_
    exact .pure_of fun _ hρ => .cons (hr.mono (hρ₂.trans hρ)) (h.mono hρ)

end

theorem sim_writePattern (hE : Engine.Sim M E₁ E₂) (p : Pattern) {s t : ScopeRef} {v w : Value}
    (hs : Alike ρ s t) (hv : Alike ρ v w) : Sim M ρ Alike (writePattern E₁ s p v) (writePattern E₂ t p w) :=
  (sim_resolvePattern hE p ρ s t hs).bind fun ρ₁ hρ₁ r q hr =>
    sim_write hE r q ρ₁ v w hr (hv.mono hρ₁)

end ScriptCore
