import ScriptCore.Proofs.Calls.Programs
import ScriptCore.Proofs.Object.Assignment

/-! # Parameters and arguments share cells, and nothing else does

In every world that programs come to, two properties share a cell only if one is the binding of a parameter and
the other the argument at its position, in one sloppy call; a simple parameter shares its cell with its argument
from the start of the body on, for as long as the argument was not deleted. A parameter after a rest parameter is
never bound.

* `World.Shares`: **who shares cells**, in one world.
* `Call.Continues`, `World.Comes.call`, `World.Comes.origin`: calls stay on record until their bindings are
  collected, and are put on record when they were set up.
* `Machine.Comes.sharing`: **who shares cells, in every state of every run** on a new machine.
* `after_rest_unshared`: a parameter after a rest parameter shares nothing. -/

namespace ScriptCore

open Heap (Stays refers_iff object_eq_ok)

variable {S : Setting} {w w' w₁ w₂ : World} {label : List Handle} {host : Host} {forbids : String → Prop}
  {m₀ m m' : Machine} {k k' k'' : Call} {p q : World → Prop} {o : ObjectRef} {key : PropertyKey} {c : CellRef}
  {reported : List Handle}

/-! ### Who shares cells -/

/-- The property of the first object is the binding of the parameter at position `i`, that of the second the
argument at this position. -/
structure Call.Pairs (k : Call) (h : Heap) (i : Nat) (o : ObjectRef) (key : PropertyKey) (o' : ObjectRef)
    (key' : PropertyKey) : Prop where
  binding : o = k.bindings
  parameter : k.Names h i key
  argument : k.arguments = some o'
  position : key' = .index i.toUInt32 ∧ i < UInt32.size

/-- **Who shares cells.** -/
structure World.Shares (w : World) : Prop where
  /-- Two properties that share a cell are a parameter and its argument, in one sloppy call. -/
  pair : ∀ o key o' key' c, w.heap.Refers o key c → w.heap.Refers o' key' c → ¬ (o = o' ∧ key = key') →
    ∃ k ∈ w.calls, k.strict = false ∧ ∃ i, k.Pairs w.heap i o key o' key' ∨ k.Pairs w.heap i o' key' o key
  /-- No three properties share a cell. -/
  two : ∀ o₁ key₁ o₂ key₂ o₃ key₃ c, w.heap.Refers o₁ key₁ c → w.heap.Refers o₂ key₂ c → w.heap.Refers o₃ key₃ c →
    (o₁ = o₂ ∧ key₁ = key₂) ∨ (o₁ = o₃ ∧ key₁ = key₃) ∨ (o₂ = o₃ ∧ key₂ = key₃)
  /-- A strict call shares neither bindings nor arguments with anything. -/
  strict : ∀ k ∈ w.calls, k.strict = true → ∀ o, o = k.bindings ∨ k.arguments = some o → ∀ key c o' key',
    w.heap.Refers o key c → w.heap.Refers o' key' c → o' = o ∧ key' = key
  /-- No two calls share a binding. -/
  apart : ∀ k ∈ w.calls, ∀ k' ∈ w.calls, k ≠ k' → k.bindings ≠ k'.bindings ∧
    ∀ key key' c, w.heap.Refers k.bindings key c → ¬ w.heap.Refers k'.bindings key' c
  /-- From the start of the body on, a simple parameter of a sloppy call whose name no later parameter binds is
  the property that its argument is, unless that was deleted. It can be written. -/
  parameters : ∀ k ∈ w.calls, k.started = true → k.strict = false → ∀ i name, k.function.Binds i name →
    ∀ a, k.arguments = some a → .index i.toUInt32 ∉ k.lost →
      ∃ key c d, w.heap.Spells key name ∧ w.heap.Refers k.bindings key c ∧
        w.heap.Refers a (.index i.toUInt32) c ∧ w.heap.ownProperty k.bindings key = .ok (some d) ∧
        w.heap.ownProperty a (.index i.toUInt32) = .ok (some d) ∧ d.isWritable = true

theorem Heap.Refers.ownProperty {h : Heap} {d : Descriptor} (hr : h.Refers o key c) (hc : h.cell c = .ok d) :
    h.ownProperty o key = .ok (some d) := ownProperty_eq_some.mpr ⟨c, hr, hc⟩

namespace World.Lawful

theorem pair_calls (hw : w.Lawful S) {o' : ObjectRef} {key' : PropertyKey} (hr : w.heap.Refers o key c)
    (hr' : w.heap.Refers o' key' c) (hne : ¬ (o = o' ∧ key = key')) :
    ∃ k ∈ w.calls, k.strict = false ∧ ∃ i, k.HasCell i c ∧
      (k.Pairs w.heap i o key o' key' ∨ k.Pairs w.heap i o' key' o key) := by
  obtain ⟨k, hk, i, hc, hsloppy, hpair⟩ := hw.pair hr hr' hne
  have hi : i < UInt32.size := lt_of_lt_of_le (List.getElem?_eq_some_iff.mp hc).1 (hw.calls k hk).length.le
  refine ⟨k, hk, hsloppy, i, hc, hpair.imp ?_ ?_⟩
  · exact fun ⟨ho, hnames, ha, hkey⟩ => ⟨ho, hnames, ha, hkey, hi⟩
  · exact fun ⟨ho, hnames, ha, hkey⟩ => ⟨ho, hnames, ha, hkey, hi⟩

/-- A binding of a call shares its cell with nothing but an argument of the same call. -/
theorem binding_shared (hw : w.Lawful S) (hk : k ∈ w.calls) {o' : ObjectRef} {key' : PropertyKey}
    (hr : w.heap.Refers k.bindings key c) (hr' : w.heap.Refers o' key' c) (hne : ¬ (k.bindings = o' ∧ key = key')) :
    k.strict = false ∧ k.arguments = some o' := by
  obtain ⟨k', hk', hsloppy, i, -, hpair | hpair⟩ := hw.pair_calls hr hr' hne
  · obtain rfl := hw.bindings k hk k' hk' hpair.binding
    exact ⟨hsloppy, hpair.argument⟩
  · exact absurd ((hw.calls k' hk').arguments _ hpair.argument).2.1 (hw.calls k hk).bindings.not_public

/-- An argument of a call shares its cell with nothing but a binding of the same call. -/
theorem argument_shared (hw : w.Lawful S) (hk : k ∈ w.calls) {o' : ObjectRef} {key' : PropertyKey}
    (ha : k.arguments = some o) (hr : w.heap.Refers o key c) (hr' : w.heap.Refers o' key' c)
    (hne : ¬ (o = o' ∧ key = key')) : k.strict = false ∧ o' = k.bindings := by
  obtain ⟨k', hk', hsloppy, i, -, hpair | hpair⟩ := hw.pair_calls hr hr' hne
  · exact absurd ((hw.calls k hk).arguments _ ha).2.1 (hpair.binding ▸ (hw.calls k' hk').bindings).not_public
  · obtain rfl := hw.arguments k hk k' hk' o ha hpair.argument
    exact ⟨hsloppy, hpair.binding⟩

/-- **Who shares cells**, in a lawful world. -/
theorem shares (hw : w.Lawful S) : w.Shares where
  pair o key o' key' c hr hr' hne := by
    obtain ⟨k, hk, hsloppy, i, -, hpair⟩ := hw.pair_calls hr hr' hne
    exact ⟨k, hk, hsloppy, i, hpair⟩
  two o₁ key₁ o₂ key₂ o₃ key₃ c h₁ h₂ h₃ := by
    by_contra hall
    obtain ⟨h₁₂, h₁₃, h₂₃⟩ : ¬ (o₁ = o₂ ∧ key₁ = key₂) ∧ ¬ (o₁ = o₃ ∧ key₁ = key₃) ∧ ¬ (o₂ = o₃ ∧ key₂ = key₃) := by
      rwa [not_or, not_or] at hall
    -- of a binding and its argument, each shares its cell with the other only
    obtain ⟨k, hk, -, i, hcell, hpair | hpair⟩ := hw.pair_calls h₁ h₂ h₁₂
    · obtain ⟨rfl, -, harg, -⟩ := hpair
      obtain ⟨-, harg₃⟩ := hw.binding_shared hk h₁ h₃ h₁₃
      obtain ⟨-, hbind⟩ := hw.argument_shared hk harg h₂ h₃ h₂₃
      exact absurd ((hw.calls k hk).arguments _ harg₃).2.1 (hbind ▸ (hw.calls k hk).bindings).not_public
    · obtain ⟨rfl, -, harg, -⟩ := hpair
      obtain ⟨-, harg₃⟩ := hw.binding_shared hk h₂ h₃ h₂₃
      obtain ⟨-, hbind⟩ := hw.argument_shared hk harg h₁ h₃ h₁₃
      exact absurd ((hw.calls k hk).arguments _ harg₃).2.1 (hbind ▸ (hw.calls k hk).bindings).not_public
  strict k hk hstrict o ho key c o' key' hr hr' := by
    by_contra hne
    have hne' : ¬ (o = o' ∧ key = key') := fun h => hne ⟨h.1.symm, h.2.symm⟩
    have hsloppy : k.strict = false := by
      rcases ho with rfl | ha
      · exact (hw.binding_shared hk hr hr' hne').1
      · exact (hw.argument_shared hk ha hr hr' hne').1
    rw [hstrict] at hsloppy
    cases hsloppy
  apart k hk k' hk' hne := by
    have hobjects : k.bindings ≠ k'.bindings := fun h => hne (hw.bindings k hk k' hk' h)
    refine ⟨hobjects, fun key key' c hr hr' => ?_⟩
    obtain ⟨-, ha⟩ := hw.binding_shared hk hr hr' fun h => hobjects h.1
    exact (hw.calls k' hk').bindings.not_public ((hw.calls k hk).arguments _ ha).2.1
  parameters k hk hstarted hsloppy i name hbinds a ha hlost := by
    obtain ⟨c, key, hcell, hspells, hr⟩ := (hw.calls k hk).bound hstarted hsloppy i name hbinds
    have hi : i < k.cells.length := (List.getElem?_eq_some_iff.mp hcell).1
    obtain ⟨c', hcell', hr'⟩ := (hw.calls k hk).slots hsloppy a i ha hi hlost
    cases hcell.symm.trans hcell'
    obtain ⟨d, hd, hwritable⟩ := (hw.calls k hk).cell i c hcell
    exact ⟨key, c, d, hspells, hr, hr', hr.ownProperty hd, hr'.ownProperty hd, hwritable⟩

end World.Lawful

/-! ### What becomes of the calls -/

/-- **What becomes of a call on record.** Where something is missing from the record, or a key is lost, `p` holds
of a world in which this was seen. -/
structure Call.Continues (p : World → Prop) (k k' : Call) : Prop where
  function : k'.function = k.function
  strict : k'.strict = k.strict
  bindings : k'.bindings = k.bindings
  started : k.started = true → k'.started = true
  arguments : ∀ a, k.arguments = some a → k'.arguments = some a ∨ ∃ w, p w ∧ w.heap.block? a.handle = none
  kept : ∀ a, k'.arguments = some a → k.arguments = some a
  lost : ∀ key ∈ k'.lost, key ∈ k.lost ∨ ∃ w a, p w ∧ k.arguments = some a ∧ w.heap.ownCell a key = .ok none

namespace Call.Continues

theorem refl (p : World → Prop) (k : Call) : k.Continues p k :=
  ⟨rfl, rfl, rfl, id, fun _ => .inl, fun _ => id, fun _ => .inl⟩

theorem trans (hk : k.Continues p k') (hk' : k'.Continues p k'') : k.Continues p k'' where
  function := hk'.function.trans hk.function
  strict := hk'.strict.trans hk.strict
  bindings := hk'.bindings.trans hk.bindings
  started hs := hk'.started (hk.started hs)
  arguments a ha := (hk.arguments a ha).elim (hk'.arguments a) .inr
  kept a ha := hk.kept a (hk'.kept a ha)
  lost key hkey := by
    rcases hk'.lost key hkey with hold | ⟨w, a, hp, ha, hnone⟩
    · exact hk.lost key hold
    · exact .inr ⟨w, a, hp, hk.kept a ha, hnone⟩

theorem mono (hk : k.Continues p k') (hpq : ∀ w, p w → q w) : k.Continues q k' :=
  { hk with
    arguments := fun a ha => (hk.arguments a ha).imp_right fun ⟨w, hp, hnone⟩ => ⟨w, hpq w hp, hnone⟩
    lost := fun key hkey => (hk.lost key hkey).imp_right fun ⟨w, a, hp, hrest⟩ => ⟨w, a, hpq w hp, hrest⟩ }

theorem start (p : World → Prop) (k : Call) (b : ObjectRef) : k.Continues p (k.start b) := by
  unfold Call.start
  split
  · exact ⟨rfl, rfl, rfl, fun _ => rfl, fun _ => .inl, fun _ => id, fun _ => .inl⟩
  · exact .refl p k

/-- A key that is lost was seen missing. -/
theorem lose (hp : p w) (hnone : w.heap.ownCell o key = .ok none) (k : Call) : k.Continues p (k.lose o key) := by
  unfold Call.lose
  split
  · next ha =>
    refine ⟨rfl, rfl, rfl, id, fun _ => .inl, fun _ => id, fun key' hkey' => ?_⟩
    rcases List.mem_cons.mp hkey' with rfl | hold
    · exact .inr ⟨w, o, hp, ha, hnone⟩
    · exact .inl hold
  · exact .refl p k

/-- What is forgotten was seen missing. -/
theorem sweep {h : Heap} (hp : p w) (hheap : w.heap = h) (k : Call) : k.Continues p (k.sweep h) := by
  refine ⟨rfl, rfl, rfl, id, fun a ha => ?_, fun a ha => (arguments_sweep.mp ha).1, fun _ => .inl⟩
  cases hlive : h.block? a.handle with
  | none => exact .inr ⟨w, hp, hheap ▸ hlive⟩
  | some b => exact .inl (arguments_sweep.mpr ⟨ha, by rw [hlive]; rfl⟩)

end Call.Continues

/-- **One act and the calls**: those on record go on, and any other was set up just now. -/
theorem Act.calls (ha : Act S w label w') :
    (∀ k ∈ w.calls, ∃ k' ∈ w'.calls, k.Continues (· = w') k') ∧
      ∀ k' ∈ w'.calls, (∃ k ∈ w.calls, k.Continues (· = w') k') ∨ k'.Opens S.realm w'.heap := by
  have hmapped : ∀ {h : Heap} {f : Call → Call}, (∀ k : Call, k.Continues (· = w') (f k)) →
      w' = ⟨h, w.calls.map f⟩ → (∀ k ∈ w.calls, ∃ k' ∈ w'.calls, k.Continues (· = w') k') ∧
        ∀ k' ∈ w'.calls, (∃ k ∈ w.calls, k.Continues (· = w') k') ∨ k'.Opens S.realm w'.heap := by
    intro h f hf heq
    have hcalls : w'.calls = w.calls.map f := by rw [heq]
    rw [hcalls]
    refine ⟨fun k hk => ⟨f k, List.mem_map_of_mem hk, hf k⟩, fun k' hk' => ?_⟩
    obtain ⟨k, hk, rfl⟩ := List.mem_map.mp hk'
    exact .inl ⟨k, hk, hf k⟩
  have hsame : w'.calls = w.calls → (∀ k ∈ w.calls, ∃ k' ∈ w'.calls, k.Continues (· = w') k') ∧
      ∀ k' ∈ w'.calls, (∃ k ∈ w.calls, k.Continues (· = w') k') ∨ k'.Opens S.realm w'.heap := by
    intro heq
    rw [heq]
    exact ⟨fun k hk => ⟨k, hk, .refl _ k⟩, fun k hk => .inl ⟨k, hk, .refl _ k⟩⟩
  cases ha with
  | @deleted o obj key c d ho =>
    have hnone : (w.putObject o { obj with properties := obj.properties.erase key }).heap.ownCell o key = .ok none := by
      refine Heap.ownCell_eq_ok.mpr ⟨_, by rw [World.putObject, Heap.object_put_object ho, if_pos rfl], ?_⟩
      rw [PropertyMap.find?_erase, if_pos rfl]
    refine hmapped (f := fun k => k.lose o key) (fun k => ?_) rfl
    refine Call.Continues.lose (p := (· = _)) rfl ?_ k
    exact hnone
  | @started b => exact hmapped (fun k => .start _ k b) rfl
  | @entered k hk hopens =>
    refine ⟨fun k' hk' => ⟨k', List.mem_cons_of_mem _ hk', .refl _ k'⟩, fun k' hk' => ?_⟩
    rcases List.mem_cons.mp hk' with rfl | hold
    · exact .inr hopens
    · exact .inl ⟨k', hold, .refl _ k'⟩
  | _ => exact hsame rfl

/-- **A collection and the calls**: those go on whose bindings are left. -/
theorem World.sweep_calls (w : World) (reported : List Handle) :
    (∀ k ∈ w.calls, (w.sweep reported).heap.block? k.bindings.handle = none ∨
      ∃ k' ∈ (w.sweep reported).calls, k.Continues (· = w.sweep reported) k') ∧
      ∀ k' ∈ (w.sweep reported).calls, ∃ k ∈ w.calls, k.Continues (· = w.sweep reported) k' := by
  refine ⟨fun k hk => ?_, fun k' hk' => ?_⟩
  · cases hlive : (w.sweep reported).heap.block? k.bindings.handle with
    | none => exact .inl rfl
    | some b => exact .inr ⟨_, sweep_mem hk (Option.isSome_of_eq_some hlive), .sweep (p := (· = _)) rfl rfl k⟩
  · obtain ⟨k, hk, -, rfl⟩ := mem_shrink hk'
    exact ⟨k, hk, .sweep (p := (· = _)) rfl rfl k⟩

/-- A world on the way from one to another. -/
def World.Passes (S : Setting) (w w' w₁ : World) : Prop := w.Comes S w₁ ∧ w₁.Comes S w'

namespace World.Comes

/-- **A call stays on record** until the object in which it binds names is collected. -/
theorem call (hw : w.Comes S w') (hk : k ∈ w.calls) :
    (∃ w₁, w.Passes S w' w₁ ∧ w₁.heap.block? k.bindings.handle = none) ∨
      ∃ k' ∈ w'.calls, k.Continues (w.Passes S w') k' := by
  -- one step more: what was seen on the way before is on the way still
  have step : ∀ {w₁ w₂ : World}, w.Comes S w₁ → w₁.Comes S w₂ →
      (∀ k₁ ∈ w₁.calls, w₂.heap.block? k₁.bindings.handle = none ∨ ∃ k₂ ∈ w₂.calls, k₁.Continues (· = w₂) k₂) →
      ((∃ w', w.Passes S w₁ w' ∧ w'.heap.block? k.bindings.handle = none) ∨
        ∃ k' ∈ w₁.calls, k.Continues (w.Passes S w₁) k') →
      (∃ w', w.Passes S w₂ w' ∧ w'.heap.block? k.bindings.handle = none) ∨
        ∃ k' ∈ w₂.calls, k.Continues (w.Passes S w₂) k' := by
    intro w₁ w₂ hw₁ hw₂ hnext
    rintro (⟨w', hpass, hnone⟩ | ⟨k₁, hk₁, hcont⟩)
    · exact .inl ⟨w', ⟨hpass.1, hpass.2.trans hw₂⟩, hnone⟩
    · rcases hnext k₁ hk₁ with hnone | ⟨k₂, hk₂, hcont₂⟩
      · exact .inl ⟨w₂, ⟨hw₁.trans hw₂, .refl⟩, hcont.bindings ▸ hnone⟩
      · refine .inr ⟨k₂, hk₂, (hcont.mono fun w' hpass => ⟨hpass.1, hpass.2.trans hw₂⟩).trans (hcont₂.mono ?_)⟩
        rintro _ rfl
        exact ⟨hw₁.trans hw₂, .refl⟩
  induction hw with
  | refl => exact .inr ⟨k, hk, .refl _ k⟩
  | act hw₁ ha ih => exact step hw₁ (.act .refl ha) (fun k₁ hk₁ => .inr (ha.calls.1 k₁ hk₁)) ih
  | @swept w₁ hw₁ reported hrealm ih =>
    exact step hw₁ (.swept .refl reported hrealm) (w₁.sweep_calls reported).1 ih

/-- **A call on record was put there** when it was set up. -/
theorem origin (hw : w.Comes S w') (hempty : w.calls = []) {k' : Call} (hk' : k' ∈ w'.calls) :
    ∃ w₁ k, w.Passes S w' w₁ ∧ k ∈ w₁.calls ∧ k.Opens S.realm w₁.heap ∧ k.Continues (w₁.Passes S w') k' := by
  have step : ∀ {w₁ w₂ : World} {k' : Call}, w.Comes S w₁ → w₁.Comes S w₂ → k' ∈ w₂.calls →
      ((∃ k ∈ w₁.calls, k.Continues (· = w₂) k') ∨ k'.Opens S.realm w₂.heap) →
      (∀ {k₁}, k₁ ∈ w₁.calls → ∃ w₃ k, w.Passes S w₁ w₃ ∧ k ∈ w₃.calls ∧ k.Opens S.realm w₃.heap ∧
        k.Continues (w₃.Passes S w₁) k₁) →
      ∃ w₃ k, w.Passes S w₂ w₃ ∧ k ∈ w₃.calls ∧ k.Opens S.realm w₃.heap ∧ k.Continues (w₃.Passes S w₂) k' := by
    intro w₁ w₂ k' hw₁ hw₂ hk' hbefore ih
    rcases hbefore with ⟨k₁, hk₁, hcont⟩ | hopens
    · obtain ⟨w₃, k, hpass, hk, hopens, hcont₁⟩ := ih hk₁
      refine ⟨w₃, k, ⟨hpass.1, hpass.2.trans hw₂⟩, hk, hopens,
        (hcont₁.mono fun w' hpass => ⟨hpass.1, hpass.2.trans hw₂⟩).trans (hcont.mono ?_)⟩
      rintro _ rfl
      exact ⟨hpass.2.trans hw₂, .refl⟩
    · exact ⟨w₂, k', ⟨hw₁.trans hw₂, .refl⟩, hk', hopens, .refl _ k'⟩
  induction hw generalizing k' with
  | refl =>
    rw [hempty] at hk'
    cases hk'
  | act hw₁ ha ih => exact step hw₁ (.act .refl ha) hk' (ha.calls.2 k' hk') ih
  | @swept w₁ hw₁ reported hrealm ih =>
    exact step hw₁ (.swept .refl reported hrealm) hk' (.inl ((w₁.sweep_calls reported).2 k' hk')) ih

end World.Comes

/-! ### Machines -/

/-- **What a world tells of a machine** to which a new machine was brought. In every world on the way cells are
shared as `World.Shares` says. Each call on record was put there when it was set up. Every open call that waits for
a default or for its body is on record, and has started once it waits for its body. -/
structure World.Tells (S : Setting) (m₀ : Machine) (w : World) (m : Machine) : Prop where
  heap : w.heap = m.heap
  history : World.Comes S ⟨m₀.heap, []⟩ w
  shares : ∀ w₁, World.Passes S ⟨m₀.heap, []⟩ w w₁ → w₁.Shares
  origin : ∀ k ∈ w.calls, ∃ w₁ k₁, World.Passes S ⟨m₀.heap, []⟩ w w₁ ∧ k₁ ∈ w₁.calls ∧ k₁.Opens S.realm w₁.heap ∧
    k₁.Continues (w₁.Passes S w) k
  waiting : ∀ f ∈ m.frames.items, ∀ t i, f.task = .invocation t → t.state = .paramBinding i →
    ∃ s k, t.OnRecord w s k
  body : ∀ f ∈ m.frames.items, ∀ t, f.task = .invocation t → t.state = .bodyEvaluating →
    ∃ s k, t.OnRecord w s k ∧ k.started = true

theorem World.Recounts.tells (hm : w.Recounts S m) (hw : World.Comes S ⟨m₀.heap, []⟩ w)
    (hnew : (⟨m₀.heap, []⟩ : World).Lawful S) : w.Tells S m₀ m where
  heap := hm.heap.symm
  history := hw
  shares _ hpass := (hpass.1.lawful hnew).shares
  origin _ hk := hw.origin rfl hk
  waiting f hf t i htask hstate := by
    have hproper := (hm.stands.proper f hf).task
    rw [htask] at hproper
    obtain ⟨s, k, hbinding⟩ := InvocationTask.Proper.binding hproper i hstate
    exact ⟨s, k, hbinding.onRecord⟩
  body f hf t htask hstate := by
    have hproper := (hm.stands.proper f hf).task
    rw [htask] at hproper
    exact InvocationTask.Proper.body hproper hstate

/-- **Who shares cells, in every state of every run** on a new machine; and the calls that one state has on record
are on record in every later one, until the object in which they bind names is collected. -/
theorem Machine.Comes.sharing (hhost : host.BySyntax) {limits : HeapLimits} {options : MonitorOptions} {now : Nat}
    {sloppy : Bool} (hnew : Machine.create limits options now sloppy = .ok m₀) (hm : m₀.Comes host forbids m) :
    ∃ w : World, w.Tells ⟨m₀.realm, forbids⟩ m₀ m ∧ ∀ m', m.Comes host forbids m' →
      ∃ w' : World, w'.Tells ⟨m₀.realm, forbids⟩ m₀ m' ∧ w.Comes ⟨m₀.realm, forbids⟩ w' ∧ ∀ k ∈ w.calls,
        (∃ w₁, w.Passes ⟨m₀.realm, forbids⟩ w' w₁ ∧ w₁.heap.block? k.bindings.handle = none) ∨
          ∃ k' ∈ w'.calls, k.Continues (w.Passes ⟨m₀.realm, forbids⟩ w') k' := by
  have hstart := Machine.recounts_create hnew forbids
  obtain ⟨w, hw, hrecounts⟩ := hm.recounts (S := ⟨m₀.realm, forbids⟩) hhost hstart
  refine ⟨w, hrecounts.tells hw hstart.lawful, fun m' hm' => ?_⟩
  obtain ⟨w', hw', hrecounts'⟩ := hm'.recounts (S := ⟨m₀.realm, forbids⟩) hhost hrecounts
  exact ⟨w', hrecounts'.tells (hw.trans hw') hstart.lawful, hw', fun k hk => hw'.call hk⟩

/-- The innermost call that waits for its body. -/
def Machine.waitingCall? (m : Machine) : Option InvocationTask :=
  m.frames.items.findSome? fun f =>
    match f.task with
    | .invocation t => if t.state = .bodyEvaluating then some t else none
    | _ => none

theorem Machine.waitingCall?_eq_some {t : InvocationTask} (h : m.waitingCall? = some t) :
    ∃ f ∈ m.frames.items, f.task = .invocation t ∧ t.state = .bodyEvaluating := by
  obtain ⟨f, hf, hcall⟩ := List.exists_of_findSome?_eq_some h
  refine ⟨f, hf, ?_⟩
  split at hcall
  · next t' htask =>
    split at hcall
    · next hstate => cases hcall; exact ⟨htask, hstate⟩
    · cases hcall
  · cases hcall

/-- A program that calls a function of one parameter. -/
def oneParameter : List Stmt :=
  [.function (.ofBody (some "f") [.simple "a" none] (.block [.expr (.ident "a")])),
    .expr (.call (.ident "f") [.bool true])]

/-- The function has one parameter, which is simple. -/
def Function.takes (f : Function) (name : String) : Bool :=
  match f.params with
  | [.simple n _] => n = name
  | _ => false

theorem Function.binds_of_takes {f : Function} {name : String} (h : f.takes name = true) : f.Binds 0 name := by
  unfold Function.takes at h
  split at h
  · next n default hparams =>
    obtain rfl : n = name := of_decide_eq_true h
    exact ⟨⟨default, by rw [hparams]; rfl⟩, by rw [hparams]; simp [boundParams]⟩
  · cases h

/-- While its body is evaluated, the call is on record, and its parameter shares its cell with the argument. -/
theorem Machine.Comes.sharing_oneParameter : ∃ (m₀ m : Machine) (w : World) (k : Call),
    Machine.create .standard {} 0 true = .ok m₀ ∧ m₀.Comes (Host.plain []) (fun _ => False) m ∧
    w.Tells ⟨m₀.realm, fun _ => False⟩ m₀ m ∧ k ∈ w.calls ∧ k.started = true ∧ k.strict = false ∧
    k.function.Binds 0 "a" := by
  have hruns : ((openedProgram .standard oneParameter).bind fun m =>
      (crossings (Host.plain []) ((Host.plain []).engine 1) 0 10 m).bind fun m => m.waitingCall?.map fun t =>
        !t.strict && t.closure.function.takes "a") = some true := by decide +kernel
  obtain ⟨m₁, hopened, hruns⟩ := Option.bind_eq_some_iff.mp hruns
  obtain ⟨m, hcrossed, hruns⟩ := Option.bind_eq_some_iff.mp hruns
  obtain ⟨t, hwaits, hcall⟩ := Option.map_eq_some_iff.mp hruns
  obtain ⟨hsloppy, htakes⟩ := Bool.and_eq_true_iff.mp hcall
  obtain ⟨f, hf, htask, hstate⟩ := Machine.waitingCall?_eq_some hwaits
  obtain ⟨m₀, hnew, hm₁⟩ := Machine.comes_openedProgram hopened fun _ _ _ _ hforbidden => hforbidden
  have hm := hm₁.crossed_times 10 hcrossed
  obtain ⟨w, htells, -⟩ := Machine.Comes.sharing (Host.bySyntax_plain []) hnew hm
  obtain ⟨s, k, hrecord, hstarted⟩ := htells.body f hf t htask hstate
  refine ⟨m₀, m, w, k, hnew, hm, htells, hrecord.mem, hstarted, hrecord.strict.trans ?_, ?_⟩
  · simpa using hsloppy
  · exact hrecord.function ▸ Function.binds_of_takes htakes

/-- A program that calls a sloppy function whose second parameter, simple and the last one, stands after a rest
parameter. The function assigns `true` to it and returns its second argument. -/
def parameterAfterRest : List Stmt :=
  [.function (.ofBody (some "f") [.rest "r", .simple "b" none] (.block
      [.expr (.assign (.ident "b") (.bool true)), .ret (some (.member (.ident "arguments") (.computed (.string "1"))))])),
    .expr (.call (.ident "f") [.null, .null])]

/-- **A parameter after a rest parameter shares no cell with its argument**: the assignment is not seen there. -/
theorem after_rest_unshared : ∃ m₀ m : Machine, Machine.create .standard {} 0 true = .ok m₀ ∧
    ((Host.plain []).engine 40).execute parameterAfterRest m₀ = .done .null m := by
  have hruns : ((Machine.create .standard {} 0 true).toOption.bind fun m =>
      (((Host.plain []).engine 40).execute parameterAfterRest m).done?.map fun r => decide (r.1 = .null)) =
        some true := by decide +kernel
  obtain ⟨m₀, hm₀, hruns⟩ := Option.bind_eq_some_iff.mp hruns
  obtain ⟨⟨v, m⟩, hdone, hnull⟩ := Option.map_eq_some_iff.mp hruns
  obtain rfl : v = .null := of_decide_eq_true hnull
  exact ⟨m₀, m, Except.eq_ok_of_toOption hm₀, Outcome.eq_done hdone⟩

end ScriptCore
