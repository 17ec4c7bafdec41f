import ScriptCore.Proofs.Calls.Programs
import ScriptCore.Proofs.Hiding.Runs
import ScriptCore.Proofs.Object.Edits

/-! # New machines and collections

On a new machine nothing is hidden: its only scope is the global one. A collection takes blocks and hides nothing; what
the realm and the open frames refer to is left, so that they stay clear.

* `Heap.Flat`, `Machine.veiled_create`: **a new machine shows no hidden object.**
* `Heap.Shrinks.clear`, `Heap.Secure.shrunk`: what is left of a heap.
* `Machine.Veiled.swept`: **collections keep what machines hold clear.** -/

namespace ScriptCore

open Heap (object_eq_ok scope_eq_ok cell_eq_ok)

variable {α : Type} {h h' : Heap} {o : ObjectRef} {c : CellRef} {b : Block} {R : Realm} {m : Machine}
  {f : Frame}

/-! ### New machines -/

namespace Heap

/-- The heap is valid, and no scope is inside another. -/
structure Flat (h : Heap) : Prop where
  valid : h.Valid
  outermost : ∀ s sc, h.scope s = .ok sc → sc.parent = none

theorem Flat.not_hides (hf : h.Flat) (o : ObjectRef) : ¬ h.Hides o := by
  rintro ⟨s, sc, hs, hparent, -⟩
  exact hparent (hf.outermost s sc hs)

theorem Flat.filled {id : Handle} (hf : h.Flat) (hb : ∀ sc, b = .scope sc → sc.parent = none)
    (hfilled : h.Filled b id h') (hv : h'.Valid) : h'.Flat where
  valid := hv
  outermost s sc hs := by
    rcases hfilled.block_cases (scope_eq_ok.mp hs) with ⟨-, hnew⟩ | hold
    · exact hb sc hnew.symm
    · exact hf.outermost s sc (scope_eq_ok.mpr hold)

theorem keeps_flat_alloc (hstring : ∀ t, b ≠ .string t) (hb : ∀ sc, b = .scope sc → sc.parent = none) :
    Proc.Keeps Flat (alloc b) := by
  intro h hf
  have hvalid := keeps_alloc hstring h hf.valid
  rcases alloc_filled hf.valid.toConsistent b with ⟨-, hfailed⟩ | ⟨id, h', hdone, hfilled, -⟩
  · rw [hfailed]
    exact hf
  · rw [hdone] at hvalid ⊢
    exact hf.filled hb hfilled hvalid

theorem keeps_flat_intern (t : Text) : Proc.Keeps Flat (intern t) := by
  intro h hf
  have hvalid := keeps_intern t h hf.valid
  rcases intern_filled hf.valid t with ⟨r, hdone, -⟩ | ⟨-, ⟨-, hfailed⟩ | ⟨r, h', hdone, hfilled⟩⟩
  · rw [hdone]
    exact hf
  · rw [hfailed]
    exact hf
  · rw [hdone] at hvalid ⊢
    exact hf.filled (by simp) hfilled hvalid

theorem keeps_flat_modifyObject (o : ObjectRef) (f : Object → Object) : Proc.Keeps Flat (modifyObject o f) := by
  intro h hf
  refine leaves_modifyObject hf fun obj ho => ⟨hf.valid.putObject ho _, fun s sc hs => ?_⟩
  exact hf.outermost s sc (by
    rcases block_put_cases (object_eq_ok.mp ho) (scope_eq_ok.mp hs) with ⟨-, hsame⟩ | ⟨-, hold⟩
    · cases hsame
    · exact scope_eq_ok.mpr hold)

end Heap

theorem Realm.keeps_flat_create (sloppy : Bool) : Proc.Keeps Heap.Flat (Realm.create sloppy) := by
  have cell : ∀ d, Proc.Keeps Heap.Flat (Heap.allocCell d) := fun d =>
    (Heap.keeps_flat_alloc (by simp) (by simp)).map _
  have install : ∀ o k c, Proc.Keeps Heap.Flat (Heap.installCell o k c) := fun o k c => by
    rw [Heap.installCell_ample]
    exact .bind (.discard (.reads _)) fun _ => Heap.keeps_flat_modifyObject o _
  refine Realm.keeps_create Heap.keeps_flat_intern (fun p tag => ?_) cell install (fun o k d => ?_)
    (fun sc hparent => ?_) sloppy
  · have hmake : Proc.Keeps Heap.Flat (Heap.alloc (.object ⟨p, tag, true, .empty, .ordinary⟩)) :=
      Heap.keeps_flat_alloc (by simp) (by simp)
    cases p with
    | none => exact .bind hmake fun _ => .pure _
    | some p => exact .bind (.discard (.reads _)) fun _ => .bind hmake fun _ => .pure _
  · exact .bind (.discard (.reads _)) fun _ => .bind (cell d) fun _ => .bind (install _ _ _) fun _ => .pure _
  · refine .bind (.discard (.reads _)) fun _ => .bind (Heap.keeps_flat_alloc (by simp) ?_) fun _ => .pure _
    rintro _ ⟨⟩
    exact hparent

theorem Heap.Flat.clear [Renamable α] {a : α} (hf : h.Flat) (ha : ∀ r ∈ refs a, h.Names r) : h.Clear a :=
  fun r hr => ⟨ha r hr, fun _ => hf.not_hides _⟩

/-- A flat heap is secure, if all that is referred to in it is live. -/
theorem Heap.Flat.secure (hf : h.Flat) (hblocks : ∀ x b, h.block? x = some b → ∀ r ∈ refs b, h.Names r) : h.Secure := by
  refine ⟨hf.valid, fun x b hb => ?_⟩
  have hclear : h.Clear b := hf.clear (hblocks x b hb)
  cases b with
  | string t => trivial
  | object obj => exact ⟨hclear, fun ho => absurd ho (hf.not_hides _)⟩
  | cell d => exact hclear
  | scope sc =>
    have hparts : h.Clear (sc.object, sc.parent, sc.receiver, sc.writeTo, Plain.mk sc.strict) := hclear
    simp only [Heap.clear_prod] at hparts
    obtain ⟨hobject, hparent, hreceiver, htarget, -⟩ := hparts
    exact ⟨((Heap.clear_ref _).mp hobject).1, hparent, hreceiver,
      fun o ho => ((Heap.clear_ref o).mp (Heap.clear_option.mp htarget o ho)).1, fun _ => hobject⟩

/-- **A new machine shows no hidden object**: it has none. -/
theorem Machine.veiled_create {limits : HeapLimits} {options : MonitorOptions} {now : Nat} {sloppy : Bool}
    (hnew : Machine.create limits options now sloppy = .ok m) : m.Veiled ⟨m.realm, []⟩ := by
  have hsound := (Machine.InStep.of_create hnew).sound
  have hframes := (Machine.held_create hnew).frames
  have hflat : m.heap.Flat := by
    have hcreate := Realm.keeps_flat_create sloppy (Heap.empty limits) ⟨Heap.valid_empty limits, fun s sc hs => ?_⟩
    · obtain ⟨R, h, hdone, rfl⟩ := create_eq_ok hnew
      rwa [hdone] at hcreate
    · cases hs
  refine ⟨hflat.secure hsound.blocks, rfl, hflat.clear hsound.realm, by simp, fun f hf => ?_⟩
  rw [hframes] at hf
  exact absurd hf List.not_mem_nil

/-! ### Collections -/

namespace Heap.Shrinks

/-- Nothing gets hidden. -/
theorem hides (hs : h.Shrinks h') (ho : h'.Hides o) : h.Hides o := by
  obtain ⟨s, sc, hsc, hrest⟩ := ho
  exact ⟨s, sc, hs.scope hsc, hrest⟩

theorem names {r : Ref} (_ : h.Shrinks h') (hr : h.Names r) (hx : h.Retains h' r.handle) : h'.Names r := by
  obtain ⟨b, hb, hk⟩ := hr
  exact ⟨b, hx b hb, hk⟩

/-- **What is clear stays clear**, if what it refers to is left. -/
theorem clear [Renamable α] {a : α} (hs : h.Shrinks h') (ha : h.Clear a)
    (hkept : ∀ r ∈ refs a, h.Retains h' r.handle) : h'.Clear a := fun r hr =>
  ⟨hs.names (ha r hr).1 (hkept r hr), fun hobject ho => (ha r hr).2 hobject (hs.hides ho)⟩

theorem valued (hc : h.Valued c) (hx : h.Retains h' c.handle) : h'.Valued c := by
  obtain ⟨d, hd, hdata⟩ := hc
  exact ⟨d, cell_eq_ok.mpr (hx _ (cell_eq_ok.mp hd)), hdata⟩

end Heap.Shrinks

/-- What a block that is left refers to is left. -/
theorem Heap.Shrinks.refs_retained {x : Handle} (hs : h.Shrinks h') (hb : h'.block? x = some b) :
    ∀ r ∈ refs b, h.Retains h' r.handle := fun r hr =>
  hs.closed x b hb _ (by rw [Block.handles_eq]; exact List.mem_map_of_mem hr)

/-- **A secure heap stays secure** when blocks are taken from it. -/
theorem Heap.Secure.shrunk (hsec : h.Secure) (hs : h.Shrinks h') (hv : h'.Valid) : h'.Secure := by
  refine ⟨hv, fun x b hb => ?_⟩
  have hkept := hs.refs_retained hb
  have hold := hsec.blocks x b (hs.kept x b hb)
  cases b with
  | string t => trivial
  | cell d => exact hs.clear (a := d) hold hkept
  | object obj =>
    refine ⟨hs.clear (a := obj) hold.1 hkept, fun ho => ⟨(hold.2 (hs.hides ho)).1, fun key c hfind => ?_⟩⟩
    exact Heap.Shrinks.valued ((hold.2 (hs.hides ho)).2 key c hfind)
      (hs.closed x _ hb _ (Object.handles_of_find? hfind).1)
  | scope sc =>
    obtain ⟨hobject, hparent, hreceiver, htarget, houtermost⟩ := hold
    have hparts : ∀ r ∈ refs sc.object ++ (refs sc.parent ++ (refs sc.receiver ++ (refs sc.writeTo ++ []))),
        h.Retains h' r.handle := hkept
    simp only [List.forall_mem_append] at hparts
    obtain ⟨ho, hp, hr, hw, -⟩ := hparts
    refine ⟨hs.names hobject (ho _ (List.mem_singleton_self _)), hs.clear hparent hp, hs.clear hreceiver hr,
      fun o hto => hs.names (htarget o hto) (hw _ ?_), fun hnone => hs.clear (houtermost hnone) ho⟩
    rw [hto]
    exact List.mem_singleton_self _

theorem Task.mem_handles_of_cells {t : Task} (hc : c ∈ t.cells) : c.handle ∈ t.handles := by
  cases t with
  | invocation t =>
    have hmem : c ∈ t.argCells := by
      change c ∈ if t.strict then [] else t.argCells at hc
      split at hc
      · exact absurd hc List.not_mem_nil
      · exact hc
    exact List.mem_cons_of_mem _ (List.mem_append_right _ (List.mem_map_of_mem hmem))
  | _ => exact absurd hc List.not_mem_nil

/-- What a frame holds stays clear, if it is left. -/
theorem Frame.Veiled.shrunk (hf : f.Veiled h) (hs : h.Shrinks h') (hkept : ∀ x ∈ f.handles, h.Retains h' x) :
    f.Veiled h' := by
  refine ⟨hs.clear hf.clear fun r hr => hkept _ ?_,
    fun c hc => Heap.Shrinks.valued (hf.stored.values c hc) (hkept _ ?_), hf.stored.unsettled⟩
  · rw [Frame.handles_eq hf.stored.unsettled]
    exact List.mem_map_of_mem hr
  · exact List.mem_append_left _ (List.mem_append_left _ (Task.mem_handles_of_cells hc))

namespace Machine.Veiled

/-- **Collections keep what the machine holds clear.** -/
theorem swept (hm : m.Veiled ⟨R, []⟩) : m.swept.Veiled ⟨R, []⟩ := by
  have hs := Heap.shrinks_collect hm.heap.valid m.handles
  have hkept : ∀ x ∈ m.handles, m.heap.Retains m.swept.heap x := fun _ => Heap.retains_collect hm.heap.valid
  refine ⟨hm.heap.shrunk hs (hm.heap.valid.collect _), hm.realm, hs.clear hm.clear fun r hr => ?_, by simp,
    fun f hf => ?_⟩
  · exact hkept _ (realm_handles (hm.realm.symm ▸ hr))
  · exact (hm.frames f hf).shrunk hs fun x hx => hkept x (List.mem_append_right _ (List.mem_flatMap_of_mem hf hx))

theorem collected (hm : m.Veiled ⟨R, []⟩) : m.collected.Veiled ⟨R, []⟩ := by
  rcases m.collected_cases with h | h <;> rw [h]
  · exact hm.swept
  · exact hm

end Machine.Veiled

end ScriptCore
