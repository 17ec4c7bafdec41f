import ScriptCore.Proofs.Calls.Enclosing
import ScriptCore.Proofs.Drive.Asking
import ScriptCore.Proofs.Hiding.Hidden

/-! # Procedures that show no hidden object

A procedure is `Reticent` if it leaves alone what is hidden and shows none of it, whatever it comes to: it does to the
heap nothing that `Heap.Shelters` excludes, the heap stays secure, and what it delivers or throws is clear. So is what
the open frames hold; the frames may be given other inputs meanwhile, but they keep their tasks.

* `Machine.Veiled`, `Scene.Holds`: what holds of a machine on which code runs.
* `Reticent`: **what a procedure does to a secure heap.**
* `Reticent.bind`, `Reticent.read`: sequences, and reading the heap.
* `reticent_intern`, `reticent_define` and so on: the primitives. -/

namespace ScriptCore

open Heap (object_eq_ok scope_eq_ok cell_eq_ok text_eq_ok refers_iff)

variable {α β : Type} {h h' : Heap} {o : ObjectRef} {obj : Object} {key : PropertyKey} {c : CellRef} {d : Descriptor}
  {v : Value} {s : ScopeRef} {sc : Scope} {t : Text} {name : String}

/-! ### Machines -/

/-- **The cells that a call keeps for its parameters**: in sloppy code they are those of its arguments. -/
def InvocationTask.cells (t : InvocationTask) : List CellRef := if t.strict then [] else t.argCells

/-- The cells that a task keeps for parameters. -/
def Task.cells : Task → List CellRef
  | .invocation t => t.cells
  | .statements _ | .statement _ | .expression _ | .settled _ => []

/-- What the task keeps for parameters holds values. No outcome is fixed beforehand. -/
structure Task.Stored (h : Heap) (t : Task) : Prop where
  values : ∀ c ∈ t.cells, h.Valued c
  unsettled : ∀ o, t ≠ .settled o

theorem Task.Stored.next {t : Task} (ht : t.Stored h) (hh : h.Conserves h') : t.Stored h' :=
  ⟨fun c hc => hh.values c (ht.values c hc), ht.unsettled⟩

/-- What the frame holds is clear. -/
structure Frame.Veiled (h : Heap) (f : Frame) : Prop where
  clear : h.Clear f
  stored : f.task.Stored h

theorem Frame.Veiled.next {f : Frame} (hf : f.Veiled h) (hh : h.Conserves h') : f.Veiled h' :=
  ⟨hh.clear hf.clear, hf.stored.next hh⟩

/-- The realm in which code runs, and the cells that the calls keep that are running. -/
structure Ground where
  realm : Realm
  cells : List CellRef

namespace Machine

/-- **What the machine holds is clear**, and so is what the calls keep that are running. -/
structure Veiled (G : Ground) (m : Machine) : Prop where
  heap : m.heap.Secure
  realm : m.realm = G.realm
  clear : m.heap.Clear G.realm
  values : ∀ c ∈ G.cells, m.heap.Valued c
  frames : ∀ f ∈ m.frames.items, f.Veiled m.heap

end Machine

/-- Where code runs, and the tasks that wait meanwhile. -/
structure Scene extends Ground where
  tasks : List Task

/-- The machine runs code in the scene. -/
structure Scene.Holds (S : Scene) (m : Machine) : Prop where
  veiled : m.Veiled S.toGround
  tasks : m.tasks = S.tasks
  active : m.active.isSome = true

variable {S : Scene} {m : Machine}

theorem Machine.Veiled.withHeap {G : Ground} (hm : m.Veiled G) (hh : m.heap.Conserves h') (hs : h'.Secure) :
    Machine.Veiled G { m with heap := h' } :=
  ⟨hs, hm.realm, hh.clear hm.clear, fun c hc => hh.values c (hm.values c hc), fun f hf => (hm.frames f hf).next hh⟩

theorem Scene.Holds.withHeap (hm : S.Holds m) (hh : m.heap.Conserves h') (hs : h'.Secure) :
    S.Holds { m with heap := h' } := ⟨hm.veiled.withHeap hh hs, hm.tasks, hm.active⟩

/-! ### The judgement -/

/-- What a reticent procedure may come to on the heap. -/
def Outcome.Reticent (S : Scene) (h : Heap) (Q : Heap → α → Prop) : Outcome Machine α → Prop
  | .done a m => h.Shelters m.heap ∧ S.Holds m ∧ Q m.heap a
  | .failed e m => h.Shelters m.heap ∧ S.Holds m ∧ m.heap.Clear e
  | .stalled => True

/-- **A procedure is reticent** on a heap: what is hidden is left alone, and what it delivers satisfies `Q`. -/
def Reticent (S : Scene) (h : Heap) (p : Run α) (Q : Heap → α → Prop) : Prop :=
  ∀ m, m.heap = h → S.Holds m → (p m).Reticent S h Q

theorem Outcome.Reticent.after {Q : Heap → α → Prop} {r : Outcome Machine α} (hr : r.Reticent S h' Q)
    (hh : h.Shelters h') : r.Reticent S h Q := by
  cases r with
  | stalled => trivial
  | failed e m => exact ⟨hh.trans hr.1, hr.2⟩
  | done a m => exact ⟨hh.trans hr.1, hr.2⟩

/-- **What comes next** runs on the heap that was left. -/
theorem Outcome.Reticent.bind {P : Heap → α → Prop} {Q : Heap → β → Prop} {r : Outcome Machine α} {f : α → Run β}
    (hr : r.Reticent S h P) (hf : ∀ h' a, h.Shelters h' → P h' a → ScriptCore.Reticent S h' (f a) Q) :
    (r.bind f).Reticent S h Q := by
  cases r with
  | stalled => trivial
  | failed e m => exact hr
  | done a m => exact (hf m.heap a hr.1 hr.2.2 m rfl hr.2.1).after hr.1

/-- What a procedure over a secure heap may come to. -/
def Outcome.Secures (h : Heap) (Q : Heap → α → Prop) : Outcome Heap α → Prop
  | .done a h' => h.Conserves h' ∧ h'.Secure ∧ Q h' a
  | .failed e h' => h.Conserves h' ∧ h'.Secure ∧ Mild (.error e : Except Error α)
  | .stalled => True

theorem Heap.clear_of_mild {e : Error} (he : Mild (.error e : Except Error α)) : h.Clear e :=
  clear_error fun v hv => he v (by rw [hv])

namespace Reticent

variable {p : Run α} {f : α → Run β} {P Q : Heap → α → Prop} {Q' : Heap → β → Prop}

theorem pure {a : α} (ha : Q h a) : Reticent S h (pure a) Q := fun _ hm hS => ⟨hm ▸ .refl _, hS, hm ▸ ha⟩

theorem fail {e : Error} (he : h.Clear e) : Reticent S h (throw e : Run α) Q :=
  fun _ hm hS => ⟨hm ▸ .refl _, hS, hm ▸ he⟩

/-- Failing without a value of the program. -/
theorem refuse {e : Error} (he : ∀ v, e ≠ .throw v) : Reticent S h (throw e : Run α) Q := .fail (Heap.clear_error he)

theorem stall : Reticent S h (Proc.stall : Run α) Q := fun _ _ _ => trivial

/-- **Sequences**: the second part runs on the heap that the first one left. -/
theorem bind (hp : Reticent S h p P) (hf : ∀ h' a, h.Shelters h' → P h' a → Reticent S h' (f a) Q') :
    Reticent S h (p >>= f) Q' := fun m hm hS => by
  rw [Proc.bind_eq]
  exact Outcome.Reticent.bind (hp m hm hS) hf

theorem imp (hp : Reticent S h p P) (hPQ : ∀ h' a, h.Shelters h' → P h' a → Q h' a) : Reticent S h p Q := by
  have hbind : Reticent S h (p >>= Pure.pure) Q := hp.bind fun h' a hh ha => .pure (hPQ h' a hh ha)
  rwa [bind_pure] at hbind

theorem map {g : α → β} (hp : Reticent S h p fun h' a => Q' h' (g a)) : Reticent S h (g <$> p) Q' := by
  rw [map_eq_pure_bind]
  exact hp.bind fun _ _ _ ha => .pure ha

theorem discard_bind {f : Unit → Run β} (hp : Reticent S h p P)
    (hf : ∀ h' a, h.Shelters h' → P h' a → Reticent S h' (f ()) Q') : Reticent S h (discard p >>= f) Q' := by
  rw [Proc.discard_bind]
  exact hp.bind hf

theorem discard (hp : Reticent S h p P) : Reticent S h (discard p) Heap.Clear :=
  .map (hp.imp fun _ _ _ _ => Heap.clear_unit _)

/-- What holds of secure heaps may be used. -/
theorem secure (hp : h.Secure → h.Clear S.realm → Reticent S h p Q) : Reticent S h p Q := fun m hm hS =>
  hp (hm ▸ hS.veiled.heap) (hm ▸ hS.veiled.clear) m hm hS

/-- What the running calls keep holds values. -/
theorem values (hp : (∀ c ∈ S.cells, h.Valued c) → Reticent S h p Q) : Reticent S h p Q := fun m hm hS =>
  hp (hm ▸ hS.veiled.values) m hm hS

/-- **Cells that are kept** besides hold values still. -/
theorem keeping {cs : List CellRef} (hcs : ∀ c ∈ cs, h.Valued c)
    (hp : Reticent { S with cells := cs ++ S.cells } h p Q) :
    Reticent S h p fun h' a => Q h' a ∧ ∀ c ∈ cs, h'.Valued c := by
  intro m hm hS
  have hrun := hp m hm ⟨⟨hS.veiled.heap, hS.veiled.realm, hS.veiled.clear,
    List.forall_mem_append.mpr ⟨hm ▸ hcs, hS.veiled.values⟩, hS.veiled.frames⟩, hS.tasks, hS.active⟩
  have hback : ∀ {m' : Machine}, Scene.Holds { S with cells := cs ++ S.cells } m' →
      S.Holds m' ∧ ∀ c ∈ cs, m'.heap.Valued c := fun hS' =>
    have hvalues := List.forall_mem_append.mp hS'.veiled.values
    ⟨⟨⟨hS'.veiled.heap, hS'.veiled.realm, hS'.veiled.clear, hvalues.2, hS'.veiled.frames⟩, hS'.tasks, hS'.active⟩,
      hvalues.1⟩
  cases hcase : p m with
  | stalled => trivial
  | failed e m' => rw [hcase] at hrun; exact ⟨hrun.1, (hback hrun.2.1).1, hrun.2.2⟩
  | done a m' =>
    rw [hcase] at hrun
    exact ⟨hrun.1, (hback hrun.2.1).1, hrun.2.2, (hback hrun.2.1).2⟩

/-- **Reading the heap.** -/
theorem read {g : Heap → Except Error α} (hg : Mild (g h)) (hf : ∀ a, g h = .ok a → Reticent S h (f a) Q') :
    Reticent S h (Run.readHeap g >>= f) Q' := by
  intro m hm hS
  rw [Run.readHeap_bind, hm]
  cases ha : g h with
  | ok a => exact hf a ha m hm hS
  | error e => exact ⟨hm ▸ .refl _, hS, Heap.clear_of_mild (ha ▸ hg)⟩

theorem reads {g : Heap → Except Error α} (hg : Mild (g h)) (hQ : ∀ a, g h = .ok a → Q h a) :
    Reticent S h (Run.readHeap g) Q := by
  have hread : Reticent S h (Run.readHeap g >>= Pure.pure) Q := read hg fun a ha => .pure (hQ a ha)
  rwa [bind_pure] at hread

theorem realm_bind {f : Realm → Run β} (hf : Reticent S h (f S.realm) Q') : Reticent S h (Run.realm >>= f) Q' :=
  fun m hm hS => by
    have hrun := hf m hm hS
    rw [← hS.veiled.realm] at hrun
    exact hrun

theorem names_bind {f : CommonNames → Run β} (hf : Reticent S h (f S.realm.names) Q') :
    Reticent S h (Run.names >>= f) Q' := fun m hm hS => by
  have hrun := hf m hm hS
  rw [← hS.veiled.realm] at hrun
  exact hrun

theorem isDebug_bind {f : Bool → Run β} (hf : ∀ b, Reticent S h (f b) Q') : Reticent S h (Run.isDebug >>= f) Q' :=
  fun m hm hS => hf _ m hm hS

theorem ofExcept {r : Except Error α} (hok : ∀ a, r = .ok a → Q h a) (herror : ∀ e, r = .error e → h.Clear e) :
    Reticent S h (Proc.ofExcept r) Q := by
  cases r with
  | ok a => exact .pure (hok a rfl)
  | error e => exact .fail (herror e rfl)

theorem ite {b : Prop} [Decidable b] {q : Run α} (hp : b → Reticent S h p Q) (hq : ¬ b → Reticent S h q Q) :
    Reticent S h (if b then p else q) Q := by
  by_cases hb : b
  · rw [if_pos hb]
    exact hp hb
  · rw [if_neg hb]
    exact hq hb

/-- What a procedure delivers on every machine it delivers here. -/
theorem yields {P : α → Prop} (hp : Reticent S h p Q) (hP : p.Yields P) :
    Reticent S h p fun h' a => Q h' a ∧ P a := by
  intro m hm hS
  have hrun := hp m hm hS
  cases hcase : p m with
  | stalled => trivial
  | failed e m' => rw [hcase] at hrun; exact hrun
  | done a m' =>
    rw [hcase] at hrun
    exact ⟨hrun.1, hrun.2.1, hrun.2.2, hP m a m' hcase⟩

/-- A procedure over the heap. -/
theorem onHeap {p : Proc Heap α} (hp : h.Secure → (p h).Secures h Q) : Reticent S h (Run.onHeap p) Q := by
  intro m hm hS
  subst hm
  have hrun := hp hS.veiled.heap
  cases hcase : p m.heap with
  | stalled =>
    have hstalled : Run.onHeap p m = .stalled := by
      unfold Run.onHeap
      dsimp only
      rw [hcase]
    rw [hstalled]
    trivial
  | failed e h' =>
    rw [hcase] at hrun
    rw [Run.onHeap_failed hcase]
    exact ⟨hrun.1.toShelters, hS.withHeap hrun.1 hrun.2.1, Heap.clear_of_mild hrun.2.2⟩
  | done a h' =>
    rw [hcase] at hrun
    rw [Run.onHeap_done hcase]
    exact ⟨hrun.1.toShelters, hS.withHeap hrun.1 hrun.2.1, hrun.2.2⟩

end Reticent

theorem Run.onHeap_discard (p : Proc Heap α) : Run.onHeap (discard p) = discard (Run.onHeap p) :=
  Run.onHeap_map (fun _ => ()) p

/-! ### Making blocks -/

/-- No scope is touched. -/
def Heap.LeavesScopes (h h' : Heap) : Prop := ∀ s sc, h.scope s = .ok sc → h'.scope s = .ok sc

namespace Heap.LeavesScopes

theorem refl (h : Heap) : h.LeavesScopes h := fun _ _ hs => hs

theorem trans {h₁ : Heap} (hh : h.LeavesScopes h₁) (hh' : h₁.LeavesScopes h') : h.LeavesScopes h' :=
  fun s sc hs => hh' s sc (hh s sc hs)

theorem filled {b : Block} {id : Handle} (hf : h.Filled b id h') : h.LeavesScopes h' :=
  fun _ _ hs => scope_eq_ok.mpr (hf.block?_of_some (scope_eq_ok.mp hs))

theorem putObject (ho : h.object o = .ok obj) (obj' : Object) : h.LeavesScopes (h.put o.handle (.object obj')) := by
  intro s sc hs
  rcases Heap.block_put_of (.object obj') (object_eq_ok.mp ho) (scope_eq_ok.mp hs) with ⟨-, hsame⟩ | hold
  · cases hsame
  · exact scope_eq_ok.mpr hold

end Heap.LeavesScopes

/-- A string key that is live is clear. -/
theorem Heap.Keyed.clear (hk : h.Keyed key) : h.Clear key := by
  cases key with
  | index i => exact clear_index i
  | string r => exact clear_text.mpr (hk r rfl)

theorem Heap.Spells.clear (hk : h.Spells key name) : h.Clear key := Keyed.clear hk.keyed

/-- A text that is interned. -/
theorem reticent_intern :
    Reticent S h (Run.onHeap (Heap.intern t)) fun h' r => h'.text r = .ok t ∧ h.LeavesScopes h' := by
  refine .onHeap fun hs => ?_
  have hvalid := Heap.keeps_intern t h hs.valid
  rcases Heap.intern_filled hs.valid t with ⟨r, hdone, ht⟩ | ⟨-, ⟨-, hfailed⟩ | ⟨r, h', hdone, hf⟩⟩
  · rw [hdone]
    exact ⟨.refl h, hs, ht, .refl h⟩
  · rw [hfailed]
    exact ⟨.refl h, hs, mild_outOfMemory⟩
  · rw [hdone] at hvalid ⊢
    obtain ⟨hh, hs'⟩ := hs.filled hf hvalid (by simp [Block.kind]) fun _ hr => absurd hr List.not_mem_nil
    exact ⟨hh, hs', text_eq_ok.mpr hf.block?_self, .filled hf⟩

/-- A string of the program. -/
theorem reticent_string : Reticent S h (Run.onHeap (Heap.intern t)) Heap.Clear :=
  reticent_intern.imp fun _ _ _ hr => Heap.clear_text.mpr ⟨t, hr.1⟩

theorem reticent_keyOfName : Reticent S h (Run.onHeap (Heap.keyOfName name)) fun h' key =>
    h'.Spells key name ∧ h.LeavesScopes h' := by
  unfold Heap.keyOfName Heap.internString
  rw [Run.onHeap_bind]
  refine reticent_intern.bind fun h₁ r _ ⟨ht, hsame⟩ => ?_
  rw [Routine.onHeap_reads]
  exact .reads (Heap.mild_keyOfString r) fun key hkey => ⟨Heap.spells_of_keyOfString ht hkey, hsame⟩

/-- A clear block that is no scope. -/
theorem reticent_alloc {b : Block} (hstring : ∀ t, b ≠ .string t) (hkind : b.kind ≠ .scope) (hb : h.Clear b) :
    Reticent S h (Run.onHeap (Heap.alloc b)) fun h' id =>
      h'.block? id = some b ∧ ¬ h'.Hides ⟨id⟩ ∧ h.LeavesScopes h' := by
  refine .onHeap fun hs => ?_
  have hvalid := Heap.keeps_alloc hstring h hs.valid
  rcases Heap.alloc_filled hs.valid.toConsistent b with ⟨-, hfailed⟩ | ⟨id, h', hdone, hf, -⟩
  · rw [hfailed]
    exact ⟨.refl h, hs, mild_outOfMemory⟩
  · rw [hdone] at hvalid ⊢
    obtain ⟨hh, hs'⟩ := hs.filled hf hvalid hkind hb
    exact ⟨hh, hs', hf.block?_self, hf.not_hidden hs hkind, .filled hf⟩

theorem reticent_allocCell (hd : h.Clear d) : Reticent S h (Run.onHeap (Heap.allocCell d)) fun h' c =>
    h'.cell c = .ok d ∧ h.LeavesScopes h' := by
  unfold Heap.allocCell
  rw [Run.onHeap_map]
  exact .map ((reticent_alloc (b := .cell d) (by simp) (by simp [Block.kind]) hd).imp
    fun _ _ _ ⟨hid, _, hsame⟩ => ⟨cell_eq_ok.mpr hid, hsame⟩)

theorem reticent_allocObject {p : ObjectRef} {tag : ClassTag} {kind : ObjectKind} (hp : h.Clear p)
    (hkind : h.Clear kind) : Reticent S h (Run.onHeap (Heap.allocObject (some p) tag kind)) Heap.Clear := by
  unfold Heap.allocObject
  dsimp only
  rw [Proc.discard_bind, Run.onHeap_bind, Routine.onHeap_reads]
  refine .read (Heap.mild_object p) fun _ _ => ?_
  rw [Run.onHeap_bind]
  have hblock : h.Clear (Block.object ⟨some p, tag, true, .empty, kind⟩) :=
    Heap.clear_object.mpr ⟨Heap.clear_some.mpr hp, Heap.clear_empty, hkind⟩
  refine (reticent_alloc (by simp) (by simp [Block.kind]) hblock).bind fun h' id _ ⟨hid, hshown, _⟩ => .pure ?_
  exact (Heap.clear_ref ⟨id⟩).mpr ⟨⟨_, hid, rfl⟩, hshown⟩

/-- The object of a new scope. -/
abbrev Object.bare : Object := ⟨none, .object, true, .empty, .ordinary⟩

/-- **A scope is made inside another** by filling two slots, the first with its object. -/
theorem childScope_ends (hv : h.Valid) (parent : ScopeRef) :
    (∃ e, childScope parent h = .failed e h ∧ Mild (.error e : Except Error ScopeRef)) ∨
      ∃ outer o h₁, h.scope parent = .ok outer ∧ h.Filled (.object .bare) o.handle h₁ ∧ h₁.Valid ∧
        (childScope parent h = .failed .outOfMemory h₁ ∨ ∃ s h', childScope parent h = .done s h' ∧
          h₁.Filled (.scope ⟨o, some parent, outer.receiver, none, outer.strict⟩) s.handle h' ∧ h'.Valid) := by
  unfold childScope
  rw [Proc.reads_bind]
  cases houter : h.scope parent with
  | error e => exact .inl ⟨e, rfl, (Heap.mild_scope parent).of_error houter⟩
  | ok outer =>
    have hmake : Heap.allocObject none .object .ordinary = (do
        let id ← Heap.alloc (.object .bare)
        return ⟨id⟩ : Proc Heap ObjectRef) := rfl
    dsimp only
    rw [hmake, bind_assoc]
    rcases Heap.alloc_filled hv.toConsistent (.object .bare) with ⟨-, hfailed⟩ | ⟨id, h₁, hdone, ho, -⟩
    · exact .inl ⟨_, Proc.bind_failed hfailed _, mild_outOfMemory⟩
    have hv₁ := Heap.keeps_alloc (b := .object .bare) (by simp) h hv
    rw [hdone] at hv₁
    refine .inr ⟨outer, ⟨id⟩, h₁, rfl, ho, hv₁, ?_⟩
    rw [Proc.bind_done hdone, pure_bind]
    unfold Heap.allocScope
    rw [Proc.discard_bind, Proc.reads_bind, object_eq_ok.mpr ho.block?_self]
    dsimp only
    rcases Heap.alloc_filled hv₁.toConsistent (.scope ⟨⟨id⟩, some parent, outer.receiver, none, outer.strict⟩) with
      ⟨-, hfailed⟩ | ⟨s, h', hdone', hs, -⟩
    · exact .inl (Proc.bind_failed hfailed _)
    have hv' := Heap.keeps_alloc (b := .scope ⟨⟨id⟩, some parent, outer.receiver, none, outer.strict⟩) (by simp) h₁ hv₁
    rw [hdone'] at hv'
    exact .inr ⟨⟨s⟩, h', Proc.bind_done hdone' _, hs, hv'⟩

/-- **A scope inside another**, with an object of its own. -/
theorem reticent_childScope {parent : ScopeRef} : Reticent S h (Run.onHeap (childScope parent)) fun h' s =>
    ∃ o v strict, h'.scope s = .ok ⟨o, some parent, v, none, strict⟩ := by
  refine .onHeap fun hs => ?_
  rcases childScope_ends hs.valid parent with ⟨e, hfailed, hmild⟩ | ⟨outer, o, h₁, houter, ho, hv₁, hrest⟩
  · rw [hfailed]
    exact ⟨.refl h, hs, hmild⟩
  have hbare : h.Clear (Block.object .bare) := fun _ hr => absurd hr List.not_mem_nil
  rcases hrest with hfailed | ⟨s, h', hdone, hsc, hv'⟩
  · rw [hfailed]
    obtain ⟨hh, hs₁⟩ := hs.filled ho hv₁ (by simp [Block.kind]) hbare
    exact ⟨hh, hs₁, mild_outOfMemory⟩
  · rw [hdone]
    obtain ⟨hh, hs'⟩ := hs.inner ho hsc hv' (Heap.clear_scope.mpr ⟨outer, houter⟩) (hs.scope houter).2.2.1
    exact ⟨hh, hs', o, _, _, scope_eq_ok.mpr hsc.block?_self⟩

/-! ### Overwriting blocks -/

/-- Properties of an object are changed. -/
theorem reticent_modifyObject {f : Object → Object} {Q : Heap → Unit → Prop} (hkind : ∀ obj, (f obj).kind = obj.kind)
    (hf : h.Secure → ∀ obj, h.object o = .ok obj → h.Clear (f obj) ∧
      (h.Hides o → (∀ key c, obj.properties.find? key = some c → ∃ c', (f obj).properties.find? key = some c') ∧
        (f obj).Unadorned h))
    (hQ : ∀ obj, h.object o = .ok obj → Q (h.put o.handle (.object (f obj))) ()) :
    Reticent S h (Run.onHeap (Heap.modifyObject o f)) Q := by
  refine .onHeap fun hs => ?_
  cases ho : h.object o with
  | error e =>
    rw [Heap.modifyObject_failed ho f]
    exact ⟨.refl h, hs, (Heap.mild_object o).of_error ho⟩
  | ok obj =>
    obtain ⟨hclear, hhidden⟩ := hf hs obj ho
    obtain ⟨hh, hs'⟩ := hs.putObject ho hclear (hkind obj) (fun hx => (hhidden hx).1) fun hx => (hhidden hx).2
    rw [Heap.modifyObject_done ho]
    exact ⟨hh, hs', hQ obj ho⟩

/-- **A key is bound to a cell** that holds a value. -/
theorem reticent_installCell (hkey : h.Clear key) (hc : h.Valued c) :
    Reticent S h (Run.onHeap (Heap.installCell o key c)) fun h' _ => h'.Refers o key c ∧ h.LeavesScopes h' := by
  have hcell : h.Clear c := hc.clear
  rw [Heap.installCell_ample, Proc.discard_bind, Run.onHeap_bind, Routine.onHeap_reads]
  refine .read (Heap.mild_cell c) fun _ _ =>
    reticent_modifyObject (fun _ => rfl) (fun hs obj ho => ?_) fun obj ho => ⟨?_, .putObject ho _⟩
  · obtain ⟨hclear, hplain⟩ := hs.object ho
    obtain ⟨hprototype, hproperties, hkind⟩ := Heap.clear_object.mp hclear
    refine ⟨Heap.clear_object.mpr ⟨hprototype, Heap.clear_properties.mpr fun k x hfind => ?_, hkind⟩, fun hx =>
      ⟨fun k x hfind => ?_, (hplain hx).1, fun k x hfind => ?_⟩⟩
    · rw [PropertyMap.find?_insert] at hfind
      split at hfind
      · next hk => cases hfind; exact ⟨hk ▸ hkey, hcell⟩
      · exact Heap.clear_properties.mp hproperties k x hfind
    · rw [PropertyMap.find?_insert]
      split
      · exact ⟨c, rfl⟩
      · exact ⟨x, hfind⟩
    · rw [PropertyMap.find?_insert] at hfind
      split at hfind
      · cases hfind; exact hc
      · exact (hplain hx).2 k x hfind
  · refine refers_iff.mpr ⟨_, object_eq_ok.mpr (Heap.block?_put_self (object_eq_ok.mp ho)), ?_⟩
    rw [PropertyMap.find?_insert, if_pos rfl]

/-- **A property is defined** that holds a value. -/
theorem reticent_define (hkey : h.Clear key) (hd : h.Clear d) (hdata : d.isAccessor = false) :
    Reticent S h (Run.onHeap (Heap.define o key d)) fun h' c => h'.Refers o key c ∧ h.LeavesScopes h' := by
  unfold Heap.define
  rw [Proc.discard_bind, Run.onHeap_bind, Routine.onHeap_reads]
  refine .read (Heap.mild_object o) fun _ _ => ?_
  rw [Run.onHeap_bind]
  refine (reticent_allocCell hd).bind fun h₁ c hh ⟨hc, hsame⟩ => ?_
  rw [Run.onHeap_bind]
  exact (reticent_installCell (hh.clear hkey) ⟨d, hc, hdata⟩).bind fun h₂ _ _ ⟨hr, hsame'⟩ =>
    .pure ⟨hr, hsame.trans hsame'⟩

/-- Properties are taken from an object that is not hidden. -/
theorem reticent_narrow {k : PropertyMap → PropertyMap} (ho : ¬ h.Hides o)
    (hk : ∀ m key c, (k m).find? key = some c → m.find? key = some c) :
    Reticent S h (Run.onHeap (Heap.modifyObject o fun obj => { obj with properties := k obj.properties }))
      Heap.Clear := by
  refine reticent_modifyObject (fun _ => rfl) (fun hs obj hobj => ⟨?_, fun hx => absurd hx ho⟩)
    fun _ _ => Heap.clear_unit _
  obtain ⟨hprototype, hproperties, hkind⟩ := Heap.clear_object.mp (hs.object hobj).1
  exact Heap.clear_object.mpr ⟨hprototype, Heap.clear_properties.mpr fun key c hfind =>
    Heap.clear_properties.mp hproperties key c (hk _ key c hfind), hkind⟩

theorem reticent_remove (ho : ¬ h.Hides o) : Reticent S h (Run.onHeap (Heap.remove o key)) Heap.Clear := by
  unfold Heap.remove
  rw [Run.onHeap_bind, Routine.onHeap_reads]
  refine .read (Heap.mild_ownCell o key) fun found _ => ?_
  cases found with
  | none => exact .pure (Heap.clear_bool _)
  | some c =>
    dsimp only
    rw [Run.onHeap_bind]
    refine (reticent_narrow (k := (·.erase key)) ho fun m k c hfind => ?_).bind fun _ _ _ _ => .pure (Heap.clear_bool _)
    rw [PropertyMap.find?_erase] at hfind
    split at hfind
    · cases hfind
    · exact hfind

theorem reticent_retainKeys (ho : ¬ h.Hides o) (p : PropertyKey → Bool) :
    Reticent S h (Run.onHeap (Heap.retainKeys o p)) Heap.Clear :=
  reticent_narrow ho fun m k c hfind => by
    rw [PropertyMap.find?_filter] at hfind
    split at hfind
    · exact hfind
    · cases hfind

/-- A value is written to a cell. -/
theorem reticent_writeCell (hv : h.Clear v) : Reticent S h (Run.onHeap (Heap.writeCell c v)) Heap.Clear := by
  refine .onHeap fun hs => ?_
  cases hc : h.cell c with
  | error e =>
    rw [Heap.writeCell, Heap.modifyCell_failed hc]
    exact ⟨.refl h, hs, (Heap.mild_cell c).of_error hc⟩
  | ok d =>
    cases hd : d.content with
    | accessor g t =>
      rw [Heap.writeCell_accessor hc hd v]
      exact ⟨.refl h, hs, mild_invalidHandle⟩
    | data u writable =>
      rw [Heap.writeCell_done hc hd v]
      have hdata : Descriptor.isAccessor { d with content := .data v writable } = false := rfl
      obtain ⟨hh, hs'⟩ := hs.putCell hc (fun _ => hdata) (Heap.clear_descriptor.mpr hv)
      exact ⟨hh, hs', Heap.clear_unit _⟩

/-- A scope gets another receiver, or another object to declare names in. -/
theorem reticent_modifyScope {f : Scope → Scope} (hf : ∀ sc, h.scope s = .ok sc → (f sc).object = sc.object ∧
      (f sc).parent = sc.parent ∧ (h.Clear sc.receiver → h.Clear (f sc).receiver) ∧
      ∀ o, (f sc).writeTo = some o → sc.writeTo = some o ∨ h.Names ⟨.object, o.handle⟩) :
    Reticent S h (Run.onHeap (Heap.modifyScope s f)) fun h' _ =>
      ∀ sc, h.scope s = .ok sc → h'.scope s = .ok (f sc) := by
  refine .onHeap fun hs => ?_
  cases hsc : h.scope s with
  | error e =>
    rw [Heap.modifyScope_failed hsc f]
    exact ⟨.refl h, hs, (Heap.mild_scope s).of_error hsc⟩
  | ok sc =>
    obtain ⟨hobject, hparent, hreceiver, htarget⟩ := hf sc hsc
    obtain ⟨-, -, hold, hnames, -⟩ := hs.scope hsc
    obtain ⟨hh, hs'⟩ := hs.putScope hsc hobject hparent (hreceiver hold) fun o ho => (htarget o ho).elim (hnames o) id
    rw [Heap.modifyScope_done hsc]
    refine ⟨hh, hs', fun sc' hsc' => ?_⟩
    cases hsc'
    exact scope_eq_ok.mpr (Heap.block?_put_self (scope_eq_ok.mp hsc))

/-! ### Declaring names -/

/-- **A name is declared** in a scope. -/
theorem reticent_declare (hv : h.Clear v) : Reticent S h (Run.onHeap (declare s name v)) fun h' c =>
    h.LeavesScopes h' ∧ ∀ sc, h.scope s = .ok sc → ∃ key, h'.Spells key name ∧ h'.Refers sc.target key c := by
  unfold declare
  rw [Run.onHeap_bind, Routine.onHeap_reads]
  refine .read (Heap.mild_scope s) fun sc hsc => ?_
  rw [Run.onHeap_bind]
  refine reticent_keyOfName.bind fun h₁ key hh ⟨hspells, hsame⟩ => ?_
  have hd : h₁.Clear (Descriptor.declared v) := Heap.clear_descriptor.mpr (hh.clear hv)
  refine (reticent_define hspells.clear hd rfl).imp fun h₂ c hh₂ ⟨hr, hsame'⟩ =>
    ⟨hsame.trans hsame', fun sc' hsc' => ?_⟩
  cases hsc.symm.trans hsc'
  exact ⟨key, hspells.of_texts fun _ _ _ ht => hh₂.text ht, hr⟩

theorem reticent_declareCell (hc : h.Valued c) :
    Reticent S h (Run.onHeap (declareCell s name c)) Heap.Clear := by
  unfold declareCell
  rw [Run.onHeap_bind, Routine.onHeap_reads]
  refine .read (Heap.mild_scope s) fun sc _ => ?_
  rw [Run.onHeap_bind]
  exact (reticent_keyOfName.keeping (List.forall_mem_singleton.mpr hc)).bind fun h₁ key hh ⟨⟨hspells, _⟩, hc₁⟩ =>
    (reticent_installCell hspells.clear (List.forall_mem_singleton.mp hc₁)).imp fun _ _ _ _ => Heap.clear_unit _

/-- The scope itself binds the name: it is inside another, and declares names in its own object. -/
theorem Heap.Declares.next (hd : h.Declares s name) (hh : h.Shelters h') : h'.Declares s name := by
  obtain ⟨sc, key, c, hsc, hparent, hspells, hr⟩ := hd
  obtain ⟨sc', hsc', hobject, hparent'⟩ := hh.scope hsc
  obtain ⟨c', hr'⟩ := hh.refers ⟨s, sc, hsc, hparent, rfl⟩ hr
  exact ⟨sc', key, c', hsc', hparent' ▸ hparent, hspells.of_texts fun _ _ _ ht => hh.text ht, hobject ▸ hr'⟩

/-- **Names are declared** one after the other. -/
theorem reticent_declareAll (names : List String) : Reticent S h (Run.onHeap (declareAll s names))
    fun h' _ => h.LeavesScopes h' ∧ ∀ sc, h.scope s = .ok sc → sc.parent ≠ none → sc.writeTo = none →
      ∀ name ∈ names, h'.Declares s name := by
  induction names generalizing h with
  | nil => exact .pure ⟨.refl h, fun _ _ _ _ _ hname => absurd hname List.not_mem_nil⟩
  | cons name names ih =>
    unfold declareAll
    rw [Run.onHeap_bind, Run.onHeap_discard]
    refine (reticent_declare Heap.clear_undefined).discard_bind fun h₁ c _ hfirst => ?_
    obtain ⟨hsame, hdeclared⟩ := hfirst
    refine ih.imp fun h₂ _ hh₂ hothers => ⟨hsame.trans hothers.1, ?_⟩
    intro sc hsc hparent htarget x hx
    rcases List.mem_cons.mp hx with rfl | hx
    · obtain ⟨key, hk, hr⟩ := hdeclared sc hsc
      have hd : h₁.Declares s x := ⟨sc, key, c, hsame s sc hsc, hparent, hk, by
        rwa [Scope.target, htarget] at hr⟩
      exact hd.next hh₂
    · exact hothers.2 sc (hsame s sc hsc) hparent htarget x hx

end ScriptCore
