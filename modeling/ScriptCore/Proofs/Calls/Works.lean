import ScriptCore.Proofs.Calls.Lawful
import ScriptCore.Proofs.Drive.Routine

/-! # Procedures that work by acts

A procedure `Works` in a world when everything that it does to the heap is done by acts, however it ends, and
what it delivers or throws is what it should be. The judgement is put together along the procedure: a rule for
sequences, one for what is read, and one for each primitive of the heap.

* `Works`: **what a procedure does in a lawful world.**
* `Works.bind`, `Works.read`: sequences, and reading the heap.
* `works_intern`, `works_allocCell` and so on: the primitives. -/

namespace ScriptCore

variable {α β : Type} {h : Heap} {S : Setting} {own : Handle → Prop} {w w' : World} {o : ObjectRef}
  {key : PropertyKey} {c : CellRef} {d : Descriptor} {v : Value} {s : ScopeRef}

open Heap (Stays refers_iff object_eq_ok cell_eq_ok scope_eq_ok text_eq_ok)

/-! ### Errors that name no object -/

/-- The result is no value that the program threw. -/
def Mild (r : Except Error α) : Prop := ∀ v, r ≠ .error (.throw v)

namespace Mild

theorem ok (a : α) : Mild (.ok a) := fun _ hv => by cases hv

theorem error {e : Error} (he : ∀ v, e ≠ .throw v) : Mild (.error e : Except Error α) :=
  fun v hv => he v (Except.error.inj hv)

/-- The error of a mild result makes another result mild. -/
theorem of_error {r : Except Error α} {e : Error} (hr : Mild r) (he : r = .error e) :
    Mild (.error e : Except Error β) :=
  error fun v hv => hr v (he.trans (congrArg _ hv))

theorem bind {r : Except Error α} {f : α → Except Error β} (hr : Mild r) (hf : ∀ a, Mild (f a)) :
    Mild (r >>= f) := by
  cases hre : r with
  | ok a => exact hf a
  | error e => exact hr.of_error hre

end Mild

theorem mild_outOfMemory : Mild (.error .outOfMemory : Except Error α) := .error fun _ hv => by cases hv

theorem mild_invalidHandle : Mild (.error .invalidHandle : Except Error α) := .error fun _ hv => by cases hv

namespace Heap

theorem mild_text (s : StringRef) : Mild (h.text s) := by
  unfold text
  split
  · exact .ok _
  · exact mild_invalidHandle

theorem mild_object (o : ObjectRef) : Mild (h.object o) := by
  unfold object
  split
  · exact .ok _
  · exact mild_invalidHandle

theorem mild_scope (s : ScopeRef) : Mild (h.scope s) := by
  unfold scope
  split
  · exact .ok _
  · exact mild_invalidHandle

theorem mild_cell (c : CellRef) : Mild (h.cell c) := by
  unfold cell
  split
  · exact .ok _
  · exact mild_invalidHandle

end Heap

/-- A thrown value names no private object. -/
def Error.Public (R : Realm) (h : Heap) (e : Error) : Prop := ∀ v, e = .throw v → v.Public R h

theorem Error.public_of_mild {e : Error} {R : Realm} (he : Mild (.error e : Except Error α)) : e.Public R h :=
  fun v hv => absurd (by rw [hv]) (he v)

/-- The completion names no private object. -/
def Completion.Public (R : Realm) (h : Heap) : Completion → Prop
  | .normal v | .broken _ v | .continued _ v => ∀ x, v = some x → x.Public R h
  | .thrown v | .returned v => v.Public R h

/-! ### What is known of a world is known of the next -/

namespace Acts

theorem value (hw : Acts S own w w') (hv : v.Public S.realm w.heap) : v.Public S.realm w'.heap :=
  hw.stays.value hv fun _ _ => trivial

theorem keyed (hw : Acts S own w w') (hk : w.heap.Keyed key) : w'.heap.Keyed key :=
  hw.stays.keyed hk fun _ _ => trivial

theorem spells {name : String} (hw : Acts S own w w') (hk : w.heap.Spells key name) : w'.heap.Spells key name :=
  hw.stays.spells hk

theorem shown (hw : Acts S own w w') (ho : w.heap.Public S.realm o) : w'.heap.Public S.realm o :=
  hw.stays.publicObject ho trivial

theorem hidden (hw : Acts S own w w') (ho : w.heap.Private S.realm o) : w'.heap.Private S.realm o :=
  hw.stays.privateObject ho trivial

theorem error {e : Error} (hw : Acts S own w w') (he : e.Public S.realm w.heap) : e.Public S.realm w'.heap :=
  fun v hv => hw.value (he v hv)

theorem completion {c : Completion} (hw : Acts S own w w') (hc : c.Public S.realm w.heap) :
    c.Public S.realm w'.heap := by
  cases c with
  | thrown v => exact hw.value hc
  | returned v => exact hw.value hc
  | _ => exact fun x hx => hw.value (hc x hx)

end Acts

theorem Acts.binds (hw : Acts S own w w') (hb : w.heap.Binds s o) : w'.heap.Binds s o := hw.stays.binds hb

/-! ### The judgement -/

/-- The machine runs code of the world: its heap is that of the world, and some task is active. -/
structure World.At (S : Setting) (w : World) (m : Machine) : Prop where
  heap : m.heap = w.heap
  realm : m.realm = S.realm
  active : m.active.isSome = true

/-- What a procedure may come to that began in the world `w`. -/
def Outcome.Works (S : Setting) (own : Handle → Prop) (w : World) (Q : World → α → Prop) :
    Outcome Machine α → Prop
  | .done a m => ∃ w', Acts S own w w' ∧ w'.At S m ∧ Q w' a
  | .failed e m => ∃ w', Acts S own w w' ∧ w'.At S m ∧ e.Public S.realm w'.heap
  | .stalled => True

theorem Outcome.Works.after {Q : World → α → Prop} {r : Outcome Machine α} (hr : r.Works S own w' Q)
    (hacts : Acts S own w w') : r.Works S own w Q := by
  cases r with
  | stalled => trivial
  | failed e m =>
    obtain ⟨w₂, hacts', hrest⟩ := hr
    exact ⟨w₂, hacts.trans hacts', hrest⟩
  | done b m =>
    obtain ⟨w₂, hacts', hrest⟩ := hr
    exact ⟨w₂, hacts.trans hacts', hrest⟩

/-- **A procedure works** in a world: what it does to the heap it does by acts, and those that bind names bind
them in objects that satisfy `own` or are new. What it delivers satisfies `Q`. -/
def Works (S : Setting) (own : Handle → Prop) (w : World) (p : Run α) (Q : World → α → Prop) : Prop :=
  w.Lawful S → (∀ x, w.Fresh x → own x) → ∀ m, w.At S m → (p m).Works S own w Q

/-- What comes after a procedure works in the world that it left. -/
theorem Outcome.Works.bind {P : World → α → Prop} {Q' : World → β → Prop} {r : Outcome Machine α} {f : α → Run β}
    (hr : r.Works S own w P) (hw : w.Lawful S) (hown : ∀ x, w.Fresh x → own x)
    (hf : ∀ w' a m, w'.Lawful S → Acts S own w w' → w'.At S m → r = .done a m → P w' a →
      ScriptCore.Works S own w' (f a) Q') : (r.bind f).Works S own w Q' := by
  cases r with
  | stalled => trivial
  | failed e m => exact hr
  | done a m =>
    obtain ⟨w₁, hacts, hm, ha⟩ := hr
    have hlawful := hacts.lawful hw
    exact (hf w₁ a m hlawful hacts hm rfl ha hlawful (fun x hx => hown x (hacts.fresh hx)) m hm).after hacts

namespace Works

variable {p : Run α} {f : α → Run β} {P Q : World → α → Prop} {Q' : World → β → Prop}

theorem pure {a : α} (ha : Q w a) : Works S own w (pure a) Q := fun _ _ _ hm => ⟨w, .refl, hm, ha⟩

theorem fail {e : Error} (he : e.Public S.realm w.heap) : Works S own w (throw e : Run α) Q :=
  fun _ _ _ hm => ⟨w, .refl, hm, he⟩

theorem stall : Works S own w (Proc.stall : Run α) Q := fun _ _ _ _ => trivial

/-- **Sequences**: the second part works in the world that the first one left, where the run of the first part is
known. -/
theorem bind_run (hp : Works S own w p P)
    (hf : ∀ w' a, w'.Lawful S → Acts S own w w' → P w' a →
      (∃ m m', p m = .done a m' ∧ m'.heap = w'.heap) → Works S own w' (f a) Q') :
    Works S own w (p >>= f) Q' := by
  intro hw hown m hm
  rw [Proc.bind_eq]
  refine (hp hw hown m hm).bind hw hown fun w₁ a m' hw₁ hacts hm' hdone ha => ?_
  exact hf w₁ a hw₁ hacts ha ⟨m, m', hdone, hm'.heap⟩

/-- The second part works in the world that the first one left. -/
theorem bind (hp : Works S own w p P)
    (hf : ∀ w' a, w'.Lawful S → Acts S own w w' → P w' a → Works S own w' (f a) Q') :
    Works S own w (p >>= f) Q' := hp.bind_run fun w' a hw' hacts ha _ => hf w' a hw' hacts ha

theorem imp (hp : Works S own w p P) (hPQ : ∀ w' a, w'.Lawful S → Acts S own w w' → P w' a → Q w' a) :
    Works S own w p Q := by
  have hbind : Works S own w (p >>= Pure.pure) Q := hp.bind fun w' a hw' hacts ha => .pure (hPQ w' a hw' hacts ha)
  rwa [bind_pure] at hbind

theorem map {g : α → β} (hp : Works S own w p fun w' a => Q' w' (g a)) : Works S own w (g <$> p) Q' := by
  rw [map_eq_pure_bind]
  exact hp.bind fun _ _ _ _ ha => .pure ha

theorem discard_bind {f : Unit → Run β} (hp : Works S own w p P)
    (hf : ∀ w' a, w'.Lawful S → Acts S own w w' → P w' a → Works S own w' (f ()) Q') :
    Works S own w (discard p >>= f) Q' := by
  rw [Proc.discard_bind]
  exact hp.bind hf

theorem discard {Q' : World → Unit → Prop} (hp : Works S own w p fun w' _ => Q' w' ()) :
    Works S own w (discard p) Q' := hp.map

/-- What holds of lawful worlds may be used. -/
theorem lawful (hp : w.Lawful S → Works S own w p Q) : Works S own w p Q := fun hw => hp hw hw

/-- What is new may be taken for a binding or a call. -/
theorem owning (hp : (∀ x, w.Fresh x → own x) → Works S own w p Q) : Works S own w p Q :=
  fun hw hown => hp hown hw hown

/-- **Reading the heap.** -/
theorem read {g : Heap → Except Error α} (hg : Mild (g w.heap))
    (hf : ∀ a, g w.heap = .ok a → Works S own w (f a) Q') : Works S own w (Run.readHeap g >>= f) Q' := by
  intro hw hown m hm
  rw [Run.readHeap_bind, hm.heap]
  cases ha : g w.heap with
  | ok a => exact hf a ha hw hown m hm
  | error e => exact ⟨w, .refl, hm, Error.public_of_mild (ha ▸ hg)⟩

theorem reads {g : Heap → Except Error α} (hg : Mild (g w.heap)) (hQ : ∀ a, g w.heap = .ok a → Q w a) :
    Works S own w (Run.readHeap g) Q := by
  have hread : Works S own w (Run.readHeap g >>= Pure.pure) Q := read hg fun a ha => .pure (hQ a ha)
  rwa [bind_pure] at hread

theorem realm_bind {f : Realm → Run β} (hf : Works S own w (f S.realm) Q') :
    Works S own w (Run.realm >>= f) Q' := fun hw hown m hm => by
  have hrun := hf hw hown m hm
  rw [← hm.realm] at hrun
  exact hrun

theorem names_bind {f : CommonNames → Run β} (hf : Works S own w (f S.realm.names) Q') :
    Works S own w (Run.names >>= f) Q' := fun hw hown m hm => by
  have hrun := hf hw hown m hm
  rw [← hm.realm] at hrun
  exact hrun

theorem isDebug_bind {f : Bool → Run β} (hf : ∀ b, Works S own w (f b) Q') :
    Works S own w (Run.isDebug >>= f) Q' := fun hw hown m hm => hf _ hw hown m hm

theorem ofExcept {r : Except Error α} (hok : ∀ a, r = .ok a → Q w a)
    (herror : ∀ e, r = .error e → e.Public S.realm w.heap) : Works S own w (Proc.ofExcept r) Q := by
  cases r with
  | ok a => exact .pure (hok a rfl)
  | error e => exact .fail (herror e rfl)

theorem ite {b : Prop} [Decidable b] {q : Run α} (hp : b → Works S own w p Q) (hq : ¬ b → Works S own w q Q) :
    Works S own w (if b then p else q) Q := by
  by_cases hb : b
  · rw [if_pos hb]
    exact hp hb
  · rw [if_neg hb]
    exact hq hb

/-- What a procedure takes for bindings and calls may always be what is new. -/
theorem narrow (hp : Works S w.Fresh w p Q) : Works S own w p fun w' a => Q w' a ∧ Acts S w.Fresh w w' := by
  intro hw hown m hm
  have hrun := hp hw (fun _ hx => hx) m hm
  generalize p m = r at hrun
  cases r with
  | stalled => trivial
  | failed e m' =>
    obtain ⟨w', hacts, hrest⟩ := hrun
    exact ⟨w', hacts.mono hown, hrest⟩
  | done a m' =>
    obtain ⟨w', hacts, hm', ha⟩ := hrun
    exact ⟨w', hacts.mono hown, hm', ha, hacts⟩

/-- A procedure over the heap. -/
theorem onHeap {p : Proc Heap α}
    (hp : w.Lawful S → (∃ e, p w.heap = .failed e w.heap ∧ Mild (.error e : Except Error α)) ∨
      ∃ a w', p w.heap = .done a w'.heap ∧ Acts S own w w' ∧ Q w' a) :
    Works S own w (Run.onHeap p) Q := by
  intro hw _ m hm
  rcases hp hw with ⟨e, hfailed, hmild⟩ | ⟨a, w', hdone, hacts, ha⟩
  · rw [Run.onHeap_failed (h := w.heap) (by rw [hm.heap, hfailed])]
    exact ⟨w, .refl, ⟨rfl, hm.realm, hm.active⟩, Error.public_of_mild hmild⟩
  · rw [Run.onHeap_done (h := w'.heap) (by rw [hm.heap, hdone])]
    exact ⟨w', hacts, ⟨rfl, hm.realm, hm.active⟩, ha⟩

end Works

/-! ### The primitives -/

/-- Blocks were made, and nothing was bound to them yet. -/
structure World.Extends (w w' : World) : Prop where
  calls : w'.calls = w.calls
  refers : ∀ o key c, w'.heap.Refers o key c ↔ w.heap.Refers o key c

namespace World.Extends

theorem refl (w : World) : w.Extends w := ⟨rfl, fun _ _ _ => .rfl⟩

theorem trans {w₁ w₂ : World} (h₁ : w.Extends w₁) (h₂ : w₁.Extends w₂) : w.Extends w₂ :=
  ⟨h₂.calls.trans h₁.calls, fun o key c => (h₂.refers o key c).trans (h₁.refers o key c)⟩

theorem filled {b : Block} {id : Handle} {h' : Heap} {R : Realm} (hf : w.heap.Filled b id h')
    (hb : w.heap.MadeBlock R b) : w.Extends { w with heap := h' } :=
  ⟨rfl, fun _ _ _ => ⟨hf.refers_of hb.properties, hf.refers⟩⟩

theorem free (he : w.Extends w') (hc : w.Free c) : w'.Free c :=
  ⟨fun o key hr => hc.1 o key ((he.refers o key c).mp hr), he.calls ▸ hc.2⟩

end World.Extends

section Primitives

variable {Q : World → Unit → Prop}

/-- A block that is made. -/
theorem works_alloc {b : Block} (hb : w.heap.MadeBlock S.realm b) (hstring : ∀ t, b ≠ .string t) :
    Works S own w (Run.onHeap (Heap.alloc b)) fun w' id =>
      w'.heap.block? id = some b ∧ w.Fresh id ∧ w.Extends w' := by
  refine .onHeap fun hw => ?_
  have hvalid := Heap.keeps_alloc hstring w.heap hw.heap.valid
  have hnumbered := Heap.keeps_numbered_alloc b w.heap hw.heap.numbered
  rcases Heap.alloc_filled hw.heap.valid.toConsistent b with ⟨-, hfailed⟩ | ⟨id, h', hdone, hf, -⟩
  · exact .inl ⟨_, hfailed, mild_outOfMemory⟩
  · rw [hdone] at hvalid hnumbered
    exact .inr ⟨id, { w with heap := h' }, hdone, .one (.filled hf hvalid hnumbered hb) (by simp),
      hf.block?_self, hf.fresh rfl, .filled hf hb⟩

/-- A text that is interned. -/
theorem works_intern {t : Text} :
    Works S own w (Run.onHeap (Heap.intern t)) fun w' r => w'.heap.text r = .ok t ∧ w.Extends w' := by
  refine .onHeap fun hw => ?_
  have hvalid := Heap.keeps_intern t w.heap hw.heap.valid
  have hnumbered := Heap.keeps_numbered_intern t w.heap hw.heap.numbered
  rcases Heap.intern_filled hw.heap.valid t with ⟨r, hdone, ht⟩ | ⟨-, ⟨-, hfailed⟩ | ⟨r, h', hdone, hf⟩⟩
  · exact .inr ⟨r, w, hdone, .refl, ht, .refl w⟩
  · exact .inl ⟨_, hfailed, mild_outOfMemory⟩
  · rw [hdone] at hvalid hnumbered
    exact .inr ⟨r, { w with heap := h' }, hdone, .one (.filled hf hvalid hnumbered trivial) (by simp),
      text_eq_ok.mpr hf.block?_self, .filled (R := S.realm) hf trivial⟩

theorem works_modifyObject {f : Object → Object}
    (hf : w.Lawful S → ∀ obj, w.heap.object o = .ok obj →
      ∃ w', w'.heap = w.heap.put o.handle (.object (f obj)) ∧ Acts S own w w' ∧ Q w' ()) :
    Works S own w (Run.onHeap (Heap.modifyObject o f)) Q := by
  refine .onHeap fun hw => ?_
  cases ho : w.heap.object o with
  | error e => exact .inl ⟨e, Heap.modifyObject_failed ho f, (Heap.mild_object o).of_error ho⟩
  | ok obj =>
    obtain ⟨w', hheap, hacts, hQ⟩ := hf hw obj ho
    exact .inr ⟨(), w', by rw [Heap.modifyObject_done ho, hheap], hacts, hQ⟩

/-- The receiver or the strictness of a scope is set. -/
theorem works_modifyScope {f : Scope → Scope}
    (hf : ∀ sc, w.heap.scope s = .ok sc → ∃ u strict, f sc = { sc with receiver := u, strict } ∧
      u.Public S.realm w.heap) :
    Works S own w (Run.onHeap (Heap.modifyScope s f)) fun _ _ => True := by
  refine .onHeap fun hw => ?_
  cases hs : w.heap.scope s with
  | error e => exact .inl ⟨e, Heap.modifyScope_failed hs f, (Heap.mild_scope s).of_error hs⟩
  | ok sc =>
    obtain ⟨u, strict, hfsc, hu⟩ := hf sc hs
    refine .inr ⟨(), { w with heap := w.heap.put s.handle (.scope { sc with receiver := u, strict }) }, ?_,
      .one (.adjusted strict hs hu) (by simp), trivial⟩
    rw [Heap.modifyScope_done hs, hfsc]

/-- A value is written to a cell, as the attributes of the property or its name allow. -/
theorem works_writeCell (hv : v.Public S.realm w.heap)
    (hallowed : w.Lawful S → ∀ d, w.heap.cell c = .ok d → d.isWritable = true ∨
      ∀ key, w.heap.Refers S.realm.globalObject key c → ∃ name, w.heap.Spells key name ∧ ¬ S.forbids name) :
    Works S own w (Run.onHeap (Heap.writeCell c v)) fun _ _ => True := by
  refine .onHeap fun hw => ?_
  cases hc : w.heap.cell c with
  | error e => exact .inl ⟨e, Heap.modifyCell_failed hc _, (Heap.mild_cell c).of_error hc⟩
  | ok d =>
    have hwritable := hallowed hw d hc
    unfold Descriptor.isWritable at hwritable
    cases hd : d.content with
    | accessor g t => exact .inl ⟨_, Heap.writeCell_accessor hc hd v, mild_invalidHandle⟩
    | data u writable =>
      rw [hd] at hwritable
      exact .inr ⟨(), _, Heap.writeCell_done hc hd v, .one (.written hc hd hv hwritable) (by simp), trivial⟩

end Primitives

end ScriptCore
