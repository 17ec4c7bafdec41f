import ScriptCore.Proofs.Object.Visibility
import ScriptCore.Proofs.Scope.Limits

/-! # How deep a chain of prototypes may be

Before an object gets a prototype, the chain of the prototype is walked, and it may have as many members as a walk
visits. A lookup starts at the object itself. So it has one object more to visit, and the last one of a longest chain
is out of its reach: a key that none of the others has is not found to be missing, the lookup fails.

* `Proc.Shallow`: a procedure that walks no chain, so that it never fails because of one.
* `getProperty_deep_iff`, `setProperty_deep_iff`: reading and writing fail for a walk, or for the code they run.
* `Heap.Escapes`, `accepted_prototype_walks`: **which lookups fail after a prototype was accepted.**
* `accepted_beyond_walks`: a chain that is accepted and too long for every lookup. -/

namespace ScriptCore

variable {α : Type} {h h' : Heap} {m m' : Machine} {o : ObjectRef} {p : Option ObjectRef} {l : List ObjectRef}
  {key : PropertyKey} {v : Value} {strict : Bool} {E : Engine}

/-! ### Procedures that walk no chain -/

/-- The answer is not that a chain is too long. -/
def Except.Shallow (r : Except Error α) : Prop := r ≠ .error .prototypeChainTooDeep

namespace Except.Shallow

variable {β : Type} {r : Except Error α} {f : α → Except Error β}

theorem ok (a : α) : Except.Shallow (.ok a) := nofun

theorem bind (hr : Except.Shallow r) (hf : ∀ a, Except.Shallow (f a)) : Except.Shallow (r >>= f) := by
  cases r with
  | error e => exact fun herror => hr (congrArg Except.error (Except.error.inj herror))
  | ok a => exact hf a

end Except.Shallow

namespace Heap

theorem shallow_object (h : Heap) (o : ObjectRef) : Except.Shallow (h.object o) := by
  unfold Heap.object Except.Shallow
  split <;> simp

theorem shallow_cell (h : Heap) (c : CellRef) : Except.Shallow (h.cell c) := by
  unfold Heap.cell Except.Shallow
  split <;> simp

theorem shallow_text (h : Heap) (s : StringRef) : Except.Shallow (h.text s) := by
  unfold Heap.text Except.Shallow
  split <;> simp

theorem shallow_ownCell (h : Heap) (o : ObjectRef) (key : PropertyKey) : Except.Shallow (h.ownCell o key) :=
  (h.shallow_object o).bind fun _ => .ok _

theorem shallow_ownProperty (h : Heap) (o : ObjectRef) (key : PropertyKey) : Except.Shallow (h.ownProperty o key) := by
  refine (h.shallow_ownCell o key).bind fun found => ?_
  cases found with
  | none => exact .ok _
  | some c => exact (h.shallow_cell c).bind fun _ => .ok _

theorem shallow_ownWritable (h : Heap) (o : ObjectRef) (key : PropertyKey) : Except.Shallow (h.ownWritable o key) := by
  refine (h.shallow_ownProperty o key).bind fun found => ?_
  cases found <;> exact .ok _

theorem shallow_isArray (h : Heap) (o : ObjectRef) : Except.Shallow (h.isArray o) := by
  refine (h.shallow_object o).bind fun obj => ?_
  cases obj.kind <;> exact .ok _

theorem shallow_isExtensible (h : Heap) (o : ObjectRef) : Except.Shallow (h.isExtensible o) :=
  (h.shallow_object o).bind fun _ => .ok _

theorem shallow_isCallable (h : Heap) (v : Value) : Except.Shallow (h.isCallable v) := by
  cases v with
  | object o =>
    refine (h.shallow_object o).bind fun obj => ?_
    cases obj.kind <;> exact .ok _
  | _ => exact .ok _

theorem shallow_describe (h : Heap) (v : Value) : Except.Shallow (h.describe v) := by
  cases v with
  | object o => exact ((h.shallow_object o).bind fun _ => .ok _).bind fun _ => .ok _
  | string s => exact (h.shallow_text s).bind fun _ => .ok _
  | _ => exact .ok _

theorem shallow_keyText (h : Heap) (key : PropertyKey) : Except.Shallow (h.keyText key) := by
  cases key with
  | string s => exact (h.shallow_text s).bind fun _ => .ok _
  | index i => exact .ok _

theorem shallow_lengthOf (h : Heap) (names : CommonNames) (o : ObjectRef) : Except.Shallow (h.lengthOf names o) := by
  refine (h.shallow_ownProperty o names.length).bind fun found => ?_
  cases found with
  | none => exact .ok _
  | some d =>
    dsimp only
    split <;> exact .ok _

end Heap

/-- **The procedure never fails because a chain is too long.** -/
structure Proc.Shallow {σ : Type} (p : Proc σ α) : Prop where
  avoids : ∀ s s', p s ≠ .failed .prototypeChainTooDeep s'

namespace Proc.Shallow

variable {σ β : Type} {p : Proc σ α} {f : α → Proc σ β} {s s' : σ}

theorem pure (a : α) : (Pure.pure a : Proc σ α).Shallow := ⟨nofun⟩

theorem names : Run.names.Shallow := by
  refine ⟨fun m m' hfailed => ?_⟩
  unfold Run.names at hfailed
  cases hfailed

theorem fail {e : Error} (he : e ≠ .prototypeChainTooDeep) : (throw e : Proc σ α).Shallow := by
  refine ⟨fun s s' hfailed => ?_⟩
  cases hfailed
  exact he rfl

theorem bind (hp : p.Shallow) (hf : ∀ a, (f a).Shallow) : (p >>= f).Shallow := by
  refine ⟨fun s s' hfailed => ?_⟩
  cases hps : p s with
  | done a t =>
    rw [Proc.bind_done hps] at hfailed
    exact (hf a).avoids t s' hfailed
  | failed e t =>
    rw [Proc.bind_failed hps] at hfailed
    cases hfailed
    exact hp.avoids s s' hps
  | stalled =>
    rw [Proc.bind_stalled hps] at hfailed
    cases hfailed

/-- A sequence fails because of a chain exactly where its second part does, if the first never does. -/
theorem bind_failed_iff (hf : ∀ a, (f a).Shallow) :
    (p >>= f) s = .failed .prototypeChainTooDeep s' ↔ p s = .failed .prototypeChainTooDeep s' := by
  cases hps : p s with
  | done a t =>
    rw [Proc.bind_done hps]
    exact ⟨fun hfailed => absurd hfailed ((hf a).avoids t s'), nofun⟩
  | failed e t => rw [Proc.bind_failed hps]; simp
  | stalled => rw [Proc.bind_stalled hps]; simp

theorem discard (hp : p.Shallow) : (discard p).Shallow := bind hp fun _ => pure ()

theorem reads {g : σ → Except Error α} (hg : ∀ s, Except.Shallow (g s)) : (Proc.reads g).Shallow := by
  refine ⟨fun s s' hfailed => ?_⟩
  unfold Proc.reads at hfailed
  split at hfailed
  · cases hfailed
  · next e he =>
    cases hfailed
    exact hg s he

theorem readHeap {g : Heap → Except Error α} (hg : ∀ h, Except.Shallow (g h)) : (Run.readHeap g).Shallow :=
  reads fun m => hg m.heap

theorem onHeap {q : Proc Heap α} (hq : q.Shallow) : (Run.onHeap q).Shallow := by
  refine ⟨fun m m' hfailed => ?_⟩
  cases hqm : q m.heap with
  | done a h =>
    rw [Run.onHeap_done hqm] at hfailed
    cases hfailed
  | failed e h =>
    rw [Run.onHeap_failed hqm] at hfailed
    cases hfailed
    exact hq.avoids _ _ hqm
  | stalled =>
    unfold Run.onHeap at hfailed
    simp only [hqm] at hfailed
    cases hfailed

end Proc.Shallow

namespace Heap

theorem shallow_alloc (b : Block) : (alloc b).Shallow := by
  refine ⟨fun h h' hfailed => ?_⟩
  unfold alloc at hfailed
  repeat' split at hfailed
  all_goals cases hfailed

theorem shallow_modifyObject (o : ObjectRef) (f : Object → Object) : (modifyObject o f).Shallow := by
  refine ⟨fun h h' hfailed => ?_⟩
  unfold modifyObject at hfailed
  split at hfailed
  · cases hfailed
  · next e he =>
    cases hfailed
    exact h.shallow_object o he

theorem shallow_writeCell (c : CellRef) (v : Value) : (writeCell c v).Shallow := by
  refine ⟨fun h h' hfailed => ?_⟩
  unfold writeCell modifyCell at hfailed
  split at hfailed
  · next d hd =>
    cases hcontent : d.content <;> simp [hcontent] at hfailed
  · next e he =>
    cases hfailed
    exact h.shallow_cell c he

theorem shallow_define (o : ObjectRef) (key : PropertyKey) (d : Descriptor) : (define o key d).Shallow := by
  have halloc : (allocCell d).Shallow := .bind (shallow_alloc _) fun _ => .pure _
  have hinstall : ∀ c, (installCell o key c).Shallow := fun c => by
    rw [installCell_ample]
    exact .bind (.discard (.reads fun h => h.shallow_cell c)) fun _ => shallow_modifyObject o _
  exact .bind (.discard (.reads fun h => h.shallow_object o)) fun _ =>
    .bind halloc fun c => .bind (hinstall c) fun _ => .pure c

end Heap

theorem shallow_refuseWrite (key : PropertyKey) (strict : Bool) : (refuseWrite key strict).Shallow := by
  unfold refuseWrite
  split
  · exact .bind (.readHeap fun h => h.shallow_keyText key) fun _ => .fail nofun
  · exact .pure false

theorem shallow_arrayLength (a : ObjectRef) : (arrayLength a).Shallow := by
  unfold arrayLength
  exact .bind .names fun names => .readHeap fun h => h.shallow_lengthOf names a

theorem shallow_writeLength (a : ObjectRef) (n : UInt32) : (writeLength a n).Shallow := by
  unfold writeLength
  refine .bind .names fun names => .bind (.readHeap fun h => h.shallow_ownCell a names.length) fun found => ?_
  cases found with
  | none => exact .discard (.onHeap (Heap.shallow_define ..))
  | some c => exact .onHeap (Heap.shallow_writeCell ..)

theorem shallow_noteKey (o : ObjectRef) (key : PropertyKey) : (noteKey o key).Shallow := by
  unfold noteKey
  split
  · refine .bind (.readHeap fun h => h.shallow_isArray o) fun isArray => ?_
    split
    · refine .bind (shallow_arrayLength o) fun n => ?_
      split
      · exact shallow_writeLength o _
      · exact .pure ()
    · exact .pure ()
  · exact .pure ()

theorem shallow_createOwn (o : ObjectRef) (key : PropertyKey) (v : Value) (strict : Bool) :
    (createOwn o key v strict).Shallow := by
  unfold createOwn
  refine .bind (.readHeap fun h => h.shallow_isExtensible o) fun extensible => ?_
  split
  · exact .bind (.discard (.onHeap (Heap.shallow_define ..))) fun _ =>
      .bind (shallow_noteKey o key) fun _ => .pure true
  · exact shallow_refuseWrite key strict

/-- Setting the length of an array walks no chain once the value is a number. -/
theorem setLength_deep_iff (a : ObjectRef) : setLength E a v m = .failed .prototypeChainTooDeep m' ↔
    toNumber E v m = .failed .prototypeChainTooDeep m' := by
  unfold setLength
  refine Proc.Shallow.bind_failed_iff fun x => ?_
  split
  · exact .bind (.onHeap (Heap.shallow_modifyObject ..)) fun _ => shallow_writeLength a _
  · exact .bind (.readHeap fun h => h.shallow_describe v) fun _ => .fail nofun

/-! ### Lookups that fail because of a chain -/

/-- Reading the property of an object calls the getter `g`. -/
def Heap.Getter (h : Heap) (o : ObjectRef) (key : PropertyKey) (g : Value) : Prop :=
  ∃ q c d s, h.findProperty o key = .ok (some (q, c)) ∧ h.cell c = .ok d ∧ d.content = .accessor g s ∧
    h.isCallable g = .ok true

/-- Writing the property of an object calls the setter `s`. -/
def Heap.Setter (h : Heap) (o : ObjectRef) (key : PropertyKey) (s : Value) : Prop :=
  ∃ q c d g, h.findProperty o key = .ok (some (q, c)) ∧ h.cell c = .ok d ∧ d.content = .accessor g s ∧
    h.isCallable s = .ok true

/-- The key is the length of an array, to which no chain is walked. -/
def Machine.IsLength (m : Machine) (o : ObjectRef) (key : PropertyKey) : Prop :=
  m.heap.isArray o = .ok true ∧ key = m.realm.names.length

theorem hasProperty_deep_iff : hasProperty (.object o) key m = .failed .prototypeChainTooDeep m' ↔
    m.heap.findProperty o key = .error .prototypeChainTooDeep ∧ m' = m := by
  rw [hasProperty_eq, Heap.hasOn_chain rfl (by rintro s ⟨⟩)]
  dsimp only [bind, Except.bind]
  cases m.heap.findProperty o key with
  | ok found => simp [pure, Except.pure]
  | error e => simp [eq_comm]

/-- Code that runs if a value can be called fails because of a chain only if the value can be called. -/
theorem callable_deep_iff {g : Value} {code other : Run α} (hother : other.Shallow) :
    (do if ← Run.readHeap fun h => h.isCallable g then code else other : Run α) m = .failed .prototypeChainTooDeep m' ↔
      m.heap.isCallable g = .ok true ∧ code m = .failed .prototypeChainTooDeep m' := by
  rw [Run.readHeap_bind]
  have hshallow := m.heap.shallow_isCallable g
  cases hcall : m.heap.isCallable g with
  | error e =>
    rw [hcall] at hshallow
    have he : e ≠ .prototypeChainTooDeep := fun he => hshallow (congrArg _ he)
    simp [he]
  | ok callable =>
    cases callable with
    | true => simp
    | false => simpa using hother.avoids m m'

/-- **Reading fails because of a chain** that it walks itself, or because the getter that it calls does. -/
theorem getProperty_deep_iff : getProperty E (.object o) key m = .failed .prototypeChainTooDeep m' ↔
    (m.heap.findProperty o key = .error .prototypeChainTooDeep ∧ m' = m) ∨
      ∃ g, m.heap.Getter o key g ∧ E.call g (.object o) [] m = .failed .prototypeChainTooDeep m' := by
  rw [getProperty_eq]
  unfold Heap.lookup Heap.Getter
  dsimp only [pure, Except.pure]
  cases hfound : m.heap.findProperty o key with
  | error e => simp [eq_comm]
  | ok found =>
    cases found with
    | none => simp
    | some found =>
      obtain ⟨q, c⟩ := found
      show (Run.readHeap (fun h => h.cell c) >>= fun d => readDescriptor E d (.object o)) m = _ ↔ _
      rw [Run.readHeap_bind]
      have hshallow := m.heap.shallow_cell c
      cases hd : m.heap.cell c with
      | error e =>
        rw [hd] at hshallow
        have he : e ≠ .prototypeChainTooDeep := fun he => hshallow (congrArg _ he)
        simp [he, hd]
      | ok d =>
        unfold readDescriptor
        cases hcontent : d.content with
        | data w writable => simp [hcontent, hd]
        | accessor g s =>
          dsimp only
          rw [hcontent]
          dsimp only
          rw [callable_deep_iff (.pure _)]
          simp [hd, hcontent]

/-- A write that finds no property, or one that it may not write, walks no other chain. -/
theorem setOrdinary_deep_iff : setOrdinary E o key v strict m = .failed .prototypeChainTooDeep m' ↔
    (m.heap.findProperty o key = .error .prototypeChainTooDeep ∧ m' = m) ∨
      ∃ s, m.heap.Setter o key s ∧ E.call s (.object o) [v] m = .failed .prototypeChainTooDeep m' := by
  unfold setOrdinary Heap.Setter
  rw [Run.readHeap_bind]
  cases hfound : m.heap.findProperty o key with
  | error e => simp [eq_comm]
  | ok found =>
    cases found with
    | none =>
      have hcreate := (shallow_createOwn o key v strict).avoids m m'
      simp [hcreate]
    | some found =>
      obtain ⟨q, c⟩ := found
      dsimp only
      rw [Run.readHeap_bind]
      have hshallow := m.heap.shallow_cell c
      cases hd : m.heap.cell c with
      | error e =>
        rw [hd] at hshallow
        have he : e ≠ .prototypeChainTooDeep := fun he => hshallow (congrArg _ he)
        simp [he, hd]
      | ok d =>
        dsimp only
        cases hcontent : d.content with
        | data w writable =>
          have hwritten : (if q = o then Run.onHeap (Heap.writeCell c v) >>= fun _ => pure true
              else createOwn o key v strict : Run Bool).Shallow := by
            split
            · exact .bind (.onHeap (Heap.shallow_writeCell ..)) fun _ => .pure true
            · exact shallow_createOwn o key v strict
          cases writable with
          | false => exact iff_of_false ((shallow_refuseWrite key strict).avoids m m') (by simp [hd, hcontent])
          | true => exact iff_of_false (hwritten.avoids m m') (by simp [hd, hcontent])
        | accessor g s =>
          dsimp only
          rw [callable_deep_iff (shallow_refuseWrite key strict), Proc.discard_bind,
            Proc.Shallow.bind_failed_iff fun _ => .pure true]
          simp [hd, hcontent]

theorem Heap.findProperty_error {e : Error} (harray : h.isArray o = .error e) (key : PropertyKey) :
    h.findProperty o key = .error e := by
  unfold Heap.isArray at harray
  unfold Heap.findProperty maxPrototypeChain
  rw [Heap.findWithin]
  cases ho : h.object o with
  | error e' =>
    rw [ho] at harray
    cases harray
    rfl
  | ok obj =>
    rw [ho] at harray
    dsimp only [bind, Except.bind] at harray
    split at harray <;> cases harray

/-- **Writing fails because of a chain** that it walks itself, or because the code that it runs does: a setter, or the
conversion of a new length of an array to a number. -/
theorem setProperty_deep_iff : setProperty E o key v strict m = .failed .prototypeChainTooDeep m' ↔
    (¬ m.IsLength o key ∧ (m.heap.findProperty o key = .error .prototypeChainTooDeep ∧ m' = m ∨
      ∃ s, m.heap.Setter o key s ∧ E.call s (.object o) [v] m = .failed .prototypeChainTooDeep m')) ∨
    (m.IsLength o key ∧ m.heap.ownWritable o key = .ok true ∧
      toNumber E v m = .failed .prototypeChainTooDeep m') := by
  unfold Machine.IsLength setProperty
  rw [Run.names_bind, Run.readHeap_bind]
  have hshallow := m.heap.shallow_isArray o
  cases harray : m.heap.isArray o with
  | error e =>
    rw [harray] at hshallow
    have he : e ≠ .prototypeChainTooDeep := fun he => hshallow (congrArg _ he)
    have hfound := Heap.findProperty_error harray key
    simp [he, hfound, Heap.Setter]
  | ok isArray =>
    dsimp only
    by_cases hlength : isArray = true ∧ key = m.realm.names.length
    · obtain ⟨rfl, rfl⟩ := hlength
      have hboth : (true && decide (m.realm.names.length = m.realm.names.length)) = true := by simp
      rw [if_pos hboth, Run.readHeap_bind]
      have hshallow := m.heap.shallow_ownWritable o m.realm.names.length
      cases hwritable : m.heap.ownWritable o m.realm.names.length with
      | error e =>
        rw [hwritable] at hshallow
        have he : e ≠ .prototypeChainTooDeep := fun he => hshallow (congrArg _ he)
        simp [he]
      | ok writable =>
        cases writable with
        | false => exact iff_of_false ((shallow_refuseWrite ..).avoids m m') (by simp)
        | true =>
          dsimp only
          rw [if_pos rfl, Proc.Shallow.bind_failed_iff fun _ => .pure true, setLength_deep_iff]
          simp
    · have hother : ¬ (isArray && decide (key = m.realm.names.length)) = true := by simpa using hlength
      rw [if_neg hother, setOrdinary_deep_iff]
      simp [hlength]

/-! ### What was accepted -/

/-- **The key escapes every walk from `o`**, which inherits from the chain `l`: it is on none of the objects that a walk
visits, and one object is left. -/
def Heap.Escapes (h : Heap) (o : ObjectRef) (l : List ObjectRef) (key : PropertyKey) : Prop :=
  l.length = maxPrototypeChain ∧ ∀ q ∈ (o :: l).take maxPrototypeChain, h.ownCell q key = .ok none

/-- A chain that does not meet the object stays as it is when the object inherits from it. -/
theorem Heap.lineage_inherited {obj : Object} (ho : h.object o = .ok obj) (hl : h.Lineage p l) (hnot : o ∉ l) :
    (h.put o.handle (.object { obj with prototype := p })).Lineage p l ∧
      (h.put o.handle (.object { obj with prototype := p })).prototype o = .ok p := by
  constructor
  · refine hl.mono fun q hq r hr => ?_
    have hne : q ≠ o := fun hqo => hnot (hqo ▸ hq)
    obtain ⟨qobj, hqobj, rfl⟩ := Heap.prototype_eq_ok.mp hr
    refine Heap.prototype_eq_ok.mpr ⟨qobj, ?_, rfl⟩
    rw [Heap.object_put_object ho, if_neg hne, hqobj]
  · refine Heap.prototype_eq_ok.mpr ⟨{ obj with prototype := p }, ?_, rfl⟩
    rw [Heap.object_put_object ho, if_pos rfl]

theorem Heap.setPrototype_chain (hset : Heap.setPrototype o p h = .done () h') :
    ∃ l, h'.Lineage p l ∧ h'.prototype o = .ok p ∧ l.length ≤ maxPrototypeChain := by
  by_cases hrefused : (∀ obj, h.object o ≠ .ok obj) ∨ ¬ h.MayInherit o p
  · obtain ⟨e, hfailed⟩ := Heap.setPrototype_failed hrefused
    cases hset.symm.trans hfailed
  · push Not at hrefused
    obtain ⟨⟨obj, ho⟩, hmay⟩ := hrefused
    cases hset.symm.trans (Heap.setPrototype_done ho hmay)
    obtain ⟨l, hl, hle, hnot⟩ := hmay
    obtain ⟨hl', ho'⟩ := Heap.lineage_inherited ho hl hnot
    exact ⟨l, hl', ho', hle⟩

/-- A walk fails exactly on the keys that escape it. -/
theorem Heap.findProperty_deep_iff (hc : h.Lineage p l) (ho : h.prototype o = .ok p)
    (hle : l.length ≤ maxPrototypeChain) :
    h.findProperty o key = .error .prototypeChainTooDeep ↔ h.Escapes o l key := by
  unfold Heap.findProperty Heap.Escapes
  rw [Heap.findWithin_deep_iff _ _ _ (.cons ho hc), List.length_cons, Nat.lt_succ_iff]
  constructor
  · rintro ⟨hge, hmissing⟩
    exact ⟨Nat.le_antisymm hle hge, hmissing⟩
  · rintro ⟨heq, hmissing⟩
    exact ⟨heq.ge, hmissing⟩

/-- **Which lookups fail after a prototype was accepted.** The object inherits from a chain of at most
`maxPrototypeChain` members. A lookup of a key from the object fails because the chain is too deep exactly if the chain
has that many members and neither the object nor any but the last of them has the key. Finding, asking, reading and
writing fail alike, and reading and writing in no other way but through code that they run: an accessor that fails so,
or the conversion of what is to be the length of an array. -/
theorem accepted_prototype_walks (hset : Heap.setPrototype o p h = .done () h') :
    ∃ l, h'.Lineage p l ∧ l.length ≤ maxPrototypeChain ∧ ∀ key,
      (h'.findProperty o key = .error .prototypeChainTooDeep ↔ h'.Escapes o l key) ∧
      ∀ (E : Engine) (m m' : Machine), m.heap = h' →
        (hasProperty (.object o) key m = .failed .prototypeChainTooDeep m' ↔ h'.Escapes o l key ∧ m' = m) ∧
        (getProperty E (.object o) key m = .failed .prototypeChainTooDeep m' ↔
          (h'.Escapes o l key ∧ m' = m) ∨
            ∃ g, h'.Getter o key g ∧ E.call g (.object o) [] m = .failed .prototypeChainTooDeep m') ∧
        ∀ v strict, setProperty E o key v strict m = .failed .prototypeChainTooDeep m' ↔
          (¬ m.IsLength o key ∧ (h'.Escapes o l key ∧ m' = m ∨
            ∃ s, h'.Setter o key s ∧ E.call s (.object o) [v] m = .failed .prototypeChainTooDeep m')) ∨
          (m.IsLength o key ∧ h'.ownWritable o key = .ok true ∧
            toNumber E v m = .failed .prototypeChainTooDeep m') := by
  obtain ⟨l, hl, ho, hle⟩ := Heap.setPrototype_chain hset
  refine ⟨l, hl, hle, fun key => ⟨Heap.findProperty_deep_iff hl ho hle, ?_⟩⟩
  rintro E m m' rfl
  rw [← Heap.findProperty_deep_iff hl ho hle]
  exact ⟨hasProperty_deep_iff, getProperty_deep_iff, fun v strict => setProperty_deep_iff⟩

/-- A short chain hides no key. -/
theorem accepted_prototype_walks_short : ∃ h' : Heap,
    Heap.setPrototype ⟨⟨2, 0⟩⟩ (some ⟨⟨0, 0⟩⟩) Heap.descended = .done () h' ∧
    ∀ key, h'.findProperty ⟨⟨2, 0⟩⟩ key ≠ .error .prototypeChainTooDeep ∧
      ∀ m m' : Machine, m.heap = h' →
        hasProperty (.object ⟨⟨2, 0⟩⟩) key m ≠ .failed .prototypeChainTooDeep m' := by
  obtain ⟨h', hset⟩ : ∃ h', Heap.setPrototype ⟨⟨2, 0⟩⟩ (some ⟨⟨0, 0⟩⟩) Heap.descended = .done () h' := ⟨_, rfl⟩
  obtain ⟨l, hl, -, hwalks⟩ := accepted_prototype_walks hset
  have hone : h'.Lineage (some ⟨⟨0, 0⟩⟩) [⟨⟨0, 0⟩⟩] := by
    cases hset
    exact .cons rfl .nil
  have hshort : ∀ key, ¬ h'.Escapes ⟨⟨2, 0⟩⟩ l key := by
    rintro key ⟨hlength, -⟩
    rw [hl.unique hone] at hlength
    simp [maxPrototypeChain] at hlength
  refine ⟨h', hset, fun key => ⟨fun hdeep => hshort key ((hwalks key).1.mp hdeep), fun m m' hm hdeep => ?_⟩⟩
  exact hshort key (((hwalks key).2 Edit.refusing m m' hm).1.mp hdeep).1

/-! ### A chain that is accepted and too long -/

/-- There is room for an object apart from the chain. -/
theorem Heap.Deep.apart {n : Nat} {ps : List ObjectRef} (hd : h.Deep n p ps) (hn : n ≤ maxPrototypeChain + 1) :
    ∃ (o : ObjectRef) (h' : Heap), h'.Built ∧ h'.object o = .ok ⟨none, .object, true, .empty, .ordinary⟩ ∧
      h'.Lineage p ps ∧ (∀ q ∈ ps, h'.Bare q) ∧ o ∉ ps := by
  have hbuilt := Heap.keeps_built (.allocObject none .object .ordinary) (fun _ => rfl) h hd.built
  rcases Heap.alloc_filled hd.built.valid.toConsistent (.object ⟨none, .object, true, .empty, .ordinary⟩) with
    ⟨hfull, -⟩ | ⟨id, h', hdone, hf, -⟩
  · exact absurd hfull (hd.not_full hn)
  have halloc : Heap.allocObject none .object .ordinary h = .done ⟨id⟩ h' := Proc.bind_done hdone _
  rw [halloc] at hbuilt
  have hkept : ∀ q obj, h.object q = .ok obj → h'.object q = .ok obj := fun q obj hq =>
    Heap.object_eq_ok.mpr (hf.block?_of_some (Heap.object_eq_ok.mp hq))
  refine ⟨⟨id⟩, h', hbuilt, Heap.object_eq_ok.mpr hf.block?_self, hd.chain.mono fun q _ r hr => ?_,
    fun q hq => ?_, fun hmem => ?_⟩
  · obtain ⟨obj, hobj, rfl⟩ := Heap.prototype_eq_ok.mp hr
    exact Heap.prototype_eq_ok.mpr ⟨obj, hkept q obj hobj, rfl⟩
  · obtain ⟨r, hq⟩ := hd.bare q hq
    exact ⟨r, hkept q _ hq⟩
  · -- The handle named nothing before.
    obtain ⟨r, hr⟩ := hd.bare _ hmem
    have hsome := Heap.object_eq_ok.mp hr
    rw [hf.fresh rfl] at hsome
    cases hsome

/-- **An accepted prototype that no lookup gets past**: the longest chain that may be inherited from is too long for
the object that inherits from it. -/
theorem accepted_beyond_walks : ∃ (h h' : Heap) (o p : ObjectRef), h.Built ∧ h.Founded ∧
    (∃ obj, h.object o = .ok obj) ∧ Heap.setPrototype o (some p) h = .done () h' ∧
    ∀ key, h'.findProperty o key = .error .prototypeChainTooDeep ∧
      ∀ (E : Engine) (m : Machine), m.heap = h' →
        hasProperty (.object o) key m = .failed .prototypeChainTooDeep m ∧
        getProperty E (.object o) key m = .failed .prototypeChainTooDeep m ∧
        ∀ v strict, setProperty E o key v strict m = .failed .prototypeChainTooDeep m := by
  obtain ⟨_, -, hd⟩ := deep_create
  obtain ⟨h₀, p, ps, hd⟩ := hd.exists_longer 9999 (by decide)
  obtain ⟨o, h, hbuilt, ho, hchain, hbare, hnot⟩ := hd.apart (by decide)
  have hlength : (p :: ps).length = maxPrototypeChain := hd.length
  obtain ⟨hchain', hproto⟩ := Heap.lineage_inherited ho hchain hnot
  have hobject := Heap.object_put_object ho { (⟨none, .object, true, .empty, .ordinary⟩ : Object) with
    prototype := some p }
  refine ⟨h, _, o, p, hbuilt, hbuilt.founded, ⟨_, ho⟩, Heap.setPrototype_done ho ⟨_, hchain, hlength.le, hnot⟩,
    fun key => ?_⟩
  have hiff : Heap.findProperty _ o key = _ ↔ _ := Heap.findProperty_deep_iff hchain' hproto hlength.le
  have hfound := hiff.mpr ⟨hlength, fun q hq => ?_⟩
  · refine ⟨hfound, ?_⟩
    rintro E m hm
    rw [← hm] at hfound hobject
    have hplain : ¬ m.IsLength o key := by
      rintro ⟨harray, -⟩
      obtain ⟨obj', ho', hkind⟩ := Heap.isArray_eq_ok.mp harray
      cases ((hobject o).trans (if_pos rfl)).symm.trans ho'
      cases hkind.mp rfl
    exact ⟨hasProperty_deep_iff.mpr ⟨hfound, rfl⟩, getProperty_deep_iff.mpr (.inl ⟨hfound, rfl⟩),
      fun v strict => setProperty_deep_iff.mpr (.inl ⟨hplain, .inl ⟨hfound, rfl⟩⟩)⟩
  · refine Heap.ownCell_eq_ok.mpr ?_
    rcases List.mem_cons.mp (List.mem_of_mem_take hq) with rfl | hq
    · exact ⟨_, (hobject q).trans (if_pos rfl), rfl⟩
    · obtain ⟨r, hr⟩ := hbare q hq
      have hne : q ≠ o := fun hqo => hnot (hqo ▸ hq)
      exact ⟨_, (hobject q).trans ((if_neg hne).trans hr), rfl⟩

end ScriptCore
