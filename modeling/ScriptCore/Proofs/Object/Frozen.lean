import ScriptCore.Proofs.Object.Edits
import ScriptCore.Proofs.Property.Endurance

/-! # Frozen properties

Whatever may be done to a property is decided by what its cell holds, so it does not matter through which object
and under which key a cell is reached. Only the length of an array is written without a look at its attributes;
an object that is no array is safe from that as long as its cells are the lengths of no arrays.

* `Heap.Honors`: what an object was is honoured: it takes no keys if it took none, and the properties that could
  not be reconfigured endure.
* `Machine.keeps_setProperty` and so on: each operation honours it.
* `frozen_stays_frozen`: **what any operations leave of an object that is no array.** -/

namespace ScriptCore

variable {α : Type} {h h₀ h' : Heap} {x o : ObjectRef} {o₀ obj obj' : Object} {length key : PropertyKey}
  {c : CellRef} {d d' : Descriptor} {m : Machine}

/-! ### What is to be honoured -/

/-- The object had the property with the cell `c`, which held `d` and could not be reconfigured. -/
structure Object.Fixes (h₀ : Heap) (o₀ : Object) (key : PropertyKey) (c : CellRef) (d : Descriptor) : Prop where
  bound : o₀.properties.find? key = some c
  cell : h₀.cell c = .ok d
  configurable : d.configurable = false

/-- What the object `obj` keeps of what it was: it is no array, it has gained no key if it took none, and keeps
the cells of the properties that could not be reconfigured. -/
structure Object.Keeps (h₀ : Heap) (o₀ obj : Object) : Prop where
  kind : obj.kind ≠ .array
  closed : o₀.extensible = false → obj.extensible = false ∧
    ∀ key c, obj.properties.find? key = some c → ∃ c₀, o₀.properties.find? key = some c₀
  bound : ∀ key c d, o₀.Fixes h₀ key c d → obj.properties.find? key = some c

namespace Heap

/-- **The heap honours what the object `x` was** in `h₀`. The cells that are to endure are not the lengths of
arrays. -/
structure Honors (h₀ : Heap) (x : ObjectRef) (o₀ : Object) (length : PropertyKey) (h : Heap) : Prop where
  valid : h.Valid
  own : ∃ obj, h.object x = .ok obj ∧ o₀.Keeps h₀ obj
  cells : ∀ key c d₀, o₀.Fixes h₀ key c d₀ → ∃ d, h.cell c = .ok d ∧ d₀.Endures d
  apart : ∀ key c d₀, o₀.Fixes h₀ key c d₀ → ∀ a obj, h.object a = .ok obj → obj.kind = .array →
    obj.properties.find? length ≠ some c

namespace Honors

/-- A new block disturbs nothing. -/
theorem filled {b : Block} {id : Handle} (hm : Honors h₀ x o₀ length h) (hf : h.Filled b id h') (hv : h'.Valid)
    (hb : ∀ obj, b = .object obj → obj.properties = .empty) : Honors h₀ x o₀ length h' where
  valid := hv
  own := by
    obtain ⟨obj, ho, hkeeps⟩ := hm.own
    exact ⟨obj, object_eq_ok.mpr (hf.block?_of_some (object_eq_ok.mp ho)), hkeeps⟩
  cells key c d₀ hfix := by
    obtain ⟨d, hc, hendures⟩ := hm.cells key c d₀ hfix
    exact ⟨d, cell_eq_ok.mpr (hf.block?_of_some (cell_eq_ok.mp hc)), hendures⟩
  apart key c d₀ hfix a obj ha hkind hfind :=
    hm.apart key c d₀ hfix a obj (hf.object_of_find? hb ha hfind) hkind hfind

/-- Overwriting an object: it keeps what it is to keep, and no array takes such a cell for its length. -/
theorem putObject (hm : Honors h₀ x o₀ length h) (ho : h.object o = .ok obj) (hkind : obj'.kind = obj.kind)
    (hown : o = x → o₀.Keeps h₀ obj → o₀.Keeps h₀ obj')
    (hlength : obj.kind = .array → ∀ c, obj'.properties.find? length = some c →
      obj.properties.find? length = some c ∨ ∀ key d₀, ¬ o₀.Fixes h₀ key c d₀) :
    Honors h₀ x o₀ length (h.put o.handle (.object obj')) where
  valid := hm.valid.putObject ho obj'
  own := by
    obtain ⟨old, hold, hkeeps⟩ := hm.own
    rw [object_put_object ho]
    by_cases hxo : x = o
    · subst hxo
      cases ho.symm.trans hold
      exact ⟨obj', if_pos rfl, hown rfl hkeeps⟩
    · exact ⟨old, by rw [if_neg hxo, hold], hkeeps⟩
  cells key c d₀ hfix := by
    rw [cell_put_object ho]
    exact hm.cells key c d₀ hfix
  apart key c d₀ hfix a obj'' ha hkind' hfind := by
    rw [object_put_object ho] at ha
    by_cases hao : a = o
    · subst hao
      rw [if_pos rfl] at ha
      cases ha
      have harray := hkind.symm.trans hkind'
      rcases hlength harray c hfind with hfind' | hfree
      · exact hm.apart key c d₀ hfix a obj ho harray hfind'
      · exact hfree key d₀ hfix
    · rw [if_neg hao] at ha
      exact hm.apart key c d₀ hfix a obj'' ha hkind' hfind

/-- Overwriting a cell with what a property that is to endure may come to hold. -/
theorem putCell (hm : Honors h₀ x o₀ length h) (hc : h.cell c = .ok d)
    (hd : ∀ key d₀, o₀.Fixes h₀ key c d₀ → d₀.Endures d → d₀.Endures d') :
    Honors h₀ x o₀ length (h.put c.handle (.cell d')) where
  valid := hm.valid.putCell hc d'
  own := by simpa only [object_put_cell hc] using hm.own
  cells key c' d₀ hfix := by
    rw [cell_put_cell hc]
    by_cases hcc : c' = c
    · subst hcc
      obtain ⟨d₁, hd₁, hendures⟩ := hm.cells key c' d₀ hfix
      cases hc.symm.trans hd₁
      exact ⟨d', if_pos rfl, hd key d₀ hfix hendures⟩
    · rw [if_neg hcc]
      exact hm.cells key c' d₀ hfix
  apart key c' d₀ hfix a obj ha := by
    rw [object_put_cell hc] at ha
    exact hm.apart key c' d₀ hfix a obj ha

/-- Changing an object so that it keeps what it is to keep and no array gets a length. -/
theorem modifyObject (hm : Honors h₀ x o₀ length h) {f : Object → Object} (hkind : ∀ y, (f y).kind = y.kind)
    (hown : o = x → ∀ y, o₀.Keeps h₀ y → o₀.Keeps h₀ (f y))
    (hfind : ∀ y c, (f y).properties.find? length = some c → y.properties.find? length = some c) :
    (Heap.modifyObject o f h).Leaves (Honors h₀ x o₀ length) :=
  leaves_modifyObject hm fun obj ho =>
    hm.putObject ho (hkind obj) (fun hox => hown hox obj) fun _ c hc => .inl (hfind obj c hc)

/-- **Defining a property** honours what an object was if it takes keys and does not have this one. -/
theorem define (hm : Honors h₀ x o₀ length h)
    (hnew : o = x → ∀ obj, h.object o = .ok obj → obj.extensible = true ∧ obj.properties.find? key = none)
    (d : Descriptor) : (Heap.define o key d h).Leaves (Honors h₀ x o₀ length) := by
  rcases define_filled hm.valid o key d with ⟨e, hfailed⟩ | ⟨obj, c, h₁, ho, hf, hv, hdone⟩
  · rw [hfailed]
    exact hm
  have hm₁ := hm.filled hf hv (by simp)
  have ho₁ : h₁.object o = .ok obj := object_eq_ok.mpr (hf.block?_of_some (object_eq_ok.mp ho))
  have hfresh : ∀ key d₀, ¬ o₀.Fixes h₀ key c d₀ := by
    intro key d₀ hfix
    obtain ⟨d', hc, -⟩ := hm.cells key c d₀ hfix
    have hvacant := hf.fresh (x := c.handle) rfl
    rw [cell_eq_ok.mp hc] at hvacant
    cases hvacant
  rw [hdone]
  refine hm₁.putObject ho₁ rfl (fun hox hkeeps => ?_) fun _ c' hfind => ?_
  · obtain ⟨hextensible, hnone⟩ := hnew hox obj ho
    refine ⟨hkeeps.kind, fun hclosed => ?_, fun key' c' d₀ hfix => ?_⟩
    · rw [(hkeeps.closed hclosed).1] at hextensible
      cases hextensible
    · have hbound := hkeeps.bound key' c' d₀ hfix
      rw [PropertyMap.find?_insert, if_neg, hbound]
      rintro rfl
      rw [hnone] at hbound
      cases hbound
  · rw [PropertyMap.find?_insert] at hfind
    split at hfind
    · exact .inr (Option.some.inj hfind ▸ hfresh)
    · exact .inl hfind

theorem define_other (hox : o ≠ x) (key : PropertyKey) (d : Descriptor) :
    Proc.Keeps (Honors h₀ x o₀ length) (Heap.define o key d) :=
  fun _ hm => hm.define (fun hbad => absurd hbad hox) d

/-- A property that can be reconfigured is removed. -/
theorem remove (hm : Honors h₀ x o₀ length h)
    (hold : h.ownProperty o key = .ok (some d)) (hd : d.configurable = true) :
    (Heap.remove o key h).Leaves (Honors h₀ x o₀ length) := by
  unfold Heap.remove
  rw [Proc.reads_bind]
  cases hfound : h.ownCell o key with
  | error e => exact hm
  | ok found =>
    cases found with
    | none => exact hm
    | some c =>
      have herased : (Heap.modifyObject o (fun y => { y with properties := y.properties.erase key }) h).Leaves
          (Honors h₀ x o₀ length) := by
        refine hm.modifyObject (fun _ => rfl) (fun hox y hkeeps => ⟨hkeeps.kind, fun hclosed => ?_, ?_⟩)
          fun y c' hfind => ?_
        · refine ⟨(hkeeps.closed hclosed).1, fun key' c' hfind => ?_⟩
          rw [PropertyMap.find?_erase] at hfind
          split at hfind
          · cases hfind
          · exact (hkeeps.closed hclosed).2 key' c' hfind
        · intro key' c' d₀ hfix
          rw [PropertyMap.find?_erase, if_neg, hkeeps.bound key' c' d₀ hfix]
          -- The cell of a property that is to endure cannot be reconfigured, and this one can.
          rintro rfl
          subst hox
          obtain ⟨obj, ho, hkeeps'⟩ := hm.own
          obtain ⟨d', hc', hendures⟩ := hm.cells key c' d₀ hfix
          unfold ownProperty at hold
          rw [ownCell_eq_ok.mpr ⟨obj, ho, hkeeps'.bound key c' d₀ hfix⟩] at hold
          change (do return some (← h.cell c') : Except Error (Option Descriptor)) = _ at hold
          rw [hc'] at hold
          cases hold
          rw [hendures.configurable] at hd
          cases hd
        · rw [PropertyMap.find?_erase] at hfind
          split at hfind
          · cases hfind
          · exact hfind
      show ((Heap.modifyObject o (fun y => { y with properties := y.properties.erase key }) >>=
        fun _ => Pure.pure true : Proc Heap Bool) h).Leaves _
      rw [Proc.bind_eq]
      exact herased.bind fun _ => .pure true

theorem intern (t : Text) : Proc.Keeps (Honors h₀ x o₀ length) (Heap.intern t) := by
  intro h hm
  have hkept := keeps_intern t h hm.valid
  rcases intern_filled hm.valid t with ⟨r, hdone, -⟩ | ⟨-, ⟨-, hfailed⟩ | ⟨r, h', hdone, hf⟩⟩
  · rw [hdone]
    exact hm
  · rw [hfailed]
    exact hm
  · rw [hdone] at hkept ⊢
    exact hm.filled hf hkept (by simp)

theorem allocObject (prototype : Option ObjectRef) (tag : ClassTag) (kind : ObjectKind) :
    Proc.Keeps (Honors h₀ x o₀ length) (Heap.allocObject prototype tag kind) := by
  intro h hm
  rcases allocObject_filled hm.valid prototype tag kind with ⟨e, hfailed⟩ | ⟨o, h', hdone, -⟩
  · rw [hfailed]
    exact hm
  · obtain ⟨hf, hv⟩ := allocObject_done hm.valid hdone
    rw [hdone]
    exact hm.filled hf hv fun obj hobj => by rw [← Block.object.inj hobj]

end Honors

end Heap

theorem Heap.isArray_eq_true (ho : h.isArray o = .ok true) : ∃ obj, h.object o = .ok obj ∧ obj.kind = .array := by
  obtain ⟨obj, hobj, hkind⟩ := isArray_eq_ok.mp ho
  exact ⟨obj, hobj, hkind.mp rfl⟩

theorem Heap.ownProperty_eq_some : h.ownProperty o key = .ok (some d) ↔
    ∃ c, h.ownCell o key = .ok (some c) ∧ h.cell c = .ok d := by
  unfold Heap.ownProperty
  cases hown : h.ownCell o key with
  | error e => exact ⟨nofun, fun ⟨_, hc, _⟩ => by cases hc⟩
  | ok found =>
    cases found with
    | none => exact ⟨nofun, fun ⟨_, hc, _⟩ => by cases hc⟩
    | some c =>
      change (do return some (← h.cell c) : Except Error (Option Descriptor)) = _ ↔ _
      cases hc : h.cell c with
      | error e => exact ⟨nofun, fun ⟨_, hsome, hcell⟩ => by cases hsome; rw [hc] at hcell; cases hcell⟩
      | ok d' =>
        refine ⟨fun hd => ⟨c, rfl, by cases hd; exact hc⟩, fun ⟨_, hsome, hcell⟩ => ?_⟩
        cases hsome
        cases hc.symm.trans hcell
        rfl

/-- A property that is not found, or is found further up the chain, is not one of the object's own. -/
theorem Heap.find?_of_findProperty {found : Option (ObjectRef × CellRef)}
    (hfound : h.findProperty o key = .ok found) (hother : ∀ holder c, found = some (holder, c) → holder ≠ o)
    (ho : h.object o = .ok obj) : obj.properties.find? key = none := by
  unfold Heap.findProperty maxPrototypeChain at hfound
  rw [Heap.findWithin, ho] at hfound
  dsimp only at hfound
  cases hfind : obj.properties.find? key with
  | none => rfl
  | some c =>
    rw [hfind] at hfound
    cases hfound
    exact absurd rfl (hother o c rfl)

/-! ### Conversions that run nothing -/

namespace Edit

variable {I : Machine → Prop} (hintern : ∀ t, Proc.Keeps I (Run.onHeap (Heap.intern t)))
include hintern

theorem keeps_getProperty (base : Value) (key : PropertyKey) :
    Proc.Keeps I (ScriptCore.getProperty refusing base key) := by
  refine .bind (fun _ hm => hm) fun realm => .bind (.reads _) fun found => ?_
  cases found with
  | refused => exact .bind (.reads _) fun e => .fail e
  | found v => exact .pure v
  | unit u => exact .bind (hintern _) fun s => .pure _
  | missing => exact .pure _
  | chain o =>
    refine .bind (.reads _) fun d => ?_
    cases d with
    | none => exact .pure _
    | some d =>
      show Proc.Keeps I (readDescriptor refusing d base)
      unfold readDescriptor
      cases d.content with
      | data v _ => exact .pure v
      | accessor getter _ =>
        refine .bind (.reads _) fun callable => ?_
        split
        · exact .fail _
        · exact .pure _

theorem keeps_convertBy (v : Value) : ∀ (keys : List PropertyKey) (tried : Bool),
    Proc.Keeps I (convertBy refusing v keys tried)
  | [], tried => by
    refine .bind (.reads _) fun text => ?_
    split
    · exact .fail _
    · exact .bind (hintern _) fun s => .pure _
  | key :: keys, tried => by
    refine .bind (keeps_getProperty hintern v key) fun method => .bind (.reads _) fun callable => ?_
    split
    · exact .bind (.fail _) fun result => by
        split
        · exact keeps_convertBy v keys true
        · exact .pure _
    · exact keeps_convertBy v keys tried

theorem keeps_toPrimitive (v : Value) (hint : Hint) : Proc.Keeps I (toPrimitive refusing v hint) := by
  cases v with
  | object o => exact .bind (fun _ hm => hm) fun names => keeps_convertBy hintern _ _ _
  | _ => exact .pure _

theorem keeps_toNumber (v : Value) : Proc.Keeps I (toNumber refusing v) := by
  have hprimitive : Proc.Keeps I (Run.readHeap fun h => h.numberOf v) := .reads _
  cases v with
  | object o => exact .bind (keeps_toPrimitive hintern _ _) fun p => .reads _
  | _ => exact hprimitive

theorem keeps_stringOf (v : Value) : Proc.Keeps I (Run.onHeap (Heap.stringOf v)) := by
  cases v with
  | string s => exact fun _ hm => hm
  | object o => exact fun _ hm => hm
  | bool b => cases b <;> exact hintern _
  | _ => exact hintern _

theorem keeps_toPropertyKey (v : Value) : Proc.Keeps I (toPropertyKey refusing v) := by
  have htext : Proc.Keeps I (toStringRef refusing v >>= fun s => Run.readHeap fun h => h.keyOfString s) := by
    refine .bind ?_ fun s => .reads _
    cases v with
    | object o => exact .bind (keeps_toPrimitive hintern _ _) fun p => keeps_stringOf hintern p
    | undefined => exact keeps_stringOf hintern .undefined
    | null => exact keeps_stringOf hintern .null
    | bool b => exact keeps_stringOf hintern (.bool b)
    | number y => exact keeps_stringOf hintern (.number y)
    | string s => exact keeps_stringOf hintern (.string s)
  cases v with
  | number y =>
    unfold toPropertyKey
    dsimp only
    cases arrayIndexOfNumber? y with
    | some i => exact .pure _
    | none => exact .bind (hintern _) fun s => .reads _
  | string s => exact .reads _
  | _ => exact htext

end Edit

/-! ### Operations on properties -/

/-- The machine looks for lengths under `length`, and its heap honours what the object was. -/
structure Machine.Honors (h₀ : Heap) (x : ObjectRef) (o₀ : Object) (length : PropertyKey) (m : Machine) : Prop where
  name : m.realm.names.length = length
  heap : Heap.Honors h₀ x o₀ length m.heap

namespace Machine

variable (hm : m.Honors h₀ x o₀ length) {strict : Bool}

theorem honors_onHeap {p : Proc Heap α} (hm : m.Honors h₀ x o₀ length)
    (hp : (p m.heap).Leaves (Heap.Honors h₀ x o₀ length)) :
    (Run.onHeap p m).Leaves (Machine.Honors h₀ x o₀ length) := by
  unfold Run.onHeap
  dsimp only
  cases hpm : p m.heap with
  | done v heap => rw [hpm] at hp; exact ⟨hm.name, hp⟩
  | failed e heap => rw [hpm] at hp; exact ⟨hm.name, hp⟩
  | stalled => trivial

theorem keeps_honors_onHeap {p : Proc Heap α} (hp : Proc.Keeps (Heap.Honors h₀ x o₀ length) p) :
    Proc.Keeps (Machine.Honors h₀ x o₀ length) (Run.onHeap p) :=
  fun m hm => honors_onHeap hm (hp m.heap hm.heap)

theorem keeps_honors_intern (t : Text) : Proc.Keeps (Machine.Honors h₀ x o₀ length) (Run.onHeap (Heap.intern t)) :=
  keeps_honors_onHeap (Heap.Honors.intern t)

theorem keeps_honors_refuseWrite (key : PropertyKey) (strict : Bool) :
    Proc.Keeps (Machine.Honors h₀ x o₀ length) (refuseWrite key strict) := by
  unfold refuseWrite
  split
  · exact .bind (.reads _) fun name => .fail _
  · exact .pure _

include hm in
theorem Honors.ne_of_array (ho : m.heap.object o = .ok obj) (hkind : obj.kind = .array) : o ≠ x := by
  rintro rfl
  obtain ⟨obj', ho', hkeeps⟩ := hm.heap.own
  cases ho.symm.trans ho'
  exact hkeeps.kind hkind

include hm in
/-- **The length of an array is written without a look at its attributes.** -/
theorem Honors.writeLength (ho : m.heap.object o = .ok obj) (hkind : obj.kind = .array) (n : UInt32) :
    (ScriptCore.writeLength o n m).Leaves (Machine.Honors h₀ x o₀ length) := by
  unfold ScriptCore.writeLength
  rw [Run.names_bind, Run.readHeap_bind, hm.name]
  cases hfound : m.heap.ownCell o length with
  | error e => exact hm
  | ok found =>
    cases found with
    | none =>
      exact Proc.Keeps.discard (keeps_honors_onHeap (Heap.Honors.define_other (hm.ne_of_array ho hkind) _ _)) m hm
    | some c =>
      obtain ⟨obj', ho', hfind⟩ := Heap.ownCell_eq_ok.mp hfound
      cases ho.symm.trans ho'
      exact honors_onHeap hm (Heap.leaves_writeCell hm.heap fun d w writable hc _ => hm.heap.putCell hc
        fun key d₀ hfix _ => absurd hfind (hm.heap.apart key c d₀ hfix o obj ho hkind))

theorem keeps_honors_noteKey (o : ObjectRef) (key : PropertyKey) :
    Proc.Keeps (Machine.Honors h₀ x o₀ length) (noteKey o key) := by
  cases key with
  | string s => exact .pure _
  | index i =>
    refine Proc.Keeps.reads_bind fun m isArray hm harray => ?_
    cases isArray with
    | false => exact hm
    | true =>
      obtain ⟨obj, ho, hkind⟩ := Heap.isArray_eq_true harray
      show (noteIndex o i m).Leaves _
      unfold noteIndex arrayLength
      rw [bind_assoc, Run.names_bind, Run.readHeap_bind]
      cases m.heap.lengthOf m.realm.names o with
      | error e => exact hm
      | ok n =>
        dsimp only
        split
        · exact hm.writeLength ho hkind _
        · exact hm

include hm in
/-- A new property is made and noted. -/
theorem Honors.defineNoted
    (hnew : o = x → ∀ obj, m.heap.object o = .ok obj → obj.extensible = true ∧ obj.properties.find? key = none)
    (d : Descriptor) : ((do
      discard (Run.onHeap (Heap.define o key d))
      noteKey o key
      return true : Run Bool) m).Leaves (Machine.Honors h₀ x o₀ length) := by
  have hdefined := honors_onHeap hm (hm.heap.define hnew d)
  rw [Proc.discard_bind, Proc.bind_eq]
  exact hdefined.bind fun c => .bind (keeps_honors_noteKey o key) fun _ => .pure _

theorem extensible_of_isExtensible (ho : m.heap.object o = .ok obj) (he : m.heap.isExtensible o = .ok true) :
    obj.extensible = true := by
  unfold Heap.isExtensible at he
  rw [ho] at he
  cases obj with
  | mk _ _ extensible _ _ => cases extensible with
    | true => rfl
    | false => cases he

include hm in
theorem Honors.createOwn (hfree : ∀ obj, m.heap.object o = .ok obj → obj.properties.find? key = none) (v : Value) :
    (ScriptCore.createOwn o key v strict m).Leaves (Machine.Honors h₀ x o₀ length) := by
  unfold ScriptCore.createOwn
  rw [Run.readHeap_bind]
  cases he : m.heap.isExtensible o with
  | error e => exact hm
  | ok extensible =>
    cases extensible with
    | false => exact keeps_honors_refuseWrite key strict m hm
    | true => exact hm.defineNoted (fun _ obj ho => ⟨extensible_of_isExtensible ho he, hfree obj ho⟩) _

/-- **Defining a property** changes what the property may come to hold, and nothing else. -/
theorem keeps_honors_defineProperty (o : ObjectRef) (key : PropertyKey) (p : Patch) :
    Proc.Keeps (Machine.Honors h₀ x o₀ length) (ScriptCore.defineProperty o key p) := by
  refine .bind (.ofExcept p.validate) fun _ => Proc.Keeps.reads_bind fun m found hm hfound => ?_
  cases found with
  | none =>
    dsimp only
    rw [Run.readHeap_bind]
    cases he : m.heap.isExtensible o with
    | error e => exact hm
    | ok extensible =>
      cases extensible with
      | false => exact hm
      | true =>
        refine hm.defineNoted (fun _ obj ho => ⟨extensible_of_isExtensible ho he, ?_⟩) _
        change (do return (← m.heap.object o).properties.find? key : Except Error (Option CellRef)) = _ at hfound
        rw [ho] at hfound
        exact Except.ok.inj hfound
  | some c =>
    dsimp only
    rw [Run.readHeap_bind]
    cases hc : m.heap.cell c with
    | error e => exact hm
    | ok d =>
      dsimp only
      split
      · exact hm
      · next hallowed =>
        have hput : (Run.onHeap (Heap.putCell c (p.applyTo d)) m).Leaves (Machine.Honors h₀ x o₀ length) := by
          refine honors_onHeap hm ?_
          rw [Heap.putCell_done hc]
          refine hm.heap.putCell hc fun key d₀ _ hendures => hendures.trans (.apply hendures.configurable ?_)
          simpa [hendures.configurable] using hallowed
        rw [Proc.bind_eq]
        exact hput.bind fun _ => .bind (keeps_honors_noteKey o key) fun _ => .pure _

/-- **Deleting a property** removes only one that can be reconfigured. -/
theorem keeps_honors_deleteProperty (o : ObjectRef) (key : PropertyKey) (strict : Bool) :
    Proc.Keeps (Machine.Honors h₀ x o₀ length) (deleteProperty o key strict) := by
  refine Proc.Keeps.reads_bind fun m found hm hfound => ?_
  cases found with
  | none => exact hm
  | some d =>
    dsimp only
    split
    · exact keeps_honors_refuseWrite key strict m hm
    · next hdelete =>
      have hconfigurable : d.configurable = true := by
        cases hd : d.configurable with
        | true => rfl
        | false => simp [hd] at hdelete
      rw [Proc.discard_bind, Proc.bind_eq]
      exact (honors_onHeap hm (hm.heap.remove hfound hconfigurable)).bind fun _ => .pure _

/-! ### Writing properties -/

include hm in
/-- Writing to a length cuts off elements of the array, and writes its length. -/
theorem Honors.setLength (ho : m.heap.object o = .ok obj) (hkind : obj.kind = .array) (v : Value) :
    (ScriptCore.setLength Edit.refusing o v m).Leaves (Machine.Honors h₀ x o₀ length) := by
  -- While the value is converted the object stays an array.
  have hintern : ∀ t, Proc.Keeps (fun m => m.Honors h₀ x o₀ length ∧ m.heap.object o = .ok obj)
      (Run.onHeap (Heap.intern t)) := by
    rintro t m ⟨hm, ho⟩
    rcases Heap.intern_filled hm.heap.valid t with ⟨r, hdone, -⟩ | ⟨-, ⟨-, hfailed⟩ | ⟨r, h', hdone, hf⟩⟩
    · rw [Run.onHeap_done hdone]
      exact ⟨hm, ho⟩
    · rw [Run.onHeap_failed hfailed]
      exact ⟨hm, ho⟩
    · have hkept := keeps_honors_intern t m hm
      rw [Run.onHeap_done hdone] at hkept ⊢
      exact ⟨hkept, Heap.object_eq_ok.mpr (hf.block?_of_some (Heap.object_eq_ok.mp ho))⟩
  have hnumber := Edit.keeps_toNumber hintern v m ⟨hm, ho⟩
  unfold ScriptCore.setLength
  rw [Proc.bind_eq]
  cases hdone : toNumber Edit.refusing v m with
  | stalled => trivial
  | failed e m₁ => rw [hdone] at hnumber; exact hnumber.1
  | done y m₁ =>
    rw [hdone] at hnumber
    obtain ⟨hm₁, ho₁⟩ := hnumber
    dsimp only [Outcome.bind]
    cases Number.wholeBelow? UInt32.size y with
    | none =>
      dsimp only
      rw [Run.readHeap_bind]
      cases m₁.heap.describe v <;> exact hm₁
    | some n =>
      dsimp only
      have hretained : ∃ obj', Heap.retainKeys o (fun key => !key.isBeyond n.toUInt32) m₁.heap =
          .done () (m₁.heap.put o.handle (.object obj')) ∧ obj'.kind = obj.kind ∧
          ∀ c, obj'.properties.find? length = some c → obj.properties.find? length = some c := by
        refine ⟨{ obj with properties := obj.properties.filter fun key => !key.isBeyond n.toUInt32 },
          Heap.retainKeys_done ho₁ _, rfl, fun c hfind => ?_⟩
        rw [PropertyMap.find?_filter] at hfind
        split at hfind
        · exact hfind
        · cases hfind
      obtain ⟨obj', hretained, hkind', hfind⟩ := hretained
      have hm₂ : Machine.Honors h₀ x o₀ length { m₁ with heap := m₁.heap.put o.handle (.object obj') } :=
        ⟨hm₁.name, hm₁.heap.putObject ho₁ hkind' (fun hox => absurd hox (hm₁.ne_of_array ho₁ hkind))
          fun _ c hc => .inl (hfind c hc)⟩
      have ho₂ : (m₁.heap.put o.handle (.object obj')).object o = .ok obj' := by
        rw [Heap.object_put_object ho₁, if_pos rfl]
      show (Proc.bind (Run.onHeap (Heap.retainKeys o fun key => !key.isBeyond n.toUInt32))
        (fun _ => ScriptCore.writeLength o n.toUInt32) m₁).Leaves _
      simp only [Proc.bind, Run.onHeap_done hretained]
      exact hm₂.writeLength ho₂ (hkind'.trans hkind) _

include hm in
theorem Honors.setOrdinary (o : ObjectRef) (key : PropertyKey) (v : Value) :
    (ScriptCore.setOrdinary Edit.refusing o key v strict m).Leaves (Machine.Honors h₀ x o₀ length) := by
  unfold ScriptCore.setOrdinary
  rw [Run.readHeap_bind]
  cases hfound : m.heap.findProperty o key with
  | error e => exact hm
  | ok found =>
    have hfree : (∀ holder c, found = some (holder, c) → holder ≠ o) →
        ∀ obj, m.heap.object o = .ok obj → obj.properties.find? key = none :=
      fun hother obj ho => Heap.find?_of_findProperty hfound hother ho
    cases found with
    | none => exact hm.createOwn (hfree nofun) v
    | some found =>
      obtain ⟨holder, c⟩ := found
      dsimp only
      rw [Run.readHeap_bind]
      cases hc : m.heap.cell c with
      | error e => exact hm
      | ok d =>
        dsimp only
        cases hcontent : d.content with
        | accessor getter setter =>
          dsimp only
          rw [Run.readHeap_bind]
          cases m.heap.isCallable setter with
          | error e => exact hm
          | ok callable =>
            cases callable with
            | true => exact hm
            | false => exact keeps_honors_refuseWrite key strict m hm
        | data w writable =>
          cases writable with
          | false => exact keeps_honors_refuseWrite key strict m hm
          | true =>
            dsimp only
            split
            · have hwrite : (Run.onHeap (Heap.writeCell c v) m).Leaves (Machine.Honors h₀ x o₀ length) := by
                refine honors_onHeap hm ?_
                rw [Heap.writeCell_done hc hcontent]
                exact hm.heap.putCell hc fun key d₀ _ hendures =>
                  hendures.trans (.write hendures.configurable hcontent v)
              rw [Proc.bind_eq]
              exact hwrite.bind fun _ => .pure _
            · next hother =>
              exact hm.createOwn (hfree fun holder' c' hsome => by cases hsome; exact hother) v

/-- **Writing a property** overwrites a writable value, or makes a property where there was none. -/
theorem keeps_honors_setProperty (o : ObjectRef) (key : PropertyKey) (v : Value) (strict : Bool) :
    Proc.Keeps (Machine.Honors h₀ x o₀ length) (ScriptCore.setProperty Edit.refusing o key v strict) := by
  intro m hm
  unfold ScriptCore.setProperty
  rw [Run.names_bind, Run.readHeap_bind]
  cases harray : m.heap.isArray o with
  | error e => exact hm
  | ok isArray =>
    dsimp only
    split
    · next hlength =>
      rw [Run.readHeap_bind]
      cases m.heap.ownWritable o key with
      | error e => exact hm
      | ok writable =>
        cases writable with
        | false => exact keeps_honors_refuseWrite key strict m hm
        | true =>
          rw [Bool.and_eq_true] at hlength
          obtain ⟨obj, ho, hkind⟩ := Heap.isArray_eq_true (hlength.1 ▸ harray)
          show ((ScriptCore.setLength Edit.refusing o v >>= fun _ => pure true) m).Leaves _
          rw [Proc.bind_eq]
          exact (hm.setLength ho hkind v).bind fun _ => .pure _
    · exact hm.setOrdinary o key v

theorem keeps_honors_setMember (base : Value) (key : PropertyKey) (v : Value) (strict : Bool) :
    Proc.Keeps (Machine.Honors h₀ x o₀ length) (ScriptCore.setMember Edit.refusing base key v strict) := by
  have hrefuse : Proc.Keeps (Machine.Honors h₀ x o₀ length) (refuseBase "set" base key : Run Bool) :=
    .bind (.reads _) fun e => .fail e
  cases base with
  | object o => exact keeps_honors_setProperty o key v strict
  | undefined => exact hrefuse
  | null => exact hrefuse
  | bool b => exact keeps_honors_refuseWrite key strict
  | number y => exact keeps_honors_refuseWrite key strict
  | string r => exact keeps_honors_refuseWrite key strict

/-! ### Objects -/

theorem keeps_honors_preventExtensions (o : ObjectRef) :
    Proc.Keeps (Machine.Honors h₀ x o₀ length) (Run.onHeap (Heap.preventExtensions o)) :=
  keeps_honors_onHeap fun _ hm => hm.modifyObject (fun _ => rfl)
    (fun _ _ hkeeps => ⟨hkeeps.kind, fun hclosed => ⟨rfl, (hkeeps.closed hclosed).2⟩, hkeeps.bound⟩)
    fun _ _ hfind => hfind

theorem keeps_honors_setPrototype (o : ObjectRef) (p : Option ObjectRef) :
    Proc.Keeps (Machine.Honors h₀ x o₀ length) (Run.onHeap (Heap.setPrototype o p)) :=
  keeps_honors_onHeap <| .bind (.discard (.reads _)) fun _ => .bind (.reads _) fun _ => fun _ hm =>
    hm.modifyObject (fun _ => rfl) (fun _ _ hkeeps => ⟨hkeeps.kind, hkeeps.closed, hkeeps.bound⟩)
      fun _ _ hfind => hfind

/-- A new array is another object. -/
theorem keeps_honors_allocArray (values : List Value) :
    Proc.Keeps (Machine.Honors h₀ x o₀ length) (ScriptCore.allocArray values) := by
  intro m hm
  obtain ⟨obj, ho, -⟩ := hm.heap.own
  refine leaves_allocArray hm.heap.valid ?_ (fun o hnew key d => ?_) values
  · exact keeps_honors_onHeap (Heap.Honors.allocObject _ _ _) m hm
  · exact keeps_honors_onHeap (Heap.Honors.define_other (hnew x obj ho) _ _)

end Machine

/-! ### One operation after another -/

namespace Edit

variable {e : Edit} {engine : Engine}

/-- **Every operation honours what the object was**, if it runs nothing. -/
theorem keeps_honors (e : Edit) : Proc.Keeps (Machine.Honors h₀ x o₀ length) (e.perform refusing) := by
  cases e with
  | set o key v strict => exact .discard (Machine.keeps_honors_setProperty o key v strict)
  | setMember base key v strict => exact .discard (Machine.keeps_honors_setMember base key v strict)
  | delete o key strict => exact .discard (Machine.keeps_honors_deleteProperty o key strict)
  | define o key p => exact .discard (Machine.keeps_honors_defineProperty o key p)
  | preventExtensions o => exact Machine.keeps_honors_preventExtensions o
  | setPrototype o p => exact Machine.keeps_honors_setPrototype o p
  | nameKey name =>
    exact .discard (Machine.keeps_honors_onHeap (.bind (Heap.Honors.intern _) fun _ => .reads _))
  | valueKey v => exact .discard (keeps_toPropertyKey Machine.keeps_honors_intern v)
  | allocPlain =>
    exact .discard (.bind (fun _ hm => hm) fun realm =>
      Machine.keeps_honors_onHeap (Heap.Honors.allocObject _ _ _))
  | allocArray values => exact .discard (Machine.keeps_honors_allocArray values)

theorem run_honors (hm : m.Honors h₀ x o₀ length) (hnothing : e.RunsNothing m) :
    (e.run engine m).Honors h₀ x o₀ length :=
  run_leaves hnothing hm (e.keeps_honors m hm)

/-- Every operation of a sequence runs nothing where it is performed. -/
def RunNothing (engine : Engine) : List Edit → Machine → Prop
  | [], _ => True
  | e :: edits, m => e.RunsNothing m ∧ RunNothing engine edits (e.run engine m)

theorem RunNothing.honors : ∀ {edits : List Edit} {m : Machine}, RunNothing engine edits m →
    m.Honors h₀ x o₀ length → (edits.foldl (fun m e => e.run engine m) m).Honors h₀ x o₀ length
  | [], _, _, hm => hm
  | _ :: _, _, ⟨hnothing, hrest⟩, hm => hrest.honors (run_honors hm hnothing)

end Edit

/-- No property has the cell of an array's length, save that length. -/
def Heap.LengthsUnshared (length : PropertyKey) (h : Heap) : Prop :=
  ∀ a obj c, h.object a = .ok obj → obj.kind = .array → obj.properties.find? length = some c →
    ∀ o obj' key, h.object o = .ok obj' → obj'.properties.find? key = some c → o = a ∧ key = length

/-- What an object is, it honours itself. -/
theorem Heap.Honors.refl (hv : h.Valid) (hlengths : h.LengthsUnshared length) (hx : h.object x = .ok o₀)
    (hkind : o₀.kind ≠ .array) : Heap.Honors h x o₀ length h where
  valid := hv
  own := ⟨o₀, hx, hkind, fun hclosed => ⟨hclosed, fun _ c hfind => ⟨c, hfind⟩⟩, fun _ _ _ hfix => hfix.bound⟩
  cells _ _ d₀ hfix := ⟨d₀, hfix.cell, .refl hfix.configurable⟩
  apart key c _ hfix a obj ha harray hfind := by
    obtain ⟨rfl, -⟩ := hlengths a obj c ha harray hfind x o₀ key hx hfix.bound
    cases ha.symm.trans hx
    exact hkind harray

/-- **Frozen properties stay frozen.** Let no property share its cell with the length of an array, and let any
operations on the properties of any objects be performed, one after another and whether they succeed or fail, that
run nothing. Of an object that is no array:

* a property that cannot be reconfigured is still its own, and endures: it has the same attributes, a read-only
  value and the accessors stay, and a writable value may only change or become read-only;
* if the object takes no properties, it has gained no key. -/
theorem frozen_stays_frozen {m m' : Machine} {engine : Engine} {edits : List Edit} {x : ObjectRef}
    (hv : m.heap.Valid) (hlengths : m.heap.LengthsUnshared m.realm.names.length)
    (hx : m.heap.isArray x = .ok false) (hedits : Edit.RunNothing engine edits m)
    (hrun : edits.foldl (fun m e => e.run engine m) m = m') :
    (∀ key d, m.heap.ownProperty x key = .ok (some d) → d.configurable = false →
      ∃ d', m'.heap.ownProperty x key = .ok (some d') ∧ d.Endures d') ∧
    (m.heap.isExtensible x = .ok false → ∀ key c, m'.heap.ownCell x key = .ok (some c) →
      ∃ c₀, m.heap.ownCell x key = .ok (some c₀)) := by
  subst hrun
  obtain ⟨o₀, ho₀, hkind⟩ := Heap.isArray_eq_ok.mp hx
  replace hkind : o₀.kind ≠ .array := fun harray => Bool.noConfusion (hkind.mpr harray)
  have hm : m.Honors m.heap x o₀ m.realm.names.length := ⟨rfl, .refl hv hlengths ho₀ hkind⟩
  have hm' := (hedits.honors hm).heap
  obtain ⟨obj, ho, hkeeps⟩ := hm'.own
  refine ⟨fun key d hd hconfigurable => ?_, fun hclosed key c hfound => ?_⟩
  · obtain ⟨c, hown, hc⟩ := Heap.ownProperty_eq_some.mp hd
    obtain ⟨o₁, ho₁, hfind⟩ := Heap.ownCell_eq_ok.mp hown
    cases ho₀.symm.trans ho₁
    have hfix : o₀.Fixes m.heap key c d := ⟨hfind, hc, hconfigurable⟩
    obtain ⟨d', hc', hendures⟩ := hm'.cells key c d hfix
    exact ⟨d', Heap.ownProperty_eq_some.mpr
      ⟨c, Heap.ownCell_eq_ok.mpr ⟨obj, ho, hkeeps.bound key c d hfix⟩, hc'⟩, hendures⟩
  · have hextensible : o₀.extensible = false := by
      unfold Heap.isExtensible at hclosed
      rw [ho₀] at hclosed
      exact Except.ok.inj hclosed
    obtain ⟨o₁, ho₁, hfind⟩ := Heap.ownCell_eq_ok.mp hfound
    cases ho.symm.trans ho₁
    obtain ⟨c₀, hc₀⟩ := (hkeeps.closed hextensible).2 key c hfind
    exact ⟨c₀, Heap.ownCell_eq_ok.mpr ⟨o₀, ho₀, hc₀⟩⟩

/-- An object that takes no more properties and has one that is frozen. -/
def frozenObject (prototype : ObjectRef) : Proc Heap ObjectRef := do
  let x ← Heap.allocObject (some prototype) .object .ordinary
  discard (Heap.define x (.index 0) (Descriptor.hidden .null).readonly.nonConfigurable)
  Heap.preventExtensions x
  return x

/-- The frozen property is written, deleted and defined anew, and another one is written. -/
def frozenEdits (x : ObjectRef) : List Edit :=
  [.set x (.index 0) (.bool true) true, .delete x (.index 0) true, .define x (.index 0) { value := some (.bool true) },
    .setMember (.object x) (.index 1) .null false]

/-- The heap holds no arrays. -/
def Heap.holdsNoArray (h : Heap) : Bool :=
  h.slots.all fun slot =>
    match slot.content with
    | some (.object o) =>
      match o.kind with
      | .array => false
      | _ => true
    | _ => true

/-- Where there are no arrays, their lengths are not shared. -/
theorem Heap.LengthsUnshared.of_holdsNoArray (hh : h.holdsNoArray = true) : h.LengthsUnshared length := by
  intro a obj c ha hkind
  have hslot := block?_eq_some.mp (object_eq_ok.mp ha)
  obtain ⟨hlt, hget⟩ := Array.getElem?_eq_some_iff.mp hslot
  have hall := Array.all_eq_true.mp hh a.handle.index hlt
  rw [hget] at hall
  simp [hkind] at hall

/-- The object can be made on the machine, on which there are no arrays, and the operations meet no accessor. -/
def frozenEditsFit (m : Machine) : Bool :=
  match Run.onHeap (frozenObject m.realm.objectPrototype) m with
  | .done x m₁ =>
    m₁.heap.holdsNoArray && (m₁.heap.isArray x).toOption == some false &&
      Edit.meetsNone (.string ⟨⟨0, 0⟩⟩) (frozenEdits x) m₁
  | _ => false

theorem Edit.Admissible.runNothing {engine : Engine} {a : ObjectRef} : ∀ {edits : List Edit} {m : Machine},
    Edit.Admissible engine a edits m → Edit.RunNothing engine edits m
  | [], _, _ => trivial
  | _ :: _, _, ⟨_, hnothing, hrest⟩ => ⟨hnothing, hrest.runNothing⟩

theorem keeps_built_frozenObject (prototype : ObjectRef) : Proc.Keeps Heap.Built (frozenObject prototype) :=
  .bind (Heap.keeps_built (.allocObject _ _ .ordinary) fun _ => rfl) fun x =>
    .bind (.discard (Heap.keeps_built (.define x _ _) fun _ => rfl)) fun _ =>
      .bind (Heap.keeps_built (.preventExtensions x) fun _ => rfl) fun _ => .pure x

/-- Such an object on a new machine. -/
theorem frozen_stays_frozen_null : ∃ (m m' : Machine) (x : ObjectRef), m.heap.Valid ∧
    m.heap.LengthsUnshared m.realm.names.length ∧ m.heap.isArray x = .ok false ∧
    Edit.RunNothing Edit.refusing (frozenEdits x) m ∧
    (frozenEdits x).foldl (fun m e => e.run Edit.refusing m) m = m' ∧
    (∀ key d, m.heap.ownProperty x key = .ok (some d) → d.configurable = false →
      ∃ d', m'.heap.ownProperty x key = .ok (some d') ∧ d.Endures d') ∧
    (m.heap.isExtensible x = .ok false → ∀ key c, m'.heap.ownCell x key = .ok (some c) →
      ∃ c₀, m.heap.ownCell x key = .ok (some c₀)) := by
  have hfit : (Machine.create .standard {} 0 true).toOption.any frozenEditsFit = true := by decide +kernel
  cases hm : Machine.create .standard {} 0 true with
  | error e => rw [hm] at hfit; cases hfit
  | ok m =>
    rw [hm] at hfit
    change frozenEditsFit m = true at hfit
    have hbuilt := keeps_built_frozenObject m.realm.objectPrototype m.heap (Machine.built_create hm)
    unfold frozenEditsFit Run.onHeap at hfit
    dsimp only at hfit
    cases hx : frozenObject m.realm.objectPrototype m.heap with
    | failed e h => rw [hx] at hfit; cases hfit
    | stalled => rw [hx] at hfit; cases hfit
    | done x h =>
      rw [hx] at hfit hbuilt
      dsimp only at hfit
      rw [Bool.and_eq_true, Bool.and_eq_true, beq_iff_eq] at hfit
      obtain ⟨⟨hnone, harray⟩, hmeets⟩ := hfit
      have hisArray : h.isArray x = .ok false := by
        cases ho : h.isArray x with
        | error e => rw [ho] at harray; cases harray
        | ok b => rw [ho] at harray; cases harray; rfl
      have hindex : ∀ i : UInt32, i.toNat < indexBound → (PropertyKey.index i).Produced := fun i hi =>
        .of_lt hi m Edit.refusing
      have hperm : ∀ e ∈ frozenEdits x, e.Permitted x (.string ⟨⟨0, 0⟩⟩) := by
        intro e he
        simp only [frozenEdits, List.mem_cons, List.not_mem_nil, or_false] at he
        rcases he with rfl | rfl | rfl | rfl
        · exact ⟨hindex 0 (by decide), fun _ => rfl⟩
        · exact hindex 0 (by decide)
        · exact ⟨hindex 0 (by decide), fun _ => nofun⟩
        · exact ⟨hindex 1 (by decide), fun _ => rfl⟩
      have hedits := (Edit.Admissible.of_meetsNone hperm hmeets).runNothing
      exact ⟨{ m with heap := h }, _, x, hbuilt.valid, .of_holdsNoArray hnone, hisArray, hedits, rfl,
        frozen_stays_frozen hbuilt.valid (.of_holdsNoArray hnone) hisArray hedits rfl⟩

end ScriptCore
